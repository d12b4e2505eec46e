import SlotPacking.Proofs.ModelTensors

/-!
Outcomes of checking tensors. A tensor holds a shape when this is the shape it
has, no dimension is zero and its values fill it. Parameters are accepted exactly
when every tensor holds the shape that is documented for it, and the first that
does not is reported; the values of an accepted tensor are read row by row.
-/
namespace SlotPacking
open Result
variable {α β γ : Type}

/-- A product of positive words taken factor by factor overflows exactly when it does not fit. -/
theorem Word.foldlM_mul {shape : List Nat} (hpos : 0 ∉ shape) {acc : Nat} (hacc : acc < bound) :
    shape.foldlM mul acc = mul acc shape.prod := by
  induction shape generalizing acc with
  | nil => rw [List.prod_nil, mul_of_lt (by rwa [Nat.mul_one]), Nat.mul_one]; rfl
  | cons d rest ih =>
    have hrest : 0 ∉ rest := fun h => hpos (List.mem_cons_of_mem d h)
    rw [List.foldlM_cons, List.prod_cons]
    by_cases hd : acc * d < bound
    · rw [mul_of_lt hd, ok_bind, ih hrest hd, mul, mul, Nat.mul_assoc]
    · have grows : acc * d ≤ acc * (d * rest.prod) := by
        rw [← Nat.mul_assoc]
        exact Nat.le_mul_of_pos_right _ (Nat.pos_of_ne_zero (mt List.prod_eq_zero_iff.mp hrest))
      rw [mul_of_ge (Nat.not_lt.mp hd), mul_of_ge ((Nat.not_lt.mp hd).trans grows)]
      rfl

namespace Matrix
variable {m : Matrix α} {rows cols : Nat} {data : Array α}

theorem exists_get {r c : Nat} (hr : r < m.rows) (hc : c < m.cols) :
    ∃ x, m.data[r * m.cols + c]? = some x ∧ m.get r c = .ok x := by
  have hi : r * m.cols + c < m.data.size := m.size_data ▸ flat_lt hr hc
  refine ⟨m.data[r * m.cols + c], Array.getElem?_eq_getElem hi, ?_⟩
  rw [get, if_pos ⟨hr, hc⟩, Array.getElem?_eq_getElem hi]

/-- The matrix has the given size, and its entries are the values row by row. -/
structure RowMajor (m : Matrix α) (rows cols : Nat) (data : Array α) : Prop where
  rows_eq : m.rows = rows
  cols_eq : m.cols = cols
  entry : ∀ r < rows, ∀ c < cols, ∃ x, data[r * cols + c]? = some x ∧ m.get r c = .ok x

theorem rowMajor (hr : m.rows = rows) (hc : m.cols = cols) (hd : m.data = data) :
    m.RowMajor rows cols data := by
  subst hr hc hd
  exact ⟨rfl, rfl, fun _ hr _ hc => exists_get hr hc⟩

end Matrix

namespace Tensor
variable {t : Tensor α} {rows cols length : Nat}

/-- The tensor has the given shape, of positive dimensions, and one value for each place in it. -/
structure Holds (t : Tensor α) (shape : List Nat) : Prop where
  shape_eq : t.shape = shape
  pos : ∀ d ∈ shape, 0 < d
  size_eq : t.data.size = shape.prod

theorem volume_eq_prod (shape : List Nat) : volume shape = shape.prod := by
  rw [volume, List.prod_eq_foldl]

theorem holds_of_check {shape : List Nat} (h : t.check = .ok ()) (hs : t.shape = shape) :
    t.Holds shape := by
  obtain ⟨-, hpos, -, hsize⟩ := check_eq_ok.mp h
  subst hs
  exact ⟨rfl, fun d hd => Nat.pos_of_ne_zero fun h0 => hpos (h0 ▸ hd),
    hsize.symm.trans (volume_eq_prod t.shape)⟩

theorem holds_of_toVector {v : Array α} (h : t.toVector length = .ok v) :
    t.Holds [length] ∧ v = t.data := by
  obtain ⟨hcheck, hs, hv⟩ := toVector_eq_ok.mp h
  exact ⟨holds_of_check hcheck hs, hv⟩

theorem holds_of_toMatrix {m : Matrix α} (h : t.toMatrix rows cols = .ok m) :
    t.Holds [rows, cols] ∧ m.RowMajor rows cols t.data := by
  obtain ⟨hcheck, hs, hr, hc, hd⟩ := toMatrix_eq_ok.mp h
  exact ⟨holds_of_check hcheck hs, Matrix.rowMajor hr hc hd⟩

/-- The kernel that a tensor of weights describes, and the weights with a row for each channel. -/
def toKernel (t : Tensor α) : Except TensorFault (Kernel × Matrix α) := do
  t.check
  match Model.kernel? t.shape with
  | some kernel =>
    let weights ← t.fill kernel.outChannels (kernel.height * kernel.width)
    return (kernel, weights)
  | none => .error (.unsupportedShape t.shape)

theorem toKernel_eq_ok {kernel : Kernel} {weights : Matrix α} :
    t.toKernel = .ok (kernel, weights) ↔ t.check = .ok () ∧
      Model.kernel? t.shape = some kernel ∧
      t.fill kernel.outChannels (kernel.height * kernel.width) = .ok weights := by
  simp only [toKernel, bind_eq_ok]
  constructor
  · rintro ⟨_, hcheck, h⟩
    split at h
    next k hk =>
      obtain ⟨w, hw, h⟩ := bind_eq_ok.mp h
      obtain ⟨rfl, rfl⟩ := Prod.mk.inj (Except.ok.inj h)
      exact ⟨hcheck, hk, hw⟩
    next => cases h
  · rintro ⟨hcheck, hk, hw⟩
    exact ⟨(), hcheck, by simp only [hk, hw]; rfl⟩

section Addressable
variable (ht : t.data.size < Word.bound)
include ht

theorem Holds.check {shape : List Nat} (h : t.Holds shape) (hne : shape ≠ []) :
    t.check = .ok () := by
  obtain ⟨rfl, hpos, hs⟩ := h
  have volume_eq := volume_eq_prod t.shape
  exact check_eq_ok.mpr ⟨hne, fun h0 => Nat.lt_irrefl 0 (hpos 0 h0), by omega, by omega⟩

theorem fill_succeeds (hs : t.data.size = rows * cols) : ∃ m, t.fill rows cols = .ok m :=
  ⟨⟨rows, cols, t.data, hs, hs ▸ ht⟩, fill_eq_ok.mpr ⟨rfl, rfl, rfl⟩⟩

theorem toVector_accepts : (∃ v, t.toVector length = .ok v) ↔ t.Holds [length] := by
  constructor
  · rintro ⟨v, h⟩
    exact (holds_of_toVector h).1
  · intro h
    exact ⟨t.data, toVector_eq_ok.mpr ⟨h.check ht (by simp), h.shape_eq, rfl⟩⟩

theorem toMatrix_accepts : (∃ m, t.toMatrix rows cols = .ok m) ↔ t.Holds [rows, cols] := by
  constructor
  · rintro ⟨m, h⟩
    exact (holds_of_toMatrix h).1
  · intro h
    have hs : t.data.size = rows * cols := h.size_eq.trans (by simp)
    obtain ⟨m, hm⟩ := fill_succeeds ht hs
    exact ⟨m, toMatrix_eq_ok.mpr ⟨h.check ht (by simp), h.shape_eq, fill_eq_ok.mp hm⟩⟩

theorem toKernel_accepts : (∃ k, t.toKernel = .ok k) ↔
    ∃ o h w, t.Holds [o, h, w] ∨ t.Holds [o, 1, h, w] := by
  constructor
  · rintro ⟨⟨kernel, weights⟩, h⟩
    obtain ⟨hcheck, hk, -⟩ := toKernel_eq_ok.mp h
    refine ⟨kernel.outChannels, kernel.height, kernel.width, ?_⟩
    exact (Model.kernel?_eq_some.mp hk).imp (holds_of_check hcheck) (holds_of_check hcheck)
  · rintro ⟨o, h, w, hholds⟩
    have hk : Model.kernel? t.shape = some ⟨o, h, w⟩ :=
      Model.kernel?_eq_some.mpr (hholds.imp Holds.shape_eq Holds.shape_eq)
    have hcheck : t.check = .ok () :=
      hholds.elim (fun h => h.check ht (by simp)) (fun h => h.check ht (by simp))
    have hs : t.data.size = o * (h * w) :=
      hholds.elim (fun h => h.size_eq.trans (by simp)) (fun h => h.size_eq.trans (by simp))
    obtain ⟨weights, hw⟩ := fill_succeeds ht hs
    exact ⟨(⟨o, h, w⟩, weights), toKernel_eq_ok.mpr ⟨hcheck, hk, hw⟩⟩

end Addressable
end Tensor

/-- The requirement of the given name is the first in a list that is not met. -/
inductive FirstUnmet : List (String × Prop) → String → Prop
  | here {name : String} {P : Prop} {rest : List (String × Prop)} (h : ¬P) :
    FirstUnmet ((name, P) :: rest) name
  | later {name other : String} {P : Prop} {rest : List (String × Prop)} (h : P)
    (hrest : FirstUnmet rest name) : FirstUnmet ((other, P) :: rest) name

/-- A check gives a value when all requirements are met, and otherwise reports the tensor of the
first that is not. -/
structure Demands (requirements : List (String × Prop)) (step : Except LoadReason γ) : Prop where
  accepts : (∀ r ∈ requirements, r.2) → ∃ c, step = .ok c
  refuses : ¬(∀ r ∈ requirements, r.2) → ∃ name fault, step = .error (.tensor name fault) ∧
    FirstUnmet requirements name

namespace Demands
variable {requirements : List (String × Prop)}

theorem nothing (c : γ) : Demands [] (.ok c) :=
  ⟨fun _ => ⟨c, rfl⟩, fun h => absurd (by simp) h⟩

/-- A step about one tensor, before a check of the tensors that follow. -/
theorem bind {name : String} {P : Prop} {step : Except TensorFault β}
    {next : β → Except LoadReason γ} (accepts : (∃ b, step = .ok b) ↔ P)
    (hnext : ∀ b, step = .ok b → Demands requirements (next b)) :
    Demands ((name, P) :: requirements) (Model.about name step >>= next) := by
  cases hstep : step with
  | ok b =>
    have hP : P := accepts.mp ⟨b, hstep⟩
    obtain ⟨haccepts, hrefuses⟩ := hnext b hstep
    refine ⟨fun h => haccepts fun r hr => h r (List.mem_cons_of_mem _ hr), fun h => ?_⟩
    obtain ⟨other, fault, hfault, hfirst⟩ := hrefuses fun hall => h (by simpa [hP] using hall)
    exact ⟨other, fault, hfault, .later hP hfirst⟩
  | error fault =>
    have hP : ¬P := fun hP => by
      obtain ⟨b, hb⟩ := accepts.mpr hP
      cases hb.symm.trans hstep
    exact ⟨fun h => absurd (h _ List.mem_cons_self) hP, fun _ => ⟨name, fault, rfl, .here hP⟩⟩

end Demands

namespace ModelTensors

/-- The number of values of every tensor is a word. -/
structure Addressable (t : ModelTensors (Tensor α)) : Prop where
  conv1Weight : t.conv1Weight.data.size < Word.bound
  conv1Bias : t.conv1Bias.data.size < Word.bound
  fc1Weight : t.fc1Weight.data.size < Word.bound
  fc1Bias : t.fc1Bias.data.size < Word.bound
  fc2Weight : t.fc2Weight.data.size < Word.bound
  fc2Bias : t.fc2Bias.data.size < Word.bound

/-- The tensors hold the documented shapes for kernels of one size. -/
structure Documented (t : ModelTensors (Tensor α)) (channels height width : Nat) : Prop where
  conv1Weight : t.conv1Weight.Holds [channels, height, width] ∨
    t.conv1Weight.Holds [channels, 1, height, width]
  conv1Bias : t.conv1Bias.Holds [channels]
  fc1Weight : t.fc1Weight.Holds [256, 64]
  fc1Bias : t.fc1Bias.Holds [64]
  fc2Weight : t.fc2Weight.Holds [64, 10]
  fc2Bias : t.fc2Bias.Holds [10]

/-- What is required of each tensor, in the order of their declaration. The biases of the
convolution are as many as the first dimension of its weights. -/
def requirements (t : ModelTensors (Tensor α)) : List (String × Prop) := [
  ("conv1_weight", ∃ o h w, t.conv1Weight.Holds [o, h, w] ∨ t.conv1Weight.Holds [o, 1, h, w]),
  ("conv1_bias", t.conv1Bias.Holds [t.conv1Weight.shape.headD 0]),
  ("fc1_weight", t.fc1Weight.Holds [256, 64]),
  ("fc1_bias", t.fc1Bias.Holds [64]),
  ("fc2_weight", t.fc2Weight.Holds [64, 10]),
  ("fc2_bias", t.fc2Bias.Holds [10])]

theorem headD_eq {shape : List Nat} {o h w : Nat} (hs : shape = [o, h, w] ∨ shape = [o, 1, h, w]) :
    shape.headD 0 = o := by
  rcases hs with rfl | rfl
  · rfl
  · rfl

theorem requirements_met {t : ModelTensors (Tensor α)} :
    (∀ r ∈ t.requirements, r.2) ↔ ∃ o h w, t.Documented o h w := by
  simp only [requirements, List.forall_mem_cons, List.not_mem_nil, false_implies, implies_true,
    and_true]
  constructor
  · rintro ⟨⟨o, h, w, hw⟩, hb, h1w, h1b, h2w, h2b⟩
    rw [headD_eq (hw.imp Tensor.Holds.shape_eq Tensor.Holds.shape_eq)] at hb
    exact ⟨o, h, w, hw, hb, h1w, h1b, h2w, h2b⟩
  · rintro ⟨o, h, w, hw, hb, h1w, h1b, h2w, h2b⟩
    rw [← headD_eq (hw.imp Tensor.Holds.shape_eq Tensor.Holds.shape_eq)] at hb
    exact ⟨⟨o, h, w, hw⟩, hb, h1w, h1b, h2w, h2b⟩

end ModelTensors

namespace Model
variable {t : ModelTensors (Tensor α)} {model : Model α}

/-- The parameters are checked tensor by tensor. -/
theorem ofTensors_eq (t : ModelTensors (Tensor α)) : ofTensors t = (do
    let (kernel, convWeight) ← about "conv1_weight" t.conv1Weight.toKernel
    let convBias ← about "conv1_bias" (t.conv1Bias.toVector kernel.outChannels)
    let fc1Weight ← about "fc1_weight" (t.fc1Weight.toMatrix 256 64)
    let fc1Bias ← about "fc1_bias" (t.fc1Bias.toVector 64)
    let fc2Weight ← about "fc2_weight" (t.fc2Weight.toMatrix 64 10)
    let fc2Bias ← about "fc2_bias" (t.fc2Bias.toVector 10)
    return ⟨kernel, convWeight, convBias, fc1Weight, fc1Bias, fc2Weight, fc2Bias⟩) := by
  unfold ofTensors Tensor.toKernel
  cases t.conv1Weight.check with
  | error fault => rfl
  | ok =>
    cases kernel? t.conv1Weight.shape with
    | none => rfl
    | some kernel =>
      dsimp only [bind, Except.bind]
      cases t.conv1Weight.fill kernel.outChannels (kernel.height * kernel.width) with
      | error fault => rfl
      | ok weights => rfl

theorem ofTensors_demands (ht : t.Addressable) : Demands t.requirements (ofTensors t) := by
  rw [ofTensors_eq]
  refine .bind (Tensor.toKernel_accepts ht.conv1Weight) fun ⟨kernel, weights⟩ hk => ?_
  obtain ⟨-, hkernel, -⟩ := Tensor.toKernel_eq_ok.mp hk
  have hhead := ModelTensors.headD_eq (kernel?_eq_some.mp hkernel)
  refine .bind (hhead ▸ Tensor.toVector_accepts ht.conv1Bias) fun _ _ => ?_
  refine .bind (Tensor.toMatrix_accepts ht.fc1Weight) fun _ _ => ?_
  refine .bind (Tensor.toVector_accepts ht.fc1Bias) fun _ _ => ?_
  refine .bind (Tensor.toMatrix_accepts ht.fc2Weight) fun _ _ => ?_
  exact .bind (Tensor.toVector_accepts ht.fc2Bias) fun _ _ => .nothing _

/-- The parts of a model are the values of its tensors, row by row; the weights of a channel are
the rows of its kernel, one after another. -/
structure ReadFrom (model : Model α) (t : ModelTensors (Tensor α)) : Prop where
  documented : t.Documented model.kernel.outChannels model.kernel.height model.kernel.width
  convRows : model.convWeight.rows = model.kernel.outChannels
  convCols : model.convWeight.cols = model.kernel.height * model.kernel.width
  convWeight : ∀ c < model.kernel.outChannels, ∀ r < model.kernel.height,
    ∀ k < model.kernel.width, ∃ x,
      t.conv1Weight.data[(c * model.kernel.height + r) * model.kernel.width + k]? = some x ∧
        model.convWeight.get c (r * model.kernel.width + k) = .ok x
  convBias : model.convBias = t.conv1Bias.data
  fc1Weight : model.fc1Weight.RowMajor 256 64 t.fc1Weight.data
  fc1Bias : model.fc1Bias = t.fc1Bias.data
  fc2Weight : model.fc2Weight.RowMajor 64 10 t.fc2Weight.data
  fc2Bias : model.fc2Bias = t.fc2Bias.data

theorem readFrom_of_ofTensors (h : ofTensors t = .ok model) : model.ReadFrom t := by
  obtain ⟨hcheck, hkernel, hw, hb, h1w, h1b, h2w, h2b⟩ := ofTensors_eq_ok.mp h
  obtain ⟨hrows, hcols, hdata⟩ := Tensor.fill_eq_ok.mp hw
  obtain ⟨hb, hbias⟩ := Tensor.holds_of_toVector hb
  obtain ⟨h1w, h1weight⟩ := Tensor.holds_of_toMatrix h1w
  obtain ⟨h1b, h1bias⟩ := Tensor.holds_of_toVector h1b
  obtain ⟨h2w, h2weight⟩ := Tensor.holds_of_toMatrix h2w
  obtain ⟨h2b, h2bias⟩ := Tensor.holds_of_toVector h2b
  refine ⟨⟨?_, hb, h1w, h1b, h2w, h2b⟩, hrows, hcols, fun c hc r hr k hk => ?_, hbias, h1weight,
    h1bias, h2weight, h2bias⟩
  · exact (kernel?_eq_some.mp hkernel).imp (Tensor.holds_of_check hcheck)
      (Tensor.holds_of_check hcheck)
  · obtain ⟨x, hx, hget⟩ := Matrix.exists_get (hrows ▸ hc) (hcols ▸ Matrix.flat_lt hr hk)
    refine ⟨x, ?_, hget⟩
    -- Row `c` of the weights starts at `c * (height * width)`, which is row `c * height` of kernels.
    rwa [hdata, hcols, ← Nat.add_assoc, ← Nat.mul_assoc, ← Nat.add_mul] at hx

/-- The dimension of the single input channel makes no difference. -/
theorem ofTensors_layouts (t : ModelTensors (Tensor α)) (o h w : Nat) (data : Array α) :
    ofTensors { t with conv1Weight := ⟨[o, 1, h, w], data⟩ } = .ok model ↔
      ofTensors { t with conv1Weight := ⟨[o, h, w], data⟩ } = .ok model := by
  have check : (⟨[o, 1, h, w], data⟩ : Tensor α).check = .ok () ↔
      (⟨[o, h, w], data⟩ : Tensor α).check = .ok () := by
    simp [Tensor.check_eq_ok, Tensor.volume_eq_prod]
  rw [ofTensors_eq_ok, ofTensors_eq_ok, check, Tensor.fill_eq_ok, Tensor.fill_eq_ok]
  rfl

/-- The taps of a checked kernel are counted without overflow. -/
theorem taps_of_check {s : Tensor α} {kernel : Kernel} (hcheck : s.check = .ok ())
    (hkernel : kernel? s.shape = some kernel) :
    kernel.taps = .ok (kernel.height * kernel.width) := by
  obtain ⟨-, hpos, hbound, -⟩ := Tensor.check_eq_ok.mp hcheck
  have hout : 0 < kernel.outChannels :=
    Nat.pos_of_ne_zero fun h0 => hpos (h0 ▸ (kernel?_mem hkernel).1)
  have hvolume : Tensor.volume s.shape = kernel.outChannels * (kernel.height * kernel.width) := by
    rcases kernel?_eq_some.mp hkernel with hs | hs
    · simp [hs, Tensor.volume_eq_prod]
    · simp [hs, Tensor.volume_eq_prod]
  exact Word.mul_of_lt ((Nat.le_mul_of_pos_left _ hout).trans_lt (hvolume ▸ hbound))

end Model

section Image
variable {t : Tensor α} {image : Matrix α}

theorem imageOfTensor_eq_ok : imageOfTensor t = .ok image ↔ t.check = .ok () ∧
    t.shape = [image.rows, image.cols] ∧ image.data = t.data := by
  simp only [imageOfTensor, bind_eq_ok, Model.about_eq_ok]
  constructor
  · rintro ⟨_, hcheck, h⟩
    split at h
    next rows cols hs =>
      obtain ⟨rfl, rfl, hd⟩ := Tensor.fill_eq_ok.mp (Model.about_eq_ok.mp h)
      exact ⟨hcheck, hs, hd⟩
    next => cases h
  · rintro ⟨hcheck, hs, hd⟩
    refine ⟨(), hcheck, ?_⟩
    simp only [hs]
    exact Model.about_eq_ok.mpr (Tensor.fill_eq_ok.mpr ⟨rfl, rfl, hd⟩)

theorem imageOfTensor_accepts (ht : t.data.size < Word.bound) :
    (∃ image, imageOfTensor t = .ok image) ↔ ∃ rows cols, t.Holds [rows, cols] := by
  constructor
  · rintro ⟨image, h⟩
    obtain ⟨hcheck, hs, -⟩ := imageOfTensor_eq_ok.mp h
    exact ⟨_, _, Tensor.holds_of_check hcheck hs⟩
  · rintro ⟨rows, cols, h⟩
    obtain ⟨image, himage⟩ := (Tensor.toMatrix_accepts ht).mpr h
    obtain ⟨hcheck, hs, rfl, rfl, hd⟩ := Tensor.toMatrix_eq_ok.mp himage
    exact ⟨image, imageOfTensor_eq_ok.mpr ⟨hcheck, hs, hd⟩⟩

theorem rowMajor_of_imageOfTensor (h : imageOfTensor t = .ok image) :
    t.Holds [image.rows, image.cols] ∧ image.RowMajor image.rows image.cols t.data := by
  obtain ⟨hcheck, hs, hd⟩ := imageOfTensor_eq_ok.mp h
  exact ⟨Tensor.holds_of_check hcheck hs, Matrix.rowMajor rfl rfl hd⟩

end Image

theorem load_of_readText {read : Json.Reader α} {check : α → Except LoadReason β}
    {origin text : String} {x : α} (h : Json.readText read text = .ok x) :
    load read check origin text = (check x).mapError fun reason => ⟨origin, reason⟩ := by
  simp only [load, h]

namespace Model

/-- Parameters are accepted exactly when all tensors hold their documented shapes, and are the
values of the tensors in row-major order; otherwise the first tensor that does not hold its shape is
reported. A single input channel may be named or not. No product on the way overflows unnoticed, and
an image is accepted exactly when its tensor holds a shape of two dimensions. -/
theorem ofTensors_outcome (t : ModelTensors (Tensor α)) (ht : t.Addressable) :
    ((∃ model, ofTensors t = .ok model) ↔ ∃ o h w, t.Documented o h w) ∧
    (∀ reason, ofTensors t = .error reason →
      ∃ name fault, reason = .tensor name fault ∧ FirstUnmet t.requirements name) ∧
    (∀ model, ofTensors t = .ok model → model.ReadFrom t) ∧
    (∀ o h w data model, ofTensors { t with conv1Weight := ⟨[o, 1, h, w], data⟩ } = .ok model ↔
      ofTensors { t with conv1Weight := ⟨[o, h, w], data⟩ } = .ok model) ∧
    (∀ shape : List Nat, 0 ∉ shape → shape.foldlM Word.mul 1 =
      if Tensor.volume shape < Word.bound then .ok (Tensor.volume shape) else faulty .overflow) ∧
    (∀ (s : Tensor α) kernel, s.check = .ok () → kernel? s.shape = some kernel →
      kernel.taps = .ok (kernel.height * kernel.width)) ∧
    (∀ s : Tensor α, s.data.size < Word.bound →
      ((∃ image, imageOfTensor s = .ok image) ↔ ∃ rows cols, s.Holds [rows, cols]) ∧
      ∀ image, imageOfTensor s = .ok image →
        s.Holds [image.rows, image.cols] ∧ image.RowMajor image.rows image.cols s.data) ∧
    ∀ origin text : String,
      (∀ raw, Json.readText Json.readModelTensors text = .ok raw →
        loadModel origin text = (ofTensors raw).mapError fun reason => ⟨origin, reason⟩) ∧
      ∀ raw, Json.readText Json.readTensor text = .ok raw →
        loadImage origin text = (imageOfTensor raw).mapError fun reason => ⟨origin, reason⟩ := by
  have demands := ofTensors_demands ht
  rw [ModelTensors.requirements_met.symm]
  refine ⟨⟨fun ⟨model, h⟩ => ?_, demands.accepts⟩, fun reason h => ?_,
    fun model => readFrom_of_ofTensors, fun o h w data model => ofTensors_layouts t o h w data,
    fun shape hpos => ?_, fun s kernel => taps_of_check, fun s hs =>
      ⟨imageOfTensor_accepts hs, fun image => rowMajor_of_imageOfTensor⟩,
    fun origin text => ⟨fun raw => load_of_readText, fun raw => load_of_readText⟩⟩
  · by_contra unmet
    obtain ⟨name, fault, hfault, -⟩ := demands.refuses unmet
    cases hfault.symm.trans h
  · have unmet : ¬∀ r ∈ t.requirements, r.2 := fun hall => by
      obtain ⟨model, hmodel⟩ := demands.accepts hall
      cases hmodel.symm.trans h
    obtain ⟨name, fault, hfault, hfirst⟩ := demands.refuses unmet
    exact ⟨name, fault, Except.error.inj (h.symm.trans hfault), hfirst⟩
  · rw [Tensor.volume_eq_prod, Word.foldlM_mul hpos (by decide), Word.mul, Nat.one_mul]

/-- Two kernels of three taps are accepted. Of two tensors with wrong shapes the first is blamed. -/
theorem ofTensors_outcome_of_sevens :
    let t := constantTensors ⟨2, 3, 1⟩ (7 : Int)
    (∃ model, ofTensors t = .ok model ∧ model.convWeight.get 1 2 = .ok 7) ∧
    ∃ fault, ofTensors { t with fc1Weight := ⟨[256, 64, 0], #[]⟩, fc2Bias := ⟨[2 ^ 63, 4], #[]⟩ } =
      .error (.tensor "fc1_weight" fault) := by
  intro t
  have holds (shape : List Nat) (h : ∀ d ∈ shape, 0 < d) :
      (Tensor.constant shape (7 : Int)).Holds shape :=
    ⟨rfl, h, Array.size_replicate.trans (Tensor.volume_eq_prod shape)⟩
  have addressable (shape : List Nat) (h : Tensor.volume shape < Word.bound) :
      (Tensor.constant shape (7 : Int)).data.size < Word.bound := Array.size_replicate.trans_lt h
  have documented : t.Documented 2 3 1 := ⟨.inl (holds _ (by decide)), holds _ (by decide),
    holds _ (by decide), holds _ (by decide), holds _ (by decide), holds _ (by decide)⟩
  have fits : t.Addressable := ⟨addressable _ (by decide), addressable _ (by decide),
    addressable _ (by decide), addressable _ (by decide), addressable _ (by decide),
    addressable _ (by decide)⟩
  constructor
  · obtain ⟨accepts, -, contents, -⟩ := ofTensors_outcome t fits
    obtain ⟨model, hmodel⟩ := accepts.mpr ⟨2, 3, 1, documented⟩
    obtain ⟨shapes, -, -, entry, -⟩ := contents model hmodel
    have dims : [2, 3, 1] = [model.kernel.outChannels, model.kernel.height, model.kernel.width] :=
      (shapes.conv1Weight.resolve_right fun h => absurd h.shape_eq (by simp [t, constantTensors,
        Tensor.constant])).shape_eq
    simp only [List.cons.injEq, and_true] at dims
    obtain ⟨ho, hh, hw⟩ := dims
    obtain ⟨x, hx, hget⟩ := entry 1 (by omega) 2 (by omega) 0 (by omega)
    rw [← hh, ← hw] at hx
    rw [← hw] at hget
    obtain rfl : 7 = x := Option.some.inj hx
    exact ⟨model, hmodel, hget⟩
  · let wrong : ModelTensors (Tensor Int) :=
      { t with fc1Weight := ⟨[256, 64, 0], #[]⟩, fc2Bias := ⟨[2 ^ 63, 4], #[]⟩ }
    obtain ⟨accepts, refuses, -⟩ := ofTensors_outcome wrong
      { fits with fc1Weight := by decide, fc2Bias := by decide }
    cases h : ofTensors wrong with
    | ok model =>
      obtain ⟨_, _, _, hd⟩ := accepts.mp ⟨model, h⟩
      exact absurd hd.fc1Weight.shape_eq (by decide)
    | error reason =>
      obtain ⟨name, fault, rfl, first⟩ := refuses reason h
      refine ⟨fault, ?_⟩
      cases first with
      | here unmet => exact absurd ⟨2, 3, 1, documented.conv1Weight⟩ unmet
      | later _ first =>
        cases first with
        | here unmet => exact absurd documented.conv1Bias unmet
        | later _ first =>
          cases first with
          | here => rfl
          | later met => exact absurd met.shape_eq (by decide)

end Model
end SlotPacking
