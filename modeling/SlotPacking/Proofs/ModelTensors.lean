import SlotPacking.Model
import SlotPacking.Proofs.MatrixEntries

/-!
Accepted tensors. A tensor is accepted when its shape is the one asked for and
its values fill the shape, so every part of an accepted model has the size that
the layers work with.
-/
namespace SlotPacking
open Result
variable {α : Type}

namespace Tensor
variable {t : Tensor α} {rows cols length : Nat} {m : Matrix α} {v : Array α}

theorem check_eq_ok : t.check = .ok () ↔ t.shape ≠ [] ∧ 0 ∉ t.shape ∧
    volume t.shape < Word.bound ∧ volume t.shape = t.data.size := by
  unfold check
  split
  next h => simp; tauto
  next h =>
    split
    next hv => simp; omega
    next hv =>
      split
      next hs => simp [hs]
      next hs => simp only [true_iff]; exact ⟨by tauto, by tauto, by omega, by omega⟩

theorem fill_eq_ok : t.fill rows cols = .ok m ↔
    m.rows = rows ∧ m.cols = cols ∧ m.data = t.data := by
  constructor
  · intro h
    unfold fill Matrix.ofArray? at h
    split at h
    next q hq =>
      split at hq
      next =>
        obtain rfl := Option.some.inj hq
        obtain rfl := Except.ok.inj h
        exact ⟨rfl, rfl, rfl⟩
      next => cases hq
    next => cases h
  · rintro ⟨rfl, rfl, hd⟩
    have hs : m.data.size = m.rows * m.cols ∧ m.rows * m.cols < Word.bound :=
      ⟨m.size_data, m.addressable⟩
    simp only [fill, Matrix.ofArray?, ← hd, dif_pos hs]

theorem toMatrix_eq_ok : t.toMatrix rows cols = .ok m ↔ t.check = .ok () ∧
    t.shape = [rows, cols] ∧ m.rows = rows ∧ m.cols = cols ∧ m.data = t.data := by
  simp only [toMatrix, bind_eq_ok]
  constructor
  · rintro ⟨_, hc, h⟩
    split at h
    next hs => exact ⟨hc, hs, fill_eq_ok.mp h⟩
    next => cases h
  · rintro ⟨hc, hs, h⟩
    exact ⟨(), hc, by rw [if_pos hs]; exact fill_eq_ok.mpr h⟩

theorem toVector_eq_ok : t.toVector length = .ok v ↔
    t.check = .ok () ∧ t.shape = [length] ∧ v = t.data := by
  simp only [toVector, bind_eq_ok]
  constructor
  · rintro ⟨_, hc, h⟩
    split at h
    next hs => exact ⟨hc, hs, (Except.ok.inj h).symm⟩
    next => cases h
  · rintro ⟨hc, hs, rfl⟩
    exact ⟨(), hc, if_pos hs⟩

theorem size_of_toVector (h : t.toVector length = .ok v) : v.size = length := by
  obtain ⟨hc, hs, rfl⟩ := toVector_eq_ok.mp h
  obtain ⟨-, -, -, hv⟩ := check_eq_ok.mp hc
  rw [← hv, hs]
  simp [volume]

/-- A matrix with entries is accepted in the form that it is stored in. -/
theorem stored_toMatrix (hr : m.rows = rows) (hc : m.cols = cols) (hr0 : 0 < rows)
    (hc0 : 0 < cols) : (⟨[rows, cols], m.data⟩ : Tensor α).toMatrix rows cols = .ok m := by
  subst hr hc
  have volume_eq : volume [m.rows, m.cols] = m.rows * m.cols := by simp [volume]
  refine toMatrix_eq_ok.mpr ⟨check_eq_ok.mpr ⟨by simp, by simp; omega, ?_, ?_⟩, rfl, rfl, rfl, rfl⟩
  · exact volume_eq.trans_lt m.addressable
  · exact volume_eq.trans m.size_data.symm

theorem stored_toVector (hs : v.size = length) (h0 : 0 < length) (hb : length < Word.bound) :
    (⟨[length], v⟩ : Tensor α).toVector length = .ok v := by
  have volume_eq : volume [length] = length := by simp [volume]
  exact toVector_eq_ok.mpr ⟨check_eq_ok.mpr ⟨by simp, by simp; omega, volume_eq.trans_lt hb,
    volume_eq.trans hs.symm⟩, rfl, rfl⟩

/-- A tensor with one value everywhere. -/
def constant (shape : List Nat) (x : α) : Tensor α :=
  ⟨shape, Array.replicate (volume shape) x⟩

theorem constant_check {shape : List Nat} (x : α) (hne : shape ≠ []) (hpos : 0 ∉ shape)
    (hv : volume shape < Word.bound) : (constant shape x).check = .ok () :=
  check_eq_ok.mpr ⟨hne, hpos, hv, Array.size_replicate.symm⟩

theorem constant_fill {shape : List Nat} (x : α) (hs : volume shape = rows * cols)
    (hv : rows * cols < Word.bound) : ∃ m, (constant shape x).fill rows cols = .ok m :=
  ⟨⟨rows, cols, Array.replicate (volume shape) x, Array.size_replicate.trans hs, hv⟩,
    fill_eq_ok.mpr ⟨rfl, rfl, rfl⟩⟩

theorem constant_toMatrix (x : α) (hr : 0 < rows) (hc : 0 < cols)
    (hv : rows * cols < Word.bound) :
    ∃ m, (constant [rows, cols] x).toMatrix rows cols = .ok m := by
  have volume_eq : volume [rows, cols] = rows * cols := by simp [volume]
  let m : Matrix α := ⟨rows, cols, Array.replicate (volume [rows, cols]) x,
    Array.size_replicate.trans volume_eq, hv⟩
  have stored : (⟨[rows, cols], m.data⟩ : Tensor α).toMatrix rows cols = .ok m :=
    stored_toMatrix rfl rfl hr hc
  exact ⟨m, stored⟩

theorem constant_toVector (x : α) (hl : 0 < length) (hv : length < Word.bound) :
    ∃ v, (constant [length] x).toVector length = .ok v := by
  have volume_eq : volume [length] = length := by simp [volume]
  exact ⟨_, stored_toVector (Array.size_replicate.trans volume_eq) hl hv⟩

end Tensor

namespace Model
variable {t : ModelTensors (Tensor α)} {model : Model α}

theorem about_eq_ok {β : Type} {name : String} {step : Except TensorFault β} {x : β} :
    about name step = .ok x ↔ step = .ok x := by
  cases step <;> simp [about, Except.mapError]

theorem ofTensors_eq_ok : ofTensors t = .ok model ↔
    t.conv1Weight.check = .ok () ∧ kernel? t.conv1Weight.shape = some model.kernel ∧
    t.conv1Weight.fill model.kernel.outChannels (model.kernel.height * model.kernel.width) =
      .ok model.convWeight ∧
    t.conv1Bias.toVector model.kernel.outChannels = .ok model.convBias ∧
    t.fc1Weight.toMatrix 256 64 = .ok model.fc1Weight ∧ t.fc1Bias.toVector 64 = .ok model.fc1Bias ∧
    t.fc2Weight.toMatrix 64 10 = .ok model.fc2Weight ∧
    t.fc2Bias.toVector 10 = .ok model.fc2Bias := by
  unfold ofTensors
  cases hkernel : kernel? t.conv1Weight.shape with
  | none =>
    simp only [bind_eq_ok]
    constructor
    · rintro ⟨_, _, _, h, _⟩
      cases h
    · rintro ⟨_, h, _⟩
      cases h
  | some kernel =>
    simp only [bind_eq_ok, about_eq_ok, Except.ok.injEq, Option.some.injEq]
    constructor
    · rintro ⟨_, hcheck, _, rfl, _, hw, _, hb, _, h1w, _, h1b, _, h2w, _, h2b, h⟩
      obtain rfl := Except.ok.inj h
      exact ⟨hcheck, rfl, hw, hb, h1w, h1b, h2w, h2b⟩
    · rintro ⟨hcheck, rfl, hw, hb, h1w, h1b, h2w, h2b⟩
      exact ⟨(), hcheck, _, rfl, _, hw, _, hb, _, h1w, _, h1b, _, h2w, _, h2b, rfl⟩

/-- Every part of the model has the size that its layer works with. -/
structure Sized (model : Model α) : Prop where
  channels : model.convWeight.rows = model.kernel.outChannels
  taps : model.convWeight.cols = model.kernel.height * model.kernel.width
  convBias : model.convBias.size = model.kernel.outChannels
  outChannels_pos : 0 < model.kernel.outChannels
  fc1Rows : model.fc1Weight.rows = 256
  fc1Cols : model.fc1Weight.cols = 64
  fc1Bias : model.fc1Bias.size = 64
  fc2Rows : model.fc2Weight.rows = 64
  fc2Cols : model.fc2Weight.cols = 10
  fc2Bias : model.fc2Bias.size = 10

theorem kernel?_eq_some {shape : List Nat} {kernel : Kernel} : kernel? shape = some kernel ↔
    shape = [kernel.outChannels, kernel.height, kernel.width] ∨
      shape = [kernel.outChannels, 1, kernel.height, kernel.width] := by
  constructor
  · intro h
    unfold kernel? at h
    split at h
    next => obtain rfl := Option.some.inj h; exact .inl rfl
    next => obtain rfl := Option.some.inj h; exact .inr rfl
    next => cases h
  · rintro (rfl | rfl)
    · rfl
    · rfl

theorem kernel?_mem {shape : List Nat} {kernel : Kernel} (h : kernel? shape = some kernel) :
    kernel.outChannels ∈ shape ∧ kernel.height ∈ shape ∧ kernel.width ∈ shape := by
  rcases kernel?_eq_some.mp h with rfl | rfl
  · simp
  · simp

theorem ofTensors_sized (h : ofTensors t = .ok model) : model.Sized := by
  obtain ⟨hcheck, hkernel, hw, hb, h1w, h1b, h2w, h2b⟩ := ofTensors_eq_ok.mp h
  obtain ⟨-, hpos, -⟩ := Tensor.check_eq_ok.mp hcheck
  obtain ⟨hr, hc, -⟩ := Tensor.fill_eq_ok.mp hw
  obtain ⟨-, -, h1r, h1c, -⟩ := Tensor.toMatrix_eq_ok.mp h1w
  obtain ⟨-, -, h2r, h2c, -⟩ := Tensor.toMatrix_eq_ok.mp h2w
  exact ⟨hr, hc, Tensor.size_of_toVector hb,
    Nat.pos_of_ne_zero fun h0 => hpos (h0 ▸ (kernel?_mem hkernel).1),
    h1r, h1c, Tensor.size_of_toVector h1b, h2r, h2c, Tensor.size_of_toVector h2b⟩

/-- The kernel of accepted parameters has taps. -/
theorem ofTensors_kernel_pos (h : ofTensors t = .ok model) :
    0 < model.kernel.height ∧ 0 < model.kernel.width := by
  obtain ⟨hcheck, hkernel, -⟩ := ofTensors_eq_ok.mp h
  obtain ⟨-, hpos, -⟩ := Tensor.check_eq_ok.mp hcheck
  obtain ⟨-, hheight, hwidth⟩ := kernel?_mem hkernel
  exact ⟨Nat.pos_of_ne_zero fun h0 => hpos (h0 ▸ hheight),
    Nat.pos_of_ne_zero fun h0 => hpos (h0 ▸ hwidth)⟩

/-- What is loaded is what the check of some tensors accepts. -/
theorem ofTensors_of_loadModel {origin text : String} {model : Model Float}
    (h : loadModel origin text = .ok model) : ∃ t, ofTensors t = .ok model := by
  unfold loadModel load at h
  split at h
  next => cases h
  next t _ =>
    refine ⟨t, ?_⟩
    cases hm : ofTensors t with
    | error => rw [hm] at h; cases h
    | ok m => rw [hm] at h; exact congrArg Except.ok (Except.ok.inj h)

/-- Every model that is loaded has the sizes that its layers work with. -/
theorem loadModel_sized {origin text : String} {model : Model Float}
    (h : loadModel origin text = .ok model) : model.Sized := by
  obtain ⟨t, ht⟩ := ofTensors_of_loadModel h
  exact ofTensors_sized ht

/-- Parameters with one value everywhere. -/
def constantTensors (kernel : Kernel) (x : α) : ModelTensors (Tensor α) where
  conv1Weight := .constant [kernel.outChannels, kernel.height, kernel.width] x
  conv1Bias := .constant [kernel.outChannels] x
  fc1Weight := .constant [256, 64] x
  fc1Bias := .constant [64] x
  fc2Weight := .constant [64, 10] x
  fc2Bias := .constant [10] x

/-- Every kernel of positive dimensions has parameters that are accepted. -/
theorem ofTensors_constant {kernel : Kernel} (x : α) (hout : 0 < kernel.outChannels)
    (hh : 0 < kernel.height) (hw : 0 < kernel.width)
    (hv : kernel.outChannels * (kernel.height * kernel.width) < Word.bound) :
    ∃ model, ofTensors (constantTensors kernel x) = .ok model ∧ model.kernel = kernel := by
  have volume_eq : Tensor.volume [kernel.outChannels, kernel.height, kernel.width] =
      kernel.outChannels * (kernel.height * kernel.width) := by
    simp [Tensor.volume, Nat.mul_assoc]
  have channels_lt : kernel.outChannels < Word.bound :=
    (Nat.le_mul_of_pos_right _ (Nat.mul_pos hh hw)).trans_lt hv
  have kernel_check := Tensor.constant_check x
    (show [kernel.outChannels, kernel.height, kernel.width] ≠ [] by simp) (by simp; omega)
    (volume_eq.trans_lt hv)
  obtain ⟨convWeight, hconvWeight⟩ := Tensor.constant_fill x volume_eq hv
  obtain ⟨convBias, hconvBias⟩ := Tensor.constant_toVector x hout channels_lt
  obtain ⟨fc1Weight, hfc1Weight⟩ := Tensor.constant_toMatrix x (show 0 < 256 by decide)
    (show 0 < 64 by decide) (by decide)
  obtain ⟨fc1Bias, hfc1Bias⟩ := Tensor.constant_toVector x (show 0 < 64 by decide) (by decide)
  obtain ⟨fc2Weight, hfc2Weight⟩ := Tensor.constant_toMatrix x (show 0 < 64 by decide)
    (show 0 < 10 by decide) (by decide)
  obtain ⟨fc2Bias, hfc2Bias⟩ := Tensor.constant_toVector x (show 0 < 10 by decide) (by decide)
  exact ⟨⟨kernel, convWeight, convBias, fc1Weight, fc1Bias, fc2Weight, fc2Bias⟩,
    ofTensors_eq_ok.mpr ⟨kernel_check, rfl, hconvWeight, hconvBias, hfc1Weight, hfc1Bias,
      hfc2Weight, hfc2Bias⟩, rfl⟩

end Model
end SlotPacking
