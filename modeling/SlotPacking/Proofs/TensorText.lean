import SlotPacking.Proofs.JsonText
import SlotPacking.Proofs.NumeralReading
import SlotPacking.Proofs.ObjectReading
import SlotPacking.Proofs.ParameterMaps

/-!
Tensors that are written and read back. The text of a tensor of finite values is
always read again, with its shape and its values in their order. The reader rounds
more than once, so a value may come back as one of its nearest neighbours.
-/
namespace SlotPacking
open Binary64

namespace Json
variable {x : Float} {n : ℕ}

/-- The token of a dimension. -/
def natToken (n : ℕ) : Token := .number ⟨false, (Nat.toDigits 10 n).map Numeral.digit, [], none⟩

theorem lexes_nat (n : ℕ) : Lexes (toString n) [natToken n] := by
  intro rest hrest
  have digits : (toString n).toList = Nat.toDigits 10 n := by
    simp
  have numeral := Numeral.ofChars?_whole (e := []) (Numeral.wholePart_toDigits n) rfl
  rw [List.append_nil] at numeral
  rw [digits, Token.scan_number numeral hrest]
  rfl

theorem dimension?_natToken (h : n < Word.bound) : dimension? (natToken n) = some n := by
  have value : Numeral.ofDigits ((Nat.toDigits 10 n).map Numeral.digit) = n := by
    rw [Numeral.ofDigits_map, Nat.ofDigitChars_ten_toDigits]
  simp only [dimension?, natToken, Numeral.toWord?, value, h, and_self, if_true]

/-- The number that the token of a number is read as. -/
def reread (x : Float) : Float := (float? (floatToken x)).getD x

theorem float?_of_numeral {y : Float} {n : Numeral}
    (h : Numeral.ofChars? (numberToken x).toList = some n) (hy : n.toFloat? = some y) :
    float? (floatToken x) = some y := by
  rw [floatToken, h]
  exact hy

theorem reread_of_numeral {y : Float} {n : Numeral}
    (h : Numeral.ofChars? (numberToken x).toList = some n) (hy : n.toFloat? = some y) :
    reread x = y := by
  rw [reread, float?_of_numeral h hy, Option.getD_some]

theorem float?_floatToken (h : x.isFinite = true) : float? (floatToken x) = some (reread x) := by
  obtain ⟨n, y, hn, hy, -⟩ := numberToken_toFloat? h
  rw [reread_of_numeral hn hy]
  exact float?_of_numeral hn hy

/-- The digits that a number is written with, taken as one whole number, are a binary64 number, and
so is the power of ten that they are scaled by, or its inverse. -/
def ExactToken (x : Float) : Prop :=
  ∃ n, Numeral.ofChars? (numberToken x).toList = some n ∧ OnGrid n.mantissa ∧ n.place.natAbs ≤ 22

/-- A number that is read back is near to the one written, and the same one where its digits and
its power of ten are exact. -/
theorem reread_near (h : x.isFinite = true) :
    WithinTwoSteps x (reread x) ∧ (ExactToken x → reread x = x) := by
  obtain ⟨n, y, hn, hy, hnear, hexact⟩ := numberToken_toFloat? h
  rw [reread_of_numeral hn hy]
  refine ⟨hnear, fun ⟨n', hn', hdigits, hpower⟩ => ?_⟩
  obtain rfl : n = n' := Option.some.inj (hn.symm.trans hn')
  exact hexact hdigits hpower

/-- The tokens of a tensor. -/
def tensorTokens (t : Tensor Float) : List Token :=
  objectTokens [("shape", arrayTokens natToken t.shape),
    ("data", arrayTokens floatToken t.data.toList)]

/-- The text of a tensor. -/
def tensorText (t : Tensor Float) : String :=
  "\x7b" ++ (quoted "shape" ++ (":" ++ ("[" ++ (",".intercalate (t.shape.map toString) ++ ("]" ++
    ("," ++ (quoted "data" ++ (":" ++ ("[" ++ (",".intercalate (t.data.toList.map numberToken) ++
      ("]" ++ "\x7d")))))))))))

theorem writes_tensor : Writes writeTensor tensorText := by
  intro out t
  rw [writeTensor, writeNats, writeFloats, writes_array fun _ _ => rfl, writes_array fun _ _ => rfl]
  simp only [tensorText, String.push_eq_append, String.append_assoc]
  rfl

theorem lexes_tensor (t : Tensor Float) : Lexes (tensorText t) (tensorTokens t) := by
  have shape := lexes_items t.shape fun n _ => lexes_nat n
  have data := lexes_items t.data.toList fun x _ => lexes_numberToken x
  have text : Lexes _ _ := .mark .openBrace (.quoted "shape" (.mark .colon (.mark .openBracket
    (shape.append .closeBracket (.mark .comma (.quoted "data" (.mark .colon (.mark .openBracket
      (data.append .closeBracket (lexes_mark .closeBrace))))))))))
  simpa [tensorText, tensorTokens, objectTokens, arrayTokens, namedTokens] using text

/-- The tokens of an object of tensors. -/
def bundleMembers (members : List (String × Tensor Float)) : List (String × List Token) :=
  members.map fun m => (m.1, tensorTokens m.2)

theorem lexes_tensors (members : List (String × Tensor Float)) :
    Lexes (writeObject writeTensor "" members) (objectTokens (bundleMembers members)) := by
  have lexes_member (m : String × Tensor Float) :
      Lexes (member tensorText m) (namedTokens (m.1, tensorTokens m.2)) := by
    rw [member, String.append_assoc]
    exact .quoted m.1 (.mark .colon (lexes_tensor m.2))
  have items := lexes_items members fun m _ => lexes_member m
  rw [writes_object writes_tensor, String.empty_append, objectTokens, bundleMembers, List.map_map]
  dsimp only
  rw [String.append_assoc]
  exact .mark .openBrace (items.append_mark .closeBrace)

end Json

namespace Tensor

/-- Tensors that can be written and read: their dimensions fit words, and their values are finite. -/
structure Storable (t : Tensor Float) : Prop where
  shape : ∀ n ∈ t.shape, n < Word.bound
  data : ∀ x ∈ t.data, x.isFinite = true

theorem storable_constant {shape : List ℕ} {x : Float} (hshape : ∀ n ∈ shape, n < Word.bound)
    (hx : x.isFinite = true) : (constant shape x).Storable :=
  ⟨hshape, fun _ hy => (Array.mem_replicate.mp hy).2 ▸ hx⟩

end Tensor

namespace Json
variable {t : Tensor Float}

theorem readTensor_tokens (h : t.Storable) (rest : List Token) :
    readTensor (tensorTokens t ++ rest) = .ok (t.map reread, rest) := by
  have shape (rest : List Token) : readArray dimension? (arrayTokens natToken t.shape ++ rest) =
      .ok ((t.shape.map id).toArray, rest) :=
    readArray_tokens rfl (fun n hn => dimension?_natToken (h.shape n hn)) rest
  have data (rest : List Token) : readArray float? (arrayTokens floatToken t.data.toList ++ rest) =
      .ok ((t.data.toList.map reread).toArray, rest) :=
    readArray_tokens rfl
      (fun x hx => float?_floatToken (h.data x (Array.mem_toList_iff.mp hx))) rest
  have members : ReadsMembers tensorFields [("shape", arrayTokens natToken t.shape),
      ("data", arrayTokens floatToken t.data.toList)] ⟨none, none⟩
      ⟨some t.shape, some (t.data.map reread)⟩ := by
    have readShape (rest : List Token) : tensorFields[0].read ⟨none, none⟩
        (arrayTokens natToken t.shape ++ rest) = .ok (⟨some t.shape, none⟩, rest) := by
      change readArray dimension? _ >>= _ = _
      rw [shape, List.map_id]
      rfl
    have readData (rest : List Token) : tensorFields[1].read ⟨some t.shape, none⟩
        (arrayTokens floatToken t.data.toList ++ rest) =
          .ok (⟨some t.shape, some (t.data.map reread)⟩, rest) := by
      change readArray float? _ >>= _ = _
      rw [data, ← Array.toList_map]
      rfl
    exact .cons rfl rfl readShape (.cons rfl rfl readData .nil)
  exact readRecord_tokens (α := Tensor Float) members rfl rest

theorem readText_writeTensor (h : t.Storable) :
    readText readTensor (writeTensor "" t) = .ok (t.map reread) := by
  rw [writes_tensor, String.empty_append]
  exact readText_eq (lexes_tensor t) (readTensor_tokens h)

end Json

namespace ModelTensors
variable {τ : Type}

/-- The parameters under their names. -/
def members (t : ModelTensors τ) : List (String × τ) :=
  [("conv1_weight", t.conv1Weight), ("conv1_bias", t.conv1Bias), ("fc1_weight", t.fc1Weight),
    ("fc1_bias", t.fc1Bias), ("fc2_weight", t.fc2Weight), ("fc2_bias", t.fc2Bias)]

/-- The parameters of the given names, and none of the others. -/
def only (t : ModelTensors τ) (names : List String) : ModelTensors (Option τ) where
  conv1Weight := if "conv1_weight" ∈ names then some t.conv1Weight else none
  conv1Bias := if "conv1_bias" ∈ names then some t.conv1Bias else none
  fc1Weight := if "fc1_weight" ∈ names then some t.fc1Weight else none
  fc1Bias := if "fc1_bias" ∈ names then some t.fc1Bias else none
  fc2Weight := if "fc2_weight" ∈ names then some t.fc2Weight else none
  fc2Bias := if "fc2_bias" ∈ names then some t.fc2Bias else none

end ModelTensors

namespace Json
variable {t : ModelTensors (Tensor Float)} {names : List String} {m : String × Tensor Float}

theorem parameter_read {name : String} {get : ModelFields → Option (Tensor Float)}
    {put : ModelFields → Tensor Float → ModelFields} {x : Tensor Float} (h : x.Storable)
    (s : ModelFields) (rest : List Token) :
    (parameter name get put).read s (tensorTokens x ++ rest) = .ok (put s (x.map reread), rest) := by
  simp only [parameter, readTensor_tokens h]
  rfl

/-- A parameter that has not been read is read into its place. -/
theorem reads_parameter (hm : m ∈ t.members) (hnew : m.1 ∉ names) (h : m.2.Storable) :
    ∃ f, modelFields.find? (fun f => f.name == m.1) = some f ∧
      f.isSet ((t.map (Tensor.map reread)).only names) = false ∧
      ∀ rest, f.read ((t.map (Tensor.map reread)).only names) (tensorTokens m.2 ++ rest) =
        .ok ((t.map (Tensor.map reread)).only (m.1 :: names), rest) := by
  simp only [ModelTensors.members, List.mem_cons, List.not_mem_nil, or_false] at hm
  rcases hm with rfl | rfl | rfl | rfl | rfl | rfl <;>
    refine ⟨_, rfl, ?_, fun rest => (parameter_read h _ rest).trans ?_⟩ <;>
    simp [parameter, ModelTensors.only, ModelTensors.map, hnew]

/-- Members that are parameters under different names are read in any order. -/
theorem reads_parameters (members : List (String × Tensor Float)) (names : List String)
    (hmem : ∀ m ∈ members, m ∈ t.members) (hnames : (members.map Prod.fst).Nodup)
    (hnew : ∀ m ∈ members, m.1 ∉ names) (h : ∀ m ∈ members, m.2.Storable) :
    ∃ names', (∀ name, name ∈ names' ↔ name ∈ names ∨ name ∈ members.map Prod.fst) ∧
      ReadsMembers modelFields (bundleMembers members) ((t.map (Tensor.map reread)).only names)
        ((t.map (Tensor.map reread)).only names') := by
  -- What has been read so far are exactly the parameters of the names that have come by.
  induction members generalizing names with
  | nil => exact ⟨names, by simp, .nil⟩
  | cons m members ih =>
    obtain ⟨hm, hmembers⟩ := List.forall_mem_cons.mp hmem
    obtain ⟨hnew, hrest⟩ := List.forall_mem_cons.mp hnew
    obtain ⟨hstored, hstorable⟩ := List.forall_mem_cons.mp h
    obtain ⟨hfresh, hnodup⟩ := List.nodup_cons.mp hnames
    obtain ⟨f, hfind, hset, hread⟩ := reads_parameter hm hnew hstored
    have hlater : ∀ m' ∈ members, m'.1 ∉ m.1 :: names := by
      intro m' hm' hin
      rcases List.mem_cons.mp hin with heq | hin
      · exact hfresh (heq ▸ List.mem_map_of_mem hm')
      · exact hrest m' hm' hin
    obtain ⟨names', hall, hreads⟩ := ih (m.1 :: names) hmembers hnodup hlater hstorable
    refine ⟨names', fun name => ?_, .cons hfind hset hread hreads⟩
    rw [hall]
    simp only [List.map_cons, List.mem_cons]
    tauto

/-- Parameters that are written in any order are read back. -/
theorem readText_bundle {members : List (String × Tensor Float)} (hperm : members.Perm t.members)
    (h : ∀ m ∈ members, m.2.Storable) :
    readText readModelTensors (writeObject writeTensor "" members) =
      .ok (t.map (Tensor.map reread)) := by
  have nodup : (members.map Prod.fst).Nodup :=
    (hperm.map Prod.fst).nodup_iff.mpr (by simp [ModelTensors.members])
  obtain ⟨names, hall, hreads⟩ := reads_parameters (t := t) members [] (fun m => hperm.mem_iff.mp)
    nodup (by simp) h
  have complete (name : String) (hname : name ∈ t.members.map Prod.fst) : name ∈ names := by
    rw [hall, (hperm.map Prod.fst).mem_iff]
    exact .inr hname
  have all : (t.map (Tensor.map reread)).only names = (t.map (Tensor.map reread)).map some := by
    simp [ModelTensors.only, complete, ModelTensors.members, ModelTensors.map]
  rw [all] at hreads
  exact readText_eq (lexes_tensors members) (readRecord_tokens hreads rfl)

/-- A tensor of finite values that is written is read again, with its shape and as many values, and
so are parameters that are written in any order; what is loaded from these texts is what the checks
make of the written tensors, with each value read back. A value that is read back is finite, has its
sign, and is at most two steps away; it is the one that was written if its digits and its power of
ten are exact. -/
theorem writeTensor_rereads :
    (∀ t : Tensor Float, t.Storable →
      readText readTensor (writeTensor "" t) = .ok (t.map reread) ∧
      ∀ origin, loadImage origin (writeTensor "" t) =
        (Matrix.map reread <$> imageOfTensor t).mapError fun reason => ⟨origin, reason⟩) ∧
    (∀ (t : ModelTensors (Tensor Float)) (members : List (String × Tensor Float)),
      members.Perm t.members → (∀ m ∈ members, m.2.Storable) →
      readText readModelTensors (writeObject writeTensor "" members) =
        .ok (t.map (Tensor.map reread)) ∧
      ∀ origin, loadModel origin (writeObject writeTensor "" members) =
        (Model.map reread <$> Model.ofTensors t).mapError fun reason => ⟨origin, reason⟩) ∧
    ∀ x : Float, x.isFinite = true → float? (floatToken x) = some (reread x) ∧
      WithinTwoSteps x (reread x) ∧ (ExactToken x → reread x = x) := by
  refine ⟨fun t ht => ?_, fun t members hperm hmembers => ?_,
    fun x hx => ⟨float?_floatToken hx, reread_near hx⟩⟩
  · have read := readText_writeTensor ht
    refine ⟨read, fun origin => ?_⟩
    rw [← imageOfTensor_map]
    exact load_of_readText read
  · have read := readText_bundle hperm hmembers
    refine ⟨read, fun origin => ?_⟩
    rw [← Model.ofTensors_map]
    exact load_of_readText read

/-- Halves are read back as they are, negative zeros too, and so are parameters that are written
from the last one to the first. -/
theorem writeTensor_rereads_halves :
    readText readTensor (writeTensor "" ⟨[1, 2], #[0.5, -0.0]⟩) = .ok ⟨[1, 2], #[0.5, -0.0]⟩ ∧
    ∃ model, Model.ofTensors (Model.constantTensors ⟨1, 1, 1⟩ 0.5) = .ok model ∧
      loadModel "weights" (writeObject writeTensor ""
        (Model.constantTensors ⟨1, 1, 1⟩ 0.5).members.reverse) = .ok model := by
  obtain ⟨tensors, parameters, values⟩ := writeTensor_rereads
  have finite : Float.isFinite 0.5 = true := by decide +kernel
  have half : reread 0.5 = 0.5 := by
    have text : numberToken 0.5 = "0.5" := by decide +kernel
    refine (values 0.5 finite).2.2 ⟨⟨false, [0], [5], none⟩, by rw [text]; rfl, ?_, by decide⟩
    exact onGrid_natCast (n := 5) (by decide)
  have zero : reread (-0.0) = -0.0 := by
    have text : numberToken (-0.0) = "-0.0" := by decide +kernel
    refine (values (-0.0) (by decide +kernel)).2.2
      ⟨⟨true, [0], [0], none⟩, by rw [text]; rfl, ?_, by decide⟩
    exact onGrid_natCast (n := 0) (by decide)
  constructor
  · have storable : Tensor.Storable ⟨[1, 2], #[0.5, -0.0]⟩ := ⟨by decide, by
      simp only [Array.mem_def, List.mem_cons, List.not_mem_nil, or_false]
      rintro _ (rfl | rfl)
      · exact finite
      · decide +kernel⟩
    refine (tensors _ storable).1.trans ?_
    simp only [Tensor.map, List.map_toArray, List.map_cons, List.map_nil, half, zero]
  · let kernel : Kernel := ⟨1, 1, 1⟩
    obtain ⟨model, hmodel, -⟩ := Model.ofTensors_constant (0.5 : Float)
      (show 0 < kernel.outChannels by decide) (show 0 < kernel.height by decide)
      (show 0 < kernel.width by decide) (by decide)
    have storable : ∀ m ∈ (Model.constantTensors ⟨1, 1, 1⟩ 0.5).members.reverse,
        m.2.Storable := by
      simp only [List.mem_reverse, ModelTensors.members, Model.constantTensors, List.mem_cons,
        List.not_mem_nil, or_false]
      rintro _ (rfl | rfl | rfl | rfl | rfl | rfl) <;>
        exact Tensor.storable_constant (by decide) finite
    refine ⟨model, hmodel, ((parameters _ _ (List.reverse_perm _) storable).2 "weights").trans ?_⟩
    rw [← Model.ofTensors_map, Model.constantTensors_map, half, hmodel]
    rfl

/-- Numbers with long digits may come back as others. Below `2 ^ 53` it is the zero after the point
that makes the digits too long; behind a great power of ten two steps are lost. -/
theorem writeTensor_rereads_others :
    let t : Tensor Float := ⟨[2], #[9007199254740991.0, 9.032330635965109e83]⟩
    let others : Tensor Float := ⟨[2], #[9007199254740990.0, 9.032330635965107e83]⟩
    t.Storable ∧ readText readTensor (writeTensor "" t) = .ok others ∧
      readText readTensor (writeTensor "" t) ≠ .ok t ∧
      Float.toBits 9.032330635965109e83 = Float.toBits 9.032330635965107e83 + 2 := by
  intro t others
  have storable : t.Storable := ⟨by decide, by
    simp only [t, Array.mem_def, List.mem_cons, List.not_mem_nil, or_false]
    rintro _ (rfl | rfl) <;> decide +kernel⟩
  have pointed : reread 9007199254740991.0 = 9007199254740990.0 := by
    have text : numberToken 9007199254740991.0 = "9007199254740991.0" := by decide +kernel
    let n : Numeral := ⟨false, [9, 0, 0, 7, 1, 9, 9, 2, 5, 4, 7, 4, 0, 9, 9, 1], [0], none⟩
    have quotient : nearest n.mantissa 1 / nearest (tenPow 1) 1 = 9007199254740990.0 :=
      Float.toBits_inj.mp (UInt64.toNat_inj.mp (by decide +kernel))
    have magnitude : n.magnitude? = some 9007199254740990.0 := by
      rw [Numeral.magnitude?_eq (by decide) (.inl rfl), ← quotient]
      exact Numeral.scaleByTen_neg (k := 1) (by decide) (by decide)
    refine reread_of_numeral (n := n) ?_ ?_
    · rw [text]
      rfl
    · rw [Numeral.toFloat?, magnitude]
      rfl
  have scaled : reread 9.032330635965109e83 = 9.032330635965107e83 := by
    have text : numberToken 9.032330635965109e83 = "9.032330635965109e+83" := by decide +kernel
    let n : Numeral :=
      ⟨false, [9], [0, 3, 2, 3, 3, 0, 6, 3, 5, 9, 6, 5, 1, 0, 9], some (false, 83)⟩
    have product : nearest n.mantissa 1 * nearest (tenPow 68) 1 = 9.032330635965107e83 :=
      Float.toBits_inj.mp (UInt64.toNat_inj.mp (by decide +kernel))
    have magnitude : n.magnitude? = some 9.032330635965107e83 := by
      rw [Numeral.magnitude?_eq (by decide) (.inr (by decide)), ← product]
      refine Numeral.scaleByTen_natCast (k := 68) (by decide) ?_
      rw [product]
      decide +kernel
    refine reread_of_numeral (n := n) ?_ ?_
    · rw [text]
      rfl
    · rw [Numeral.toFloat?, magnitude]
      rfl
  have read : readText readTensor (writeTensor "" t) = .ok others := by
    refine (readText_writeTensor storable).trans ?_
    simp only [t, others, Tensor.map, List.map_toArray, List.map_cons, List.map_nil, pointed,
      scaled]
  refine ⟨storable, read, fun same => ?_, by decide +kernel⟩
  have values : others.data = t.data := congrArg Tensor.data (Except.ok.inj (read.symm.trans same))
  have bits := congrArg Float.toBits (List.cons.inj (congrArg Array.toList values)).1
  exact absurd bits (by decide +kernel)

end Json
end SlotPacking
