import SlotPacking.Proofs.EncodedOperator
import SlotPacking.Proofs.LayerOperands

/-!
Outcomes of packing a linear layer. The grid must not be empty, the chain must
have two moduli for the level, the grid must fit the operator and repeat no
step, no modulus may be zero and the bias needs a name of its own. The first of
these that fails is reported; when all hold the layer is packed, and no sum or
rescale on the way can fail.
-/
namespace SlotPacking
open Result Circuit

theorem Scale.times_ofNat_eq_zero {a b : Nat} (h : a * b = 0) :
    (ofNat a).times (ofNat b) = ofNat 0 := by
  apply value_injective
  rw [value_times, value_ofNat, value_ofNat, value_ofNat, ← Nat.cast_mul, h]

theorem Metadata.new_zero {level : Nat} (h : 0 < level) :
    new (Scale.ofNat 0) level = reject (.invalidScale 0 1) := by
  rw [new, dif_pos h, dif_neg (by decide)]
  rfl

theorem PrimeChain.modulus_mul_eq_zero {chain : PrimeChain} {level high low : Nat}
    (h : chain.matrixPrimes level = .ok (high, low)) :
    chain.modulus level * chain.modulus (level - 1) = 0 ↔ high * low = 0 := by
  obtain ⟨-, -, hhigh, hlow⟩ := matrixPrimes_modulus h
  rw [hhigh, hlow, ← Nat.cast_mul, Nat.cast_eq_zero]

section Linear
variable {α : Type} {layer : LinearLayer α} {input : Metadata} {chain : PrimeChain}
  {high low : Nat} {encoded : Bundle α slotCount}

theorem packLinear_of_empty (h : layer.babysteps = [] ∨ layer.giantsteps = []) :
    packLinear layer input chain = rejectShape (.emptyGrid layer.weightName) := by
  rw [packLinear, if_pos h]

/-- What a packed layer gives: one level less, the scale times the modulus below the input's level,
every weight at the product of the two moduli, and the bias at the scale of the output. -/
theorem packLinear_contents {out : PackedLayer α} (h : packLinear layer input chain = .ok out) :
    ∃ weightScale : Scale, out.output.level = input.level - 1 ∧
      out.output.scale.value = input.scale.value * chain.modulus (input.level - 1) ∧
      weightScale.value = chain.modulus input.level * chain.modulus (input.level - 1) ∧
      out.operands.size = layer.babysteps.length * layer.giantsteps.length + 1 ∧
      out.operands.names.Perm layer.names ∧
      layer.StoredIn out.operands weightScale out.output.scale := by
  obtain ⟨-, hlevel, hscale⟩ := packLinear_output h
  obtain ⟨weightScale, hweights, stored⟩ := packLinear_stored h
  have names := packLinear_names h
  refine ⟨weightScale, by omega, hscale, hweights, ?_, names, stored⟩
  rw [← NameMap.length_names, names.length_eq, LinearLayer.names, List.length_cons,
    length_cellNames]

section Grid
variable (hb : layer.babysteps ≠ []) (hg : layer.giantsteps ≠ [])
  (hprimes : chain.matrixPrimes input.level = .ok (high, low))
include hb hg hprimes

/-- Weights that cannot be encoded are found out before their scale is looked at. -/
theorem packLinear_encode_error {e : Failure} (h : encode layer.weightName layer.operator
      ((Scale.ofNat high).times (Scale.ofNat low)) layer.babysteps layer.giantsteps = .error e) :
    packLinear layer input chain = .error e := by
  rw [packLinear, if_neg fun h => h.elim hb hg, hprimes, ok_bind]
  simp only [h, error_bind]

variable (hencoded : encode layer.weightName layer.operator
  ((Scale.ofNat high).times (Scale.ofNat low)) layer.babysteps layer.giantsteps = .ok encoded)
include hencoded

/-- A modulus of zero is found out by the scale of the weights, before anything is divided. -/
theorem packLinear_zero_modulus (h : high * low = 0) :
    packLinear layer input chain = reject (.invalidScale 0 1) := by
  rw [packLinear, if_neg fun h => h.elim hb hg, hprimes, ok_bind]
  simp only [hencoded, ok_bind]
  rw [Scale.times_ofNat_eq_zero h, Metadata.new_zero input.level_pos]
  rfl

theorem packLinear_bias_taken (hhigh : 0 < high) (hlow : 0 < low)
    (h : layer.biasName ∈ cellNames layer.weightName layer.babysteps layer.giantsteps) :
    packLinear layer input chain = reject (.duplicateOperand layer.biasName) := by
  obtain ⟨product, -, heq⟩ := packLinear_eq_insert hb hg hprimes hhigh hlow hencoded
  have taken : encoded.contains layer.biasName = true := by
    obtain ⟨operand, ho⟩ := NameMap.mem_names.mp ((encode_names hencoded).mem_iff.mpr h)
    rw [NameMap.contains_eq_isSome_get?, ho]
    rfl
  rw [heq, Bundle.insert_of_contains taken]
  rfl

theorem packLinear_bias_free (hhigh : 0 < high) (hlow : 0 < low)
    (h : layer.biasName ∉ cellNames layer.weightName layer.babysteps layer.giantsteps) :
    ∃ out, packLinear layer input chain = .ok out := by
  obtain ⟨product, -, heq⟩ := packLinear_eq_insert hb hg hprimes hhigh hlow hencoded
  have free : encoded.get? layer.biasName = none := by
    rw [Option.eq_none_iff_forall_ne_some]
    intro operand ho
    exact h ((encode_names hencoded).mem_iff.mp (NameMap.mem_names.mpr ⟨operand, ho⟩))
  rw [heq, Bundle.insert_succeeds free]
  exact ⟨_, rfl⟩

/-- Once the weights are encoded, the moduli and the name of the bias decide. -/
theorem packLinear_of_encode :
    if chain.modulus input.level * chain.modulus (input.level - 1) = 0 then
      packLinear layer input chain = reject (.invalidScale 0 1)
    else if layer.biasName ∈ cellNames layer.weightName layer.babysteps layer.giantsteps then
      packLinear layer input chain = reject (.duplicateOperand layer.biasName)
    else ∃ out, packLinear layer input chain = .ok out := by
  by_cases h0 : chain.modulus input.level * chain.modulus (input.level - 1) = 0
  · rw [if_pos h0]
    exact packLinear_zero_modulus hb hg hprimes hencoded
      ((PrimeChain.modulus_mul_eq_zero hprimes).mp h0)
  rw [if_neg h0]
  have nonzero : high * low ≠ 0 := mt (PrimeChain.modulus_mul_eq_zero hprimes).mpr h0
  have hhigh : 0 < high := Nat.pos_of_ne_zero (Nat.mul_ne_zero_iff.mp nonzero).1
  have hlow : 0 < low := Nat.pos_of_ne_zero (Nat.mul_ne_zero_iff.mp nonzero).2
  split
  next hbias => exact packLinear_bias_taken hb hg hprimes hencoded hhigh hlow hbias
  next hbias => exact packLinear_bias_free hb hg hprimes hencoded hhigh hlow hbias

end Grid

/-- How packing a layer ends, on any grid and any chain: what is wrong first is reported, and a
layer with which nothing is wrong is packed. -/
theorem packLinear_outcome (layer : LinearLayer α) (input : Metadata) (chain : PrimeChain)
    (least : Word.leastSigned ∉ layer.giantsteps) :
    if layer.babysteps = [] ∨ layer.giantsteps = [] then
      packLinear layer input chain = rejectShape (.emptyGrid layer.weightName)
    else if input.level = 1 then packLinear layer input chain = reject (.invalidLevel 0)
    else if chain.length < input.level then
      packLinear layer input chain = reject (.levelOutOfRange input.level chain.length)
    else if Word.bound ≤ layer.babysteps.length * layer.giantsteps.length then
      packLinear layer input chain = faulty .overflow
    else if layer.babysteps.length * layer.giantsteps.length ≠ layer.operator.count then
      packLinear layer input chain = rejectShape (.gridMismatch layer.babysteps.length
        layer.giantsteps.length layer.operator.count)
    else if ¬(layer.babysteps.Nodup ∧ layer.giantsteps.Nodup) then
      ∃ cell, FirstRepeat (cells layer.babysteps layer.giantsteps) cell ∧
        packLinear layer input chain =
          reject (.duplicateOperand (cellName layer.weightName cell.1 cell.2))
    else if chain.modulus input.level * chain.modulus (input.level - 1) = 0 then
      packLinear layer input chain = reject (.invalidScale 0 1)
    else if layer.biasName ∈ cellNames layer.weightName layer.babysteps layer.giantsteps then
      packLinear layer input chain = reject (.duplicateOperand layer.biasName)
    else
      ∃ out weightScale, packLinear layer input chain = .ok out ∧
        out.output.level = input.level - 1 ∧
        out.output.scale.value = input.scale.value * chain.modulus (input.level - 1) ∧
        weightScale.value = chain.modulus input.level * chain.modulus (input.level - 1) ∧
        out.operands.size = layer.babysteps.length * layer.giantsteps.length + 1 ∧
        out.operands.names.Perm layer.names ∧
        layer.StoredIn out.operands weightScale out.output.scale := by
  by_cases hempty : layer.babysteps = [] ∨ layer.giantsteps = []
  · rw [if_pos hempty]
    exact packLinear_of_empty hempty
  rw [if_neg hempty]
  obtain ⟨hb, hg⟩ := not_or.mp hempty
  by_cases h1 : input.level = 1
  · rw [if_pos h1]
    exact packLinear_error hb hg (h1 ▸ chain.matrixPrimes_at_one)
  rw [if_neg h1]
  have h2 : 2 ≤ input.level := by
    have := input.level_pos
    omega
  by_cases hn : chain.length < input.level
  · rw [if_pos hn]
    exact packLinear_error hb hg (PrimeChain.matrixPrimes_beyond h2 hn)
  rw [if_neg hn]
  obtain ⟨high, low, hprimes, -, -⟩ := PrimeChain.matrixPrimes_succeeds h2 (Nat.le_of_not_lt hn)
  -- From here on the moduli are there, and the weights are encoded before anything else is done.
  by_cases full : Word.bound ≤ layer.babysteps.length * layer.giantsteps.length
  · rw [if_pos full]
    exact packLinear_encode_error hb hg hprimes
      (encode_of_overflow layer.weightName layer.operator _ full)
  rw [if_neg full]
  by_cases hc : layer.babysteps.length * layer.giantsteps.length ≠ layer.operator.count
  · rw [if_pos hc]
    exact packLinear_encode_error hb hg hprimes (encode_of_mismatch layer.weightName _
      (Nat.not_le.mp full) hc)
  rw [if_neg hc]
  by_cases hd : ¬(layer.babysteps.Nodup ∧ layer.giantsteps.Nodup)
  · rw [if_pos hd]
    obtain ⟨cell, hcell⟩ := exists_firstRepeat (mt (cells_nodup_iff hb hg).mp hd)
    exact ⟨cell, hcell, packLinear_encode_error hb hg hprimes
      (encode_of_firstRepeat (by decide) layer.weightName _ (not_not.mp hc) least hcell)⟩
  rw [if_neg hd]
  obtain ⟨encoded, hencoded⟩ := encode_of_nodup (by decide) layer.weightName
    ((Scale.ofNat high).times (Scale.ofNat low)) (not_not.mp hc) least
    ((cells_nodup_iff hb hg).mpr (not_not.mp hd))
  have ends := packLinear_of_encode hb hg hprimes hencoded
  split_ifs at ends ⊢ with h0 hbias
  · exact ends
  · exact ends
  · obtain ⟨out, h⟩ := ends
    obtain ⟨weightScale, contents⟩ := packLinear_contents h
    exact ⟨out, weightScale, h, contents⟩

theorem packLinear_outcome_of_two_moduli :
    let layer (biasName : String) : LinearLayer Int :=
      ⟨"w", biasName, ⟨#[0, 0, 0, 0], by decide⟩, 0, [0, 1], [0, -4]⟩
    let input : Metadata := ⟨.pow2 3, 2, by decide, by decide⟩
    (∃ out, packLinear (layer "b") input ⟨#[5, 7]⟩ = .ok out ∧ out.output.level = 1 ∧
      out.output.scale.value = 40 ∧ out.operands.size = 5) ∧
    packLinear (layer "w_1_-4") input ⟨#[5, 7]⟩ = reject (.duplicateOperand "w_1_-4") ∧
    packLinear (layer "w_1_-4") input ⟨#[0, 7]⟩ = reject (.invalidScale 0 1) := by
  intro layer input
  have outcome (biasName : String) (chain : PrimeChain) :=
    packLinear_outcome (layer biasName) input chain (show Word.leastSigned ∉ [0, -4] by decide)
  refine ⟨?_, ?_, ?_⟩
  · have packed := outcome "b" ⟨#[5, 7]⟩
    rw [if_neg (by decide), if_neg (by decide), if_neg (by decide), if_neg (by decide),
      if_neg (by decide), if_neg (by decide), if_neg (by decide +kernel),
      if_neg (by decide +kernel)] at packed
    obtain ⟨out, _, h, hlevel, hscale, -, hsize, -⟩ := packed
    exact ⟨out, h, hlevel, hscale.trans (by decide +kernel), hsize⟩
  · have taken := outcome "w_1_-4" ⟨#[5, 7]⟩
    rwa [if_neg (by decide), if_neg (by decide), if_neg (by decide), if_neg (by decide),
      if_neg (by decide), if_neg (by decide), if_neg (by decide +kernel),
      if_pos (by decide +kernel)] at taken
  · have zero := outcome "w_1_-4" ⟨#[0, 7]⟩
    rwa [if_neg (by decide), if_neg (by decide), if_neg (by decide), if_neg (by decide),
      if_neg (by decide), if_neg (by decide), if_pos (by decide +kernel)] at zero

/-- A layer without diagonals is not refused on a grid of `2^32` by `2^32` steps. -/
theorem packLinear_of_uncounted_grid :
    let steps : List Int := List.replicate 0x100000000 0
    let layer : LinearLayer Int := ⟨"w", "b", ⟨#[], by decide⟩, 0, steps, steps⟩
    let input : Metadata := ⟨.ofNat 1, 2, by decide, by decide⟩
    layer.babysteps.length * layer.giantsteps.length ≠ layer.operator.count ∧
      Word.leastSigned ∉ layer.giantsteps ∧
      packLinear layer input ⟨#[5, 7]⟩ = faulty .overflow := by
  intro steps layer input
  have length_steps : steps.length = 0x100000000 := List.length_replicate
  have full : Word.bound ≤ steps.length * steps.length := by
    rw [length_steps]
    decide
  have nonempty : steps ≠ [] := List.ne_nil_of_length_pos (by rw [length_steps]; decide)
  have two : 2 ≤ input.level := by decide
  have reached : input.level ≤ PrimeChain.length ⟨#[5, 7]⟩ := by decide
  obtain ⟨high, low, hprimes, -, -⟩ := PrimeChain.matrixPrimes_succeeds two reached
  have hb : layer.babysteps ≠ [] := nonempty
  have hg : layer.giantsteps ≠ [] := nonempty
  refine ⟨?_, fun h => ?_, packLinear_encode_error hb hg hprimes
    (encode_of_overflow "w" layer.operator _ full)⟩
  · change steps.length * steps.length ≠ 0
    rw [length_steps]
    decide
  · exact absurd (List.eq_of_mem_replicate h) (by decide)

end Linear
end SlotPacking
