import SlotPacking.Proofs.ProgramLayers

/-!
Scales of a program. A layer multiplies the scale by the modulus below the level
of its input and a squaring divides by the two moduli from its level down, so
the whole table follows from five moduli; every operand stands at the scale of
its place in the circuit.
-/
namespace SlotPacking
open Result Circuit SlotPacking.Bundle
variable {α : Type}

/-- The scales of the stages with the names under which they are recorded. -/
def Assembly.scales (a : Assembly α) : List (String × Scale) :=
  [("conv", a.conv.output.scale), ("conv_sq", a.convSquare.scale), ("o2", a.fc1.output.scale),
    ("o2_sq", a.fc1Square.scale), ("pred", a.prediction.output.scale)]

/-- The stages are recorded in the order of their names. -/
theorem Assembly.outputScales_entries (a : Assembly α) : a.outputScales.entries = a.scales := by
  have sorted : (a.scales.map (·.1)).Pairwise (· < ·) := by
    change ["conv", "conv_sq", "o2", "o2_sq", "pred"].Pairwise (· < ·)
    decide
  exact NameMap.fill_entries sorted

section Values
variable [Zero α] {image : Matrix α} {level : Nat} {model : Model α} {chain : PrimeChain}
  {program : Program α} {a : Assembly α}

namespace Assembly.Computes

theorem input_value (h : a.Computes image level model chain program) :
    a.input.scale.value = 2 ^ 72 := by
  obtain ⟨-, -, hs, -⟩ := Metadata.new_eq_ok.mp h.input
  rw [hs, Scale.value_pow2]
  rfl

theorem conv_value (h : a.Computes image level model chain program) :
    a.conv.output.scale.value = 2 ^ 72 * chain.modulus (level - 1) := by
  obtain ⟨-, -, hs⟩ := packConv_output h.conv
  rw [hs, h.input_value, h.input_level]

theorem convSquare_value (h : a.Computes image level model chain program) :
    a.convSquare.scale.value =
      2 ^ 144 * chain.modulus (level - 1) / chain.modulus (level - 2) := by
  obtain ⟨-, hs⟩ := Metadata.square_value h.convSquare
  have hne : chain.modulus (level - 1) ≠ 0 := by
    have := a.conv.output.value_pos
    rw [h.conv_value] at this
    exact right_ne_zero_of_mul this.ne'
  rw [hs, h.conv_value, h.conv_level, Nat.sub_sub]
  field_simp

theorem fc1_value (h : a.Computes image level model chain program) :
    a.fc1.output.scale.value = a.convSquare.scale.value * chain.modulus (level - 4) := by
  obtain ⟨-, -, hs⟩ := packDense_output DenseLayout.fc1_aligned h.fc1
  rw [hs, h.convSquare_level, Nat.sub_sub]

theorem fc1Square_value (h : a.Computes image level model chain program) :
    a.fc1Square.scale.value = a.fc1.output.scale.value ^ 2 /
      (chain.modulus (level - 4) * chain.modulus (level - 5)) := by
  obtain ⟨-, hs⟩ := Metadata.square_value h.fc1Square
  rw [hs, h.fc1_level, Nat.sub_sub]

theorem prediction_value (h : a.Computes image level model chain program) :
    a.prediction.output.scale.value = a.fc1Square.scale.value * chain.modulus (level - 7) := by
  obtain ⟨-, -, hs⟩ := packDense_output DenseLayout.fc2_aligned h.prediction
  rw [hs, h.fc1Square_level, Nat.sub_sub]

end Assembly.Computes

/-- Assemblies at one level have the same scales at every stage whatever they assemble, as long as
their chains agree on the five moduli that count. -/
theorem Assembly.Computes.scales_eq {image' : Matrix α} {model' : Model α} {chain' : PrimeChain}
    {program' : Program α} {b : Assembly α} (ha : a.Computes image level model chain program)
    (hb : b.Computes image' level model' chain' program')
    (agree : ∀ i ∈ [1, 2, 4, 5, 7], chain'.modulus (level - i) = chain.modulus (level - i)) :
    b.conv.output.scale = a.conv.output.scale ∧ b.convSquare.scale = a.convSquare.scale ∧
      b.fc1.output.scale = a.fc1.output.scale ∧ b.fc1Square.scale = a.fc1Square.scale ∧
      b.prediction.output.scale = a.prediction.output.scale := by
  simp only [List.forall_mem_cons] at agree
  obtain ⟨agree1, agree2, agree4, agree5, agree7, -⟩ := agree
  have conv : b.conv.output.scale = a.conv.output.scale := Scale.value_injective <| by
    rw [hb.conv_value, ha.conv_value, agree1]
  have convSquare : b.convSquare.scale = a.convSquare.scale := Scale.value_injective <| by
    rw [hb.convSquare_value, ha.convSquare_value, agree1, agree2]
  have fc1 : b.fc1.output.scale = a.fc1.output.scale := Scale.value_injective <| by
    rw [hb.fc1_value, ha.fc1_value, convSquare, agree4]
  have fc1Square : b.fc1Square.scale = a.fc1Square.scale := Scale.value_injective <| by
    rw [hb.fc1Square_value, ha.fc1Square_value, fc1, agree4, agree5]
  have prediction : b.prediction.output.scale = a.prediction.output.scale :=
    Scale.value_injective <| by
      rw [hb.prediction_value, ha.prediction_value, fc1Square, agree7]
  exact ⟨conv, convSquare, fc1, fc1Square, prediction⟩

/-- Assemblies at one level record the same table of scales. -/
theorem outputScales_eq {image' : Matrix α} {model' : Model α} {chain' : PrimeChain}
    {program' : Program α} (h : assemble image level model chain = .ok program)
    (h' : assemble image' level model' chain' = .ok program')
    (agree : ∀ i ∈ [1, 2, 4, 5, 7], chain'.modulus (level - i) = chain.modulus (level - i)) :
    program'.outputScales = program.outputScales := by
  obtain ⟨a, ha⟩ := assemble_eq_ok.mp h
  obtain ⟨b, hb⟩ := assemble_eq_ok.mp h'
  obtain ⟨conv, convSquare, fc1, fc1Square, prediction⟩ := ha.scales_eq hb agree
  apply NameMap.ext
  rw [hb.outputScales, ha.outputScales, b.outputScales_entries, a.outputScales_entries,
    Assembly.scales, Assembly.scales, conv, convSquare, fc1, fc1Square, prediction]

end Values

section Operands
variable {chain : PrimeChain} {bundle : Bundle α slotCount} {name : String}
  {operand : Operand α slotCount}

/-- The operand is the bias of a layer, at one scale, or one of its weights, at another. -/
def ScaledBy (weightName biasName : String) (weightScale : ℚ) (biasScale : Scale) (name : String)
    (scale : Scale) : Prop :=
  name = biasName ∧ scale = biasScale ∨
    ∃ bs gs, name = cellName weightName bs gs ∧ scale.value = weightScale

/-- What a layer has named stands at the scale of its weights or of its bias. -/
theorem LinearLayer.StoredIn.scaled {layer : LinearLayer α} {weightScale biasScale : Scale}
    (h : layer.StoredIn bundle weightScale biasScale) (hname : name ∈ layer.names)
    (hget : bundle.get? name = some operand) :
    ScaledBy layer.weightName layer.biasName weightScale.value biasScale name operand.scale := by
  rcases h.get?_of_mem hname with ⟨rfl, hbias⟩ | ⟨_, _, bs, gs, d, -, -, -, rfl, hweight⟩
  · rw [hbias] at hget
    exact .inl ⟨rfl, by rw [← Option.some.inj hget]⟩
  · rw [hweight] at hget
    exact .inr ⟨bs, gs, rfl, by rw [← Option.some.inj hget]⟩

variable [Zero α] {image : Matrix α} {level : Nat} {model : Model α} {program : Program α}
  {a : Assembly α}

/-- Every operand of a program stands at the scale of its place. -/
theorem Assembly.Computes.operand_scale (h : a.Computes image level model chain program)
    (hget : program.operands.get? name = some operand) :
    name = "image" ∧ operand.scale = a.input.scale ∨
      (∃ o, ScaledBy (convWeightName o) (convBiasName o)
        (chain.modulus level * chain.modulus (level - 1)) a.conv.output.scale name
        operand.scale) ∨
      ScaledBy "fc1_w" "fc1_b" (chain.modulus (level - 3) * chain.modulus (level - 4))
        a.fc1.output.scale name operand.scale ∨
      ScaledBy "fc2_w" "fc2_b" (chain.modulus (level - 6) * chain.modulus (level - 7))
        a.prediction.output.scale name operand.scale := by
  rcases h.mem_names.mp (NameMap.mem_names.mpr ⟨operand, hget⟩) with
    rfl | ⟨o, ho, hname⟩ | hname | hname
  · have same := Option.some.inj (h.image_stored.symm.trans hget)
    exact .inl ⟨rfl, by rw [← same]⟩
  · obtain ⟨op, packed, _, -, -, hvalue, stored⟩ := h.channel_stored (Array.getElem?_eq_getElem ho)
    have scaled := stored.scaled hname hget
    rw [hvalue] at scaled
    exact .inr (.inl ⟨o, scaled⟩)
  · obtain ⟨op, packed, _, -, -, hvalue, stored⟩ := h.fc1_stored
    have scaled := stored.scaled hname hget
    rw [hvalue] at scaled
    exact .inr (.inr (.inl scaled))
  · obtain ⟨op, packed, _, -, -, hvalue, stored⟩ := h.fc2_stored
    have scaled := stored.scaled hname hget
    rw [hvalue] at scaled
    exact .inr (.inr (.inr scaled))

/-- The kind of an operand decides its scale. -/
theorem Assembly.Computes.operand_kind (h : a.Computes image level model chain program)
    (hget : program.operands.get? name = some operand) :
    operandKind name = "image".toList ∧ operand.scale = a.input.scale ∨
      operandKind name = "conv_b".toList ∧ operand.scale = a.conv.output.scale ∨
      operandKind name = "conv_w".toList ∧
        operand.scale.value = chain.modulus level * chain.modulus (level - 1) ∨
      operandKind name = "fc1_b".toList ∧ operand.scale = a.fc1.output.scale ∨
      operandKind name = "fc1_w_".toList ∧
        operand.scale.value = chain.modulus (level - 3) * chain.modulus (level - 4) ∨
      operandKind name = "fc2_b".toList ∧ operand.scale = a.prediction.output.scale ∨
      operandKind name = "fc2_w_".toList ∧
        operand.scale.value = chain.modulus (level - 6) * chain.modulus (level - 7) := by
  rcases h.operand_scale hget with ⟨rfl, hs⟩ | ⟨o, ⟨rfl, hs⟩ | ⟨bs, gs, rfl, hs⟩⟩ |
    (⟨rfl, hs⟩ | ⟨bs, gs, rfl, hs⟩) | (⟨rfl, hs⟩ | ⟨bs, gs, rfl, hs⟩)
  · simp [operandKind, hs]
  · simp [hs]
  · simp [hs]
  · simp [operandKind, hs]
  · simp [hs]
  · simp [operandKind, hs]
  · simp [hs]

/-- The scales of a program: the table has one entry for each stage, and every operand stands at the
scale of its place. The moduli at the level of a layer's input stand in no entry of the table. -/
theorem assemble_scales (h : assemble image level model chain = .ok program) :
    8 ≤ level ∧ level ≤ chain.length ∧
    ∃ conv convSquare fc1 fc1Square prediction : Scale,
      program.outputScales.entries = [("conv", conv), ("conv_sq", convSquare), ("o2", fc1),
        ("o2_sq", fc1Square), ("pred", prediction)] ∧
      conv.value = 2 ^ 72 * chain.modulus (level - 1) ∧
      convSquare.value = 2 ^ 144 * chain.modulus (level - 1) / chain.modulus (level - 2) ∧
      fc1.value = convSquare.value * chain.modulus (level - 4) ∧
      fc1Square.value = fc1.value ^ 2 / (chain.modulus (level - 4) * chain.modulus (level - 5)) ∧
      prediction.value = fc1Square.value * chain.modulus (level - 7) ∧
      (∃ operand, program.operands.get? "image" = some operand ∧ operand.scale.value = 2 ^ 72) ∧
      (∀ rest operand, program.operands.get? ("conv_weight_" ++ rest) = some operand →
        operand.scale.value = chain.modulus level * chain.modulus (level - 1)) ∧
      (∀ rest operand, program.operands.get? ("fc1_w_" ++ rest) = some operand →
        operand.scale.value = chain.modulus (level - 3) * chain.modulus (level - 4)) ∧
      (∀ rest operand, program.operands.get? ("fc2_w_" ++ rest) = some operand →
        operand.scale.value = chain.modulus (level - 6) * chain.modulus (level - 7)) ∧
      (∀ rest operand, program.operands.get? ("conv_bias_" ++ rest) = some operand →
        operand.scale = conv) ∧
      (∀ operand, program.operands.get? "fc1_b" = some operand → operand.scale = fc1) ∧
      (∀ operand, program.operands.get? "fc2_b" = some operand → operand.scale = prediction) ∧
      ∀ (image' : Matrix α) (model' : Model α) (chain' : PrimeChain) (program' : Program α),
        assemble image' level model' chain' = .ok program' →
        (∀ i ∈ [1, 2, 4, 5, 7], chain'.modulus (level - i) = chain.modulus (level - i)) →
        program'.outputScales = program.outputScales := by
  obtain ⟨a, ha⟩ := assemble_eq_ok.mp h
  have hprediction := ha.prediction_level
  have hpos := a.prediction.output.level_pos
  refine ⟨by omega, ha.levels.1, a.conv.output.scale, a.convSquare.scale, a.fc1.output.scale,
    a.fc1Square.scale, a.prediction.output.scale, ?_, ha.conv_value, ha.convSquare_value,
    ha.fc1_value, ha.fc1Square_value, ha.prediction_value, ⟨_, ha.image_stored, ha.input_value⟩,
    fun rest operand hget => ?_, fun rest operand hget => ?_, fun rest operand hget => ?_,
    fun rest operand hget => ?_, fun operand hget => ?_, fun operand hget => ?_,
    fun image' model' chain' program' h' agree => outputScales_eq h h' agree⟩
  · rw [ha.outputScales, a.outputScales_entries, Assembly.scales]
  all_goals simpa [operandKind] using ha.operand_kind hget

theorem assemble_scales_standard : ∃ model program prediction,
    Model.ofTensors (Model.constantTensors ⟨12, 2, 3⟩ 1) = .ok model ∧
    assemble (⟨5, 6, Array.replicate 30 1, by simp, by decide⟩ : Matrix Int) 8 model .standard =
      .ok program ∧
    program.outputScales.get? "pred" = some prediction ∧
    prediction.value = (2 ^ 144 * 211025921 / 210370561 * 207880193) ^ 2 /
      (207880193 * 206307329) * 204865537 ∧
    (∀ operand, program.operands.get? "fc2_b" = some operand → operand.scale = prediction) ∧
    ∀ operand, program.operands.get? "conv_weight_10_8_0" = some operand →
      operand.scale.value = 211812353 * 211025921 := by
  obtain ⟨model, program, hm, -, h⟩ := @exists_assemble_ok Int _
    ⟨5, 6, Array.replicate 30 1, by simp, by decide⟩ 8 .standard ⟨12, 2, 3⟩ 1 (by decide)
    (by decide) (by decide) (by decide) (by decide) PrimeChain.standard_nonzero (by decide)
    (by decide)
  obtain ⟨-, -, conv, convSquare, fc1, fc1Square, prediction, htable, -, hconvSquare, hfc1,
    hfc1Square, hprediction, -, hweights, -, -, -, -, hbias, -⟩ := assemble_scales h
  have modulus (l p : Nat) (hp : PrimeChain.standard.primes.getD (l - 1) 0 = p) :
      PrimeChain.standard.modulus l = p := congrArg Nat.cast hp
  refine ⟨model, program, prediction, hm, h, ?_, ?_, hbias, fun operand hget => ?_⟩
  · rw [NameMap.get?, htable]
    rfl
  · rw [hprediction, hfc1Square, hfc1, hconvSquare]
    rw [modulus (8 - 1) 211025921 rfl, modulus (8 - 2) 210370561 rfl, modulus (8 - 4) 207880193 rfl,
      modulus (8 - 5) 206307329 rfl, modulus (8 - 7) 204865537 rfl]
    simp only [Nat.cast_ofNat]
  · have scale := hweights "10_8_0" operand hget
    rw [modulus 8 211812353 rfl, modulus (8 - 1) 211025921 rfl] at scale
    exact_mod_cast scale

end Operands
end SlotPacking
