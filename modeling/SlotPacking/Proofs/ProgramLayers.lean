import SlotPacking.Proofs.Assembly

/-!
The layers in a program. Every name of a program is that of the image or belongs
to one channel or one fully connected layer, and under it stands the bias of
that layer or one of its weights.
-/
namespace SlotPacking
open Result Circuit SlotPacking.Bundle
variable {α : Type} {name : String}

/-- Under a name of a stored layer stands its bias, or the weight of a cell of its grid. -/
theorem LinearLayer.StoredIn.get?_of_mem {layer : LinearLayer α} {bundle : Bundle α slotCount}
    {weightScale biasScale : Scale} (h : layer.StoredIn bundle weightScale biasScale)
    (hname : name ∈ layer.names) :
    name = layer.biasName ∧ bundle.get? name = some ⟨name, layer.bias, biasScale⟩ ∨
      ∃ (b g : Nat) (bs gs : Int) (d : Slots α), layer.babysteps[b]? = some bs ∧
        layer.giantsteps[g]? = some gs ∧
        layer.operator.toList[g * layer.babysteps.length + b]? = some d ∧
        name = cellName layer.weightName bs gs ∧
        bundle.get? name = some ⟨name, d.rotate (-gs), weightScale⟩ := by
  rcases List.mem_cons.mp hname with rfl | hname
  · exact .inl ⟨rfl, h.bias⟩
  · obtain ⟨bs, hb, gs, hg, rfl⟩ := mem_cellNames.mp hname
    obtain ⟨b, hb⟩ := List.mem_iff_getElem?.mp hb
    obtain ⟨g, hg⟩ := List.mem_iff_getElem?.mp hg
    obtain ⟨d, hd, hget⟩ := h.weights.get?_cell h.grid hg hb
    exact .inr ⟨b, g, bs, gs, d, hb, hg, hd, rfl, hget⟩

/-- The bundle holds a layer on the steps of a split, of which operator and bias are made by steps
that may fail. -/
def HoldsLayer (bundle : Bundle α slotCount) (weightName biasName : String) (s : Split)
    (operator : Result (DiagonalOperator α slotCount)) (bias : Result (Slots α)) (weightScale : ℚ)
    (biasScale : Scale) : Prop :=
  ∃ op packed scale, operator = .ok op ∧ bias = .ok packed ∧ scale.value = weightScale ∧
    LinearLayer.StoredIn ⟨weightName, biasName, op, packed, s.babyList, s.giantList⟩ bundle scale
      biasScale

/-- The first six letters of the name of an operand, which tell layers, weights and biases apart. -/
def operandKind (name : String) : List Char := name.toList.take 6

section Kind
variable (o : Nat) (bs gs : Int)

@[simp] theorem operandKind_convBias : operandKind (convBiasName o) = "conv_b".toList := by
  simp [operandKind, convBiasName_toList]

@[simp] theorem operandKind_convWeight :
    operandKind (cellName (convWeightName o) bs gs) = "conv_w".toList := by
  simp [operandKind, cellName_toList, convWeightName_toList]

@[simp] theorem operandKind_fc1Weight :
    operandKind (cellName "fc1_w" bs gs) = "fc1_w_".toList := by
  simp [operandKind, cellName_toList]

@[simp] theorem operandKind_fc2Weight :
    operandKind (cellName "fc2_w" bs gs) = "fc2_w_".toList := by
  simp [operandKind, cellName_toList]

end Kind

namespace Assembly.Computes
variable [Zero α] {image : Matrix α} {level : Nat} {model : Model α} {chain : PrimeChain}
  {program : Program α} {a : Assembly α}

theorem mem_names (h : a.Computes image level model chain program) :
    name ∈ program.operands.names ↔ name = "image" ∨
      (∃ o < model.convBias.size, name ∈ channelNames o) ∨
      name ∈ "fc1_b" :: cellNames "fc1_w" Split.fc1.babyList Split.fc1.giantList ∨
      name ∈ "fc2_b" :: cellNames "fc2_w" Split.fc2.babyList Split.fc2.giantList := by
  rw [h.names.mem_iff, List.mem_cons, List.mem_append, List.mem_append, or_assoc]
  simp only [List.mem_flatMap, List.mem_range]
  rfl

/-- The kind of a name tells what it is the name of. -/
theorem names_kind (h : a.Computes image level model chain program)
    (hname : name ∈ program.operands.names) :
    (operandKind name = "conv_b".toList → ∃ o < model.convBias.size, name = convBiasName o) ∧
    (operandKind name = "conv_w".toList → ∃ o < model.convBias.size,
      name ∈ cellNames (convWeightName o) Split.conv.babyList Split.conv.giantList) ∧
    (operandKind name = "fc1_w_".toList →
      name ∈ cellNames "fc1_w" Split.fc1.babyList Split.fc1.giantList) ∧
    (operandKind name = "fc2_w_".toList →
      name ∈ cellNames "fc2_w" Split.fc2.babyList Split.fc2.giantList) := by
  have fc1 : operandKind "fc1_b" = "fc1_b".toList := by decide
  have fc2 : operandKind "fc2_b" = "fc2_b".toList := by decide
  rcases h.mem_names.mp hname with rfl | ⟨o, ho, hname⟩ | hname | hname
  · simp [operandKind]
  · rcases List.mem_cons.mp hname with rfl | hcell
    · simpa using ⟨o, ho, rfl⟩
    · obtain ⟨bs, -, gs, -, rfl⟩ := mem_cellNames.mp hcell
      simpa using ⟨o, ho, hcell⟩
  · rcases List.mem_cons.mp hname with rfl | hcell
    · simp [fc1]
    · obtain ⟨bs, -, gs, -, rfl⟩ := mem_cellNames.mp hcell
      simpa using hcell
  · rcases List.mem_cons.mp hname with rfl | hcell
    · simp [fc2]
    · obtain ⟨bs, -, gs, -, rfl⟩ := mem_cellNames.mp hcell
      simpa using hcell

theorem channel_stored (h : a.Computes image level model chain program) {o : Nat} {x : α}
    (hx : model.convBias[o]? = some x) :
    HoldsLayer program.operands (convWeightName o) (convBiasName o) .conv
      (DiagonalOperator.conv model.convWeight o) (packBias #[x] 1 imageLanes)
      (chain.modulus level * chain.modulus (level - 1)) a.conv.output.scale := by
  obtain ⟨op, packed, scale, hop, hpacked, hvalue, stored⟩ := packConv_stored h.conv hx
  rw [h.input_level] at hvalue
  exact ⟨op, packed, scale, hop, hpacked, hvalue, stored.extend h.extends_conv⟩

theorem fc1_stored (h : a.Computes image level model chain program) :
    HoldsLayer program.operands "fc1_w" "fc1_b" .fc1
      (DiagonalOperator.dense .fc1 model.fc1Weight .fc1) (packBias model.fc1Bias 64 256)
      (chain.modulus (level - 3) * chain.modulus (level - 4)) a.fc1.output.scale := by
  obtain ⟨op, packed, scale, hop, hpacked, hvalue, stored⟩ :=
    packDense_stored DenseLayout.fc1_aligned h.fc1
  rw [h.convSquare_level, Nat.sub_sub] at hvalue
  exact ⟨op, packed, scale, hop, hpacked, hvalue, stored.extend h.extends_fc1⟩

theorem fc2_stored (h : a.Computes image level model chain program) :
    HoldsLayer program.operands "fc2_w" "fc2_b" .fc2
      (DiagonalOperator.dense .fc2 model.fc2Weight .fc2) (packBias model.fc2Bias 16 256)
      (chain.modulus (level - 6) * chain.modulus (level - 7)) a.prediction.output.scale := by
  obtain ⟨op, packed, scale, hop, hpacked, hvalue, stored⟩ :=
    packDense_stored DenseLayout.fc2_aligned h.prediction
  rw [h.fc1Square_level, Nat.sub_sub] at hvalue
  exact ⟨op, packed, scale, hop, hpacked, hvalue, stored.extend h.extends_prediction⟩

end Assembly.Computes
end SlotPacking
