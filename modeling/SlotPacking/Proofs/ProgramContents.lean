import SlotPacking.Proofs.Assembly

/-!
Contents of a program. Its operands are the image and, for each layer, one bias
and one weight for each cell of the grid, under names that count the cells off;
nothing is lost and nothing is added on the way through the merges.
-/
namespace SlotPacking
open Result SlotVector Circuit SlotPacking.Bundle
variable {α : Type}

/-- The names of the weights on a grid, giantstep by giantstep. -/
def gridNames (base : String) (babyCount babyStride giantCount giantStride : Nat) : List String :=
  (List.range giantCount).flatMap fun g =>
    (List.range babyCount).map fun b => s!"{base}_{babyStride * b}_{giantStride * g}"

/-- The names of the operands of a program, by the number of its channels. -/
def programNames (channels : Nat) : List String :=
  "image" :: (((List.range channels).flatMap fun o =>
      s!"conv_bias_{o}" :: gridNames s!"conv_weight_{o}" 16 8 4 8192) ++
    ("fc1_b" :: gridNames "fc1_w" 8 128 8 1024) ++
    ("fc2_b" :: gridNames "fc2_w" 4 128 4 512))

/-- The bundle holds the diagonals of an operator on a grid, each rotated against its giantstep. -/
def HoldsGrid (bundle : Bundle α slotCount) (base : String) (op : DiagonalOperator α slotCount)
    (babyCount babyStride giantCount giantStride : Nat) : Prop :=
  ∀ b < babyCount, ∀ g < giantCount, ∃ d operand, op.toList[g * babyCount + b]? = some d ∧
    bundle.get? s!"{base}_{babyStride * b}_{giantStride * g}" = some operand ∧
    operand.values = d.rotate (-((giantStride * g : Nat) : Int))

section Grid
variable {base : String} {s : Split}

/-- The name of a cell of a split counts its steps off. -/
theorem cellName_steps (base : String) (s : Split) (b g : Nat) :
    cellName base ((b * s.babyStride : Nat) : Int) ((g * s.giantStride : Nat) : Int) =
      s!"{base}_{s.babyStride * b}_{s.giantStride * g}" := by
  rw [Nat.mul_comm b, Nat.mul_comm g]
  rfl

theorem cellNames_eq_gridNames (base : String) (s : Split) :
    cellNames base s.babyList s.giantList =
      gridNames base s.babyCount s.babyStride s.giantCount s.giantStride := by
  simp only [cellNames, cells, gridNames, Split.babyList, Split.giantList, Split.steps,
    List.flatMap_map, List.map_flatMap, List.map_map]
  congr 1
  funext g
  congr 1
  funext b
  exact cellName_steps base s b g

theorem length_gridNames (base : String) (babyCount babyStride giantCount giantStride : Nat) :
    (gridNames base babyCount babyStride giantCount giantStride).length =
      giantCount * babyCount := by
  simp [gridNames, List.length_flatMap]

theorem length_programNames (channels : Nat) :
    (programNames channels).length = 65 * channels + 83 := by
  simp only [programNames, List.length_cons, List.length_append, List.length_flatMap,
    length_gridNames, List.map_const', List.length_range, List.sum_replicate, smul_eq_mul]
  omega

/-- A layer on the steps of a split holds the grid of its operator. -/
theorem LinearLayer.StoredIn.holdsGrid {layer : LinearLayer α} {bundle : Bundle α slotCount}
    {weightScale biasScale : Scale} (h : layer.StoredIn bundle weightScale biasScale)
    (hbaby : layer.babysteps = s.babyList) (hgiant : layer.giantsteps = s.giantList) :
    HoldsGrid bundle layer.weightName layer.operator s.babyCount s.babyStride s.giantCount
      s.giantStride := by
  intro b hb g hg
  obtain ⟨hgrid, hweights, -⟩ := h
  rw [hbaby, hgiant] at hgrid hweights
  obtain ⟨d, hd, hget⟩ :=
    hweights.get?_cell hgrid (Split.steps_getElem? hg) (Split.steps_getElem? hb)
  rw [Split.babyList, Split.length_steps] at hd
  rw [cellName_steps] at hget
  exact ⟨d, _, hd, hget, by rw [Nat.mul_comm s.giantStride]⟩

end Grid

section Contents
variable [Zero α] {t : ModelTensors (Tensor α)} {image : Matrix α} {level : Nat} {model : Model α}
  {chain : PrimeChain} {program : Program α} {a : Assembly α}

theorem channelNames_eq (o : Nat) :
    channelNames o = s!"conv_bias_{o}" :: gridNames s!"conv_weight_{o}" 16 8 4 8192 :=
  congrArg (convBiasName o :: ·) (cellNames_eq_gridNames (convWeightName o) .conv)

theorem fc1_names_eq : DenseLayout.fc1.names = "fc1_b" :: gridNames "fc1_w" 8 128 8 1024 :=
  congrArg ("fc1_b" :: ·) (cellNames_eq_gridNames "fc1_w" .fc1)

theorem fc2_names_eq : DenseLayout.fc2.names = "fc2_b" :: gridNames "fc2_w" 4 128 4 512 :=
  congrArg ("fc2_b" :: ·) (cellNames_eq_gridNames "fc2_w" .fc2)

theorem Assembly.Computes.programNames (h : a.Computes image level model chain program) :
    program.operands.names.Perm (programNames model.convBias.size) := by
  have names := h.names
  rwa [fc1_names_eq, fc2_names_eq, funext channelNames_eq] at names

/-- A channel of a packed convolution: its grid, and its bias on the lanes of the first group. -/
theorem packConv_contents {input : Metadata} {kernels : Matrix α} {bias : Array α}
    {out : PackedLayer α} {bundle : Bundle α slotCount} {o : Nat} {x : α}
    (h : packConv input kernels bias chain = .ok out) (he : Extends out.operands bundle)
    (hx : bias[o]? = some x) :
    ∃ op operand, DiagonalOperator.conv kernels o = .ok op ∧
      HoldsGrid bundle s!"conv_weight_{o}" op 16 8 4 8192 ∧
      bundle.get? s!"conv_bias_{o}" = some operand ∧
      (∀ l < 64, operand.values.slot (128 * l) = x) ∧
      ∀ i, (∀ l < 64, i ≠ 128 * l) → operand.values.slot i = 0 := by
  obtain ⟨op, packed, _, hop, hpacked, -, stored⟩ := packConv_stored h hx
  have stored := stored.extend he
  refine ⟨op, _, hop, stored.holdsGrid rfl rfl, stored.bias, fun l hl => ?_, fun i hi => ?_⟩
  · have value := packBias_lane_value hpacked hl (Nat.mod_lt l Nat.one_pos)
    rw [Nat.mod_one] at value
    exact (Option.some.inj value).symm
  · exact packBias_slot_eq_zero hpacked fun l hl _ => hi l hl

/-- A packed fully connected layer: its grid, and its bias in every block of lanes. -/
theorem packDense_contents {layout : DenseLayout} {input : Metadata} {weights : Matrix α}
    {bias : Array α} {out : PackedLayer α} {bundle : Bundle α slotCount} (hl : layout.Aligned)
    (h : packDense layout input weights bias chain = .ok out) (he : Extends out.operands bundle) :
    ∃ op operand, DiagonalOperator.dense layout weights layout.split = .ok op ∧
      HoldsGrid bundle layout.weightName op layout.split.babyCount layout.split.babyStride
        layout.split.giantCount layout.split.giantStride ∧
      bundle.get? layout.biasName = some operand ∧
      (∀ l < 256, l % layout.block < layout.outputs →
        bias[l % layout.block]? = some (operand.values.slot (128 * l))) ∧
      ∀ i, (∀ l < 256, l % layout.block < layout.outputs → i ≠ 128 * l) →
        operand.values.slot i = 0 := by
  obtain ⟨-, -, hsize, -⟩ := packDense_eq_ok hl h
  obtain ⟨op, packed, _, hop, hpacked, -, stored⟩ := packDense_stored hl h
  have stored := stored.extend he
  rw [← hsize]
  exact ⟨op, _, hop, stored.holdsGrid rfl rfl, stored.bias,
    fun l hlane hx => packBias_lane_value hpacked hlane hx,
    fun i hi => packBias_slot_eq_zero hpacked hi⟩

/-- The operands of a program are those of its layers and the image, and each holds what its name
says: a weight the diagonal of its cell, rotated against its giantstep, a bias its values lane by
lane. -/
theorem assemble_contents (hm : Model.ofTensors t = .ok model)
    (h : assemble image level model chain = .ok program) :
    program.operands.names.Perm (programNames model.kernel.outChannels) ∧
    (programNames model.kernel.outChannels).Nodup ∧
    program.operands.size = 65 * model.kernel.outChannels + 83 ∧
    (∃ packed, program.operands.get? "image" = some packed ∧
      packImage image model.kernel 3 = .ok packed.values) ∧
    (∀ o < model.kernel.outChannels, ∃ op bias x,
      DiagonalOperator.conv model.convWeight o = .ok op ∧
      HoldsGrid program.operands s!"conv_weight_{o}" op 16 8 4 8192 ∧
      program.operands.get? s!"conv_bias_{o}" = some bias ∧ model.convBias[o]? = some x ∧
      (∀ l < 64, bias.values.slot (128 * l) = x) ∧
      ∀ i, (∀ l < 64, i ≠ 128 * l) → bias.values.slot i = 0) ∧
    (∃ op bias, DiagonalOperator.dense .fc1 model.fc1Weight .fc1 = .ok op ∧
      HoldsGrid program.operands "fc1_w" op 8 128 8 1024 ∧
      program.operands.get? "fc1_b" = some bias ∧
      (∀ l < 256, model.fc1Bias[l % 64]? = some (bias.values.slot (128 * l))) ∧
      ∀ i, (∀ l < 256, i ≠ 128 * l) → bias.values.slot i = 0) ∧
    ∃ op bias, DiagonalOperator.dense .fc2 model.fc2Weight .fc2 = .ok op ∧
      HoldsGrid program.operands "fc2_w" op 4 128 4 512 ∧
      program.operands.get? "fc2_b" = some bias ∧
      (∀ l < 256, l % 16 < 10 →
        model.fc2Bias[l % 16]? = some (bias.values.slot (128 * l))) ∧
      ∀ i, (∀ l < 256, l % 16 < 10 → i ≠ 128 * l) → bias.values.slot i = 0 := by
  obtain ⟨a, ha⟩ := assemble_eq_ok.mp h
  have hchannels := (Model.ofTensors_sized hm).convBias
  have names := ha.programNames
  rw [hchannels] at names
  refine ⟨names, names.nodup_iff.mp (names_nodup _), ?_, ⟨_, ha.image_stored, ha.packed⟩,
    fun o ho => ?_, ?_, ?_⟩
  · rw [← NameMap.length_names, names.length_eq, length_programNames]
  · have hx := Array.getElem?_eq_getElem (hchannels.symm ▸ ho)
    obtain ⟨op, bias, hop, hgrid, hbias, hlanes, hzero⟩ :=
      packConv_contents ha.conv ha.extends_conv hx
    exact ⟨op, bias, _, hop, hgrid, hbias, hx, hlanes, hzero⟩
  · obtain ⟨op, bias, hop, hgrid, hbias, hlanes, hzero⟩ :=
      packDense_contents DenseLayout.fc1_aligned ha.fc1 ha.extends_fc1
    have lane (l : Nat) : l % 64 < 64 := Nat.mod_lt l (by decide)
    exact ⟨op, bias, hop, hgrid, hbias, fun l hl => hlanes l hl (lane l),
      fun i hi => hzero i fun l hl _ => hi l hl⟩
  · obtain ⟨op, bias, hop, hgrid, hbias, hlanes, hzero⟩ :=
      packDense_contents DenseLayout.fc2_aligned ha.prediction ha.extends_prediction
    exact ⟨op, bias, hop, hgrid, hbias, hlanes, hzero⟩

theorem assemble_contents_of_sevens : ∃ model program,
    Model.ofTensors (Model.constantTensors ⟨12, 2, 3⟩ 7) = .ok model ∧
    assemble (⟨5, 6, Array.replicate 30 1, by simp, by decide⟩ : Matrix Int) 8 model .standard =
      .ok program ∧
    program.operands.size = 863 ∧
    (∃ weight, program.operands.get? "conv_weight_11_120_24576" = some weight) ∧
    ∃ bias, program.operands.get? "fc2_b" = some bias ∧ bias.values.slot (128 * 25) = 7 ∧
      bias.values.slot (128 * 26) = 0 := by
  obtain ⟨model, program, hm, hkernel, h⟩ := @exists_assemble_ok Int _
    ⟨5, 6, Array.replicate 30 1, by simp, by decide⟩ 8 .standard ⟨12, 2, 3⟩ 7 (by decide)
    (by decide) (by decide) (by decide) (by decide) PrimeChain.standard_nonzero (by decide)
    (by decide)
  obtain ⟨-, -, hsize, -, hconv, -, _, bias, -, -, hbias, hlanes, hzero⟩ := assemble_contents hm h
  rw [hkernel] at hsize hconv
  obtain ⟨_, _, _, -, hgrid, -⟩ := hconv 11 (by decide)
  obtain ⟨_, weight, -, hweight, -⟩ := hgrid 15 (by decide) 3 (by decide)
  obtain ⟨-, -, -, -, -, -, -, hfc2Bias⟩ := Model.ofTensors_eq_ok.mp hm
  obtain ⟨-, -, values⟩ := Tensor.toVector_eq_ok.mp hfc2Bias
  refine ⟨model, program, hm, h, hsize, ⟨weight, hweight⟩, bias, hbias, ?_, ?_⟩
  · have value := hlanes 25 (by decide) (by decide)
    rw [values] at value
    exact (Option.some.inj value).symm
  · exact hzero _ fun l _ hl => by omega

end Contents
end SlotPacking
