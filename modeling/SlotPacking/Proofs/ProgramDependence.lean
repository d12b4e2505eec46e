import SlotPacking.Proofs.ProgramOutcome
import SlotPacking.Proofs.ProgramScales

/-!
What the operands of a program depend on. Two runs at one level, on images of one
size and models of one kernel, end alike and give operands of the same names and
scales; and each operand can differ only where the part of the model or the image
that it is made from does.
-/
namespace SlotPacking
open Result Circuit SlotPacking.Bundle
variable {α : Type} {name : String}

theorem Bundle.get?_eq_none {n : Nat} {bundle : Bundle α n} (h : name ∉ bundle.names) :
    bundle.get? name = none :=
  Option.eq_none_iff_forall_ne_some.mpr fun operand ho =>
    h (NameMap.mem_names.mpr ⟨operand, ho⟩)

theorem Bundle.get?_congr {n : Nat} {bundle bundle' : Bundle α n}
    (names : bundle'.names = bundle.names)
    (h : name ∈ bundle.names → bundle'.get? name = bundle.get? name) :
    bundle'.get? name = bundle.get? name := by
  by_cases hname : name ∈ bundle.names
  · exact h hname
  · rw [get?_eq_none hname, get?_eq_none (names ▸ hname)]

namespace HoldsLayer
variable {bundle bundle' : Bundle α slotCount} {weightName biasName : String} {s : Split}
  {operator operator' : Result (DiagonalOperator α slotCount)} {bias bias' : Result (Slots α)}
  {weightScale : ℚ} {biasScale : Scale}

/-- Two runs of a layer hold operands of the same scales. -/
theorem scale_eq (h : HoldsLayer bundle weightName biasName s operator bias weightScale biasScale)
    (h' : HoldsLayer bundle' weightName biasName s operator' bias' weightScale biasScale)
    (hname : name ∈ biasName :: cellNames weightName s.babyList s.giantList) :
    (bundle'.get? name).map (·.scale) = (bundle.get? name).map (·.scale) := by
  obtain ⟨op, packed, scale, -, -, hvalue, stored⟩ := h
  obtain ⟨op', packed', scale', -, -, hvalue', stored'⟩ := h'
  obtain rfl := Scale.value_injective (hvalue'.trans hvalue.symm)
  rcases stored.get?_of_mem hname with ⟨rfl, hbias⟩ | ⟨b, g, bs, gs, d, hb, hg, -, rfl, hweight⟩
  · have hbias' := stored'.bias
    rw [hbias, hbias', Option.map_some, Option.map_some]
  · obtain ⟨d', -, hweight'⟩ := stored'.weights.get?_cell stored'.grid hg hb
    rw [hweight, hweight', Option.map_some, Option.map_some]

theorem get?_weight_eq
    (h : HoldsLayer bundle weightName biasName s operator bias weightScale biasScale)
    (h' : HoldsLayer bundle' weightName biasName s operator' bias' weightScale biasScale)
    (hop : operator' = operator) (hname : name ∈ cellNames weightName s.babyList s.giantList) :
    bundle'.get? name = bundle.get? name := by
  obtain ⟨op, packed, scale, hok, -, hvalue, stored⟩ := h
  obtain ⟨op', packed', scale', hok', -, hvalue', stored'⟩ := h'
  obtain rfl := Scale.value_injective (hvalue'.trans hvalue.symm)
  obtain rfl : op' = op := Except.ok.inj (hok'.symm.trans (hop.trans hok))
  obtain ⟨bs, hb, gs, hg, rfl⟩ := mem_cellNames.mp hname
  obtain ⟨b, hb⟩ := List.mem_iff_getElem?.mp hb
  obtain ⟨g, hg⟩ := List.mem_iff_getElem?.mp hg
  obtain ⟨d, hd, hget⟩ := stored.weights.get?_cell stored.grid hg hb
  rw [hget, stored'.weights g b gs bs d hg hb hd]

theorem get?_bias_eq
    (h : HoldsLayer bundle weightName biasName s operator bias weightScale biasScale)
    (h' : HoldsLayer bundle' weightName biasName s operator' bias' weightScale biasScale)
    (hbias : bias' = bias) : bundle'.get? biasName = bundle.get? biasName := by
  obtain ⟨op, packed, scale, -, hok, -, stored⟩ := h
  obtain ⟨op', packed', scale', -, hok', -, stored'⟩ := h'
  obtain rfl : packed' = packed := Except.ok.inj (hok'.symm.trans (hbias.trans hok))
  exact stored'.bias.trans stored.bias.symm

end HoldsLayer

section Runs
variable [Zero α] {image image' : Matrix α} {level : Nat} {model model' : Model α}
  {chain : PrimeChain} {program program' : Program α} {a b : Assembly α}

/-- Two runs on inputs of the same sizes end alike. -/
theorem assemble_status_eq {t t' : ModelTensors (Tensor α)} (hm : Model.ofTensors t = .ok model)
    (hm' : Model.ofTensors t' = .ok model') (hkernel : model'.kernel = model.kernel)
    (hrows : image'.rows = image.rows) (hcols : image'.cols = image.cols)
    (hchain : chain.Nonzero) : (assemble image' level model' chain).map (fun _ => ()) =
      (assemble image level model chain).map (fun _ => ()) := by
  obtain ⟨hh, hw⟩ := Model.ofTensors_kernel_pos hm
  rw [assemble_status (Model.ofTensors_sized hm) hchain,
    assemble_status (Model.ofTensors_sized hm') hchain, hkernel]
  split
  next => rfl
  next => exact bind_const_congr (packImage_status hrows hcols (by decide) hh hw)

namespace Assembly.Computes

theorem names_eq (ha : a.Computes image level model chain program)
    (hb : b.Computes image' level model' chain program')
    (hsize : model'.convBias.size = model.convBias.size) :
    program'.operands.names = program.operands.names := by
  have names := hb.names
  rw [hsize] at names
  exact NameMap.names_eq_of_perm (names.trans ha.names.symm)

theorem input_scale_eq (ha : a.Computes image level model chain program)
    (hb : b.Computes image' level model' chain program') : b.input.scale = a.input.scale :=
  Scale.value_injective (hb.input_value.trans ha.input_value.symm)

/-- Of two runs over one chain, the second holds every channel at the scales of the first. -/
theorem channel_stored_again (ha : a.Computes image level model chain program)
    (hb : b.Computes image' level model' chain program') {o : Nat} {x : α}
    (hx : model'.convBias[o]? = some x) :
    HoldsLayer program'.operands (convWeightName o) (convBiasName o) .conv
      (DiagonalOperator.conv model'.convWeight o) (packBias #[x] 1 imageLanes)
      (chain.modulus level * chain.modulus (level - 1)) a.conv.output.scale :=
  (ha.scales_eq hb fun _ _ => rfl).1 ▸ hb.channel_stored hx

theorem fc1_stored_again (ha : a.Computes image level model chain program)
    (hb : b.Computes image' level model' chain program') :
    HoldsLayer program'.operands "fc1_w" "fc1_b" .fc1
      (DiagonalOperator.dense .fc1 model'.fc1Weight .fc1) (packBias model'.fc1Bias 64 256)
      (chain.modulus (level - 3) * chain.modulus (level - 4)) a.fc1.output.scale :=
  (ha.scales_eq hb fun _ _ => rfl).2.2.1 ▸ hb.fc1_stored

theorem fc2_stored_again (ha : a.Computes image level model chain program)
    (hb : b.Computes image' level model' chain program') :
    HoldsLayer program'.operands "fc2_w" "fc2_b" .fc2
      (DiagonalOperator.dense .fc2 model'.fc2Weight .fc2) (packBias model'.fc2Bias 16 256)
      (chain.modulus (level - 6) * chain.modulus (level - 7)) a.prediction.output.scale :=
  (ha.scales_eq hb fun _ _ => rfl).2.2.2.2 ▸ hb.fc2_stored

/-- Two runs that bias as many channels give their operands the same scales. -/
theorem scale_eq (ha : a.Computes image level model chain program)
    (hb : b.Computes image' level model' chain program')
    (hsize : model'.convBias.size = model.convBias.size) (name : String) :
    (program'.operands.get? name).map (·.scale) = (program.operands.get? name).map (·.scale) := by
  by_cases hname : name ∈ program.operands.names
  · rcases ha.mem_names.mp hname with rfl | ⟨o, ho, hname⟩ | hname | hname
    · have himage := ha.image_stored
      have himage' := hb.image_stored
      rw [Program.imageName] at himage himage'
      rw [himage, himage', Option.map_some, Option.map_some, ha.input_scale_eq hb]
    · have hx := Array.getElem?_eq_getElem ho
      have hx' := Array.getElem?_eq_getElem (hsize ▸ ho : o < model'.convBias.size)
      exact (ha.channel_stored hx).scale_eq (ha.channel_stored_again hb hx') hname
    · exact ha.fc1_stored.scale_eq (ha.fc1_stored_again hb) hname
    · exact ha.fc2_stored.scale_eq (ha.fc2_stored_again hb) hname
  · rw [Bundle.get?_eq_none hname, Bundle.get?_eq_none (ha.names_eq hb hsize ▸ hname)]

theorem image_eq (ha : a.Computes image level model chain program)
    (hb : b.Computes image level model' chain program') (hkernel : model'.kernel = model.kernel) :
    program'.operands.get? "image" = program.operands.get? "image" := by
  have packed := hb.packed
  rw [hkernel, ha.packed] at packed
  refine hb.image_stored.trans (Eq.trans ?_ ha.image_stored.symm)
  rw [Except.ok.inj packed, ha.input_scale_eq hb]

theorem convWeight_eq (ha : a.Computes image level model chain program)
    (hb : b.Computes image' level model' chain program')
    (hsize : model'.convBias.size = model.convBias.size)
    (hrows : model'.convWeight.rows = model.convWeight.rows)
    (hcols : model'.convWeight.cols = model.convWeight.cols) {o : Nat}
    (hrow : ∀ tap, model'.convWeight.get o tap = model.convWeight.get o tap) (rest : String) :
    program'.operands.get? s!"conv_weight_{o}_{rest}" =
      program.operands.get? s!"conv_weight_{o}_{rest}" := by
  refine Bundle.get?_congr (ha.names_eq hb hsize) fun hname => ?_
  have kind : operandKind s!"conv_weight_{o}_{rest}" = "conv_w".toList := by
    simp [operandKind, toString]
  obtain ⟨p, hp, hcell⟩ := (ha.names_kind hname).2.1 kind
  obtain ⟨bs, -, gs, -, hcellName⟩ := mem_cellNames.mp hcell
  obtain rfl := convWeight_channel hcellName
  exact (ha.channel_stored (Array.getElem?_eq_getElem hp)).get?_weight_eq
    (ha.channel_stored_again hb (Array.getElem?_eq_getElem (hsize ▸ hp)))
    (DiagonalOperator.conv_congr hrows hcols hrow) hcell

theorem convBias_eq (ha : a.Computes image level model chain program)
    (hb : b.Computes image' level model' chain program')
    (hsize : model'.convBias.size = model.convBias.size) {o : Nat}
    (hx : model'.convBias[o]? = model.convBias[o]?) :
    program'.operands.get? s!"conv_bias_{o}" = program.operands.get? s!"conv_bias_{o}" := by
  refine Bundle.get?_congr (ha.names_eq hb hsize) fun hname => ?_
  have kind : operandKind s!"conv_bias_{o}" = "conv_b".toList := by
    simp [operandKind, toString]
  obtain ⟨p, hp, hbias⟩ := (ha.names_kind hname).1 kind
  obtain rfl := convBiasName_inj hbias
  have hold := Array.getElem?_eq_getElem hp
  exact (ha.channel_stored hold).get?_bias_eq (ha.channel_stored_again hb (hx.trans hold)) rfl

theorem fc1Weight_eq (ha : a.Computes image level model chain program)
    (hb : b.Computes image' level model' chain program')
    (hsize : model'.convBias.size = model.convBias.size)
    (hw : model'.fc1Weight = model.fc1Weight) (rest : String) :
    program'.operands.get? s!"fc1_w_{rest}" = program.operands.get? s!"fc1_w_{rest}" := by
  refine Bundle.get?_congr (ha.names_eq hb hsize) fun hname => ?_
  have kind : operandKind s!"fc1_w_{rest}" = "fc1_w_".toList := by
    simp [operandKind, toString]
  exact ha.fc1_stored.get?_weight_eq (ha.fc1_stored_again hb) (by rw [hw])
    ((ha.names_kind hname).2.2.1 kind)

theorem fc2Weight_eq (ha : a.Computes image level model chain program)
    (hb : b.Computes image' level model' chain program')
    (hsize : model'.convBias.size = model.convBias.size)
    (hw : model'.fc2Weight = model.fc2Weight) (rest : String) :
    program'.operands.get? s!"fc2_w_{rest}" = program.operands.get? s!"fc2_w_{rest}" := by
  refine Bundle.get?_congr (ha.names_eq hb hsize) fun hname => ?_
  have kind : operandKind s!"fc2_w_{rest}" = "fc2_w_".toList := by
    simp [operandKind, toString]
  exact ha.fc2_stored.get?_weight_eq (ha.fc2_stored_again hb) (by rw [hw])
    ((ha.names_kind hname).2.2.2 kind)

end Assembly.Computes

/-- Two runs at one level, on images of one size and models of one kernel, fail with the same error
or give operands of the same names and scales and the same table of scales. Each operand depends
only on the image, on one row or value of the convolution, or on one parameter of a fully connected
layer. -/
theorem assemble_noninterference {t t' : ModelTensors (Tensor α)}
    (hm : Model.ofTensors t = .ok model) (hm' : Model.ofTensors t' = .ok model')
    (hkernel : model'.kernel = model.kernel) (hrows : image'.rows = image.rows)
    (hcols : image'.cols = image.cols) (hchain : chain.Nonzero) (level : Nat) :
    (assemble image' level model' chain).map (fun _ => ()) =
      (assemble image level model chain).map (fun _ => ()) ∧
    ∀ program program', assemble image level model chain = .ok program →
      assemble image' level model' chain = .ok program' →
      program'.operands.names = program.operands.names ∧
      (∀ name, (program'.operands.get? name).map (·.scale) =
        (program.operands.get? name).map (·.scale)) ∧
      program'.outputScales = program.outputScales ∧
      (image' = image → program'.operands.get? "image" = program.operands.get? "image") ∧
      (∀ o, (∀ tap, model'.convWeight.get o tap = model.convWeight.get o tap) → ∀ rest : String,
        program'.operands.get? s!"conv_weight_{o}_{rest}" =
          program.operands.get? s!"conv_weight_{o}_{rest}") ∧
      (∀ o : Nat, model'.convBias[o]? = model.convBias[o]? →
        program'.operands.get? s!"conv_bias_{o}" = program.operands.get? s!"conv_bias_{o}") ∧
      (model'.fc1Weight = model.fc1Weight → ∀ rest : String,
        program'.operands.get? s!"fc1_w_{rest}" = program.operands.get? s!"fc1_w_{rest}") ∧
      (model'.fc1Bias = model.fc1Bias →
        program'.operands.get? "fc1_b" = program.operands.get? "fc1_b") ∧
      (model'.fc2Weight = model.fc2Weight → ∀ rest : String,
        program'.operands.get? s!"fc2_w_{rest}" = program.operands.get? s!"fc2_w_{rest}") ∧
      (model'.fc2Bias = model.fc2Bias →
        program'.operands.get? "fc2_b" = program.operands.get? "fc2_b") := by
  have sized := Model.ofTensors_sized hm
  have sized' := Model.ofTensors_sized hm'
  have hsize : model'.convBias.size = model.convBias.size := by
    rw [sized'.convBias, sized.convBias, hkernel]
  have hrows' : model'.convWeight.rows = model.convWeight.rows := by
    rw [sized'.channels, sized.channels, hkernel]
  have hcols' : model'.convWeight.cols = model.convWeight.cols := by
    rw [sized'.taps, sized.taps, hkernel]
  refine ⟨assemble_status_eq hm hm' hkernel hrows hcols hchain, fun program program' h h' => ?_⟩
  obtain ⟨a, ha⟩ := assemble_eq_ok.mp h
  obtain ⟨b, hb⟩ := assemble_eq_ok.mp h'
  refine ⟨ha.names_eq hb hsize, ha.scale_eq hb hsize, outputScales_eq h h' fun _ _ => rfl, ?_,
    fun o hrow => ha.convWeight_eq hb hsize hrows' hcols' hrow,
    fun o hx => ha.convBias_eq hb hsize hx, ha.fc1Weight_eq hb hsize, fun hv => ?_,
    ha.fc2Weight_eq hb hsize, fun hv => ?_⟩
  · rintro rfl
    exact ha.image_eq hb hkernel
  · exact ha.fc1_stored.get?_bias_eq (ha.fc1_stored_again hb) (by rw [hv])
  · exact ha.fc2_stored.get?_bias_eq (ha.fc2_stored_again hb) (by rw [hv])

/-- The weights of the first fully connected layer are doubled and the image is another one: the
operands that are made of neither stay. -/
theorem assemble_noninterference_of_doubled : ∃ model model' program program',
    Model.ofTensors (Model.constantTensors ⟨12, 2, 3⟩ 1) = .ok model ∧
    Model.ofTensors { Model.constantTensors ⟨12, 2, 3⟩ (1 : Int) with
      fc1Weight := .constant [256, 64] 2 } = .ok model' ∧
    assemble (⟨5, 6, Array.replicate 30 1, by simp, by decide⟩ : Matrix Int) 8 model .standard =
      .ok program ∧
    assemble (⟨5, 6, Array.replicate 30 7, by simp, by decide⟩ : Matrix Int) 8 model' .standard =
      .ok program' ∧
    program'.operands.names = program.operands.names ∧
    program'.operands.get? "conv_weight_11_120_24576" =
      program.operands.get? "conv_weight_11_120_24576" ∧
    program'.operands.get? "conv_bias_3" = program.operands.get? "conv_bias_3" ∧
    program'.operands.get? "fc2_w_384_1536" = program.operands.get? "fc2_w_384_1536" := by
  obtain ⟨model, program, hm, -, h⟩ := @exists_assemble_ok Int _
    ⟨5, 6, Array.replicate 30 1, by simp, by decide⟩ 8 .standard ⟨12, 2, 3⟩ 1 (by decide)
    (by decide) (by decide) (by decide) (by decide) PrimeChain.standard_nonzero (by decide)
    (by decide)
  obtain ⟨hcheck, hkernel, hw, hb, -, h1b, h2w, h2b⟩ := Model.ofTensors_eq_ok.mp hm
  obtain ⟨doubled, hdoubled⟩ := Tensor.constant_toMatrix (2 : Int) (show 0 < 256 by decide)
    (show 0 < 64 by decide) (by decide)
  have hm' : Model.ofTensors { Model.constantTensors ⟨12, 2, 3⟩ (1 : Int) with
      fc1Weight := .constant [256, 64] 2 } = .ok { model with fc1Weight := doubled } :=
    Model.ofTensors_eq_ok.mpr ⟨hcheck, hkernel, hw, hb, hdoubled, h1b, h2w, h2b⟩
  obtain ⟨status, agree⟩ := @assemble_noninterference _ _
    ⟨5, 6, Array.replicate 30 1, by simp, by decide⟩
    ⟨5, 6, Array.replicate 30 7, by simp, by decide⟩ model { model with fc1Weight := doubled }
    .standard _ _ hm hm' rfl rfl rfl PrimeChain.standard_nonzero 8
  rw [h] at status
  obtain ⟨program', h', -⟩ := map_eq_ok.mp status
  obtain ⟨names, -, -, -, convWeight, convBias, -, -, fc2Weight, -⟩ := agree program program' h h'
  exact ⟨model, _, program, program', hm, hm', h, h', names,
    convWeight 11 (fun _ => rfl) "120_24576", convBias 3 rfl, fc2Weight rfl "384_1536"⟩

end Runs
end SlotPacking
