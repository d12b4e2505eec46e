import SlotPacking.Program
import SlotPacking.Proofs.ConvOutputs
import SlotPacking.Proofs.DenseOutputs
import SlotPacking.Proofs.ModelTensors

/-!
Assembled programs. The stages of an assembly feed each other in one order, and
each adds its operands to what is there, so the program holds the operands of
every stage. The five stages cost seven levels.
-/
namespace SlotPacking
open Result SlotPacking.Bundle

/-- The name starts with one of the given texts. -/
def StartsIn (starts : List String) (name : String) : Prop :=
  ∃ s ∈ starts, s.toList <+: name.toList

/-- A bundle whose names all start in a new way is merged with what is there. -/
theorem merge_starting {α : Type} {a b : Bundle α slotCount} {starts : List String} {start : String}
    (ha : a.NamedBy (StartsIn starts)) (hb : b.NamedBy fun name => start.toList <+: name.toList)
    (new : ∀ s ∈ starts, s.toList.length = start.toList.length ∧ s.toList ≠ start.toList) :
    ∃ union, a.merge b = .ok union ∧ union.NamedBy (StartsIn (start :: starts)) := by
  obtain ⟨union, hunion⟩ := merge_succeeds ha hb fun name ⟨s, hs, h⟩ hstart =>
    ne_of_starts (new s hs).1 (new s hs).2 h hstart
  refine ⟨union, hunion, merge_namedBy hunion (ha.mono ?_) (hb.mono ?_)⟩
  · exact fun name ⟨s, hs, h⟩ => ⟨s, List.mem_cons_of_mem start hs, h⟩
  · exact fun name h => ⟨start, List.mem_cons_self, h⟩

/-- What an assembly computes on its way. -/
structure Assembly (α : Type) where
  input : Metadata
  packed : Slots α
  start : Bundle α slotCount
  conv : PackedLayer α
  withConv : Bundle α slotCount
  convSquare : Metadata
  fc1 : PackedLayer α
  withFc1 : Bundle α slotCount
  fc1Square : Metadata
  prediction : PackedLayer α

namespace Assembly
variable {α : Type} [Zero α]

/-- The scales of the stages. -/
def outputScales (a : Assembly α) : ScaleTable :=
  ((((ScaleTable.record ∅ .conv a.conv.output).record .convSquare a.convSquare).record .fc1
    a.fc1.output).record .fc1Square a.fc1Square).record .prediction a.prediction.output

/-- Every stage succeeds on what the stages before it give. -/
structure Computes (a : Assembly α) (image : Matrix α) (level : Nat) (model : Model α)
    (chain : PrimeChain) (program : Program α) : Prop where
  input : Metadata.new (Scale.pow2 imageScaleBits) level = .ok a.input
  packed : packImage image model.kernel convStride = .ok a.packed
  start : Bundle.insert ∅ ⟨Program.imageName, a.packed, a.input.scale⟩ = .ok a.start
  conv : packConv a.input model.convWeight model.convBias chain = .ok a.conv
  withConv : a.start.merge a.conv.operands = .ok a.withConv
  convSquare : a.conv.output.square chain = .ok a.convSquare
  fc1 : packDense .fc1 a.convSquare model.fc1Weight model.fc1Bias chain = .ok a.fc1
  withFc1 : a.withConv.merge a.fc1.operands = .ok a.withFc1
  fc1Square : a.fc1.output.square chain = .ok a.fc1Square
  prediction : packDense .fc2 a.fc1Square model.fc2Weight model.fc2Bias chain = .ok a.prediction
  operands : a.withFc1.merge a.prediction.operands = .ok program.operands
  outputScales : program.outputScales = a.outputScales

end Assembly

section Assemble
variable {α : Type} [Zero α] {image : Matrix α} {level : Nat} {model : Model α}
  {chain : PrimeChain} {program : Program α}

/-- A program is assembled exactly when all stages succeed. -/
theorem assemble_eq_ok : assemble image level model chain = .ok program ↔
    ∃ a : Assembly α, a.Computes image level model chain program := by
  simp only [assemble, bind_eq_ok]
  constructor
  · rintro ⟨input, h1, packed, h2, start, h3, conv, h4, withConv, h5, convSquare, h6, fc1, h7,
      withFc1, h8, fc1Square, h9, prediction, h10, operands, h11, h⟩
    obtain rfl := Except.ok.inj h
    exact ⟨⟨input, packed, start, conv, withConv, convSquare, fc1, withFc1, fc1Square, prediction⟩,
      h1, h2, h3, h4, h5, h6, h7, h8, h9, h10, h11, rfl⟩
  · rintro ⟨a, h⟩
    refine ⟨_, h.input, _, h.packed, _, h.start, _, h.conv, _, h.withConv, _, h.convSquare, _,
      h.fc1, _, h.withFc1, _, h.fc1Square, _, h.prediction, _, h.operands, ?_⟩
    exact congrArg Except.ok (congrArg (Program.mk program.operands) h.outputScales.symm)

namespace Assembly.Computes
variable {a : Assembly α}

theorem extends_withFc1 (h : a.Computes image level model chain program) :
    Extends a.withFc1 program.operands := extends_merge_left h.operands

theorem extends_withConv (h : a.Computes image level model chain program) :
    Extends a.withConv program.operands := (extends_merge_left h.withFc1).trans h.extends_withFc1

/-- The program holds the packed image. -/
theorem image_stored (h : a.Computes image level model chain program) :
    program.operands.get? Program.imageName =
      some ⟨Program.imageName, a.packed, a.input.scale⟩ :=
  ((extends_merge_left h.withConv).trans h.extends_withConv) _ _ (insert_stores h.start)

/-- The program holds the operands of the convolution. -/
theorem extends_conv (h : a.Computes image level model chain program) :
    Extends a.conv.operands program.operands :=
  (extends_merge_right h.withConv).trans h.extends_withConv

/-- The program holds the operands of the first fully connected layer. -/
theorem extends_fc1 (h : a.Computes image level model chain program) :
    Extends a.fc1.operands program.operands :=
  (extends_merge_right h.withFc1).trans h.extends_withFc1

/-- The program holds the operands of the second fully connected layer. -/
theorem extends_prediction (h : a.Computes image level model chain program) :
    Extends a.prediction.operands program.operands := extends_merge_right h.operands

/-- The names of the program, layer by layer. -/
theorem names (h : a.Computes image level model chain program) :
    program.operands.names.Perm (Program.imageName ::
      ((List.range model.convBias.size).flatMap channelNames ++ DenseLayout.fc1.names ++
        DenseLayout.fc2.names)) := by
  have withConv := (merge_names h.withConv).trans
    ((insert_names h.start).append (packConv_names h.conv))
  have withFc1 := (merge_names h.withFc1).trans
    (withConv.append (packDense_names DenseLayout.fc1_aligned h.fc1))
  exact (merge_names h.operands).trans
    (withFc1.append (packDense_names DenseLayout.fc2_aligned h.prediction))

/-- The chain reaches the level of the image, and the stages go down from it level by level. -/
theorem levels (h : a.Computes image level model chain program) :
    level ≤ chain.length ∧ a.input.level = level ∧ a.conv.output.level + 1 = level ∧
      a.convSquare.level + 3 = level ∧ a.fc1.output.level + 4 = level ∧
      a.fc1Square.level + 6 = level ∧ a.prediction.output.level + 7 = level := by
  obtain ⟨-, -, -, hinput⟩ := Metadata.new_eq_ok.mp h.input
  obtain ⟨hl, hconv, -⟩ := packConv_output h.conv
  obtain ⟨hconvSquare, -⟩ := Metadata.square_value h.convSquare
  obtain ⟨-, hfc1, -⟩ := packDense_output DenseLayout.fc1_aligned h.fc1
  obtain ⟨hfc1Square, -⟩ := Metadata.square_value h.fc1Square
  obtain ⟨-, hprediction, -⟩ := packDense_output DenseLayout.fc2_aligned h.prediction
  omega

theorem input_level (h : a.Computes image level model chain program) : a.input.level = level :=
  h.levels.2.1

theorem conv_level (h : a.Computes image level model chain program) :
    a.conv.output.level = level - 1 := by
  have := h.levels
  omega

theorem convSquare_level (h : a.Computes image level model chain program) :
    a.convSquare.level = level - 3 := by
  have := h.levels
  omega

theorem fc1_level (h : a.Computes image level model chain program) :
    a.fc1.output.level = level - 4 := by
  have := h.levels
  omega

theorem fc1Square_level (h : a.Computes image level model chain program) :
    a.fc1Square.level = level - 6 := by
  have := h.levels
  omega

theorem prediction_level (h : a.Computes image level model chain program) :
    a.prediction.output.level + 7 = level := h.levels.2.2.2.2.2.2

end Assembly.Computes

end Assemble

section Cost
variable {α : Type} [Zero α] {image : Matrix α} {level : Nat} {model : Model α}
  {chain : PrimeChain} {input : Metadata}

theorem packConv_spends {kernels : Matrix α} {bias : Array α} (hcols : kernels.cols ≤ imageLanes)
    (hs : bias.size = kernels.rows) (h0 : 0 < kernels.rows) (hchain : chain.Nonzero)
    (hl : input.level ≤ chain.length) :
    Spends 1 input.level (fun k out => out.output.level = k ∧
      out.operands.NamedBy fun name => ∃ o, ChannelName o name)
      (packConv input kernels bias chain) where
  short h := by
    have h1 : input.level = 1 := Nat.le_antisymm h input.level_pos
    exact packConv_error hcols hs h0 (h1 ▸ chain.matrixPrimes_at_one)
  enough h := by
    obtain ⟨out, hout, hlevel, hnames⟩ := packConv_succeeds hcols hs h0 hchain h hl
    exact ⟨out, hout, by omega, hnames⟩

theorem packDense_spends {layout : DenseLayout} {weights : Matrix α} {bias : Array α}
    (haligned : layout.Aligned) (hr : weights.rows = layout.inputs)
    (hc : weights.cols = layout.outputs) (hb : bias.size = layout.outputs)
    (hchain : chain.Nonzero) (hl : input.level ≤ chain.length) :
    Spends 1 input.level (fun k out => out.output.level = k ∧
      out.operands.NamedBy fun name => (layout.name ++ "_").toList <+: name.toList)
      (packDense layout input weights bias chain) where
  short h := by
    have h1 : input.level = 1 := Nat.le_antisymm h input.level_pos
    exact packDense_error haligned hr hc hb (h1 ▸ chain.matrixPrimes_at_one)
  enough h := by
    obtain ⟨out, hout, hlevel, hnames⟩ := packDense_succeeds haligned hr hc hb hchain h hl
    exact ⟨out, hout, by omega, hnames.mono fun _ => DenseLayout.name_starts⟩

theorem inputMetadata_succeeds (h0 : 0 < level) :
    ∃ input, Metadata.new (Scale.pow2 imageScaleBits) level = .ok input ∧ input.level = level := by
  obtain ⟨input, hinput, -, hlevel⟩ := Metadata.new_succeeds h0
    (show (Scale.pow2 imageScaleBits).IsPositive by decide)
  exact ⟨input, hinput, hlevel⟩

/-- With a packed image and a modulus for its level, an assembly fails for want of levels only. -/
theorem assemble_spends (hm : model.Sized) {packed : Slots α}
    (hpacked : packImage image model.kernel convStride = .ok packed) (hchain : chain.Nonzero)
    (h1 : 0 < level) (hl : level ≤ chain.length) :
    Spends 7 level (fun _ _ => True) (assemble image level model chain) := by
  obtain ⟨-, -, ht, -, -⟩ := packImage_eq_ok hpacked
  obtain ⟨input, hinput, hlevel⟩ := inputMetadata_succeeds h1
  obtain ⟨start, hstart⟩ : ∃ start : Bundle α slotCount,
      Bundle.insert ∅ ⟨Program.imageName, packed, input.scale⟩ = .ok start :=
    ⟨_, insert_succeeds rfl⟩
  have startNames : start.NamedBy (StartsIn ["imag"]) :=
    insert_namedBy hstart namedBy_empty ⟨"imag", by simp, by simp [Program.imageName]⟩
  rw [assemble, hinput, ok_bind, hpacked, ok_bind, hstart, ok_bind, ← hlevel]
  refine (packConv_spends (hm.taps.trans_le ht) (hm.convBias.trans hm.channels.symm)
    (hm.channels ▸ hm.outChannels_pos) hchain (by omega)).bind
      fun conv _ _ ⟨convLevel, convNames⟩ => ?_
  obtain ⟨withConv, hwithConv, withConvNames⟩ :=
    merge_starting startNames (convNames.mono fun _ ⟨_, h⟩ => h.starts) (by simp)
  rw [hwithConv, ok_bind, ← convLevel]
  refine (Metadata.square_spends hchain (by omega)).bind fun convSquare _ _ squareLevel => ?_
  rw [← squareLevel]
  refine (packDense_spends DenseLayout.fc1_aligned hm.fc1Rows hm.fc1Cols hm.fc1Bias hchain
    (by omega)).bind fun fc1 _ _ ⟨fc1Level, fc1Names⟩ => ?_
  obtain ⟨withFc1, hwithFc1, withFc1Names⟩ :=
    merge_starting withConvNames fc1Names (by simp [DenseLayout.fc1])
  rw [hwithFc1, ok_bind, ← fc1Level]
  refine (Metadata.square_spends hchain (by omega)).bind fun fc1Square _ _ fc1SquareLevel => ?_
  rw [← fc1SquareLevel]
  refine (packDense_spends DenseLayout.fc2_aligned hm.fc2Rows hm.fc2Cols hm.fc2Bias hchain
    (by omega)).bind fun prediction _ enough ⟨_, predictionNames⟩ => ?_
  obtain ⟨operands, hoperands, -⟩ := merge_starting withFc1Names predictionNames
    (by simp [DenseLayout.fc1, DenseLayout.fc2])
  rw [hoperands, ok_bind]
  exact .free rfl (by omega) trivial

/-- A sized model whose image fits the lanes is assembled at every level from eight on that the
chain reaches. -/
theorem assemble_succeeds (hm : model.Sized) {dims : OutputDims}
    (hdims : model.kernel.outputDims image.rows image.cols convStride = .ok dims)
    (hp : dims.height * dims.width ≤ imageLanes)
    (ht : model.kernel.height * model.kernel.width ≤ imageLanes) (hchain : chain.Nonzero)
    (h8 : 8 ≤ level) (hl : level ≤ chain.length) :
    ∃ program, assemble image level model chain = .ok program := by
  obtain ⟨packed, hpacked⟩ := packImage_succeeds hdims hp ht
  obtain ⟨program, hprogram, -⟩ :=
    (assemble_spends hm hpacked hchain (by omega) hl).enough (by omega)
  exact ⟨program, hprogram⟩

/-- A sized model whose kernel has taps and fits the image is assembled at every level from eight on
that the chain reaches. -/
theorem assemble_succeeds_of_fits (hm : model.Sized) (hh : 0 < model.kernel.height)
    (hw : 0 < model.kernel.width)
    (hfits : model.kernel.misfit? image.rows image.cols convStride = none) (hchain : chain.Nonzero)
    (h8 : 8 ≤ level) (hl : level ≤ chain.length) :
    ∃ program, assemble image level model chain = .ok program := by
  have packs := @packImage_outcome _ _ image _ _ (show 0 < convStride by decide) hh hw
  rw [hfits] at packs
  obtain ⟨packed, hpacked⟩ := packs
  obtain ⟨program, hprogram, -⟩ :=
    (assemble_spends hm hpacked hchain (by omega) hl).enough (by omega)
  exact ⟨program, hprogram⟩

/-- Every kernel with taps has parameters from which a program is assembled, for every image that it
fits and every level from eight on that the chain reaches. -/
theorem exists_assemble_ok {kernel : Kernel} (x : α) (hout : 0 < kernel.outChannels)
    (hh : 0 < kernel.height) (hw : 0 < kernel.width)
    (hv : kernel.outChannels * (kernel.height * kernel.width) < Word.bound)
    (hfits : kernel.misfit? image.rows image.cols convStride = none) (hchain : chain.Nonzero)
    (h8 : 8 ≤ level) (hl : level ≤ chain.length) :
    ∃ model program, Model.ofTensors (Model.constantTensors kernel x) = .ok model ∧
      model.kernel = kernel ∧ assemble image level model chain = .ok program := by
  obtain ⟨model, hm, rfl⟩ := Model.ofTensors_constant x hout hh hw hv
  obtain ⟨program, hprogram⟩ :=
    assemble_succeeds_of_fits (Model.ofTensors_sized hm) hh hw hfits hchain h8 hl
  exact ⟨model, program, hm, rfl, hprogram⟩

end Cost
end SlotPacking
