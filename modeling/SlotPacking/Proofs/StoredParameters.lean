import SlotPacking.Proofs.ModelParameters
import SlotPacking.Proofs.ProgramContents
import SlotPacking.Proofs.ProgramDependence
import SlotPacking.Proofs.WeightCells

/-!
Where a program stores the parameters of its model. A cell stores a parameter when
it holds its value in every program for models of the kernel; these cells are the
ones the parameter is placed in. A weight of a fully connected layer has one of
them and a tap of a channel one in each lane, so a program gives its model back.
-/
namespace SlotPacking
open Result Circuit SlotPacking.Bundle

namespace Parameter

/-- The cells that a parameter is placed in. -/
def At (kernel : Kernel) : Parameter → Cell → Prop
  | convWeight channel tap => WeightCell (convWeightName channel) .conv
      (Placement.convAll channel (kernel.height * kernel.width)) channel tap
  | convBias channel => BiasCell (convBiasName channel) 1 imageLanes 0
  | fc1Weight input output => WeightCell "fc1_w" .fc1 (Placement.denseAll .fc1) input output
  | fc1Bias output => BiasCell "fc1_b" 64 256 output
  | fc2Weight input output => WeightCell "fc2_w" .fc2 (Placement.denseAll .fc2) input output
  | fc2Bias output => BiasCell "fc2_b" 16 256 output

variable {kernel : Kernel} {p : Parameter} {cell : Cell}

theorem At.ne_image (h : p.At kernel cell) : cell.1 ≠ "image" := by
  have image : '_' ∉ "image".toList := by decide
  suffices '_' ∈ cell.1.toList from fun heq => image (heq ▸ this)
  have weight {base : String} {s : Split} {ps : List Placement} {row col : Nat}
      (h : WeightCell base s ps row col cell) : '_' ∈ cell.1.toList := by
    obtain ⟨p, -, -, -, rfl⟩ := h
    simp [gridCell, cellName_toList]
  cases p with
  | convWeight channel tap => exact weight h
  | convBias channel =>
    obtain ⟨l, -, -, rfl⟩ := h
    simp [convBiasName_toList]
  | fc1Weight input output => exact weight h
  | fc1Bias output =>
    obtain ⟨l, -, -, rfl⟩ := h
    exact (by decide : '_' ∈ "fc1_b".toList)
  | fc2Weight input output => exact weight h
  | fc2Bias output =>
    obtain ⟨l, -, -, rfl⟩ := h
    exact (by decide : '_' ∈ "fc2_b".toList)

theorem exists_at (hp : p.Of kernel) (htaps : kernel.height * kernel.width ≤ imageLanes) :
    ∃ cell, p.At kernel cell := by
  cases p with
  | convWeight channel tap =>
    exact ⟨_, _, Placement.ofTap_mem channel hp.2 htaps (show 0 < imageLanes by decide), rfl, rfl,
      rfl⟩
  | convBias channel => exact ⟨_, 0, by decide, rfl, rfl⟩
  | fc1Weight input output =>
    obtain ⟨pl, ⟨hpl, hrow, hcol⟩, -⟩ :=
      Placement.existsUnique_dense DenseLayout.fc1_aligned hp.1 hp.2
    exact ⟨_, pl, hpl, hrow, hcol, rfl⟩
  | fc1Bias output =>
    exact ⟨_, output, Nat.lt_trans hp (by decide), Nat.mod_eq_of_lt hp, rfl⟩
  | fc2Weight input output =>
    obtain ⟨pl, ⟨hpl, hrow, hcol⟩, -⟩ :=
      Placement.existsUnique_dense DenseLayout.fc2_aligned hp.1 hp.2
    exact ⟨_, pl, hpl, hrow, hcol, rfl⟩
  | fc2Bias output =>
    exact ⟨_, output, Nat.lt_trans hp (by decide),
      Nat.mod_eq_of_lt (Nat.lt_trans hp (by decide)), rfl⟩

end Parameter

section Program
variable {α : Type} [Zero α] {image : Matrix α} {level : Nat} {model : Model α}
  {chain : PrimeChain} {program : Program α} {a : Assembly α} {p : Parameter} {cell : Cell}

namespace Assembly.Computes

theorem channel_placed (hm : model.Sized) {o : Nat} (op : DiagonalOperator α slotCount)
    (hop : DiagonalOperator.conv model.convWeight o = .ok op) :
    DiagonalOperator.ofPlacements op.count
      (Placement.convAll o (model.kernel.height * model.kernel.width)) model.convWeight =
        .ok op := by
  obtain ⟨-, -, -, placed⟩ := DiagonalOperator.conv_eq_ok hop
  rwa [hm.taps] at placed

theorem dense_placed {layout : DenseLayout} {weights : Matrix α} {s : Split}
    (op : DiagonalOperator α slotCount) (hop : DiagonalOperator.dense layout weights s = .ok op) :
    DiagonalOperator.ofPlacements op.count (Placement.denseAll layout) weights = .ok op :=
  (DiagonalOperator.dense_eq_ok hop).2.2.2

theorem parameter_at (ha : a.Computes image level model chain program) (hm : model.Sized)
    (hp : p.Of model.kernel) (hcell : p.At model.kernel cell) :
    program.operands.HoldsAt cell (p.value model) := by
  have bias {o : Nat} (ho : o < model.kernel.outChannels) :
      model.convBias[o]? = some (model.convBias.getD o 0) := by
    rw [← hm.convBias] at ho
    rw [Array.getElem?_eq_getElem ho, Array.getElem_eq_getD 0]
  cases p with
  | convWeight o tap =>
    exact (ha.channel_stored (bias hp.1)).weight_at (channel_placed hm)
      (Placement.fit_convAll o _) hcell
  | convBias o => exact (ha.channel_stored (bias hp)).bias_at hcell
  | fc1Weight input output =>
    exact ha.fc1_stored.weight_at dense_placed (Placement.fit_denseAll DenseLayout.fc1_aligned)
      hcell
  | fc1Bias output => exact ha.fc1_stored.bias_at hcell
  | fc2Weight input output =>
    exact ha.fc2_stored.weight_at dense_placed (Placement.fit_denseAll DenseLayout.fc2_aligned)
      hcell
  | fc2Bias output => exact ha.fc2_stored.bias_at hcell

theorem exists_parameter (ha : a.Computes image level model chain program) (hm : model.Sized)
    {name : String} {operand : Operand α slotCount} {i : Nat} (himage : name ≠ "image")
    (hget : program.operands.get? name = some operand) (hne : operand.values.slot i ≠ 0) :
    ∃ p : Parameter, p.Of model.kernel ∧ p.At model.kernel (name, i) := by
  have hname : name ∈ program.operands.names := NameMap.mem_names.mpr ⟨operand, hget⟩
  rcases ha.mem_names.mp hname with himage' | ⟨o, ho, hname⟩ | hname | hname
  · exact absurd himage' himage
  · have stored := ha.channel_stored (Array.getElem?_eq_getElem ho)
    have hchannel : o < model.kernel.outChannels := ho.trans_eq hm.convBias
    rcases List.mem_cons.mp hname with rfl | hname
    · obtain ⟨output, houtput, hcell⟩ := stored.exists_lane hget hne
      obtain rfl : output = 0 := Nat.lt_one_iff.mp houtput
      exact ⟨.convBias o, hchannel, hcell⟩
    · obtain ⟨pl, hpl, hcell⟩ := stored.exists_placement (channel_placed hm) hname hget hne
      obtain ⟨_, -, lane, -, htap, rfl⟩ := Placement.mem_convAll.mp hpl
      exact ⟨.convWeight o _, ⟨hchannel, htap⟩, hcell⟩
  · have stored := ha.fc1_stored
    rcases List.mem_cons.mp hname with rfl | hname
    · obtain ⟨output, houtput, hcell⟩ := stored.exists_lane hget hne
      exact ⟨.fc1Bias output, houtput.trans_eq hm.fc1Bias, hcell⟩
    · obtain ⟨pl, hpl, hcell⟩ := stored.exists_placement dense_placed hname hget hne
      obtain ⟨_, -, lane, -, houtput, rfl⟩ := Placement.mem_denseAll.mp hpl
      exact ⟨.fc1Weight _ _, ⟨Nat.mod_lt _ (by decide), houtput⟩, hcell⟩
  · have stored := ha.fc2_stored
    rcases List.mem_cons.mp hname with rfl | hname
    · obtain ⟨output, houtput, hcell⟩ := stored.exists_lane hget hne
      exact ⟨.fc2Bias output, houtput.trans_eq hm.fc2Bias, hcell⟩
    · obtain ⟨pl, hpl, hcell⟩ := stored.exists_placement dense_placed hname hget hne
      obtain ⟨_, -, lane, -, houtput, rfl⟩ := Placement.mem_denseAll.mp hpl
      exact ⟨.fc2Weight _ _, ⟨Nat.mod_lt _ (by decide), houtput⟩, hcell⟩

end Assembly.Computes
end Program

/-- The cell holds the parameter in every program for a model of the kernel, whatever the entries
are, the image, the level and the chain. -/
def Stores (kernel : Kernel) (cell : Cell) (p : Parameter) : Prop :=
  ∀ {β : Type} [Zero β] {t : ModelTensors (Tensor β)} {model : Model β} {image : Matrix β}
    {level : Nat} {chain : PrimeChain} {program : Program β}, Model.ofTensors t = .ok model →
    model.kernel = kernel → assemble image level model chain = .ok program →
    program.operands.HoldsAt cell (p.value model)

/-- There are programs for models of the kernel and images of the given size. -/
structure Kernel.Packable (kernel : Kernel) (rows cols : Nat) : Prop where
  outChannels_pos : 0 < kernel.outChannels
  height_pos : 0 < kernel.height
  width_pos : 0 < kernel.width
  addressable : kernel.outChannels * (kernel.height * kernel.width) < Word.bound
  image_addressable : rows * cols < Word.bound
  fits : kernel.misfit? rows cols convStride = none

section Stored
variable {kernel : Kernel} {rows cols : Nat} {p : Parameter} {cell : Cell}

theorem Kernel.Packable.taps_le (hk : kernel.Packable rows cols) :
    kernel.height * kernel.width ≤ imageLanes := by
  have fits := hk.fits
  simp only [Kernel.misfit?] at fits
  split_ifs at fits with hsmall htaps hpositions
  exact Nat.le_of_not_lt htaps

theorem packable_of_assemble {α : Type} [Zero α] {t : ModelTensors (Tensor α)} {model : Model α}
    {image : Matrix α} {level : Nat} {chain : PrimeChain} {program : Program α}
    (hm : Model.ofTensors t = .ok model) (h : assemble image level model chain = .ok program) :
    model.kernel.Packable image.rows image.cols := by
  obtain ⟨a, ha⟩ := assemble_eq_ok.mp h
  obtain ⟨hh, hw⟩ := Model.ofTensors_kernel_pos hm
  have sized := Model.ofTensors_sized hm
  have addressable := model.convWeight.addressable
  rw [sized.channels, sized.taps] at addressable
  exact ⟨sized.outChannels_pos, hh, hw, addressable, image.addressable,
    packImage_fits (by decide) hh hw ha.packed⟩

theorem Kernel.Packable.exists_assemble {β : Type} [Zero β] (image : Matrix β)
    (hk : kernel.Packable image.rows image.cols) (f : Parameter → β) :
    ∃ t model program, Model.ofTensors t = .ok model ∧ model.kernel = kernel ∧
      (∀ p : Parameter, p.Of kernel → p.value model = f p) ∧
      assemble image 8 model .standard = .ok program := by
  have sized := @Model.sized_ofParameters _ kernel hk.addressable f hk.outChannels_pos
  obtain ⟨t, ht⟩ := sized.accepted hk.height_pos hk.width_pos
  obtain ⟨program, h⟩ := @assemble_succeeds_of_fits _ _ image 8 _ .standard sized hk.height_pos
    hk.width_pos hk.fits PrimeChain.standard_nonzero (by decide) (by decide)
  exact ⟨t, _, program, ht, rfl, fun p hp => Model.value_ofParameters hp, h⟩

theorem Stores.ne_image (hk : kernel.Packable rows cols) (hp : p.Of kernel)
    (stored : Stores kernel cell p) : cell.1 ≠ "image" := by
  intro heq
  -- Two models that differ in the parameter are packed with one image.
  let image : Matrix Nat := .ofEntries rows cols hk.image_addressable fun _ _ => 0
  obtain ⟨t, ones, program, hm, hkernel, value, h⟩ := hk.exists_assemble image fun _ => 1
  obtain ⟨t', zeros, program', hm', hkernel', value', h'⟩ := hk.exists_assemble image fun _ => 0
  obtain ⟨a, ha⟩ := assemble_eq_ok.mp h
  obtain ⟨b, hb⟩ := assemble_eq_ok.mp h'
  obtain ⟨operand, hget, -, hslot⟩ := stored hm hkernel h
  obtain ⟨operand', hget', -, hslot'⟩ := stored hm' hkernel' h'
  rw [value p hp] at hslot
  rw [value' p hp] at hslot'
  have same := ha.image_eq hb (hkernel'.trans hkernel.symm)
  rw [heq] at hget hget'
  rw [hget, hget', Option.some_inj] at same
  rw [same, hslot] at hslot'
  exact Nat.one_ne_zero hslot'

/-- A parameter is stored in the cells that it is placed in and in no others. -/
theorem stores_iff (hk : kernel.Packable rows cols) (hp : p.Of kernel) :
    Stores kernel cell p ↔ p.At kernel cell := by
  constructor
  · intro stored
    have himage := stored.ne_image hk hp
    -- Where the other parameters are zero, only a cell of the parameter itself is not.
    let image : Matrix Nat := .ofEntries rows cols hk.image_addressable fun _ _ => 0
    obtain ⟨t, model, program, hm, hkernel, value, h⟩ :=
      hk.exists_assemble image fun q => if q = p then 1 else 0
    obtain ⟨a, ha⟩ := assemble_eq_ok.mp h
    obtain ⟨operand, hget, -, hslot⟩ := stored hm hkernel h
    rw [value p hp, if_pos rfl] at hslot
    have sized := Model.ofTensors_sized hm
    obtain ⟨q, hq, hcell⟩ := ha.exists_parameter sized himage hget (hslot ▸ Nat.one_ne_zero)
    obtain ⟨operand', hget', -, hslot'⟩ := ha.parameter_at sized hq hcell
    obtain rfl := Option.some.inj (hget.symm.trans hget')
    rw [hkernel] at hq hcell
    rw [value q hq, hslot] at hslot'
    by_cases hqp : q = p
    · exact hqp ▸ hcell
    · rw [if_neg hqp] at hslot'
      exact absurd hslot' Nat.one_ne_zero
  · intro hcell β _ t model image level chain program hm hkernel h
    subst hkernel
    obtain ⟨a, ha⟩ := assemble_eq_ok.mp h
    exact ha.parameter_at (Model.ofTensors_sized hm) hp hcell

theorem exists_stores_dense (hk : kernel.Packable rows cols) (hp : p.Of kernel) (base : String)
    {layout : DenseLayout} (hl : layout.Aligned) {f c : Nat} (hf : f < layout.inputs)
    (hc : c < layout.outputs) (at_iff : ∀ cell, p.At kernel cell ↔
      WeightCell base layout.split (Placement.denseAll layout) f c cell) :
    ∃ cell : Cell, cell.1 ∈ gridNames base layout.split.babyCount layout.split.babyStride
      layout.split.giantCount layout.split.giantStride ∧
      ∀ cell', Stores kernel cell' p ↔ cell' = cell := by
  obtain ⟨cell, hcell⟩ : ∃ cell, ∀ cell', WeightCell base layout.split (Placement.denseAll layout)
      f c cell' ↔ cell' = cell := WeightCell.iff_cell (Placement.existsUnique_dense hl hf hc)
  refine ⟨cell, ?_, fun cell' => ?_⟩
  · rw [← cellNames_eq_gridNames]
    exact ((hcell cell).mpr rfl).mem_names (hl.grid.symm ▸ Placement.fit_denseAll hl)
  · rw [stores_iff hk hp, at_iff, hcell]

theorem exists_stores_conv (hk : kernel.Packable rows cols) {o tap : Nat}
    (ho : o < kernel.outChannels) (ht : tap < kernel.height * kernel.width) :
    ∃ cells : Nat → Cell, (∀ lane < 64, (cells lane).1 ∈ gridNames s!"conv_weight_{o}" 16 8 4 8192 ∧
        (cells lane).2 % 8192 = 128 * lane) ∧
      ∀ cell, Stores kernel cell (.convWeight o tap) ↔ ∃ lane < 64, cell = cells lane := by
  obtain ⟨cells, hlane, hcells⟩ := @WeightCell.conv_iff_lane (convWeightName o) o _ _ ht hk.taps_le
  refine ⟨cells, fun lane hl => ⟨?_, hlane lane hl⟩, fun cell => ?_⟩
  · have names := ((hcells _).mpr ⟨lane, hl, rfl⟩).mem_names (Placement.fit_convAll o _)
    rwa [cellNames_eq_gridNames] at names
  · rw [stores_iff hk (show Parameter.Of kernel (.convWeight o tap) from ⟨ho, ht⟩)]
    exact hcells cell

end Stored

section Kept
variable {α : Type} [Zero α] {image image' : Matrix α} {level level' : Nat}
  {model model' : Model α} {chain chain' : PrimeChain} {program program' : Program α}

theorem model_eq_of_values {t t' : ModelTensors (Tensor α)} (hm : Model.ofTensors t = .ok model)
    (hm' : Model.ofTensors t' = .ok model') (hkernel : model'.kernel = model.kernel)
    (h : assemble image level model chain = .ok program)
    (h' : assemble image' level' model' chain' = .ok program')
    (same : ∀ name ≠ "image", (program'.operands.get? name).map (·.values) =
      (program.operands.get? name).map (·.values)) : model' = model := by
  obtain ⟨a, ha⟩ := assemble_eq_ok.mp h
  obtain ⟨b, hb⟩ := assemble_eq_ok.mp h'
  have sized := Model.ofTensors_sized hm
  have sized' := Model.ofTensors_sized hm'
  refine Model.ext_parameters sized sized' hkernel fun p hp => ?_
  obtain ⟨cell, hcell⟩ := Parameter.exists_at hp (packable_of_assemble hm h).taps_le
  obtain ⟨operand, hget, -, hslot⟩ := ha.parameter_at sized hp hcell
  obtain ⟨operand', hget', -, hslot'⟩ := hb.parameter_at sized' (hkernel.symm ▸ hp)
    (hkernel.symm ▸ hcell)
  have values := same cell.1 hcell.ne_image
  rw [hget, hget', Option.map_some, Option.map_some, Option.some_inj] at values
  rw [← hslot', values, hslot]

/-- A program loses no parameter: programs that hold the same weights and biases under every name
are for the same model, whatever their images, levels and chains are. Each weight of a fully
connected layer is stored in exactly one cell of its layer, and each tap of a channel in exactly one
cell for each of the 64 lanes. -/
theorem assemble_keeps_parameters {t t' : ModelTensors (Tensor α)}
    (hm : Model.ofTensors t = .ok model) (hm' : Model.ofTensors t' = .ok model')
    (hkernel : model'.kernel = model.kernel) (h : assemble image level model chain = .ok program)
    (h' : assemble image' level' model' chain' = .ok program') :
    ((∀ name ≠ "image", (program'.operands.get? name).map (·.values) =
      (program.operands.get? name).map (·.values)) → model' = model) ∧
    (∀ f < 256, ∀ c < 64, ∃ cell : Cell, cell.1 ∈ gridNames "fc1_w" 8 128 8 1024 ∧
      ∀ cell', Stores model.kernel cell' (.fc1Weight f c) ↔ cell' = cell) ∧
    (∀ f < 64, ∀ c < 10, ∃ cell : Cell, cell.1 ∈ gridNames "fc2_w" 4 128 4 512 ∧
      ∀ cell', Stores model.kernel cell' (.fc2Weight f c) ↔ cell' = cell) ∧
    ∀ o < model.kernel.outChannels, ∀ tap < model.kernel.height * model.kernel.width,
      ∃ cells : Nat → Cell, (∀ lane < 64,
          (cells lane).1 ∈ gridNames s!"conv_weight_{o}" 16 8 4 8192 ∧
          (cells lane).2 % 8192 = 128 * lane) ∧
        ∀ cell, Stores model.kernel cell (.convWeight o tap) ↔ ∃ lane < 64, cell = cells lane := by
  have packable := packable_of_assemble hm h
  refine ⟨model_eq_of_values hm hm' hkernel h h', fun f hf c hc => ?_, fun f hf c hc => ?_,
    fun o ho tap ht => exists_stores_conv packable ho ht⟩
  -- Each cell is found by itself: against the goal, the numerals of the layout would be unfolded.
  · have hp : Parameter.Of model.kernel (.fc1Weight f c) := ⟨hf, hc⟩
    have cells := exists_stores_dense packable hp "fc1_w" DenseLayout.fc1_aligned hf hc
      fun _ => Iff.rfl
    exact cells
  · have hp : Parameter.Of model.kernel (.fc2Weight f c) := ⟨hf, hc⟩
    have cells := exists_stores_dense packable hp "fc2_w" DenseLayout.fc2_aligned hf hc
      fun _ => Iff.rfl
    exact cells

/-- Models of ones and of twos, on different images and at different levels, have programs that
differ in more than the image. -/
theorem assemble_keeps_ones_and_twos : ∃ ones twos program program',
    Model.ofTensors (Model.constantTensors ⟨12, 2, 3⟩ 1) = .ok ones ∧
    Model.ofTensors (Model.constantTensors ⟨12, 2, 3⟩ 2) = .ok twos ∧
    assemble (⟨5, 6, Array.replicate 30 1, by simp, by decide⟩ : Matrix Int) 8 ones .standard =
      .ok program ∧
    assemble (⟨2, 3, Array.replicate 6 4, by simp, by decide⟩ : Matrix Int) 9 twos .standard =
      .ok program' ∧
    (∃ name, name ≠ "image" ∧ (program'.operands.get? name).map (·.values) ≠
      (program.operands.get? name).map (·.values)) ∧
    (∃ cell : Cell, cell.1 ∈ gridNames "fc1_w" 8 128 8 1024 ∧
      ∀ cell', Stores ⟨12, 2, 3⟩ cell' (.fc1Weight 255 63) ↔ cell' = cell) ∧
    ∃ cell : Cell, cell.1 ∈ gridNames "conv_weight_11" 16 8 4 8192 ∧
      cell.2 % 8192 = 128 * 63 ∧ Stores ⟨12, 2, 3⟩ cell (.convWeight 11 5) := by
  obtain ⟨ones, program, hm, hkernel, h⟩ := @exists_assemble_ok Int _
    ⟨5, 6, Array.replicate 30 1, by simp, by decide⟩ 8 .standard ⟨12, 2, 3⟩ 1 (by decide)
    (by decide) (by decide) (by decide) (by decide) PrimeChain.standard_nonzero (by decide)
    (by decide)
  obtain ⟨twos, program', hm', hkernel', h'⟩ := @exists_assemble_ok Int _
    ⟨2, 3, Array.replicate 6 4, by simp, by decide⟩ 9 .standard ⟨12, 2, 3⟩ 2 (by decide)
    (by decide) (by decide) (by decide) (by decide) PrimeChain.standard_nonzero (by decide)
    (by decide)
  obtain ⟨eq_of_values, fc1, -, conv⟩ :=
    assemble_keeps_parameters hm hm' (hkernel'.trans hkernel.symm) h h'
  rw [hkernel] at fc1 conv
  obtain ⟨cells, hcells, hstores⟩ := conv 11 (by decide) 5 (by decide)
  refine ⟨ones, twos, program, program', hm, hm', h, h', ?_, fc1 255 (by decide) 63 (by decide),
    cells 63, (hcells 63 (by decide)).1, (hcells 63 (by decide)).2,
    (hstores _).mpr ⟨63, by decide, rfl⟩⟩
  by_contra hsame
  have same : twos = ones := eq_of_values fun name hname => by
    by_contra hdiffer
    exact hsame ⟨name, hname, hdiffer⟩
  obtain ⟨-, -, -, -, -, -, -, hbias⟩ := Model.ofTensors_eq_ok.mp hm
  obtain ⟨-, -, -, -, -, -, -, hbias'⟩ := Model.ofTensors_eq_ok.mp hm'
  obtain ⟨-, -, values⟩ := Tensor.toVector_eq_ok.mp hbias
  obtain ⟨-, -, values'⟩ := Tensor.toVector_eq_ok.mp hbias'
  rw [same, values] at values'
  exact absurd values' (by decide)

end Kept
end SlotPacking
