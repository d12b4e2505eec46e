import SlotPacking.Proofs.ConvLayer
import SlotPacking.Proofs.DenseLayer

/-!
The operators of the three layers in closed form. For all weights of the right
shape and all splits, every slot of every diagonal is either one named weight or
zero; weights of another shape are refused. The split of a fully connected layer
only says how many of its diagonals are kept, and how many empty ones follow.
-/
namespace SlotPacking
open Result

/-- The tap in a lane under the rotation of a diagonal, from the two steps of the diagonal. -/
theorem imageTap_convRotation {g b : Nat} (hb : b < 16) (l : Nat) :
    imageTap l (convRotation (16 * g + b)) = (l + 4 * b + g) % 64 := by
  change (l + ((16 * g + b) % 16 * 4 + (16 * g + b) / 16)) % 64 = _
  omega

namespace DiagonalOperator
variable {α : Type} [Zero α]

section Conv
variable {kernels : Matrix α} {channel : Nat} {op : DiagonalOperator α slotCount}

theorem conv_of_misfit (h : imageLanes < kernels.cols ∨ kernels.rows ≤ channel) :
    conv kernels channel = rejectShape (.noSuchKernel channel kernels.rows kernels.cols) :=
  if_pos h

/-- A lane holds the weight of its tap under the rotation of the diagonal. -/
theorem conv_lane (h : conv kernels channel = .ok op) {d l : Nat} (hd : d < imageLanes)
    (hl : l < imageLanes) (ht : imageTap l (convRotation d) < kernels.cols) :
    kernels.get channel (imageTap l (convRotation d)) = .ok (op.coeff d (laneStride * l)) := by
  obtain ⟨-, hr, hcount, -⟩ := conv_eq_ok h
  have hk : laneStride * l < slotCount := lane_lt (hl.trans (by decide))
  rw [Matrix.get_of_lt kernels hr ht, conv_coeff h (hcount ▸ hd) hk, lane_mod, lane_div,
    if_pos ⟨rfl, hl, ht⟩]

/-- What is no lane with a tap of the kernel is zero. -/
theorem conv_free (h : conv kernels channel = .ok op) {d k : Nat} (hd : d < imageLanes)
    (hk : k < slotCount) (free : ∀ l < imageLanes, imageTap l (convRotation d) < kernels.cols →
      k ≠ laneStride * l) : op.coeff d k = 0 := by
  obtain ⟨-, -, hcount, -⟩ := conv_eq_ok h
  rw [conv_coeff h (hcount ▸ hd) hk, if_neg]
  rintro ⟨h0, hl, ht⟩
  exact free _ hl ht (lane_of_mod h0).symm

/-- The operator of a channel, by giantstep and babystep of the diagonal. -/
theorem conv_closed_form (hcols : kernels.cols ≤ 64) (hr : channel < kernels.rows) :
    ∃ op, conv kernels channel = .ok op ∧ op.count = 64 ∧ ∀ g < 4, ∀ b < 16,
      (∀ l < 64, (l + 4 * b + g) % 64 < kernels.cols →
        kernels.get channel ((l + 4 * b + g) % 64) = .ok (op.coeff (16 * g + b) (128 * l))) ∧
      ∀ k < slotCount, (∀ l < 64, (l + 4 * b + g) % 64 < kernels.cols → k ≠ 128 * l) →
        op.coeff (16 * g + b) k = 0 := by
  obtain ⟨op, hop⟩ := conv_succeeds hcols hr
  obtain ⟨-, -, hcount, -⟩ := conv_eq_ok hop
  refine ⟨op, hop, hcount, fun g hg b hb => ?_⟩
  have hd : 16 * g + b < 64 := by omega
  simp only [← imageTap_convRotation hb]
  exact ⟨fun l hl ht => conv_lane hop hd hl ht, fun k hk free => conv_free hop hd hk free⟩

end Conv

section Dense
variable {layout : DenseLayout} {weights : Matrix α} {split : Split}
  {op : DiagonalOperator α slotCount}

theorem dense_of_misfit (h : ¬(weights.rows = layout.inputs ∧ weights.cols = layout.outputs)) :
    (dense layout weights split : Result (DiagonalOperator α slotCount)) = rejectShape
      (.weightShape layout.name layout.inputs layout.outputs weights.rows weights.cols) :=
  if_neg h

theorem dense_lane (hl : layout.Aligned) (h : dense layout weights split = .ok op) {d j : Nat}
    (hd : d < op.count) (hblock : d < layout.block) (hj : j < layout.inputs)
    (ho : j % layout.block < layout.outputs) :
    weights.get ((d + j) % layout.inputs) (j % layout.block) =
      .ok (op.coeff d (laneStride * j)) := by
  obtain ⟨hr, hc, -, -⟩ := dense_eq_ok h
  have row : (d + j) % layout.inputs < weights.rows := by
    rw [hr]
    exact Nat.mod_lt _ hl.inputs_pos
  have hk : laneStride * j < slotCount := lane_lt (hj.trans_le hl.inputs_le)
  rw [Matrix.get_of_lt weights row (hc ▸ ho), dense_coeff h hd hk, lane_mod, lane_div,
    if_pos ⟨hblock, rfl, hj, ho⟩]

theorem dense_free (h : dense layout weights split = .ok op) {d k : Nat} (hd : d < op.count)
    (hk : k < slotCount) (free : d < layout.block → ∀ j < layout.inputs,
      j % layout.block < layout.outputs → k ≠ laneStride * j) : op.coeff d k = 0 := by
  rw [dense_coeff h hd hk, if_neg]
  rintro ⟨hblock, h0, hj, ho⟩
  exact free hblock _ hj ho (lane_of_mod h0).symm

/-- The operator of a fully connected layer under any split that there is room for: as many diagonals
as the split has, of which the first `block` hold weights. -/
theorem dense_closed_form (hl : layout.Aligned) (hr : weights.rows = layout.inputs)
    (hc : weights.cols = layout.outputs)
    (room : split.babyCount * split.giantCount * 24 < 0x8000000000000000) :
    ∃ op, dense layout weights split = .ok op ∧
      op.count = split.babyCount * split.giantCount ∧ ∀ d < op.count,
      (d < layout.block → ∀ j < layout.inputs, j % layout.block < layout.outputs →
        weights.get ((d + j) % layout.inputs) (j % layout.block) =
          .ok (op.coeff d (laneStride * j))) ∧
      ∀ k < slotCount, (d < layout.block → ∀ j < layout.inputs,
        j % layout.block < layout.outputs → k ≠ laneStride * j) → op.coeff d k = 0 := by
  have hroom : Room slotCount (split.babyCount * split.giantCount) := ⟨by decide, room⟩
  have hsplit := Word.mul_of_lt hroom.count_lt
  obtain ⟨op, hop⟩ := dense_succeeds hroom hl.inputs_pos hr hc hsplit
  obtain ⟨-, -, hcount, -⟩ := dense_eq_ok hop
  exact ⟨op, hop, Except.ok.inj (hcount.symm.trans hsplit), fun d hd =>
    ⟨fun hblock j hj ho => dense_lane hl hop hd hblock hj ho, fun k hk => dense_free hop hd hk⟩⟩

/-- A split that can be counted may have more diagonals than there is room for. -/
theorem dense_of_no_room (hr : weights.rows = layout.inputs) (hc : weights.cols = layout.outputs)
    (count_lt : split.babyCount * split.giantCount < Word.bound)
    (full : ¬Room slotCount (split.babyCount * split.giantCount)) :
    (dense layout weights split : Result (DiagonalOperator α slotCount)) = faulty .capacity := by
  rw [dense, if_pos ⟨hr, hc⟩, Split.diagonals, Word.mul_of_lt count_lt, ok_bind,
    ofPlacements_of_not_room full]

end Dense

/-- Every slot of the operators of the three layers, for all weights of the right shape and all
splits that there is room for. Weights of other shapes are refused, and nothing else can happen. -/
theorem layers_closed_form :
    (∀ (kernels : Matrix α) (channel : Nat), kernels.cols ≤ 64 → channel < kernels.rows →
      ∃ op, conv kernels channel = .ok op ∧ op.count = 64 ∧ ∀ g < 4, ∀ b < 16,
        (∀ l < 64, (l + 4 * b + g) % 64 < kernels.cols →
          kernels.get channel ((l + 4 * b + g) % 64) = .ok (op.coeff (16 * g + b) (128 * l))) ∧
        ∀ k < slotCount, (∀ l < 64, (l + 4 * b + g) % 64 < kernels.cols → k ≠ 128 * l) →
          op.coeff (16 * g + b) k = 0) ∧
    (∀ (weights : Matrix α) (split : Split), weights.rows = 256 → weights.cols = 64 →
      split.babyCount * split.giantCount * 24 < 0x8000000000000000 →
      ∃ op, dense .fc1 weights split = .ok op ∧
        op.count = split.babyCount * split.giantCount ∧ ∀ d < op.count,
        (d < 64 → ∀ j < 256,
          weights.get ((d + j) % 256) (j % 64) = .ok (op.coeff d (128 * j))) ∧
        ∀ k < slotCount, (d < 64 → ∀ j < 256, k ≠ 128 * j) → op.coeff d k = 0) ∧
    (∀ (weights : Matrix α) (split : Split), weights.rows = 64 → weights.cols = 10 →
      split.babyCount * split.giantCount * 24 < 0x8000000000000000 →
      ∃ op, dense .fc2 weights split = .ok op ∧
        op.count = split.babyCount * split.giantCount ∧ ∀ d < op.count,
        (d < 16 → ∀ j < 64, j % 16 < 10 →
          weights.get ((d + j) % 64) (j % 16) = .ok (op.coeff d (128 * j))) ∧
        ∀ k < slotCount, (d < 16 → ∀ j < 64, j % 16 < 10 → k ≠ 128 * j) → op.coeff d k = 0) ∧
    (∀ (kernels : Matrix α) (channel : Nat), 64 < kernels.cols ∨ kernels.rows ≤ channel →
      ∃ shape, conv kernels channel = rejectShape shape) ∧
    (∀ (layout : DenseLayout) (weights : Matrix α) (split : Split),
      ¬(weights.rows = layout.inputs ∧ weights.cols = layout.outputs) →
      ∃ shape, (dense layout weights split : Result (DiagonalOperator α slotCount)) =
        rejectShape shape) ∧
    (∀ (kernels : Matrix α) (channel : Nat) (fault : Fault),
      conv kernels channel ≠ faulty fault) ∧
    ∀ layout ∈ [DenseLayout.fc1, DenseLayout.fc2], ∀ (weights : Matrix α) (split : Split),
      split.babyCount * split.giantCount * 24 < 0x8000000000000000 → ∀ fault : Fault,
      (dense layout weights split : Result (DiagonalOperator α slotCount)) ≠ faulty fault := by
  refine ⟨fun kernels channel => conv_closed_form, fun weights split hr hc room => ?_,
    fun weights split => dense_closed_form DenseLayout.fc2_aligned,
    fun kernels channel h => ⟨_, conv_of_misfit h⟩,
    fun layout weights split h => ⟨_, dense_of_misfit h⟩,
    fun kernels channel fault => ?_, fun layout hlayout weights split room fault => ?_⟩
  · -- all lanes of a block of the first layer are outputs
    have real (j : Nat) : j % 64 < 64 := Nat.mod_lt j (by decide)
    obtain ⟨op, hop, hcount, slots⟩ := dense_closed_form DenseLayout.fc1_aligned hr hc room
    exact ⟨op, hop, hcount, fun d hd => ⟨fun hblock j hj => (slots d hd).1 hblock j hj (real j),
      fun k hk free => (slots d hd).2 k hk fun hblock j hj _ => free hblock j hj⟩⟩
  · by_cases h : imageLanes < kernels.cols ∨ kernels.rows ≤ channel
    · rw [conv_of_misfit h]
      exact nofun
    · have hcols : kernels.cols ≤ imageLanes := by omega
      have hr : channel < kernels.rows := by omega
      obtain ⟨op, hop⟩ := conv_succeeds hcols hr
      rw [hop]
      exact nofun
  · by_cases h : weights.rows = layout.inputs ∧ weights.cols = layout.outputs
    · have aligned : layout.Aligned := by
        simp only [List.mem_cons, List.not_mem_nil, or_false] at hlayout
        obtain rfl | rfl := hlayout
        · exact DenseLayout.fc1_aligned
        · exact DenseLayout.fc2_aligned
      obtain ⟨op, hop, -⟩ := dense_closed_form aligned h.1 h.2 room
      rw [hop]
      exact nofun
    · rw [dense_of_misfit h]
      exact nofun

/-- Weights of the first layer on a split of `2^59` diagonals, which can be counted. -/
theorem layers_of_uncounted_bytes :
    let weights : Matrix Nat := .ofEntries 256 64 (by decide) fun _ _ => 0
    let split : Split := ⟨0x800000000000000, 1, 1, 1⟩
    weights.rows = 256 ∧ weights.cols = 64 ∧ split.babyCount * split.giantCount < Word.bound ∧
      (dense .fc1 weights split : Result (DiagonalOperator Nat slotCount)) = faulty .capacity := by
  intro weights split
  exact ⟨rfl, rfl, by decide, dense_of_no_room rfl rfl (by decide) (by decide)⟩

/-- A kernel of three taps, a split with more diagonals than the first layer has lanes, and one with
fewer than the second layer has lanes in a block. There is no third kernel, and the weights of one
layer do not do for the other. -/
theorem layers_closed_form_of_ramps :
    let kernels : Matrix Nat := ⟨2, 3, #[1, 2, 3, 4, 5, 6], rfl, by decide⟩
    let fc1Weights : Matrix Nat := .ofEntries 256 64 (by decide) fun r c => 64 * r + c
    let fc2Weights : Matrix Nat := .ofEntries 64 10 (by decide) fun r c => 10 * r + c
    (∃ op, conv kernels 1 = .ok op ∧ op.coeff 17 (128 * 61) = 6 ∧ op.coeff 17 (128 * 62) = 0) ∧
    (∃ op, dense .fc1 fc1Weights ⟨10, 1, 7, 1⟩ = .ok op ∧ op.count = 70 ∧
      op.coeff 5 (128 * 255) = 319 ∧ op.coeff 64 0 = 0) ∧
    (∃ op, dense .fc2 fc2Weights ⟨3, 1, 2, 1⟩ = .ok op ∧ op.count = 6 ∧
      op.coeff 5 (128 * 25) = 309 ∧ op.coeff 5 (128 * 26) = 0) ∧
    (∃ shape, conv kernels 2 = rejectShape shape) ∧
    ∃ shape, (dense .fc2 fc1Weights ⟨3, 1, 2, 1⟩ : Result (DiagonalOperator Nat slotCount)) =
      rejectShape shape := by
  intro kernels fc1Weights fc2Weights
  obtain ⟨convForm, fc1Form, fc2Form, convRefuses, denseRefuses, -⟩ := layers_closed_form (α := Nat)
  refine ⟨?_, ?_, ?_, convRefuses kernels 2 (by decide),
    denseRefuses .fc2 fc1Weights ⟨3, 1, 2, 1⟩ fun h => absurd h.1 (by decide)⟩
  · obtain ⟨op, hop, -, slots⟩ := convForm kernels 1 (by decide) (by decide)
    obtain ⟨lanes, free⟩ := slots 1 (by decide) 1 (by decide)
    have held : kernels.get 1 2 = .ok (op.coeff 17 (128 * 61)) := lanes 61 (by decide) (by decide)
    refine ⟨op, hop, (Except.ok.inj held).symm, free (128 * 62) (by decide) fun l hl ht h => ?_⟩
    obtain rfl : l = 62 := by omega
    exact absurd ht (by decide)
  · obtain ⟨op, hop, hcount, slots⟩ := fc1Form fc1Weights ⟨10, 1, 7, 1⟩ rfl rfl (by decide)
    have h5 : 5 < op.count := hcount ▸ by decide
    have h64 : 64 < op.count := hcount ▸ by decide
    have held : fc1Weights.get 4 63 = .ok (op.coeff 5 (128 * 255)) :=
      (slots 5 h5).1 (by decide) 255 (by decide)
    rw [Matrix.get_of_lt _ (by decide) (by decide),
      Matrix.entry_ofEntries (by decide) (by decide)] at held
    exact ⟨op, hop, hcount, (Except.ok.inj held).symm,
      (slots 64 h64).2 0 (by decide) fun h => absurd h (by decide)⟩
  · obtain ⟨op, hop, hcount, slots⟩ := fc2Form fc2Weights ⟨3, 1, 2, 1⟩ rfl rfl (by decide)
    have h5 : 5 < op.count := hcount ▸ by decide
    have held : fc2Weights.get 30 9 = .ok (op.coeff 5 (128 * 25)) :=
      (slots 5 h5).1 (by decide) 25 (by decide) (by decide)
    rw [Matrix.get_of_lt _ (by decide) (by decide),
      Matrix.entry_ofEntries (by decide) (by decide)] at held
    refine ⟨op, hop, hcount, (Except.ok.inj held).symm,
      (slots 5 h5).2 (128 * 26) (by decide) fun _ j hj ho h => ?_⟩
    obtain rfl : j = 26 := by omega
    exact absurd ho (by decide)

end DiagonalOperator
end SlotPacking
