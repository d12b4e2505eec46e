import SlotPacking.Proofs.LayerOperands

/-!
Fully connected layers. Diagonal `d` of the operator holds, in lane `j`, the
weight of input `d + j` for the output at the lane's place in its block; the
circuit then leaves in every lane the products of one block of inputs, and the
lanes of one output together hold all of its products.
-/
namespace SlotPacking
open Finset Result SlotVector Circuit
open scoped BigOperators

/-- Outputs fit a block, blocks fill the inputs, inputs fill the lanes, and the steps of the
split go lane by lane through one block. -/
structure DenseLayout.Aligned (layout : DenseLayout) : Prop where
  inputs_pos : 0 < layout.inputs
  outputs_le : layout.outputs ≤ layout.block
  blocks : layout.block ∣ layout.inputs
  turns : layout.inputs ∣ slotCount / laneStride
  proper : layout.split.Proper
  grid : layout.split.babyCount * layout.split.giantCount = layout.block
  babyStride : layout.split.babyStride = laneStride
  giantStride : layout.split.giantStride = layout.split.babyCount * laneStride

namespace DenseLayout

theorem fc1_aligned : fc1.Aligned := by
  refine ⟨?_, ?_, ?_, ?_, Split.fc1_proper, ?_, ?_, ?_⟩ <;> decide

theorem fc2_aligned : fc2.Aligned := by
  refine ⟨?_, ?_, ?_, ?_, Split.fc2_proper, ?_, ?_, ?_⟩ <;> decide

theorem Aligned.inputs_le {layout : DenseLayout} (h : layout.Aligned) :
    layout.inputs ≤ slotCount / laneStride := Nat.le_of_dvd (by decide) h.turns

end DenseLayout

namespace Placement
variable {layout : DenseLayout}

theorem dense_eq_some {i j : Nat} (hj : j < layout.inputs) {p : Placement} :
    dense layout i j = some p ↔ j % layout.block < layout.outputs ∧
      p = ⟨i, laneStride * j, (i + j) % layout.inputs, j % layout.block⟩ := by
  have hs : 0 < laneStride := by decide
  have hdiv : laneStride * (i * layout.inputs + j) / (laneStride * layout.inputs) = i := by
    rw [Nat.mul_div_mul_left _ _ hs, Matrix.flat_div hj]
  have hmod : laneStride * (i * layout.inputs + j) % (laneStride * layout.inputs) =
      laneStride * j := by
    rw [Nat.mul_mod_mul_left, Matrix.flat_mod hj]
  simp only [dense, hdiv, hmod]
  split
  next h => simp [h, eq_comm]
  next h => simp [h]

theorem mem_denseAll {p : Placement} :
    p ∈ denseAll layout ↔ ∃ i < layout.block, ∃ j < layout.inputs,
      j % layout.block < layout.outputs ∧
      p = ⟨i, laneStride * j, (i + j) % layout.inputs, j % layout.block⟩ := by
  unfold denseAll
  simp only [List.mem_flatMap, List.mem_filterMap, List.mem_range]
  constructor
  · rintro ⟨i, hi, j, hj, h⟩
    exact ⟨i, hi, j, hj, (dense_eq_some hj).mp h⟩
  · rintro ⟨i, hi, j, hj, h⟩
    exact ⟨i, hi, j, hj, (dense_eq_some hj).mpr h⟩

end Placement

namespace DiagonalOperator
variable {α : Type} [Zero α] {layout : DenseLayout} {weights : Matrix α} {split : Split}
  {op : DiagonalOperator α slotCount}

theorem dense_eq_ok (h : dense layout weights split = .ok op) :
    weights.rows = layout.inputs ∧ weights.cols = layout.outputs ∧
      split.diagonals = .ok op.count ∧
      ofPlacements op.count (Placement.denseAll layout) weights = .ok op := by
  unfold dense at h
  split at h
  next hs =>
    obtain ⟨count, hcount, h⟩ := bind_eq_ok.mp h
    obtain rfl := ofPlacements_count h
    exact ⟨hs.1, hs.2, hcount, h⟩
  next => simp at h

/-- Weights of the right shape fill a split of any size that there is room for. -/
theorem dense_succeeds {size : Nat} (room : Room slotCount size) (hin : 0 < layout.inputs) (hr : weights.rows = layout.inputs)
    (hc : weights.cols = layout.outputs) (hsplit : split.diagonals = .ok size) :
    ∃ op : DiagonalOperator α slotCount, dense layout weights split = .ok op := by
  have placed (p : Placement) (hp : p ∈ Placement.denseAll layout) (_ : p.diagonal < size)
      (_ : p.slot < slotCount) : p.row < weights.rows ∧ p.col < weights.cols := by
    obtain ⟨i, _, j, _, ho, rfl⟩ := Placement.mem_denseAll.mp hp
    rw [hr, hc]
    exact ⟨Nat.mod_lt _ hin, ho⟩
  obtain ⟨op, hop⟩ := ofPlacements_succeeds room placed
  refine ⟨op, ?_⟩
  rw [dense, if_pos ⟨hr, hc⟩, hsplit, ok_bind, hop]

/-- The weight in a slot of a diagonal: lanes of real outputs in the first `block` diagonals hold
one weight each, everything else is zero. -/
theorem dense_coeff (h : dense layout weights split = .ok op) {d k : Nat} (hd : d < op.count)
    (hk : k < slotCount) : op.coeff d k =
      if d < layout.block ∧ k % laneStride = 0 ∧ k / laneStride < layout.inputs ∧
          k / laneStride % layout.block < layout.outputs then
        weights.entry ((d + k / laneStride) % layout.inputs) (k / laneStride % layout.block)
      else 0 := by
  obtain ⟨-, -, -, hplaced⟩ := dense_eq_ok h
  exact ofPlacements_coeff_lanes (fun p => Placement.mem_denseAll) hplaced hd hk

end DiagonalOperator

namespace DenseLayout
variable {layout : DenseLayout}

theorem Aligned.block_pos (h : layout.Aligned) : 0 < layout.block :=
  Nat.pos_of_dvd_of_pos h.blocks h.inputs_pos

theorem Aligned.room (h : layout.Aligned) : DiagonalOperator.Room slotCount
    (layout.split.babyCount * layout.split.giantCount) := by
  have block_le : layout.block ≤ slotCount / laneStride :=
    (Nat.le_of_dvd h.inputs_pos h.blocks).trans h.inputs_le
  rw [h.grid]
  refine ⟨by decide, ?_⟩
  unfold slotCount laneStride at block_le
  omega

theorem Aligned.count_eq {α : Type} [Zero α] {weights : Matrix α}
    {op : DiagonalOperator α slotCount} (hl : layout.Aligned)
    (h : DiagonalOperator.dense layout weights layout.split = .ok op) :
    op.count = layout.block := by
  obtain ⟨-, -, hcount, -⟩ := DiagonalOperator.dense_eq_ok h
  rw [← hl.grid]
  exact Except.ok.inj (hcount.symm.trans hl.proper.diagonals_eq)

section Run
variable {R : Type} [CommRing R] {weights : Matrix R} {op : DiagonalOperator R slotCount}

theorem Aligned.run_slot (hl : layout.Aligned)
    (h : DiagonalOperator.dense layout weights layout.split = .ok op) (x : Slots R) {k : Nat}
    (hk : k < slotCount) : (layout.split.run op x).slot k =
      ∑ d ∈ range layout.block, op.coeff d k * x.slot ((k + laneStride * d) % slotCount) := by
  have steps (g : Nat) (_ : g < layout.split.giantCount) (b : Nat)
      (_ : b < layout.split.babyCount) :
      b * layout.split.babyStride + g * layout.split.giantStride =
        laneStride * (g * layout.split.babyCount + b) := by
    rw [hl.babyStride, hl.giantStride]
    ring
  rw [Split.run_slot ((hl.count_eq h).trans hl.grid.symm) (fun d => laneStride * d) steps x hk,
    hl.count_eq h]

/-- Slots other than the lanes of real outputs are zero. -/
theorem Aligned.run_slot_eq_zero (hl : layout.Aligned)
    (h : DiagonalOperator.dense layout weights layout.split = .ok op) (x : Slots R) {k : Nat}
    (hk : k < slotCount) (outside : ¬(k % laneStride = 0 ∧ k / laneStride < layout.inputs ∧
      k / laneStride % layout.block < layout.outputs)) : (layout.split.run op x).slot k = 0 := by
  rw [hl.run_slot h x hk]
  apply sum_eq_zero
  intro d hd
  rw [DiagonalOperator.dense_coeff h (hl.count_eq h ▸ mem_range.mp hd) hk,
    if_neg fun hc => outside hc.2, zero_mul]

/-- A lane of a real output holds the products of one block of inputs, from its own on. -/
theorem Aligned.run_lane (hl : layout.Aligned)
    (h : DiagonalOperator.dense layout weights layout.split = .ok op) (x : Slots R) {j : Nat}
    (hj : j < layout.inputs) (ho : j % layout.block < layout.outputs) :
    (layout.split.run op x).slot (laneStride * j) = ∑ d ∈ range layout.block,
      weights.entry ((j + d) % layout.inputs) (j % layout.block) *
        x.slot (laneStride * ((j + d) % (slotCount / laneStride))) := by
  have hk : laneStride * j < slotCount := lane_lt (hj.trans_le hl.inputs_le)
  rw [hl.run_slot h x hk]
  apply sum_congr rfl
  intro d hd
  rw [DiagonalOperator.dense_coeff h (hl.count_eq h ▸ mem_range.mp hd) hk, lane_mod, lane_div,
    if_pos ⟨mem_range.mp hd, rfl, hj, ho⟩, Nat.add_comm d j]
  have turn : laneStride * (j + d) % slotCount =
      laneStride * ((j + d) % (slotCount / laneStride)) :=
    Nat.mul_mod_mul_left laneStride (j + d) (slotCount / laneStride)
  rw [← Nat.mul_add, turn]

/-- On an input that repeats `v` over all lanes, the lanes of an output fold to the product of
its weights with `v`. -/
theorem Aligned.run_fold (hl : layout.Aligned)
    (h : DiagonalOperator.dense layout weights layout.split = .ok op) {x : Slots R} {v : Nat → R}
    (hx : ∀ l < slotCount / laneStride, x.slot (laneStride * l) = v (l % layout.inputs)) {l : Nat}
    (ho : l % layout.block < layout.outputs) :
    ∑ k ∈ range (layout.inputs / layout.block),
        (layout.split.run op x).slot (laneStride * ((l + layout.block * k) % layout.inputs)) =
      ∑ f ∈ range layout.inputs, weights.entry f (l % layout.block) * v f := by
  have hin : layout.inputs / layout.block * layout.block = layout.inputs :=
    Nat.div_mul_cancel hl.blocks
  have turn := sum_grid_cycle (fun f => weights.entry f (l % layout.block) * v f)
    (layout.inputs / layout.block) layout.block l
  rw [hin] at turn
  rw [← turn]
  apply sum_congr rfl
  intro k _
  rw [Nat.mul_comm layout.block k]
  have hj : (l + k * layout.block) % layout.inputs < layout.inputs := Nat.mod_lt _ hl.inputs_pos
  have hb : (l + k * layout.block) % layout.inputs % layout.block = l % layout.block := by
    rw [Nat.mod_mod_of_dvd _ hl.blocks, Nat.add_mul_mod_self_right]
  rw [hl.run_lane h x hj (hb ▸ ho), hb]
  apply sum_congr rfl
  intro d _
  rw [hx _ (Nat.mod_lt _ (by decide)), Nat.mod_mod_of_dvd _ hl.turns, Nat.mod_add_mod]

end Run
end DenseLayout
end SlotPacking
