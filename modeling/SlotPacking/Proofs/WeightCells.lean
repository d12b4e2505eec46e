import SlotPacking.Proofs.ProgramLayers

/-!
Cells of a layer. A slot of a named operand is a cell; a weight is placed in a
slot of a diagonal, which the rotation against the giantstep takes to a cell. No
placement leaves its operator and no two share a slot, so nothing that is placed
is lost, and an entry of a cell that is not zero has been placed there.
-/
namespace SlotPacking
open Result SlotVector Circuit SlotPacking.Bundle

/-- A slot of a named operand. -/
abbrev Cell := String × Nat

section Grid
variable {base : String} {s : Split} {d k : Nat}

/-- Where slot `k` of diagonal `d` is stored: in the operand of the diagonal's babystep and
giantstep, as far to the right as the giantstep rotates. -/
def gridCell (base : String) (s : Split) (d k : Nat) : Cell :=
  (cellName base ((d % s.babyCount * s.babyStride : Nat) : Int)
      ((d / s.babyCount * s.giantStride : Nat) : Int),
    (k + d / s.babyCount * s.giantStride) % slotCount)

theorem exists_gridCell {name : String} {i : Nat} (hi : i < slotCount)
    (hname : name ∈ cellNames base s.babyList s.giantList) :
    ∃ d < s.babyCount * s.giantCount, ∃ k < slotCount, gridCell base s d k = (name, i) := by
  obtain ⟨bs, hbs, gs, hgs, rfl⟩ := mem_cellNames.mp hname
  obtain ⟨b, hb, rfl⟩ := List.mem_map.mp hbs
  obtain ⟨g, hg, rfl⟩ := List.mem_map.mp hgs
  rw [List.mem_range] at hb hg
  refine ⟨g * s.babyCount + b, ?_, source slotCount i (-((g * s.giantStride : Nat) : Int)),
    source_lt (by decide) _ _, ?_⟩
  · rw [Nat.mul_comm s.babyCount]
    exact Matrix.flat_lt hg hb
  · have back : (source slotCount i (-((g * s.giantStride : Nat) : Int)) + g * s.giantStride) %
        slotCount = i := by
      rw [← source_natCast, source_source (by decide), Int.add_left_neg, source_zero hi]
    rw [gridCell, Matrix.flat_div hb, Matrix.flat_mod hb, back]

end Grid

def Bundle.HoldsAt {α : Type} [Zero α] (bundle : Bundle α slotCount) (cell : Cell) (x : α) : Prop :=
  ∃ operand, bundle.get? cell.1 = some operand ∧ cell.2 < slotCount ∧ operand.values.slot cell.2 = x

namespace Placement

/-- The placements stay within an operator of `size` diagonals and share no slot. -/
structure Fit (ps : List Placement) (size : Nat) : Prop where
  diagonal_lt : ∀ p ∈ ps, p.diagonal < size
  slot_lt : ∀ p ∈ ps, p.slot < slotCount
  unique : ∀ p ∈ ps, ∀ q ∈ ps, q.diagonal = p.diagonal → q.slot = p.slot → q = p

theorem Fit.of_lanes {ps : List Placement} {diagonals lanes : Nat} {kept : Nat → Nat → Prop}
    {row col : Nat → Nat → Nat} (hps : ∀ p ∈ ps, ∃ d < diagonals, ∃ l < lanes, kept d l ∧
      p = ⟨d, laneStride * l, row d l, col d l⟩) (hlanes : lanes ≤ slotCount / laneStride) :
    Fit ps diagonals where
  diagonal_lt p hp := by
    obtain ⟨d, hd, l, -, -, rfl⟩ := hps p hp
    exact hd
  slot_lt p hp := by
    obtain ⟨d, -, l, hl, -, rfl⟩ := hps p hp
    exact lane_lt (hl.trans_le hlanes)
  unique p hp q hq hdiagonal hslot := by
    obtain ⟨d, -, l, -, -, rfl⟩ := hps p hp
    obtain ⟨e, -, l', -, -, rfl⟩ := hps q hq
    obtain rfl : e = d := hdiagonal
    obtain rfl : l' = l := Nat.mul_left_cancel (by decide) hslot
    rfl

theorem fit_convAll (channel taps : Nat) : Fit (convAll channel taps) imageLanes :=
  .of_lanes (fun _ => mem_convAll.mp) (by decide)

theorem fit_denseAll {layout : DenseLayout} (hl : layout.Aligned) :
    Fit (denseAll layout) layout.block :=
  .of_lanes (fun _ => mem_denseAll.mp) hl.inputs_le

/-- Every weight of a fully connected layer has exactly one placement. -/
theorem existsUnique_dense {layout : DenseLayout} (hl : layout.Aligned) {f c : Nat}
    (hf : f < layout.inputs) (hc : c < layout.outputs) :
    ∃! p, p ∈ denseAll layout ∧ p.row = f ∧ p.col = c := by
  have hblock := hl.block_pos
  have hinputs := hl.inputs_pos
  have hle := Nat.le_of_dvd hl.inputs_pos hl.blocks
  have hcb := hc.trans_le hl.outputs_le
  apply existsUnique_of_exists_of_unique
  -- Modulo a block the diagonal is the input less the output, and the lane is what it leaves.
  · let i := (f + layout.inputs - c) % layout.block
    have hi : i < layout.block := Nat.mod_lt _ hblock
    have sum_eq : i + (f + layout.inputs - i) = f + layout.inputs := by omega
    have meets : (i + (f + layout.inputs - i) % layout.inputs) % layout.inputs = f := by
      rw [Nat.add_mod_mod, sum_eq, Nat.add_mod_right, Nat.mod_eq_of_lt hf]
    have place : (f + layout.inputs - i) % layout.inputs % layout.block = c := by
      rw [Nat.mod_mod_of_dvd _ hl.blocks]
      refine Eq.trans ?_ (Nat.mod_eq_of_lt hcb)
      apply Nat.ModEq.add_left_cancel' i
      calc i + (f + layout.inputs - i) = (f + layout.inputs - c) + c := by omega
        _ ≡ i + c [MOD layout.block] := (Nat.mod_modEq _ _).symm.add_right c
    exact ⟨_, mem_denseAll.mpr ⟨i, hi, _, Nat.mod_lt _ hinputs, place ▸ hc, rfl⟩, meets, place⟩
  · rintro p q ⟨hp, rfl, rfl⟩ ⟨hq, hrow, hcol⟩
    obtain ⟨i, hi, j, hj, -, rfl⟩ := mem_denseAll.mp hp
    obtain ⟨i', hi', j', hj', -, rfl⟩ := mem_denseAll.mp hq
    have same_place : j' ≡ j [MOD layout.block] := hcol
    have same_input : i' + j' ≡ i + j [MOD layout.inputs] := hrow
    obtain rfl : i' = i :=
      (same_place.add_right_cancel (same_input.of_dvd hl.blocks)).eq_of_lt_of_lt hi' hi
    obtain rfl : j' = j := (same_input.add_left_cancel' i').eq_of_lt_of_lt hj' hj
    rfl

def ofTap (channel tap lane : Nat) : Placement :=
  ⟨convDiagonal ((tap + imageLanes - lane) % imageLanes), laneStride * lane, channel, tap⟩

theorem ofTap_mem (channel : Nat) {taps tap lane : Nat} (ht : tap < taps)
    (htaps : taps ≤ imageLanes) (hl : lane < imageLanes) :
    ofTap channel tap lane ∈ convAll channel taps := by
  have hr : (tap + imageLanes - lane) % imageLanes < imageLanes := Nat.mod_lt _ (by decide)
  have meets : imageTap lane ((tap + imageLanes - lane) % imageLanes) = tap := by
    unfold imageTap
    rw [Nat.add_mod_mod, show lane + (tap + imageLanes - lane) = tap + imageLanes by omega,
      Nat.add_mod_right, Nat.mod_eq_of_lt (ht.trans_le htaps)]
  refine mem_convAll.mpr ⟨_, convDiagonal_lt hr, lane, hl, ?_, ?_⟩
  · rwa [convRotation_convDiagonal hr, meets]
  · rw [convRotation_convDiagonal hr, meets, ofTap]

theorem conv_unique {channel taps : Nat} {p q : Placement} (hp : p ∈ convAll channel taps)
    (hq : q ∈ convAll channel taps) (hcol : q.col = p.col) (hslot : q.slot = p.slot) : q = p := by
  obtain ⟨d, hd, lane, hl, -, rfl⟩ := mem_convAll.mp hp
  obtain ⟨e, he, lane', -, -, rfl⟩ := mem_convAll.mp hq
  obtain rfl : lane' = lane := Nat.mul_left_cancel (by decide) hslot
  have same_tap : lane' + convRotation e ≡ lane' + convRotation d [MOD imageLanes] := hcol
  have same_rotation := (same_tap.add_left_cancel' lane').eq_of_lt_of_lt (convRotation_lt he)
    (convRotation_lt hd)
  obtain rfl : e = d := by
    rw [← convDiagonal_convRotation he, same_rotation, convDiagonal_convRotation hd]
  rfl

end Placement

/-- The cell is one that the weight of a row and a column is placed in. -/
def WeightCell (base : String) (s : Split) (ps : List Placement) (row col : Nat) (cell : Cell) :
    Prop :=
  ∃ p ∈ ps, p.row = row ∧ p.col = col ∧ cell = gridCell base s p.diagonal p.slot

namespace WeightCell
variable {base : String} {s : Split} {ps : List Placement} {row col : Nat} {cell : Cell}

theorem mem_names (h : WeightCell base s ps row col cell)
    (fit : Placement.Fit ps (s.babyCount * s.giantCount)) :
    cell.1 ∈ cellNames base s.babyList s.giantList := by
  obtain ⟨p, hp, -, -, rfl⟩ := h
  have hd := fit.diagonal_lt p hp
  have hbaby : p.diagonal % s.babyCount < s.babyCount :=
    Nat.mod_lt _ (Nat.pos_of_ne_zero fun h0 => by simp [h0] at hd)
  exact mem_cellNames.mpr ⟨_, List.mem_of_getElem? (Split.steps_getElem? hbaby), _,
    List.mem_of_getElem? (Split.steps_getElem? (Nat.div_lt_of_lt_mul hd)), rfl⟩

theorem iff_cell (h : ∃! p, p ∈ ps ∧ p.row = row ∧ p.col = col) :
    ∃ cell, ∀ cell', WeightCell base s ps row col cell' ↔ cell' = cell := by
  obtain ⟨p, ⟨hp, hrow, hcol⟩, unique⟩ := h
  refine ⟨gridCell base s p.diagonal p.slot, fun cell' => ⟨?_, ?_⟩⟩
  · rintro ⟨q, hq, hqr, hqc, rfl⟩
    rw [unique q ⟨hq, hqr, hqc⟩]
  · rintro rfl
    exact ⟨p, hp, hrow, hcol, rfl⟩

theorem conv_iff_lane {channel taps tap : Nat} (ht : tap < taps) (htaps : taps ≤ imageLanes) :
    ∃ cells : Nat → Cell, (∀ lane < imageLanes, (cells lane).2 % groupWidth = laneStride * lane) ∧
      ∀ cell, WeightCell base .conv (Placement.convAll channel taps) channel tap cell ↔
        ∃ lane < imageLanes, cell = cells lane := by
  refine ⟨fun lane => gridCell base .conv (Placement.ofTap channel tap lane).diagonal
    (Placement.ofTap channel tap lane).slot, fun lane hl => ?_, fun cell => ⟨?_, ?_⟩⟩
  · simp only [gridCell, Placement.ofTap, Split.conv]
    unfold laneStride groupWidth slotCount imageLanes at *
    omega
  · rintro ⟨q, hq, -, hqc, rfl⟩
    obtain ⟨_, -, lane, hl, -, rfl⟩ := Placement.mem_convAll.mp hq
    refine ⟨lane, hl, ?_⟩
    rw [Placement.conv_unique (Placement.ofTap_mem channel ht htaps hl) hq hqc rfl]
  · rintro ⟨lane, hl, rfl⟩
    exact ⟨_, Placement.ofTap_mem channel ht htaps hl, rfl, rfl, rfl⟩

end WeightCell

/-- The cell is a lane of a bias that repeats the given output. -/
def BiasCell (name : String) (block lanes output : Nat) (cell : Cell) : Prop :=
  ∃ l < lanes, l % block = output ∧ cell = (name, laneStride * l)

namespace HoldsLayer
variable {α : Type} [Zero α] {bundle : Bundle α slotCount} {weightName biasName name : String}
  {s : Split} {operator : Result (DiagonalOperator α slotCount)} {bias : Result (Slots α)}
  {weightScale : ℚ} {biasScale : Scale} {operand : Operand α slotCount} {i : Nat} {cell : Cell}

theorem coeff_at
    (h : HoldsLayer bundle weightName biasName s operator bias weightScale biasScale) :
    ∃ op, operator = .ok op ∧ op.count = s.babyCount * s.giantCount ∧ ∀ d < op.count,
      ∀ k < slotCount, bundle.HoldsAt (gridCell weightName s d k) (op.coeff d k) := by
  obtain ⟨op, packed, scale, hop, -, -, stored⟩ := h
  have grid := stored.grid
  simp only [Split.babyList, Split.giantList, Split.length_steps] at grid
  refine ⟨op, hop, grid.symm, fun d hd k hk => ?_⟩
  have hbaby : d % s.babyCount < s.babyCount := Nat.mod_lt d (Nat.pos_of_ne_zero fun h0 => by
    rw [← grid, h0, Nat.zero_mul] at hd
    omega)
  have hgiant : d / s.babyCount < s.giantCount := Nat.div_lt_of_lt_mul (grid ▸ hd)
  obtain ⟨v, hv, hget⟩ := stored.weights.get?_cell stored.grid (Split.steps_getElem? hgiant)
    (Split.steps_getElem? hbaby)
  simp only [Split.babyList, Split.length_steps, Nat.div_add_mod'] at hv
  refine ⟨_, hget, Nat.mod_lt _ (by decide), ?_⟩
  have hcell : (k + d / s.babyCount * s.giantStride) % slotCount < slotCount :=
    Nat.mod_lt _ (by decide)
  rw [gridCell, slot_rotate _ _ hcell, ← source_natCast, source_source (by decide),
    Int.add_right_neg, source_zero hk, DiagonalOperator.coeff, List.getD_eq_getElem?_getD, hv,
    Option.getD_some]

section Weights
variable {weights : Matrix α} {ps : List Placement}

theorem weight_at
    (h : HoldsLayer bundle weightName biasName s operator bias weightScale biasScale)
    (placed : ∀ op, operator = .ok op → DiagonalOperator.ofPlacements op.count ps weights = .ok op)
    (fit : Placement.Fit ps (s.babyCount * s.giantCount)) {row col : Nat}
    (hcell : WeightCell weightName s ps row col cell) :
    bundle.HoldsAt cell (weights.entry row col) := by
  obtain ⟨op, hop, hcount, holds⟩ := h.coeff_at
  obtain ⟨p, hp, rfl, rfl, rfl⟩ := hcell
  have hdiagonal := hcount ▸ fit.diagonal_lt p hp
  rw [← DiagonalOperator.ofPlacements_coeff_of_mem (placed op hop) hp hdiagonal (fit.slot_lt p hp)
    (fit.unique p hp)]
  exact holds _ hdiagonal _ (fit.slot_lt p hp)

/-- A cell of the weights that does not hold zero is one that a weight is placed in. -/
theorem exists_placement
    (h : HoldsLayer bundle weightName biasName s operator bias weightScale biasScale)
    (placed : ∀ op, operator = .ok op → DiagonalOperator.ofPlacements op.count ps weights = .ok op)
    (hname : name ∈ cellNames weightName s.babyList s.giantList)
    (hget : bundle.get? name = some operand) (hne : operand.values.slot i ≠ 0) :
    ∃ p ∈ ps, WeightCell weightName s ps p.row p.col (name, i) := by
  obtain ⟨op, hop, hcount, holds⟩ := h.coeff_at
  have hi : i < slotCount := Nat.lt_of_not_le fun hge => hne (slot_of_ge _ hge)
  obtain ⟨d, hd, k, hk, hcell⟩ := exists_gridCell hi hname
  obtain ⟨operand', hget', -, hvalue⟩ := holds d (hcount ▸ hd) k hk
  rw [hcell] at hget' hvalue
  obtain rfl : operand = operand' := Option.some.inj (hget.symm.trans hget')
  by_contra hnone
  refine hne (hvalue.trans (DiagonalOperator.ofPlacements_coeff_of_not_mem (placed op hop)
    (hcount ▸ hd) hk fun p hp hdiagonal hslot => hnone ⟨p, hp, p, hp, rfl, rfl, ?_⟩))
  rw [hdiagonal, hslot, hcell]

end Weights

section Biases
variable {values : Array α} {block lanes : Nat}

theorem bias_at (h : HoldsLayer bundle weightName biasName s operator
      (packBias values block lanes) weightScale biasScale) {output : Nat}
    (hcell : BiasCell biasName block lanes output cell) :
    bundle.HoldsAt cell (values.getD output 0) := by
  obtain ⟨op, packed, scale, -, hpacked, -, stored⟩ := h
  obtain ⟨l, hl, rfl, rfl⟩ := hcell
  obtain ⟨-, -, hlanes, -⟩ := packBias_eq_ok.mp hpacked
  refine ⟨_, stored.bias, ?_, packBias_lane hpacked hl⟩
  have := Nat.mul_lt_mul_of_pos_right hl (show 0 < laneStride by decide)
  dsimp only
  rw [Nat.mul_comm]
  omega

theorem exists_lane (h : HoldsLayer bundle weightName biasName s operator
      (packBias values block lanes) weightScale biasScale)
    (hget : bundle.get? biasName = some operand) (hne : operand.values.slot i ≠ 0) :
    ∃ output < values.size, BiasCell biasName block lanes output (biasName, i) := by
  obtain ⟨op, packed, scale, -, hpacked, -, stored⟩ := h
  obtain rfl := Option.some.inj (hget.symm.trans stored.bias)
  dsimp only at hne
  rw [packBias_slot hpacked] at hne
  split at hne
  next hlane =>
    refine ⟨_, ?_, i / laneStride, hlane.2, rfl, ?_⟩
    · by_contra hge
      rw [Array.getD_eq_getD_getElem?, Array.getElem?_eq_none (Nat.le_of_not_lt hge)] at hne
      exact hne rfl
    · rw [lane_of_mod hlane.1]
  next => exact absurd rfl hne

end Biases
end HoldsLayer
end SlotPacking
