import SlotPacking.Proofs.OperatorEntries

/-!
Operators filled from arbitrary placements, in any order. A placement outside
the operator is dropped unread, one of a weight that is not there stops the
filling, and otherwise every slot keeps the last weight placed in it. The order
counts only for placements that share a slot.
-/
namespace SlotPacking
open Result SlotVector

namespace Placement

/-- The diagonal and the slot that a placement is for. -/
def cell (p : Placement) : Nat × Nat := (p.diagonal, p.slot)

/-- The placement lies in an operator of `size` diagonals with `n` slots. -/
def Inside (size n : Nat) (p : Placement) : Prop := p.diagonal < size ∧ p.slot < n

instance (size n : Nat) (p : Placement) : Decidable (p.Inside size n) :=
  inferInstanceAs (Decidable (_ ∧ _))

/-- The weights have the row and the column of the placement. -/
def Readable {α : Type} (weights : Matrix α) (p : Placement) : Prop :=
  p.row < weights.rows ∧ p.col < weights.cols

instance {α : Type} (weights : Matrix α) (p : Placement) : Decidable (p.Readable weights) :=
  inferInstanceAs (Decidable (_ ∧ _))

/-- The placement is kept, but its weight cannot be read. -/
def Stray {α : Type} (weights : Matrix α) (size n : Nat) (p : Placement) : Prop :=
  p.Inside size n ∧ ¬p.Readable weights

end Placement

namespace DiagonalOperator
variable {α : Type} {n : Nat} [Zero α] {weights : Matrix α} {op new : DiagonalOperator α n}
  {p : Placement} {size : Nat} {ps qs : List Placement}

omit [Zero α] in
theorem place_of_outside (h : ¬p.Inside op.count n) : place weights op p = .ok op := if_neg h

theorem place_of_stray (h : p.Stray weights op.count n) :
    place weights op p = faulty .indexOutOfRange := by
  obtain ⟨⟨hd, hs⟩, hr⟩ := h
  rw [place, if_pos ⟨hd, hs⟩, (Matrix.get_eq_error weights).mpr ⟨hr, rfl⟩]
  rfl

theorem place_keeps_count (h : place weights op p = .ok new) (hc : op.count = size) :
    new.count = size := (place_eq_ok h).1.trans hc

theorem place_of_not_stray (h : ¬p.Stray weights size n) (hc : op.count = size) :
    ∃ new, place weights op p = .ok new ∧ new.count = size := by
  have readable (hd : p.diagonal < op.count) (hs : p.slot < n) : p.Readable weights :=
    not_not.mp fun hr => h ⟨⟨hc ▸ hd, hs⟩, hr⟩
  obtain ⟨new, hnew⟩ := place_succeeds readable
  exact ⟨new, hnew, place_keeps_count hnew hc⟩

/-- A kept placement whose weight cannot be read stops the filling, wherever it stands. -/
theorem ofPlacements_of_stray (room : Room n size) (h : ∃ p ∈ ps, p.Stray weights size n) :
    (ofPlacements size ps weights : Result (DiagonalOperator α n)) = faulty .indexOutOfRange := by
  obtain ⟨empty, hcount, -, fills⟩ := ofPlacements_of_room (α := α) room
  rw [fills]
  exact foldlM_of_bad (fun op : DiagonalOperator α n => op.count = size) (·.Stray weights size n)
    (fun _ _ hbad _ hc => place_of_stray (hc ▸ hbad))
    (fun _ _ hgood _ hc => place_of_not_stray hgood hc) hcount h

theorem ofPlacements_of_readable (room : Room n size) (h : ¬∃ p ∈ ps, p.Stray weights size n) :
    ∃ op : DiagonalOperator α n, ofPlacements size ps weights = .ok op :=
  ofPlacements_succeeds room fun p hp hd hs =>
    not_not.mp fun hr => h ⟨p, hp, ⟨hd, hs⟩, hr⟩

theorem ofPlacements_faults_iff :
    (∃ fault, (ofPlacements size ps weights : Result (DiagonalOperator α n)) = faulty fault) ↔
      ¬Room n size ∨ ∃ p ∈ ps, p.Stray weights size n := by
  by_cases room : Room n size
  · refine ⟨fun ⟨fault, h⟩ => .inr ?_, fun h =>
      ⟨_, ofPlacements_of_stray room (h.resolve_left (not_not.mpr room))⟩⟩
    by_contra hstray
    obtain ⟨op, hop⟩ := ofPlacements_of_readable room hstray
    exact absurd (h.symm.trans hop) (faulty_ne_ok fault op)
  · exact ⟨fun _ => .inl room, fun _ => ⟨_, ofPlacements_of_not_room room⟩⟩

theorem readable_of_ofPlacements (h : ofPlacements size ps weights = .ok op) (hp : p ∈ ps)
    (hin : p.Inside size n) : p.Readable weights := by
  by_contra hr
  have stops := ofPlacements_of_stray (ofPlacements_room h) ⟨p, hp, hin, hr⟩
  exact absurd (stops.symm.trans h) (faulty_ne_ok _ op)

/-- The placements outside the operator might as well not be there. -/
theorem ofPlacements_filter : (ofPlacements size (ps.filter (·.Inside size n)) weights :
    Result (DiagonalOperator α n)) = ofPlacements size ps weights := by
  by_cases room : Room n size
  · obtain ⟨empty, hcount, -, fills⟩ := ofPlacements_of_room (α := α) room
    rw [fills, fills]
    apply foldlM_filter (fun op : DiagonalOperator α n => op.count = size)
    · intro p _ hout op hc
      exact place_of_outside (hc ▸ of_decide_eq_false hout)
    · exact fun _ _ _ _ hc h => place_keeps_count h hc
    · exact hcount
  · rw [ofPlacements_of_not_room room, ofPlacements_of_not_room room]

/-- Only the weights of placements inside the operator are read. -/
theorem ofPlacements_reads {weights' : Matrix α} (h : ∀ p ∈ ps, p.Inside size n →
      weights'.get p.row p.col = weights.get p.row p.col) :
    (ofPlacements size ps weights' : Result (DiagonalOperator α n)) =
      ofPlacements size ps weights := by
  rw [← ofPlacements_filter, ofPlacements_congr, ofPlacements_filter]
  intro p hp
  obtain ⟨hmem, hin⟩ := List.mem_filter.mp hp
  exact h p hmem (of_decide_eq_true hin)

/-- A slot holds the weight of the placement for it that no other one for it follows. -/
theorem ofPlacements_last (h : ofPlacements size ps weights = .ok op)
    {before after : List Placement} (hps : ps = before ++ p :: after) (hin : p.Inside size n)
    (last : ∀ q ∈ after, q.cell ≠ p.cell) :
    weights.get p.row p.col = .ok (op.coeff p.diagonal p.slot) := by
  obtain ⟨hr, hc⟩ := readable_of_ofPlacements h (hps ▸ List.mem_append_cons_self) hin
  have unhit : ∀ q ∈ after, (q.diagonal == p.diagonal && q.slot == p.slot) = false := by
    intro q hq
    simpa [Placement.cell] using last q hq
  rw [Matrix.get_of_lt weights hr hc, ofPlacements_coeff h hin.1 hin.2, hps,
    lastHit_of_split (by simp) unhit, Option.map_some, Option.getD_some]

theorem ofPlacements_free (h : ofPlacements size ps weights = .ok op) {d k : Nat} (hd : d < size)
    (hk : k < n) (none : ∀ p ∈ ps, p.cell ≠ (d, k)) : op.coeff d k = 0 := by
  apply ofPlacements_coeff_of_not_mem h hd hk
  rintro p hp rfl rfl
  exact none p hp rfl

/-- Operators are equal when they have the same slots. -/
theorem ext_coeff {op' : DiagonalOperator α n} (hc : op.count = op'.count)
    (h : ∀ d < op.count, ∀ k < n, op.coeff d k = op'.coeff d k) : op = op' := by
  have coeff_getElem (o : DiagonalOperator α n) {d k : Nat} (hd : d < o.diagonals.size)
      (hk : k < n) : o.coeff d k = o.diagonals[d][k] := by
    rw [coeff, toList, List.getD_eq_getElem?_getD, Array.getElem?_toList,
      Array.getElem?_eq_getElem hd, Option.getD_some, slot_of_lt _ hk]
  cases op with | mk diagonals =>
  cases op' with | mk diagonals' =>
  congr 1
  refine Array.ext hc fun d hd hd' => ?_
  ext k hk
  have same := h d hd k hk
  rwa [coeff_getElem _ hd hk, coeff_getElem _ hd' hk] at same

/-- Placements that share no slot may come in any order. -/
theorem ofPlacements_perm (distinct : ((ps.filter (·.Inside size n)).map Placement.cell).Nodup)
    (hperm : qs.Perm ps) : (ofPlacements size qs weights : Result (DiagonalOperator α n)) =
      ofPlacements size ps weights := by
  by_cases room : Room n size
  swap
  · rw [ofPlacements_of_not_room room, ofPlacements_of_not_room room]
  by_cases hstray : ∃ p ∈ ps, p.Stray weights size n
  · obtain ⟨p, hp, hbad⟩ := hstray
    rw [ofPlacements_of_stray room ⟨p, hp, hbad⟩,
      ofPlacements_of_stray room ⟨p, hperm.mem_iff.mpr hp, hbad⟩]
  have hstray' : ¬∃ q ∈ qs, q.Stray weights size n :=
    fun ⟨q, hq, hbad⟩ => hstray ⟨q, hperm.mem_iff.mp hq, hbad⟩
  obtain ⟨op, hop⟩ := ofPlacements_of_readable room hstray
  obtain ⟨op', hop'⟩ := ofPlacements_of_readable room hstray'
  have unique : ∀ p ∈ ps, p.Inside size n → ∀ q ∈ ps, q.diagonal = p.diagonal →
      q.slot = p.slot → q = p := by
    intro p hp hin q hq hd hs
    have kept {r : Placement} (hr : r ∈ ps) (hr' : r.Inside size n) :
        r ∈ ps.filter (·.Inside size n) := List.mem_filter.mpr ⟨hr, decide_eq_true hr'⟩
    have hin' : q.Inside size n := ⟨hd ▸ hin.1, hs ▸ hin.2⟩
    exact List.inj_on_of_nodup_map distinct (kept hq hin') (kept hp hin) (Prod.ext hd hs)
  rw [hop, hop', Except.ok.injEq]
  have hc := ofPlacements_count hop
  have hc' := ofPlacements_count hop'
  refine ext_coeff (hc'.trans hc.symm) fun d hd k hk => ?_
  rw [hc'] at hd
  by_cases hcell : ∃ p ∈ ps, p.cell = (d, k)
  · obtain ⟨p, hp, hpc⟩ := hcell
    cases hpc
    rw [ofPlacements_coeff_of_mem hop hp hd hk (unique p hp ⟨hd, hk⟩),
      ofPlacements_coeff_of_mem hop' (hperm.mem_iff.mpr hp) hd hk
        fun q hq => unique p hp ⟨hd, hk⟩ q (hperm.mem_iff.mp hq)]
  · have free : ∀ p ∈ ps, p.cell ≠ (d, k) := fun p hp h => hcell ⟨p, hp, h⟩
    rw [ofPlacements_free hop hd hk free,
      ofPlacements_free hop' hd hk fun q hq => free q (hperm.mem_iff.mp hq)]

/-- Placements outside the operator are dropped without a look at their weights. The filling fails
exactly when there is no room for the diagonals or a kept placement names a weight that is not
there; otherwise all diagonals are there, and a slot holds the weight of the last placement for it,
or zero. The order counts only for placements that share a slot. -/
theorem ofPlacements_outcome (size : Nat) (ps : List Placement) (weights : Matrix α) :
    let filled : Result (DiagonalOperator α n) := ofPlacements size ps weights
    ofPlacements size (ps.filter (·.Inside size n)) weights = filled ∧
    (∀ weights' : Matrix α, (∀ p ∈ ps, p.Inside size n →
      weights'.get p.row p.col = weights.get p.row p.col) →
      ofPlacements size ps weights' = filled) ∧
    ((∃ fault, filled = faulty fault) ↔
      ¬Room n size ∨ ∃ p ∈ ps, p.Inside size n ∧ ¬p.Readable weights) ∧
    (Room n size → (¬∃ p ∈ ps, p.Inside size n ∧ ¬p.Readable weights) →
      ∃ op, filled = .ok op ∧ op.count = size ∧
        (∀ before p after, ps = before ++ p :: after → p.Inside size n →
          (∀ q ∈ after, q.cell ≠ p.cell) →
          weights.get p.row p.col = .ok (op.coeff p.diagonal p.slot)) ∧
        ∀ d < size, ∀ k < n, (∀ p ∈ ps, p.cell ≠ (d, k)) → op.coeff d k = 0) ∧
    (((ps.filter (·.Inside size n)).map Placement.cell).Nodup →
      ∀ qs : List Placement, qs.Perm ps → ofPlacements size qs weights = filled) := by
  intro filled
  refine ⟨ofPlacements_filter, fun weights' => ofPlacements_reads, ofPlacements_faults_iff,
    fun room readable => ?_, fun distinct qs => ofPlacements_perm distinct⟩
  obtain ⟨op, hop⟩ := ofPlacements_of_readable room readable
  exact ⟨op, hop, ofPlacements_count hop,
    fun before p after hps hin last => ofPlacements_last hop hps hin last,
    fun d hd k hk => ofPlacements_free hop hd hk⟩

/-- More diagonals than there is room for are not built, although no placement names a weight. -/
theorem ofPlacements_of_uncounted_diagonals :
    let weights : Matrix Int := ⟨1, 1, #[0], rfl, by decide⟩
    let size := 0xffffffffffffffff
    (¬∃ p ∈ ([] : List Placement), p.Inside size 1 ∧ ¬p.Readable weights) ∧
      (ofPlacements size [] weights : Result (DiagonalOperator Int 1)) = faulty .capacity :=
  ⟨fun ⟨_, hp, _⟩ => absurd hp List.not_mem_nil, ofPlacements_of_not_room (by decide)⟩

/-- Of two placements for a slot the second counts. One outside the operator may name any weight,
one inside may not. -/
theorem ofPlacements_outcome_of_repeats :
    let weights : Matrix Int := ⟨2, 2, #[1, 2, 3, 4], rfl, by decide⟩
    let ps : List Placement := [⟨0, 1, 0, 0⟩, ⟨5, 0, 9, 9⟩, ⟨0, 1, 1, 1⟩, ⟨1, 3, 0, 1⟩]
    let fill (ps : List Placement) : Result (DiagonalOperator Int 4) := ofPlacements 2 ps weights
    (∃ op, fill ps = .ok op ∧ op.coeff 0 1 = 4 ∧ op.coeff 1 0 = 0) ∧
    (∃ fault, fill (⟨1, 2, 2, 0⟩ :: ps) = faulty fault) ∧
    fill [⟨1, 3, 0, 1⟩, ⟨5, 0, 9, 9⟩, ⟨0, 1, 1, 1⟩] =
      fill [⟨0, 1, 1, 1⟩, ⟨5, 0, 9, 9⟩, ⟨1, 3, 0, 1⟩] := by
  intro weights ps fill
  obtain ⟨-, -, -, fills, -⟩ := ofPlacements_outcome (n := 4) 2 ps weights
  obtain ⟨op, hop, -, last, free⟩ := fills (by decide) (by decide)
  have held : weights.get 1 1 = .ok (op.coeff 0 1) :=
    last [⟨0, 1, 0, 0⟩, ⟨5, 0, 9, 9⟩] ⟨0, 1, 1, 1⟩ [⟨1, 3, 0, 1⟩] rfl (by decide) (by decide)
  have unplaced : op.coeff 1 0 = 0 := free 1 (by decide) 0 (by decide) (by decide)
  refine ⟨⟨op, hop, (Except.ok.inj held).symm, unplaced⟩, ?_, ?_⟩
  · obtain ⟨-, -, fails, -⟩ := ofPlacements_outcome (n := 4) 2 (⟨1, 2, 2, 0⟩ :: ps) weights
    exact fails.mpr (.inr (by decide))
  · obtain ⟨-, -, -, -, reorder⟩ :=
      ofPlacements_outcome (n := 4) 2 [⟨0, 1, 1, 1⟩, ⟨5, 0, 9, 9⟩, ⟨1, 3, 0, 1⟩] weights
    exact reorder (by decide) _ (by decide)

end DiagonalOperator
end SlotPacking
