import SlotPacking.Proofs.LayerOperands

/-!
Which biases can be broadcast. A block without lanes, more values than lanes in
a block and more lanes than the vector has are refused; everything else is
packed. The lanes are counted in slots before they are compared with the vector,
so a number of lanes whose slots no word can count is neither refused nor packed.
-/
namespace SlotPacking
open Result SlotVector
variable {α : Type} [Zero α] {values : Array α} {block lanes : Nat}

/-- The slots of the lanes are counted before there is anything to compare. -/
theorem packBias_of_overflow
    (h : ¬(block = 0 ∨ block < values.size ∨ lanes * laneStride < Word.bound)) :
    packBias values block lanes = faulty .overflow := by
  rw [packBias, if_neg (by omega), Word.mul_of_ge (by omega)]
  rfl

theorem packBias_of_misfit
    (counted : block = 0 ∨ block < values.size ∨ lanes * laneStride < Word.bound)
    (h : block = 0 ∨ block < values.size ∨ 256 < lanes) :
    packBias values block lanes = rejectShape (.biasBroadcast values.size block lanes) := by
  by_cases hb : block = 0 ∨ block < values.size
  · exact if_pos hb
  · have wide : slotCount < lanes * laneStride := by
      unfold slotCount laneStride
      omega
    rw [packBias, if_neg hb, Word.mul_of_lt (by omega), ok_bind, if_pos wide]

theorem packBias_of_fit (h : ¬(block = 0 ∨ block < values.size ∨ 256 < lanes)) :
    ∃ v : Slots α, packBias values block lanes = .ok v := by
  refine packBias_succeeds (by omega) (by omega) ?_
  unfold laneStride slotCount
  omega

/-- The only fault is that the slots of the lanes overflow a word, once the block has passed. -/
theorem packBias_eq_fault_iff {fault : Fault} : packBias values block lanes = faulty fault ↔
    ¬(block = 0 ∨ block < values.size ∨ lanes * laneStride < Word.bound) ∧ fault = .overflow := by
  constructor
  · intro h
    by_cases counted : block = 0 ∨ block < values.size ∨ lanes * laneStride < Word.bound
    · by_cases misfit : block = 0 ∨ block < values.size ∨ 256 < lanes
      · cases (packBias_of_misfit counted misfit).symm.trans h
      · obtain ⟨v, hv⟩ := packBias_of_fit misfit
        cases hv.symm.trans h
    · cases (packBias_of_overflow counted).symm.trans h
      exact ⟨counted, rfl⟩
  · rintro ⟨uncounted, rfl⟩
    exact packBias_of_overflow uncounted

/-- As long as the slots of the lanes can be counted, a bias is refused exactly for a block without
lanes, for more values than a block has lanes, or for more lanes than there are. Otherwise the lanes
whose place in their block has a value hold that value, and all other slots are zero. -/
theorem packBias_outcome (values : Array α) (block lanes : Nat)
    (counted : block = 0 ∨ block < values.size ∨ lanes * laneStride < Word.bound) :
    if block = 0 ∨ block < values.size ∨ 256 < lanes then
      packBias values block lanes = rejectShape (.biasBroadcast values.size block lanes)
    else
      ∃ v, packBias values block lanes = .ok v ∧
        (∀ l < lanes, l % block < values.size →
          values[l % block]? = some (v.slot (laneStride * l))) ∧
        ∀ i < slotCount, (∀ l < lanes, l % block < values.size → i ≠ laneStride * l) →
          v.slot i = 0 := by
  split_ifs with h
  · exact packBias_of_misfit counted h
  · obtain ⟨v, hv⟩ := packBias_of_fit h
    exact ⟨v, hv, fun l hl => packBias_lane_value hv hl, fun i _ => packBias_slot_eq_zero hv⟩

/-- Two values in blocks of three lanes, which do not divide the lanes evenly. -/
theorem packBias_outcome_of_uneven_blocks :
    (∃ v : Slots Int, packBias #[5, 7] 3 256 = .ok v ∧ v.slot (laneStride * 255) = 5 ∧
      v.slot (laneStride * 254) = 0) ∧
    packBias (#[5, 7] : Array Int) 3 257 = rejectShape (.biasBroadcast 2 3 257) := by
  have packs := packBias_outcome (#[5, 7] : Array Int) 3 256 (by decide)
  have refuses := packBias_outcome (#[5, 7] : Array Int) 3 257 (by decide)
  rw [if_neg (by decide)] at packs
  rw [if_pos (by decide)] at refuses
  obtain ⟨v, hv, lanes, free⟩ := packs
  refine ⟨⟨v, hv, (Option.some.inj (lanes 255 (by decide) (by decide))).symm, ?_⟩, refuses⟩
  refine free _ (by decide) fun l _ hx h => ?_
  obtain rfl : l = 254 := Nat.mul_left_cancel (by decide) h.symm
  exact absurd hx (by decide)

/-- With two to the power of 57 lanes a bias is not refused but faults. -/
theorem packBias_of_uncounted_lanes :
    packBias (#[1] : Array Int) 1 0x200000000000000 = faulty .overflow ∧
      ∀ shape, packBias (#[1] : Array Int) 1 0x200000000000000 ≠ rejectShape shape := by
  have faults : packBias (#[1] : Array Int) 1 0x200000000000000 = faulty .overflow :=
    packBias_eq_fault_iff.mpr ⟨by decide, rfl⟩
  refine ⟨faults, fun shape h => ?_⟩
  cases faults.symm.trans h

end SlotPacking
