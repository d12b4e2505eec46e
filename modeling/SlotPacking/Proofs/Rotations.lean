import SlotPacking.Proofs.SlotVectors

/-!
Rotations as a whole. They are an action of the integers on slot vectors, through
the residues of the steps, and each of them is compatible with the operations
slot by slot.
-/
namespace SlotPacking.SlotVector
variable {α : Type} {n : Nat}

/-- Only the residue of a step counts. -/
theorem rotate_congr {k l : Int} (v : SlotVector α n) (h : k % n = l % n) :
    v.rotate k = v.rotate l := by
  ext i hi
  have same : source n i k = source n i l :=
    source_congr (by rw [Int.add_emod, h, ← Int.add_emod])
  rw [getElem_rotate, getElem_rotate]
  simp only [same]

theorem rotate_emod (v : SlotVector α n) (k : Int) : v.rotate (k % n) = v.rotate k :=
  v.rotate_congr (Int.emod_emod_of_dvd k dvd_rfl)

theorem rotate_of_dvd (v : SlotVector α n) {k : Int} (h : (n : Int) ∣ k) : v.rotate k = v := by
  rw [v.rotate_congr (l := 0) (by rw [Int.emod_eq_zero_of_dvd h, Int.zero_emod]), rotate_zero]

theorem rotate_add [Add α] (u v : SlotVector α n) (k : Int) :
    (u + v).rotate k = u.rotate k + v.rotate k := by
  ext i hi
  rw [getElem_add, getElem_rotate, getElem_rotate, getElem_rotate, getElem_add]

theorem rotate_mul [Mul α] (u v : SlotVector α n) (k : Int) :
    (u * v).rotate k = u.rotate k * v.rotate k := by
  ext i hi
  rw [getElem_mul, getElem_rotate, getElem_rotate, getElem_rotate, getElem_mul]

@[simp] theorem size_toArray (v : SlotVector α n) : v.toArray.size = n := v.slots.size_toArray

/-- A rotation by any integer takes slot `i` from the slot at the residue of `i + k`. Two rotations
are the one by the residue of the sum of their steps, opposite ones undo each other, and sums and
products slot by slot are rotated by rotating their parts. No slot is lost or gained. -/
theorem rotate_acts (hn : 0 < n) [Add α] [Mul α] (u v : SlotVector α n) (k l : Int) :
    v.rotate? k = .ok (v.rotate k) ∧
    (∀ i (hi : i < n), ∃ j, ∃ hj : j < n, (j : Int) = (i + k) % n ∧ (v.rotate k)[i] = v[j]) ∧
    (v.rotate k).rotate l = v.rotate ((k + l) % n) ∧
    ((n : Int) ∣ k + l → (v.rotate k).rotate l = v) ∧
    (u + v).rotate k = u.rotate k + v.rotate k ∧
    (u * v).rotate k = u.rotate k * v.rotate k ∧
    (v.rotate k).toArray.size = n ∧ ((v.rotate k).rotate l).toArray.size = n ∧
    ((u + v).rotate k).toArray.size = n ∧ ((u * v).rotate k).toArray.size = n := by
  refine ⟨if_neg hn.ne', fun i hi => ?_, ?_, fun h => ?_, rotate_add u v k, rotate_mul u v k,
    size_toArray _, size_toArray _, size_toArray _, size_toArray _⟩
  · exact ⟨source n i k, source_lt hn i k, natCast_source hn i k, getElem_rotate v k i hi⟩
  · rw [rotate_rotate, rotate_emod]
  · rw [rotate_rotate, rotate_of_dvd v h]

/-- Steps at both ends of the signed words, on three slots. -/
theorem rotate_acts_at_extremes :
    let v : SlotVector Nat 3 := ⟨#v[5, 6, 7]⟩
    v.rotate? (-0x8000000000000000) = .ok (v.rotate 1) ∧
    (v.rotate 0x7fffffffffffffff).rotate (-0x8000000000000000) = v.rotate 2 ∧
    (v.rotate 0x7fffffffffffffff).rotate (-0x7fffffffffffffff) = v := by
  intro v
  have least := rotate_acts (by decide) v v (-0x8000000000000000) 0
  have ends := rotate_acts (by decide) v v 0x7fffffffffffffff (-0x8000000000000000)
  have opposite := rotate_acts (by decide) v v 0x7fffffffffffffff (-0x7fffffffffffffff)
  exact ⟨least.1, ends.2.2.1, opposite.2.2.2.1 (by decide)⟩

end SlotPacking.SlotVector
