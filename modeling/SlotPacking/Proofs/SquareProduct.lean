import SlotPacking.Proofs.CircuitSum

/-!
The circuit on the diagonals of a square matrix is the matrix-vector product, for
every grid of steps whose total rotations run through the diagonals.
-/
namespace SlotPacking
open Finset Circuit SlotVector
open scoped BigOperators
variable {n : Nat}

namespace DiagonalOperator
variable {α : Type} [Zero α] {m : Matrix α}

theorem mem_square {p : Placement} :
    p ∈ Placement.square n ↔ ∃ i < n, ∃ k < n, p = ⟨i, k, k, (k + i) % n⟩ := by
  simp [Placement.square, eq_comm]

theorem ofSquare_succeeds (hr : m.rows = n) (hc : m.cols = n) :
    ∃ op : DiagonalOperator α n, ofSquare m = .ok op := by
  rw [ofSquare, if_pos ⟨hr, hc⟩]
  refine ofPlacements_succeeds (Room.of_square ?_) fun p hp _ _ => ?_
  · have := m.addressable
    rwa [hr, hc] at this
  obtain ⟨i, _, k, hk, rfl⟩ := mem_square.mp hp
  rw [hr, hc]
  exact ⟨hk, Nat.mod_lt _ (Nat.zero_lt_of_lt hk)⟩

/-- Diagonal `d` of a square matrix holds the entry of row `k` and column `k + d` in slot `k`. -/
theorem ofSquare_coeff {op : DiagonalOperator α n} (h : ofSquare m = .ok op) :
    op.count = n ∧ ∀ d < n, ∀ k < n, op.coeff d k = m.entry k ((k + d) % n) := by
  unfold ofSquare at h
  split at h
  next =>
    refine ⟨ofPlacements_count h, fun d hd k hk => ?_⟩
    refine ofPlacements_coeff_of_mem h (p := ⟨d, k, k, (k + d) % n⟩)
      (mem_square.mpr ⟨d, hd, k, hk, rfl⟩) hd hk fun q hq hqd hqk => ?_
    obtain ⟨i, _, j, _, rfl⟩ := mem_square.mp hq
    obtain rfl : i = d := hqd
    obtain rfl : j = k := hqk
    rfl
  next => simp at h

end DiagonalOperator

theorem SlotVector.getD_toArray {α : Type} [Zero α] (x : SlotVector α n) (c : Nat) :
    x.toArray.getD c 0 = x.slot c := by
  by_cases hc : c < n
  · rw [slot_of_lt _ hc, Array.getD_eq_getD_getElem?]
    simp only [toArray, Vector.size_toArray, hc, getElem?_pos, Option.getD_some,
      Vector.getElem_toArray]
    rfl
  · rw [slot_of_ge _ (by omega), Array.getD_eq_getD_getElem?]
    simp [toArray, hc]

section Product
variable {R : Type} [CommRing R] {m : Matrix R} {x : SlotVector R n}
  {babysteps giantsteps : List Int}

theorem evaluate_ofSquare_slot {op : DiagonalOperator R n}
    (hop : DiagonalOperator.ofSquare m = .ok op)
    (grid : babysteps.length * giantsteps.length = n)
    (steps : ∀ (g : Fin giantsteps.length) (b : Fin babysteps.length),
      (babysteps[b] + giantsteps[g]) % n = ((g * babysteps.length + b : Nat) : Int) % n)
    {k : Nat} (hk : k < n) :
    (evaluate x babysteps (weightRows babysteps.length giantsteps op.toList)).slot k =
      ∑ c ∈ range n, m.entry k c * x.slot c := by
  obtain ⟨hc, hv⟩ := DiagonalOperator.ofSquare_coeff hop
  rw [evaluate_slot_of_steps op (grid.trans hc.symm) (fun d => (d : Int)) steps hk, hc,
    ← sum_cycle (fun c => m.entry k c * x.slot c) n k]
  apply sum_congr rfl
  intro d hd
  rw [hv d (mem_range.mp hd) k hk, source_natCast]

/-- On the diagonals of a square matrix the circuit gives the matrix-vector product, whichever
signed words represent the rotations. -/
theorem matmul_ofSquare_eq_mulVec (hn : 0 < n) (hrows : m.rows = n) (hcols : m.cols = n)
    (x : SlotVector R n) (babysteps giantsteps : List Int)
    (least : Word.leastSigned ∉ giantsteps)
    (grid : babysteps.length * giantsteps.length = n)
    (steps : ∀ (g : Fin giantsteps.length) (b : Fin babysteps.length),
      (babysteps[b] + giantsteps[g]) % n = ((g * babysteps.length + b : Nat) : Int) % n) :
    ∃ op y, DiagonalOperator.ofSquare m = .ok op ∧
      matmul x op babysteps giantsteps = .ok y ∧ m.mulVec x.toArray = .ok y.toArray := by
  obtain ⟨op, hop⟩ := DiagonalOperator.ofSquare_succeeds hrows hcols
  have hc := (DiagonalOperator.ofSquare_coeff hop).1
  have hx : x.toArray.size = m.cols := hcols ▸ x.slots.size_toArray
  refine ⟨op, _, hop, matmul_eq_ok hn x (grid.trans hc.symm) least, ?_⟩
  rw [Matrix.mulVec_eq_ok m hx]
  congr 1
  apply Array.ext
  · rw [hrows]
    simp [toArray]
  · intro k hk _
    have hk : k < n := by simpa [hrows] using hk
    have hy := evaluate_ofSquare_slot (x := x) hop grid steps hk
    simp only [List.getElem_toArray, List.getElem_map, List.getElem_range, getD_toArray, hcols]
    rw [← hy, slot_of_lt _ hk]
    rfl

theorem matmul_ofSquare_signed_steps :
    ∃ op y, DiagonalOperator.ofSquare
        (⟨4, 4, #[3, -1, 4, 1, -5, 9, 2, 6, 5, 3, -5, 8, 9, 7, 9, 3], rfl, by decide⟩ :
          Matrix Int) = .ok op ∧
      matmul (⟨#v[2, -7, 1, 8]⟩ : SlotVector Int 4) op [4, -3] [0, -2] = .ok y ∧
      (⟨4, 4, #[3, -1, 4, 1, -5, 9, 2, 6, 5, 3, -5, 8, 9, 7, 9, 3], rfl, by decide⟩ :
        Matrix Int).mulVec #[2, -7, 1, 8] = .ok y.toArray :=
  matmul_ofSquare_eq_mulVec (n := 4) (by decide) rfl rfl ⟨#v[2, -7, 1, 8]⟩ [4, -3] [0, -2]
    (by decide) rfl (by decide)

end Product
end SlotPacking
