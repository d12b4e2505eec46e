import SlotPacking.Proofs.EncodedCircuit

/-!
The circuit on arbitrary weights. On any operator it sums every diagonal times
the input rotated by both steps of its cell, so a grid matters only through the
total rotation of each diagonal. On any bundle it is refused for the first cell
without a weight, and otherwise sums over all cells, each as often as it comes.
-/
namespace SlotPacking.Circuit
open Finset Result SlotVector
open scoped BigOperators
variable {α : Type} {n : Nat} {babysteps giantsteps : List Int}

section Operator
variable {R : Type} [CommRing R] {op : DiagonalOperator R n}

/-- The total rotation that a grid gives to a diagonal, whose cell is found from its index. -/
def totalRotation (babysteps giantsteps : List Int) (d : Nat) : Int :=
  babysteps.getD (d % babysteps.length) 0 + giantsteps.getD (d / babysteps.length) 0

theorem totalRotation_cell {g b : Nat} (hg : g < giantsteps.length) (hb : b < babysteps.length) :
    totalRotation babysteps giantsteps (g * babysteps.length + b) =
      babysteps[b] + giantsteps[g] := by
  rw [totalRotation, Matrix.flat_div hb, Matrix.flat_mod hb, ← List.getElem_eq_getD,
    ← List.getElem_eq_getD]

/-- The circuit on an operator as one sum over its diagonals. -/
theorem evaluate_slot_totalRotation (input : SlotVector R n)
    (hc : babysteps.length * giantsteps.length = op.count) {k : Nat} (hk : k < n) :
    (evaluate input babysteps (weightRows babysteps.length giantsteps op.toList)).slot k =
      ∑ d ∈ range op.count,
        op.coeff d k * input.slot (source n k (totalRotation babysteps giantsteps d)) :=
  evaluate_slot_of_steps op hc (totalRotation babysteps giantsteps)
    (fun g b => by rw [totalRotation_cell g.isLt b.isLt]; rfl) hk

/-- Grids that give each diagonal the same total rotation around the slots give the same result. -/
theorem evaluate_eq_of_totalRotation (input : SlotVector R n) {babysteps' giantsteps' : List Int}
    (hc : babysteps.length * giantsteps.length = op.count)
    (hc' : babysteps'.length * giantsteps'.length = op.count)
    (same : ∀ d < op.count, totalRotation babysteps' giantsteps' d % n =
      totalRotation babysteps giantsteps d % n) :
    evaluate input babysteps' (weightRows babysteps'.length giantsteps' op.toList) =
      evaluate input babysteps (weightRows babysteps.length giantsteps op.toList) := by
  ext k hk
  rw [← slot_of_lt _ hk, ← slot_of_lt _ hk, evaluate_slot_totalRotation input hc' hk,
    evaluate_slot_totalRotation input hc hk]
  refine sum_congr rfl fun d hd => ?_
  rw [source_congr (Int.ModEq.add_left _ (same d (mem_range.mp hd)))]

theorem matmul_of_mismatch [Zero α] [Add α] [Mul α] (input : SlotVector α n)
    (op : DiagonalOperator α n) (size_lt : babysteps.length * giantsteps.length < Word.bound)
    (hc : babysteps.length * giantsteps.length ≠ op.count) :
    matmul input op babysteps giantsteps =
      rejectShape (.gridMismatch babysteps.length giantsteps.length op.count) := by
  rw [matmul, checkGrid_of_mismatch size_lt hc]
  rfl

theorem matmul_of_overflow [Zero α] [Add α] [Mul α] (input : SlotVector α n)
    (op : DiagonalOperator α n) (hc : Word.bound ≤ babysteps.length * giantsteps.length) :
    matmul input op babysteps giantsteps = faulty .overflow := by
  rw [matmul, checkGrid_of_overflow hc]
  rfl

/-- A grid whose cells can be counted on words is refused exactly when it does not have one for each
diagonal. Otherwise every diagonal meets the input rotated by both of its steps, whatever the steps
are, and grids that agree in the total rotations around the slots agree in the product. -/
theorem matmul_outcome (hn : 0 < n) (input : SlotVector R n) (op : DiagonalOperator R n)
    (babysteps giantsteps : List Int) (least : Word.leastSigned ∉ giantsteps) :
    (if Word.bound ≤ babysteps.length * giantsteps.length then
      matmul input op babysteps giantsteps = faulty .overflow
    else if babysteps.length * giantsteps.length ≠ op.count then
      matmul input op babysteps giantsteps =
        rejectShape (.gridMismatch babysteps.length giantsteps.length op.count)
    else ∃ y, matmul input op babysteps giantsteps = .ok y ∧ ∀ k < n, y.slot k =
      ∑ g : Fin giantsteps.length, ∑ b : Fin babysteps.length,
        op.coeff (g * babysteps.length + b) k *
          input.slot (source n k (babysteps[b] + giantsteps[g]))) ∧
    ∀ babysteps' giantsteps' : List Int, Word.leastSigned ∉ giantsteps' →
      babysteps.length * giantsteps.length = op.count →
      babysteps'.length * giantsteps'.length = op.count →
      (∀ d < op.count, totalRotation babysteps' giantsteps' d % n =
        totalRotation babysteps giantsteps d % n) →
      matmul input op babysteps' giantsteps' = matmul input op babysteps giantsteps := by
  constructor
  · split_ifs with full hc
    · exact matmul_of_overflow input op full
    · exact matmul_of_mismatch input op (Nat.not_le.mp full) hc
    · exact ⟨_, matmul_eq_ok hn input (not_not.mp hc) least,
        fun k hk => evaluate_weightRows_slot op (not_not.mp hc) hk⟩
  · intro babysteps' giantsteps' least' hc hc' same
    rw [matmul_eq_ok hn input hc least, matmul_eq_ok hn input hc' least',
      evaluate_eq_of_totalRotation input hc hc' same]

/-- Two grids of different shapes, one with negative steps, that rotate four diagonals of three
slots alike. -/
theorem matmul_outcome_of_two_grids :
    let op : DiagonalOperator Int 3 :=
      ⟨#[⟨#v[3, 1, 4]⟩, ⟨#v[1, 5, 9]⟩, ⟨#v[2, 6, 5]⟩, ⟨#v[3, 5, 8]⟩],
        by decide⟩
    let input : SlotVector Int 3 := ⟨#v[2, -7, 1]⟩
    matmul input op [0, 1] [0] = rejectShape (.gridMismatch 2 1 4) ∧
      (∃ y, matmul input op [0, 1] [0, 2] = .ok y ∧
        y.slot 1 = 1 * -7 + 5 * 1 + (6 * 2 + 5 * -7)) ∧
      matmul input op [3, -2, -1, 6] [0] = matmul input op [0, 1] [0, 2] := by
  intro op input
  have refused := (matmul_outcome (by decide) input op [0, 1] [0] (by decide)).1
  rw [if_neg (by decide), if_pos (by decide)] at refused
  obtain ⟨product, same⟩ := matmul_outcome (by decide) input op [0, 1] [0, 2] (by decide)
  rw [if_neg (by decide), if_neg (by decide)] at product
  obtain ⟨y, hy, hslots⟩ := product
  exact ⟨refused, ⟨y, hy, (hslots 1 (by decide)).trans (by decide)⟩,
    same [3, -2, -1, 6] [0] (by decide) rfl rfl (by decide)⟩

/-- A grid of `2^32` by `2^32` steps does not cover an operator without diagonals, and its cells are
too many for a word. -/
theorem matmul_of_uncounted_grid :
    let op : DiagonalOperator Int 1 := ⟨#[], by decide⟩
    let steps : List Int := List.replicate 0x100000000 0
    steps.length * steps.length ≠ op.count ∧ Word.leastSigned ∉ steps ∧
      matmul 0 op steps steps = faulty .overflow := by
  intro op steps
  have length_steps : steps.length = 0x100000000 := List.length_replicate
  refine ⟨?_, fun h => ?_, matmul_of_overflow 0 op ?_⟩
  · rw [length_steps]
    decide
  · exact absurd (List.eq_of_mem_replicate h) (by decide)
  · rw [length_steps]
    decide

end Operator

section Bundle
variable {base : String}

def missing (bundle : Bundle α n) (base : String) (cell : Int × Int) : Bool :=
  !bundle.contains (cellName base cell.1 cell.2)

/-- The first cell of a grid, giantstep by giantstep, for which a bundle holds no weight. -/
def firstMissing? (bundle : Bundle α n) (base : String) (babysteps giantsteps : List Int) :
    Option (Int × Int) :=
  (cells babysteps giantsteps).find? (missing bundle base)

theorem firstMissing?_cons (bundle : Bundle α n) (gs : Int) :
    firstMissing? bundle base babysteps (gs :: giantsteps) =
      ((babysteps.find? fun bs => missing bundle base (bs, gs)).map (·, gs)).or
        (firstMissing? bundle base babysteps giantsteps) := by
  rw [firstMissing?, cells, List.flatMap_cons, List.find?_append, List.find?_map]
  rfl

theorem weight_of_missing {bundle : Bundle α n} {bs gs : Int}
    (h : missing bundle base (bs, gs) = true) :
    weight bundle base bs gs = rejectShape (.missingOperand (cellName base bs gs)) := by
  have absent : bundle.get? (cellName base bs gs) = none :=
    Bundle.get?_eq_none_of_contains (by simpa [missing] using h)
  simp only [weight, absent]

theorem weight_congr {bundle bundle' : Bundle α n} {bs gs : Int}
    (h : (bundle'.get? (cellName base bs gs)).map (·.values) =
      (bundle.get? (cellName base bs gs)).map (·.values)) :
    weight bundle' base bs gs = weight bundle base bs gs := by
  have of_values (b : Bundle α n) : weight b base bs gs =
      match (b.get? (cellName base bs gs)).map (·.values) with
      | some values => .ok values
      | none => rejectShape (.missingOperand (cellName base bs gs)) := by
    simp only [weight]
    cases b.get? (cellName base bs gs) with
    | some operand => rfl
    | none => rfl
  rw [of_values, of_values, h]

section Stored
variable [Zero α]

def cellValues (bundle : Bundle α n) (base : String) (cell : Int × Int) : SlotVector α n :=
  ((bundle.get? (cellName base cell.1 cell.2)).map (·.values)).getD 0

theorem exists_operand {bundle : Bundle α n} {cell : Int × Int}
    (h : missing bundle base cell = false) :
    ∃ operand, bundle.get? (cellName base cell.1 cell.2) = some operand ∧
      operand.values = cellValues bundle base cell := by
  obtain ⟨operand, ho⟩ : ∃ operand, bundle.get? (cellName base cell.1 cell.2) = some operand := by
    rw [← Option.isSome_iff_exists, ← NameMap.contains_eq_isSome_get?]
    simpa [missing] using h
  exact ⟨operand, ho, by rw [cellValues, ho, Option.map_some, Option.getD_some]⟩

theorem weight_of_not_missing {bundle : Bundle α n} {bs gs : Int}
    (h : missing bundle base (bs, gs) = false) :
    weight bundle base bs gs = .ok (cellValues bundle base (bs, gs)) := by
  obtain ⟨operand, ho, hvalues⟩ := exists_operand h
  rw [weight_eq_ok ho, hvalues]

/-- The weights that a bundle holds for a grid, one row for each giantstep. -/
def storedRows (bundle : Bundle α n) (base : String) (babysteps giantsteps : List Int) :
    List (Int × List (SlotVector α n)) :=
  giantsteps.map fun gs => (gs, babysteps.map fun bs => cellValues bundle base (bs, gs))

theorem lookup_row (bundle : Bundle α n) (base : String) (babysteps : List Int) (gs : Int) :
    (babysteps.mapM fun bs => weight bundle base bs gs) =
      match babysteps.find? fun bs => missing bundle base (bs, gs) with
      | some bs => rejectShape (.missingOperand (cellName base bs gs))
      | none => .ok (babysteps.map fun bs => cellValues bundle base (bs, gs)) := by
  rw [mapM_eq_find? (fun bs => missing bundle base (bs, gs)) _ _ (fun _ => weight_of_missing)
    (fun _ => weight_of_not_missing)]
  cases babysteps.find? fun bs => missing bundle base (bs, gs) with
  | some bs => rfl
  | none => rfl

/-- The weights of a grid are looked up giantstep by giantstep, and the first that is missing
stops it. -/
theorem lookup_rows (bundle : Bundle α n) (base : String) (babysteps giantsteps : List Int) :
    (giantsteps.mapM fun gs => do
      let weights ← babysteps.mapM fun bs => weight bundle base bs gs
      return (gs, weights)) =
    match firstMissing? bundle base babysteps giantsteps with
    | some cell => rejectShape (.missingOperand (cellName base cell.1 cell.2))
    | none => .ok (storedRows bundle base babysteps giantsteps) := by
  induction giantsteps with
  | nil => rfl
  | cons gs rest ih =>
    rw [List.mapM_cons, lookup_row, ih, firstMissing?_cons]
    cases babysteps.find? fun bs => missing bundle base (bs, gs) with
    | some bs => rfl
    | none =>
      cases firstMissing? bundle base babysteps rest with
      | some cell => rfl
      | none => rfl

end Stored

section Evaluation
variable [Zero α] [Add α] [Mul α]

/-- On any bundle the named circuit is refused for the first missing weight, or runs on the weights
that are stored. -/
theorem evaluateEncoded_eq (hn : 0 < n) (input : SlotVector α n) (bundle : Bundle α n)
    (base : String) (babysteps giantsteps : List Int) :
    evaluateEncoded input bundle base babysteps giantsteps =
      match firstMissing? bundle base babysteps giantsteps with
      | some cell => rejectShape (.missingOperand (cellName base cell.1 cell.2))
      | none => .ok (evaluate input babysteps (storedRows bundle base babysteps giantsteps)) := by
  rw [evaluateEncoded, checkRotations_of_pos hn, ok_bind, lookup_rows]
  cases firstMissing? bundle base babysteps giantsteps with
  | some cell => rfl
  | none => rfl

theorem evaluateEncoded_eq_ok (hn : 0 < n) {input y : SlotVector α n} {bundle : Bundle α n}
    (h : evaluateEncoded input bundle base babysteps giantsteps = .ok y) :
    firstMissing? bundle base babysteps giantsteps = none ∧
      y = evaluate input babysteps (storedRows bundle base babysteps giantsteps) := by
  rw [evaluateEncoded_eq hn] at h
  split at h
  next => simp at h
  next hm => exact ⟨hm, (Except.ok.inj h).symm⟩

/-- The named circuit depends on nothing in a bundle but the values under the names of its cells. -/
theorem evaluateEncoded_congr {bundle bundle' : Bundle α n} (input : SlotVector α n)
    (same : ∀ cell ∈ cells babysteps giantsteps,
      (bundle'.get? (cellName base cell.1 cell.2)).map (·.values) =
        (bundle.get? (cellName base cell.1 cell.2)).map (·.values)) :
    evaluateEncoded input bundle' base babysteps giantsteps =
      evaluateEncoded input bundle base babysteps giantsteps := by
  have rows : ∀ gs ∈ giantsteps, (babysteps.mapM fun bs => weight bundle' base bs gs) =
      babysteps.mapM fun bs => weight bundle base bs gs := by
    intro gs hg
    exact mapM_congr fun bs hb => weight_congr (same (bs, gs) (mem_cells.mpr ⟨hb, hg⟩))
  rw [evaluateEncoded, evaluateEncoded, mapM_congr fun gs hg => by rw [rows gs hg]]

end Evaluation

/-- The circuit on stored weights sums over the cells of its grid, each as often as it comes. -/
theorem evaluate_storedRows_slot {R : Type} [CommRing R] (input : SlotVector R n)
    (bundle : Bundle R n) {k : Nat} (hk : k < n) :
    (evaluate input babysteps (storedRows bundle base babysteps giantsteps)).slot k =
      ((cells babysteps giantsteps).map fun cell =>
        (cellValues bundle base cell).slot (source n k cell.2) *
          input.slot (source n k (cell.2 + cell.1))).sum := by
  rw [evaluate_slot _ _ _ hk, storedRows, cells, List.map_map, List.map_flatMap, List.flatMap_def,
    List.sum_flatten, List.map_map]
  congr 1
  refine List.map_congr_left fun gs _ => ?_
  simp only [Function.comp_def, ← List.map_prod_right_eq_zip, List.map_map]

/-- On any bundle the named circuit is refused for the first cell of its grid without a weight, and
gives a result when there is none; nothing but the values under the names of the cells matters.
The result sums, over all cells, the weight at the slot that its giantstep brings, times the input
at the slot that both steps bring. -/
theorem evaluateEncoded_outcome (hn : 0 < n) (base : String) (babysteps giantsteps : List Int) :
    (∀ {α : Type} [Zero α] [Add α] [Mul α] (input : SlotVector α n) (bundle : Bundle α n),
      (match firstMissing? bundle base babysteps giantsteps with
        | some cell => evaluateEncoded input bundle base babysteps giantsteps =
            rejectShape (.missingOperand (cellName base cell.1 cell.2))
        | none => ∃ y, evaluateEncoded input bundle base babysteps giantsteps = .ok y) ∧
      ∀ bundle' : Bundle α n,
        (∀ cell ∈ cells babysteps giantsteps,
          (bundle'.get? (cellName base cell.1 cell.2)).map (·.values) =
            (bundle.get? (cellName base cell.1 cell.2)).map (·.values)) →
        evaluateEncoded input bundle' base babysteps giantsteps =
          evaluateEncoded input bundle base babysteps giantsteps) ∧
    ∀ {R : Type} [CommRing R] (input : SlotVector R n) (bundle : Bundle R n) (y : SlotVector R n),
      evaluateEncoded input bundle base babysteps giantsteps = .ok y →
        (∀ cell ∈ cells babysteps giantsteps, ∃ operand,
          bundle.get? (cellName base cell.1 cell.2) = some operand ∧
            operand.values = cellValues bundle base cell) ∧
        ∀ k < n, y.slot k = ((cells babysteps giantsteps).map fun cell =>
          (cellValues bundle base cell).slot (source n k cell.2) *
            input.slot (source n k (cell.2 + cell.1))).sum := by
  refine ⟨fun input bundle => ⟨?_, fun bundle' => evaluateEncoded_congr input⟩, ?_⟩
  · have outcome := evaluateEncoded_eq hn input bundle base babysteps giantsteps
    cases hm : firstMissing? bundle base babysteps giantsteps with
    | some cell => simpa only [hm] using outcome
    | none =>
      rw [hm] at outcome
      exact ⟨_, outcome⟩
  · intro R _ input bundle y h
    obtain ⟨hm, rfl⟩ := evaluateEncoded_eq_ok hn h
    refine ⟨fun cell hcell => exists_operand ?_, fun k hk => evaluate_storedRows_slot input bundle hk⟩
    simpa using List.find?_eq_none.mp hm cell hcell

/-- A babystep that comes twice counts twice; a giantstep without a weight is found out. -/
theorem evaluateEncoded_outcome_of_repeated_step :
    let input : SlotVector Int 3 := ⟨#v[2, 3, 4]⟩
    let bundle : Bundle Int 3 := Bundle.set ∅ ⟨"w_1_-2", ⟨#v[5, 7, 11]⟩, .ofNat 6⟩
    (∃ y, evaluateEncoded input bundle "w" [1, 1] [-2] = .ok y ∧ y.slot 0 = 7 * 4 + 7 * 4) ∧
      evaluateEncoded input bundle "w" [1, 1] [-2, 4, 0] =
        rejectShape (.missingOperand "w_1_4") := by
  intro input bundle
  have complete : firstMissing? bundle "w" [1, 1] [-2] = none := by decide +kernel
  have stops : firstMissing? bundle "w" [1, 1] [-2, 4, 0] = some (1, 4) := by decide +kernel
  constructor
  · obtain ⟨outcome, sums⟩ := evaluateEncoded_outcome (n := 3) (by decide) "w" [1, 1] [-2]
    have result := (outcome input bundle).1
    rw [complete] at result
    obtain ⟨y, hy⟩ := result
    exact ⟨y, hy, ((sums input bundle y hy).2 0 (by decide)).trans (by decide +kernel)⟩
  · have result := ((evaluateEncoded_outcome (n := 3) (by decide) "w" [1, 1] [-2, 4, 0]).1
      input bundle).1
    rw [stops] at result
    exact result

end Bundle
end SlotPacking.Circuit
