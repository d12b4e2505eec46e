import SlotPacking.Proofs.EncodedCircuit

/-!
Encodings of operators on arbitrary grids. An operator that does not have one
diagonal for each cell is refused, and a grid with a repeated step stops at the
first cell that comes again. What is encoded gives the operator back, cell by
cell.
-/
namespace SlotPacking
open Result

section Repeats
variable {β γ : Type} {l : List β} {a : β}

/-- The first element of a list that comes for the second time. -/
def FirstRepeat (l : List β) (a : β) : Prop :=
  ∃ before after, l = before ++ a :: after ∧ before.Nodup ∧ a ∈ before

theorem exists_firstRepeat (h : ¬l.Nodup) : ∃ a, FirstRepeat l a := by
  induction l using List.reverseRecOn with
  | nil => exact absurd List.nodup_nil h
  | append_singleton l b ih =>
    by_cases hl : l.Nodup
    · refine ⟨b, l, [], rfl, hl, ?_⟩
      by_contra hb
      exact h (List.nodup_append_comm.mp (List.nodup_cons.mpr ⟨hb, hl⟩))
    · obtain ⟨a, before, after, rfl, hnodup, ha⟩ := ih hl
      exact ⟨a, before, after ++ [b], by simp, hnodup, ha⟩

theorem FirstRepeat.map {f : β → γ} (hf : Function.Injective f) (h : FirstRepeat l a) :
    FirstRepeat (l.map f) (f a) := by
  obtain ⟨before, after, rfl, hnodup, ha⟩ := h
  exact ⟨before.map f, after.map f, by simp, hnodup.map hf, List.mem_map_of_mem ha⟩

end Repeats

/-- Insertions into an empty bundle stop at the first name that comes again. -/
theorem Bundle.insertAll_of_firstRepeat {α : Type} {n : Nat} {operands : List (Operand α n)}
    {name : String} (h : FirstRepeat (operands.map (·.name)) name) :
    (Bundle.insertAll ∅ operands).2 = some (.rejected (.duplicateOperand name)) := by
  obtain ⟨names, _, hnames, hnodup, hmem⟩ := h
  obtain ⟨before, _, rfl, rfl, hrest⟩ := List.map_eq_append_iff.mp hnames
  obtain ⟨e, after, rfl, rfl, rfl⟩ := List.map_eq_cons_iff.mp hrest
  have hbefore : Bundle.insertAll ∅ before = ((Bundle.insertAll ∅ before).1, none) :=
    Prod.ext rfl (insertAll_succeeds hnodup fun _ _ => rfl)
  have taken : (Bundle.insertAll ∅ before).1.contains e.name = true := by
    obtain ⟨d, hd, hde⟩ := List.mem_map.mp hmem
    have stored := insertAll_stores (congrArg Prod.snd hbefore) d hd
    rw [NameMap.contains_eq_isSome_get?, ← hde, stored]
    rfl
  rw [insertAll_stops hbefore taken]

namespace Circuit
variable {α : Type} {n : Nat} {base : String} {op : DiagonalOperator α n} {scale : Scale}
  {babysteps giantsteps : List Int} {bundle : Bundle α n}

theorem cells_eq_nil (h : babysteps = [] ∨ giantsteps = []) : cells babysteps giantsteps = [] := by
  rcases h with rfl | rfl
  · simp [cells, List.flatMap_eq_nil_iff]
  · rfl

theorem cells_nodup_iff (hb : babysteps ≠ []) (hg : giantsteps ≠ []) :
    (cells babysteps giantsteps).Nodup ↔ babysteps.Nodup ∧ giantsteps.Nodup := by
  refine ⟨fun h => ?_, fun h => cells_nodup h.1 h.2⟩
  obtain ⟨gs, hgs⟩ := List.exists_mem_of_ne_nil giantsteps hg
  obtain ⟨bs, hbs⟩ := List.exists_mem_of_ne_nil babysteps hb
  obtain ⟨rows, disjoint⟩ := List.nodup_flatMap.mp h
  refine ⟨.of_map _ (rows gs hgs), disjoint.imp fun {gs gs'} hd he => ?_⟩
  subst he
  exact hd (List.mem_map_of_mem hbs) (List.mem_map_of_mem hbs)

/-- The operator whose weights a bundle holds on a grid: each is rotated back by its giantstep. -/
def decode (bundle : Bundle α n) (base : String) (babysteps giantsteps : List Int) :
    Result (DiagonalOperator α n) := do
  let diagonals ← (cells babysteps giantsteps).mapM fun (bs, gs) => do
    let values ← weight bundle base bs gs
    return values.rotate gs
  DiagonalOperator.ofArray diagonals.toArray

/-- What is encoded on a grid is decoded on it. -/
theorem decode_of_encode (h : encode base op scale babysteps giantsteps = .ok bundle) :
    decode bundle base babysteps giantsteps = .ok op := by
  have hl : (cells babysteps giantsteps).length = op.toList.length := by
    rw [cells_eq_product, List.length_map, List.length_product, Nat.mul_comm, (encode_inserts h).1]
    rfl
  have diagonals : (cells babysteps giantsteps).mapM (fun (bs, gs) => do
      let values ← weight bundle base bs gs
      return values.rotate gs) = .ok op.toList := by
    rw [mapM_eq_ok, List.forall₂_iff_zip]
    refine ⟨hl, ?_⟩
    rintro ⟨bs, gs⟩ d hm
    simp only [weight_eq_ok (encode_stores h hm), ok_bind, pure_eq_ok, SlotVector.rotate_neg_rotate]
  rw [decode, diagonals, ok_bind]
  exact op.ofArray_diagonals

/-- A grid whose cells are not all distinct is refused with the first that comes again. -/
theorem encode_of_firstRepeat (hn : 0 < n) (base : String) (scale : Scale)
    (hc : babysteps.length * giantsteps.length = op.count)
    (least : Word.leastSigned ∉ giantsteps) {cell : Int × Int}
    (h : FirstRepeat (cells babysteps giantsteps) cell) :
    encode base op scale babysteps giantsteps =
      reject (.duplicateOperand (cellName base cell.1 cell.2)) := by
  have names : FirstRepeat ((encodedOperands base op scale babysteps giantsteps).map (·.name))
      (cellName base cell.1 cell.2) := by
    rw [encodedOperands_names hc]
    refine h.map fun c d he => ?_
    obtain ⟨-, h1, h2⟩ := cellName_inj.mp he
    exact Prod.ext h1 h2
  rw [encode_eq_outcome hn hc least, Bundle.outcome_of_some (Bundle.insertAll_of_firstRepeat names)]
  rfl

theorem encode_of_mismatch (base : String) (scale : Scale)
    (size_lt : babysteps.length * giantsteps.length < Word.bound)
    (hc : babysteps.length * giantsteps.length ≠ op.count) :
    encode base op scale babysteps giantsteps =
      rejectShape (.gridMismatch babysteps.length giantsteps.length op.count) := by
  rw [encode, checkGrid_of_mismatch size_lt hc]
  rfl

theorem encode_of_overflow (base : String) (op : DiagonalOperator α n) (scale : Scale)
    (hc : Word.bound ≤ babysteps.length * giantsteps.length) :
    encode base op scale babysteps giantsteps = faulty .overflow := by
  rw [encode, checkGrid_of_overflow hc]
  rfl

/-- An operator is encoded on every grid that has one cell for each of its diagonals and no step
twice. The operands are then the diagonals under the names of their cells, rotated against their
giantsteps and all at one scale, and they determine the operator. A repeated step is found out at
the first cell that comes again. Only a grid of more cells than there are words is not counted. -/
theorem encode_outcome (hn : 0 < n) (base : String) (op : DiagonalOperator α n) (scale : Scale)
    (babysteps giantsteps : List Int) (least : Word.leastSigned ∉ giantsteps) :
    if Word.bound ≤ babysteps.length * giantsteps.length then
      encode base op scale babysteps giantsteps = faulty .overflow
    else if babysteps.length * giantsteps.length ≠ op.count then
      encode base op scale babysteps giantsteps =
        rejectShape (.gridMismatch babysteps.length giantsteps.length op.count)
    else if (babysteps ≠ [] ∧ giantsteps ≠ []) ∧ ¬(babysteps.Nodup ∧ giantsteps.Nodup) then
      ∃ cell, FirstRepeat (cells babysteps giantsteps) cell ∧
        encode base op scale babysteps giantsteps =
          reject (.duplicateOperand (cellName base cell.1 cell.2))
    else
      ∃ bundle, encode base op scale babysteps giantsteps = .ok bundle ∧
        bundle.size = babysteps.length * giantsteps.length ∧
        bundle.names.Perm (cellNames base babysteps giantsteps) ∧
        (∀ g b gs bs, giantsteps[g]? = some gs → babysteps[b]? = some bs →
          ∃ operand, bundle.get? (cellName base bs gs) = some operand ∧ operand.scale = scale ∧
            op.toList[g * babysteps.length + b]? = some (operand.values.rotate gs)) ∧
        decode bundle base babysteps giantsteps = .ok op := by
  split_ifs with full hc repeated
  · exact encode_of_overflow base op scale full
  · exact encode_of_mismatch base scale (Nat.not_le.mp full) hc
  · obtain ⟨⟨hb, hg⟩, hr⟩ := repeated
    obtain ⟨cell, hcell⟩ := exists_firstRepeat (mt (cells_nodup_iff hb hg).mp hr)
    exact ⟨cell, hcell, encode_of_firstRepeat hn base scale (not_not.mp hc) least hcell⟩
  · have distinct : (cells babysteps giantsteps).Nodup := by
      by_cases hempty : babysteps = [] ∨ giantsteps = []
      · rw [cells_eq_nil hempty]
        exact List.nodup_nil
      · rw [not_or] at hempty
        exact (cells_nodup_iff hempty.1 hempty.2).mpr (not_not.mp fun hr => repeated ⟨hempty, hr⟩)
    obtain ⟨bundle, h⟩ := encode_of_nodup hn base scale (not_not.mp hc) least distinct
    have names := encode_names h
    refine ⟨bundle, h, ?_, names, fun g b gs bs hg hb => ?_, decode_of_encode h⟩
    · rw [← NameMap.length_names, names.length_eq, length_cellNames]
    · obtain ⟨grid, holds⟩ := encode_eq_ok h
      obtain ⟨d, hd, hweight⟩ := holds.get?_cell grid hg hb
      exact ⟨_, hweight, rfl, by rw [SlotVector.rotate_neg_rotate, hd]⟩

/-- Signed steps with any distances will do; the weights are those of the operator. -/
theorem encode_outcome_of_signed_steps :
    let op : DiagonalOperator Int 4 :=
      ⟨#[⟨#v[3, 1, 4, 1]⟩, ⟨#v[5, 9, 2, 6]⟩, ⟨#v[5, 3, 5, 8]⟩, ⟨#v[9, 7, 9, 3]⟩],
        by decide⟩
    ∃ bundle, encode "w" op (.pow2 3) [0, -3] [2, -5] = .ok bundle ∧
      bundle.names.Perm ["w_0_2", "w_-3_2", "w_0_-5", "w_-3_-5"] ∧
      (∃ operand, bundle.get? "w_-3_2" = some operand ∧ operand.scale = .pow2 3 ∧
        operand.values.rotate 2 = ⟨#v[5, 9, 2, 6]⟩) ∧
      decode bundle "w" [0, -3] [2, -5] = .ok op := by
  intro op
  have outcome := encode_outcome (by decide) "w" op (.pow2 3) [0, -3] [2, -5] (by decide)
  rw [if_neg (by decide), if_neg (by decide), if_neg (by decide)] at outcome
  obtain ⟨bundle, h, -, names, cell, decoded⟩ := outcome
  obtain ⟨operand, ho, hs, hd⟩ := cell 0 1 2 (-3) rfl rfl
  exact ⟨bundle, h, names, ⟨operand, ho, hs, (Option.some.inj hd).symm⟩, decoded⟩

/-- On a grid of `2^32` by `2^32` steps, an operator without diagonals is not refused for its
number of diagonals. -/
theorem encode_of_uncounted_grid :
    let op : DiagonalOperator Int 1 := ⟨#[], by decide⟩
    let steps : List Int := List.replicate 0x100000000 0
    steps.length * steps.length ≠ op.count ∧ Word.leastSigned ∉ steps ∧
      encode "w" op (.ofNat 1) steps steps = faulty .overflow := by
  intro op steps
  have length_steps : steps.length = 0x100000000 := List.length_replicate
  refine ⟨?_, fun h => ?_, encode_of_overflow "w" op _ ?_⟩
  · rw [length_steps]
    decide
  · exact absurd (List.eq_of_mem_replicate h) (by decide)
  · rw [length_steps]
    decide

end Circuit
end SlotPacking
