import SlotPacking.Matrix
import SlotPacking.Proofs.Outcome
import Mathlib.Algebra.BigOperators.Fin
import Mathlib.Algebra.Ring.Basic

/-!
Matrices read entry by entry. A checked read gives the entry when both indices
are in range, a built matrix holds what its entries were computed as, and the
product with a vector is the sum over the columns.
-/
namespace SlotPacking

theorem Word.mul_eq_ok {a b c : Nat} : Word.mul a b = .ok c ↔ a * b < Word.bound ∧ c = a * b := by
  unfold Word.mul
  split
  next h => simp [h, eq_comm]
  next h => simp [h]

section Arrays
variable {α : Type}

theorem getD_ofFn [Zero α] {n i : Nat} (f : Fin n → α) (hi : i < n) :
    (Array.ofFn f).getD i 0 = f ⟨i, hi⟩ := by
  rw [Array.getD_eq_getD_getElem?, Array.getElem?_ofFn, dif_pos hi, Option.getD_some]

/-- Arrays of one size with the same entries are the same. -/
theorem array_ext_getD [Zero α] {v v' : Array α} (hs : v'.size = v.size)
    (h : ∀ i < v.size, v'.getD i 0 = v.getD i 0) : v' = v := by
  refine Array.ext hs fun i hi' hi => ?_
  rw [Array.getElem_eq_getD 0, Array.getElem_eq_getD 0]
  exact h i hi

theorem getD_extract [Zero α] {v : Array α} {start stop i : Nat} (hi : start + i < stop) :
    (v.extract start stop).getD i 0 = v.getD (start + i) 0 := by
  simp only [Array.getD_eq_getD_getElem?, Array.getElem?_extract]
  split
  next => rfl
  next h => rw [Array.getElem?_eq_none (by omega)]

theorem toList_foldl_append (start : Array α) (parts : List (Array α)) :
    (parts.foldl (· ++ ·) start).toList = start.toList ++ (parts.map Array.toList).flatten := by
  induction parts generalizing start with
  | nil => simp
  | cons part parts ih => simp [ih]

/-- Parts of one length, written one after another, are found by part and place. -/
theorem getElem?_flatten_of_length {parts : List (List α)} {width : Nat}
    (h : ∀ part ∈ parts, part.length = width) {r c : Nat} (hr : r < parts.length) (hc : c < width) :
    parts.flatten[r * width + c]? = parts[r][c]? := by
  induction parts generalizing r with
  | nil => exact absurd hr (Nat.not_lt_zero r)
  | cons part parts ih =>
    have hpart := h part List.mem_cons_self
    rw [List.flatten_cons]
    cases r with
    | zero =>
      rw [Nat.zero_mul, Nat.zero_add, List.getElem?_append_left (by omega), List.getElem_cons_zero]
    | succ r =>
      have below : (r + 1) * width + c - part.length = r * width + c := by
        rw [hpart, Nat.succ_mul]
        omega
      rw [List.getElem?_append_right (by rw [hpart, Nat.succ_mul]; omega), below,
        List.getElem_cons_succ]
      exact ih (fun part hmem => h part (List.mem_cons_of_mem _ hmem)) (Nat.lt_of_succ_lt_succ hr)

section Parts
variable {parts : List (Array α)} {width : Nat} (h : ∀ part ∈ parts, part.size = width)
include h

theorem size_foldl_append : (parts.foldl (· ++ ·) #[]).size = parts.length * width := by
  have sizes : parts.map Array.size = List.replicate parts.length width :=
    List.eq_replicate_iff.mpr ⟨List.length_map .., by simpa using h⟩
  rw [← Array.length_toList, toList_foldl_append, List.nil_append, List.length_flatten,
    List.map_map]
  exact (congrArg List.sum sizes).trans List.sum_replicate_nat

theorem getD_foldl_append [Zero α] {r c : Nat} (hr : r < parts.length) (hc : c < width) :
    (parts.foldl (· ++ ·) #[]).getD (r * width + c) 0 = parts[r].getD c 0 := by
  have lengths : ∀ part ∈ parts.map Array.toList, part.length = width := by simpa using h
  rw [Array.getD_eq_getD_getElem?, Array.getD_eq_getD_getElem?, ← Array.getElem?_toList,
    toList_foldl_append, List.nil_append,
    getElem?_flatten_of_length lengths (by rwa [List.length_map]) hc, List.getElem_map,
    Array.getElem?_toList]

end Parts

end Arrays

namespace Matrix
open Finset Result
open scoped BigOperators
variable {α : Type}

theorem flat_lt {rows cols r c : Nat} (hr : r < rows) (hc : c < cols) :
    r * cols + c < rows * cols := by
  have := Nat.mul_le_mul_right cols (Nat.succ_le_of_lt hr)
  rw [Nat.succ_mul] at this
  omega

theorem flat_div {cols r c : Nat} (hc : c < cols) : (r * cols + c) / cols = r := by
  rw [Nat.add_comm, Nat.add_mul_div_right _ _ (Nat.zero_lt_of_lt hc), Nat.div_eq_of_lt hc,
    Nat.zero_add]

theorem flat_mod {cols r c : Nat} (hc : c < cols) : (r * cols + c) % cols = c := by
  rw [Nat.add_comm, Nat.add_mul_mod_self_right, Nat.mod_eq_of_lt hc]

theorem ofArray_eq_ok {rows cols : Nat} {data : Array α} {m : Matrix α}
    (h : ofArray rows cols data = .ok m) : m.rows = rows ∧ m.cols = cols ∧ m.data = data := by
  unfold ofArray ofArray? at h
  split at h
  next b hb =>
    split at hb
    next =>
      obtain rfl := Option.some.inj hb
      obtain rfl := Except.ok.inj h
      exact ⟨rfl, rfl, rfl⟩
    next => cases hb
  next => simp at h

/-- The matrix of the given entries. -/
def ofEntries (rows cols : Nat) (h : rows * cols < Word.bound) (f : Nat → Nat → α) : Matrix α where
  rows := rows
  cols := cols
  data := (Array.range (rows * cols)).map fun i => f (i / cols) (i % cols)
  size_data := by rw [Array.size_map, Array.size_range]
  addressable := h

section Entry
variable [Zero α] (m : Matrix α) {r c : Nat}

theorem getElem?_data (hr : r < m.rows) (hc : c < m.cols) :
    m.data[r * m.cols + c]? = some (m.entry r c) := by
  have hi : r * m.cols + c < m.data.size := m.size_data ▸ flat_lt hr hc
  rw [Array.getElem?_eq_getElem hi, entry, Array.getElem_eq_getD 0]

theorem get_eq_ok {x : α} :
    m.get r c = .ok x ↔ (r < m.rows ∧ c < m.cols) ∧ m.entry r c = x := by
  unfold get
  split
  next h =>
    simp [h, getElem?_data m h.1 h.2]
  next h => simp [h]

theorem get_of_lt (hr : r < m.rows) (hc : c < m.cols) : m.get r c = .ok (m.entry r c) :=
  (get_eq_ok m).mpr ⟨⟨hr, hc⟩, rfl⟩

theorem get_eq_error {e : Failure} :
    m.get r c = .error e ↔ ¬(r < m.rows ∧ c < m.cols) ∧ e = .fault .indexOutOfRange := by
  by_cases h : r < m.rows ∧ c < m.cols
  · simp [get_of_lt m h.1 h.2, h]
  · rw [get, if_neg h, faulty, Except.error.injEq, eq_comm]
    exact (and_iff_right h).symm

theorem build_eq_ok {rows cols : Nat} {f : Nat → Nat → Result α} {m : Matrix α}
    (h : build rows cols f = .ok m) :
    m.rows = rows ∧ m.cols = cols ∧ ∀ r < rows, ∀ c < cols, f r c = .ok (m.entry r c) := by
  obtain ⟨count, hcount, h⟩ := bind_eq_ok.mp h
  obtain ⟨-, rfl⟩ := Word.mul_eq_ok.mp hcount
  obtain ⟨-, -, h⟩ := bind_eq_ok.mp h
  obtain ⟨entries, he, h⟩ := bind_eq_ok.mp h
  obtain ⟨rfl, rfl, hd⟩ := ofArray_eq_ok h
  obtain ⟨hl, hv⟩ := mapM_range_eq_ok he
  refine ⟨rfl, rfl, fun r hr c hc => ?_⟩
  have hi : r * m.cols + c < entries.length := hl ▸ flat_lt hr hc
  have hf := hv _ hi
  rw [flat_div hc, flat_mod hc] at hf
  have hentry := getElem?_data m hr hc
  rw [hd, List.getElem?_toArray, List.getElem?_eq_getElem hi] at hentry
  rw [hf, Option.some.inj hentry]

omit [Zero α] in
theorem build_succeeds {rows cols : Nat} {f : Nat → Nat → Result α}
    (room : rows * cols * 8 < 0x8000000000000000)
    (h : ∀ r < rows, ∀ c < cols, ∃ x, f r c = .ok x) : ∃ m, build rows cols f = .ok m := by
  have hsize : rows * cols < Word.bound := by unfold Word.bound; omega
  obtain ⟨entries, he⟩ := mapM_succeeds (l := List.range (rows * cols))
    (f := fun i => f (i / cols) (i % cols)) fun i hi => by
      have hi := List.mem_range.mp hi
      have hc : 0 < cols := Nat.pos_of_mul_pos_left (Nat.zero_lt_of_lt hi)
      exact h _ (Nat.div_lt_of_lt_mul (by rwa [Nat.mul_comm])) _ (Nat.mod_lt _ hc)
  have hl : entries.toArray.size = rows * cols := (mapM_range_eq_ok he).1
  rw [build, Word.mul_of_lt hsize, ok_bind, Word.reserve_of_lt room, ok_bind, he, ok_bind, ofArray,
    ofArray?, dif_pos ⟨hl, hsize⟩]
  exact ⟨_, rfl⟩

theorem row_eq_ok (hr : r < m.rows) :
    ∃ entries, m.row r = .ok entries ∧ entries.size = m.cols ∧
      ∀ c < m.cols, entries.getD c 0 = m.entry r c := by
  have hle : (r + 1) * m.cols ≤ m.data.size := by
    rw [m.size_data]; exact Nat.mul_le_mul_right _ hr
  refine ⟨_, if_pos hle, ?_, fun c hc => ?_⟩
  · rw [Array.size_extract, Nat.min_eq_left hle, Nat.succ_mul, Nat.add_sub_cancel_left]
  · exact getD_extract (by rw [Nat.succ_mul]; omega)

/-- A block within the matrix is its entries, row by row. -/
theorem window_eq_ok {top left height width : Nat} (hr : top + height ≤ m.rows)
    (hc : left + width ≤ m.cols) :
    ∃ region, m.window top left height width = .ok region ∧ region.size = height * width ∧
      ∀ r < height, ∀ c < width,
        region.getD (r * width + c) 0 = m.entry (top + r) (left + c) := by
  have read (r : Nat) (h : r < height) := row_eq_ok m (r := top + r) (by omega)
  obtain ⟨rows, hrows⟩ := mapM_succeeds (l := List.range height) (f := fun r => m.row (top + r))
    fun r hmem => (read r (List.mem_range.mp hmem)).imp fun _ h => h.1
  obtain ⟨rfl, hrow⟩ := mapM_range_eq_ok hrows
  have full (r : Nat) (h : r < rows.length) : rows[r].size = m.cols ∧
      ∀ c < m.cols, rows[r].getD c 0 = m.entry (top + r) c := by
    obtain ⟨entries, he, hs, hd⟩ := read r h
    obtain rfl : entries = rows[r] := Except.ok.inj (he.symm.trans (hrow r h))
    exact ⟨hs, hd⟩
  have sizes : ∀ part ∈ rows.map fun row => row.extract left (left + width), part.size = width := by
    intro part hpart
    obtain ⟨row, hmem, rfl⟩ := List.mem_map.mp hpart
    obtain ⟨r, h, rfl⟩ := List.getElem_of_mem hmem
    rw [Array.size_extract, (full r h).1]
    omega
  refine ⟨_, by rw [window, if_pos ⟨hr, hc⟩, hrows]; rfl, ?_, fun r h c h' => ?_⟩
  · rw [size_foldl_append sizes, List.length_map]
  · rw [getD_foldl_append sizes (by rwa [List.length_map]) h', List.getElem_map,
      getD_extract (by omega), (full r h).2 _ (by omega)]

theorem entry_ofEntries {rows cols r c : Nat} {h : rows * cols < Word.bound} {f : Nat → Nat → α}
    (hr : r < rows) (hc : c < cols) : (ofEntries rows cols h f).entry r c = f r c := by
  have hi : r * cols + c < rows * cols := flat_lt hr hc
  rw [entry, ofEntries, Array.getD_eq_getD_getElem?, Array.getElem?_map, Array.getElem?_range,
    if_pos hi, Option.map_some, Option.getD_some, flat_div hc, flat_mod hc]

/-- Matrices of one size with the same entries are the same. -/
theorem ext_entry {m m' : Matrix α} (hr : m'.rows = m.rows) (hc : m'.cols = m.cols)
    (h : ∀ r < m.rows, ∀ c < m.cols, m'.entry r c = m.entry r c) : m' = m := by
  obtain ⟨rows, cols, data, size, addressable⟩ := m
  obtain ⟨rows', cols', data', size', addressable'⟩ := m'
  obtain rfl : rows' = rows := hr
  obtain rfl : cols' = cols := hc
  suffices hdata : data' = data by subst hdata; rfl
  refine Array.ext (size'.trans size.symm) fun i hi' hi => ?_
  have hcols : 0 < cols' := Nat.pos_of_ne_zero fun h0 => by
    rw [size, h0, Nat.mul_zero] at hi
    omega
  have same := h (i / cols') (Nat.div_lt_of_lt_mul (by rw [Nat.mul_comm, ← size]; exact hi))
    (i % cols') (Nat.mod_lt i hcols)
  rw [entry, entry, Nat.div_add_mod' i cols'] at same
  rwa [Array.getElem_eq_getD 0, Array.getElem_eq_getD 0]

end Entry

section Product
variable {R : Type} [CommRing R]

theorem dot_eq_sum {a b : Array R} {w : Nat} (ha : a.size = w) (hb : b.size = w) :
    dot a b = ∑ c ∈ range w, a.getD c 0 * b.getD c 0 := by
  have hz : (a.zipWith (· * ·) b).toList =
      List.ofFn fun c : Fin w => a.getD c 0 * b.getD c 0 := by
    apply List.ext_getElem
    · simp [ha, hb]
    · intro i hi _
      simp only [Array.toList_zipWith, List.length_zipWith, Array.length_toList] at hi
      simp [Array.getD_eq_getD_getElem?, Array.getElem?_eq_getElem (show i < a.size by omega),
        Array.getElem?_eq_getElem (show i < b.size by omega)]
  rw [dot, neg_zero, ← Array.foldl_toList, hz, ← List.sum_eq_foldl, List.sum_ofFn,
    Fin.sum_univ_eq_sum_range fun c => a.getD c 0 * b.getD c 0]

theorem mulVec_eq_ok (m : Matrix R) {v : Array R} (hv : v.size = m.cols) :
    m.mulVec v = .ok ((List.range m.rows).map fun r =>
      ∑ c ∈ range m.cols, m.entry r c * v.getD c 0).toArray := by
  have hrow : ∀ r ∈ List.range m.rows, (do return dot (← m.row r) v : Result R) =
      .ok (∑ c ∈ range m.cols, m.entry r c * v.getD c 0) := by
    intro r hr
    obtain ⟨entries, he, hs, hd⟩ := row_eq_ok m (List.mem_range.mp hr)
    rw [he, ok_bind, pure_eq_ok, dot_eq_sum hs hv]
    exact congrArg _ (sum_congr rfl fun c hc => by rw [hd c (mem_range.mp hc)])
  rw [mulVec, if_pos hv, mapM_eq_ok_map hrow]
  rfl

end Product
end Matrix
end SlotPacking
