import SlotPacking.Word

/-!
Dense matrices in row-major order, with sizes known at run time. Reads check
both indices; a dimension never exceeds what 64-bit sizes can address, and a new
matrix must find room for its entries, of a word each.
-/
namespace SlotPacking

structure Matrix (α : Type) where
  rows : Nat
  cols : Nat
  data : Array α
  size_data : data.size = rows * cols
  addressable : rows * cols < Word.bound

namespace Matrix
variable {α : Type}

instance [BEq α] : BEq (Matrix α) where
  beq a b := a.rows == b.rows && a.cols == b.cols && a.data == b.data

/-- The matrix of the given row-major entries, of which there must be exactly enough. -/
def ofArray? (rows cols : Nat) (data : Array α) : Option (Matrix α) :=
  if h : data.size = rows * cols ∧ rows * cols < Word.bound then
    some ⟨rows, cols, data, h.1, h.2⟩
  else none

def ofArray (rows cols : Nat) (data : Array α) : Result (Matrix α) :=
  match ofArray? rows cols data with
  | some m => .ok m
  | none => rejectShape (.unfilledMatrix data.size rows cols)

/-- The matrix with entry `f r c` in row `r` and column `c`. -/
def ofFn (rows cols : Nat) (f : Nat → Nat → α) : Result (Matrix α) :=
  if h : rows * cols < Word.bound then do
    Word.reserve (rows * cols) 8
    return ⟨rows, cols, Array.ofFn fun i : Fin (rows * cols) => f (i / cols) (i % cols),
      Array.size_ofFn, h⟩
  else faulty .overflow

/-- As `ofFn`, from entries that may fail; they are computed row by row. -/
def build (rows cols : Nat) (f : Nat → Nat → Result α) : Result (Matrix α) := do
  let count ← Word.mul rows cols
  Word.reserve count 8
  let entries ← (List.range count).mapM fun i => f (i / cols) (i % cols)
  ofArray rows cols entries.toArray

def zero [Zero α] (rows cols : Nat) : Result (Matrix α) := ofFn rows cols fun _ _ => 0

def get (m : Matrix α) (row col : Nat) : Result α :=
  if row < m.rows ∧ col < m.cols then
    match m.data[row * m.cols + col]? with
    | some x => .ok x
    | none => faulty .indexOutOfRange
  else faulty .indexOutOfRange

def set (m : Matrix α) (row col : Nat) (x : α) : Result (Matrix α) :=
  if row < m.rows ∧ col < m.cols then
    .ok { m with
      data := m.data.setIfInBounds (row * m.cols + col) x
      size_data := by rw [Array.size_setIfInBounds, m.size_data] }
  else faulty .indexOutOfRange

/-- The entries of a row. -/
def row (m : Matrix α) (r : Nat) : Result (Array α) :=
  if (r + 1) * m.cols ≤ m.data.size then
    .ok (m.data.extract (r * m.cols) ((r + 1) * m.cols))
  else faulty .indexOutOfRange

/-- The block of the given height and width whose first entry is at `(top, left)`, row by row. -/
def window (m : Matrix α) (top left height width : Nat) : Result (Array α) := do
  if top + height ≤ m.rows ∧ left + width ≤ m.cols then
    let rows ← (List.range height).mapM fun r => m.row (top + r)
    return (rows.map fun r => r.extract left (left + width)).foldl (· ++ ·) #[]
  else faulty .indexOutOfRange

/-- The product of two rows of entries, summed from the left. The sum starts at the opposite of
zero, which in floating point is the neutral element of addition. -/
def dot [Zero α] [Neg α] [Add α] [Mul α] (a b : Array α) : α :=
  (a.zipWith (· * ·) b).foldl (· + ·) (-0)

def mulVec [Zero α] [Neg α] [Add α] [Mul α] (m : Matrix α) (v : Array α) : Result (Array α) :=
  if v.size = m.cols then do
    let entries ← (List.range m.rows).mapM fun r => return dot (← m.row r) v
    return entries.toArray
  else faulty .dimensionMismatch

/-- The entry in a row and column, found without a check. -/
def entry [Zero α] (m : Matrix α) (row col : Nat) : α := m.data.getD (row * m.cols + col) 0

def transpose [Zero α] (m : Matrix α) : Matrix α where
  rows := m.cols
  cols := m.rows
  data := Array.ofFn fun i : Fin (m.cols * m.rows) => m.entry (i % m.rows) (i / m.rows)
  size_data := Array.size_ofFn
  addressable := Nat.mul_comm m.rows m.cols ▸ m.addressable

end Matrix
end SlotPacking
