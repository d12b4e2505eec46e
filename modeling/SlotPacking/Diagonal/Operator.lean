import SlotPacking.Diagonal.Placement
import SlotPacking.Matrix

/-!
Linear operators as lists of generalized diagonals. An operator is filled from
placements in order: a placement outside the operator is dropped before its
weight is read, and the last one for a slot counts.
-/
namespace SlotPacking

structure DiagonalOperator (α : Type) (n : Nat) where
  diagonals : Array (SlotVector α n)
  addressable : diagonals.size < Word.bound

namespace DiagonalOperator
variable {α : Type} {n : Nat}

def count (op : DiagonalOperator α n) : Nat := op.diagonals.size

def isEmpty (op : DiagonalOperator α n) : Bool := op.diagonals.isEmpty

def toList (op : DiagonalOperator α n) : List (SlotVector α n) := op.diagonals.toList

/-- The operator of the given diagonals. -/
def ofArray (diagonals : Array (SlotVector α n)) : Result (DiagonalOperator α n) :=
  if h : diagonals.size < Word.bound then .ok ⟨diagonals, h⟩ else faulty .capacity

theorem ofArray_diagonals (op : DiagonalOperator α n) : ofArray op.diagonals = .ok op :=
  dif_pos op.addressable

/-- There is room for the words of one diagonal of `n` slots and, for each of `count` diagonals, for
the three words that refer to it. -/
structure Room (n count : Nat) : Prop where
  slots : n * 8 < 0x8000000000000000
  diagonals : count * 24 < 0x8000000000000000

instance (n count : Nat) : Decidable (Room n count) :=
  decidable_of_iff (n * 8 < 0x8000000000000000 ∧ count * 24 < 0x8000000000000000)
    ⟨fun h => ⟨h.1, h.2⟩, fun h => ⟨h.1, h.2⟩⟩

theorem Room.count_lt {count : Nat} (h : Room n count) : count < Word.bound := by
  have := h.diagonals
  unfold Word.bound
  omega

theorem Room.of_square (h : n * n < Word.bound) : Room n n := by
  have : n < 0x100000000 := by
    apply Nat.lt_of_not_le
    intro hn
    exact Nat.not_lt.mpr (Nat.mul_le_mul hn hn) h
  exact ⟨by omega, by omega⟩

/-- The operator of zero diagonals. -/
def zero [Zero α] (count : Nat) : Result (DiagonalOperator α n) :=
  if room : Room n count then
    .ok ⟨Array.replicate count 0, by rw [Array.size_replicate]; exact room.count_lt⟩
  else faulty .capacity

/-- Writes one slot of one diagonal; an address outside the operator changes nothing. -/
def write (op : DiagonalOperator α n) (diagonal slot : Nat) (x : α) : DiagonalOperator α n where
  diagonals := op.diagonals.modify diagonal fun v => ⟨v.slots.setIfInBounds slot x⟩
  addressable := by rw [Array.size_modify]; exact op.addressable

/-- Writes the weight of a placement, unless the placement lies outside the operator. -/
def place (weights : Matrix α) (op : DiagonalOperator α n) (p : Placement) :
    Result (DiagonalOperator α n) :=
  if p.diagonal < op.count ∧ p.slot < n then do
    let w ← weights.get p.row p.col
    return op.write p.diagonal p.slot w
  else .ok op

def ofPlacements [Zero α] (count : Nat) (placements : List Placement) (weights : Matrix α) :
    Result (DiagonalOperator α n) := do
  let empty ← zero count
  placements.foldlM (place weights) empty

/-- The operator of a square matrix, one diagonal for each slot. -/
def ofSquare [Zero α] (m : Matrix α) : Result (DiagonalOperator α n) :=
  if m.rows = n ∧ m.cols = n then ofPlacements n (Placement.square n) m
  else rejectShape (.notSquare n m.rows m.cols)

/-- The operator of one output channel of a convolution; a kernel is a row of `kernels`. -/
def conv [Zero α] (kernels : Matrix α) (channel : Nat) :
    Result (DiagonalOperator α slotCount) := do
  if imageLanes < kernels.cols ∨ kernels.rows ≤ channel then
    rejectShape (.noSuchKernel channel kernels.rows kernels.cols)
  else
    let count ← Split.conv.diagonals
    ofPlacements count (Placement.convAll channel kernels.cols) kernels

/-- The operator of a fully connected layer from its input-major weights, cut or filled up with
zero diagonals to the size of a split. -/
def dense [Zero α] (layout : DenseLayout) (weights : Matrix α) (split : Split) :
    Result (DiagonalOperator α slotCount) := do
  if weights.rows = layout.inputs ∧ weights.cols = layout.outputs then
    let count ← split.diagonals
    ofPlacements count (Placement.denseAll layout) weights
  else
    rejectShape (.weightShape layout.name layout.inputs layout.outputs weights.rows weights.cols)

end DiagonalOperator
end SlotPacking
