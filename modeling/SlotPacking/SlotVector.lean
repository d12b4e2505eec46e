import SlotPacking.Error

/-!
Vectors of a fixed number of packed slots. Addition and multiplication act slot
by slot; a rotation by `k` brings slot `i + k`, taken modulo the number of
slots, to slot `i`. The entries are of any type with the operations in use.
-/
namespace SlotPacking

structure SlotVector (α : Type) (n : Nat) where
  slots : Vector α n

namespace SlotVector
variable {α : Type} {n : Nat}

instance [BEq α] : BEq (SlotVector α n) := ⟨fun u v => u.slots == v.slots⟩

instance : GetElem (SlotVector α n) Nat α fun _ i => i < n where
  getElem v i h := v.slots[i]

instance [Zero α] : Zero (SlotVector α n) := ⟨⟨Vector.replicate n 0⟩⟩

instance [Add α] : Add (SlotVector α n) := ⟨fun u v => ⟨u.slots.zipWith (· + ·) v.slots⟩⟩

instance [Mul α] : Mul (SlotVector α n) := ⟨fun u v => ⟨u.slots.zipWith (· * ·) v.slots⟩⟩

def ofFn (f : Nat → α) : SlotVector α n := ⟨Vector.ofFn fun i => f i⟩

/-- A vector from exactly one value for each slot. -/
def ofArray (values : Array α) : Result (SlotVector α n) :=
  if h : values.size = n then .ok ⟨⟨values, h⟩⟩ else rejectShape (.slotCount n values.size)

def toArray (v : SlotVector α n) : Array α := v.slots.toArray

def toList (v : SlotVector α n) : List α := v.slots.toList

/-- The slot that a rotation by `k` brings to slot `i`. -/
def source (n : Nat) (i : Nat) (k : Int) : Nat := ((i + k) % n).toNat

/-- Rotates to the left by `k` slots, to the right when `k` is negative. -/
def rotate (v : SlotVector α n) (k : Int) : SlotVector α n :=
  let shift := (k % n).toNat
  ⟨Vector.ofFn fun i =>
    have : (i + shift) % n < n := Nat.mod_lt _ (Nat.zero_lt_of_lt i.isLt)
    v.slots[(i + shift) % n]⟩

/-- As `rotate`, for a vector that must have slots. -/
def rotate? (v : SlotVector α n) (k : Int) : Result (SlotVector α n) :=
  if n = 0 then faulty .emptyRotation else .ok (v.rotate k)

def get (v : SlotVector α n) (slot : Nat) : Result α :=
  match v.slots[slot]? with
  | some x => .ok x
  | none => faulty .indexOutOfRange

def set (v : SlotVector α n) (slot : Nat) (x : α) : Result (SlotVector α n) :=
  if h : slot < n then .ok ⟨v.slots.set slot x⟩ else faulty .indexOutOfRange

/-- The vector that holds the given values at the given slots and zero elsewhere. A later
write to a slot replaces an earlier one. -/
def scatter [Zero α] (writes : List (Nat × α)) : Result (SlotVector α n) :=
  writes.foldlM (fun v w => v.set w.1 w.2) 0

/-- The slots with a nonzero entry, in increasing order. -/
def support [Zero α] [BEq α] (v : SlotVector α n) : List Nat :=
  (List.range n).filter fun i => v.slots[i]?.any (· != 0)

/-- The sum of all slots, from the first to the last. -/
def sum [Zero α] [Add α] (v : SlotVector α n) : α := v.slots.foldl (· + ·) 0

@[ext] theorem ext {u v : SlotVector α n} (h : ∀ (i : Nat) (hi : i < n), u[i] = v[i]) : u = v := by
  cases u; cases v; congr 1; exact Vector.ext h

@[simp] theorem getElem_zero [Zero α] (i : Nat) (h : i < n) :
    (0 : SlotVector α n)[i] = 0 := Vector.getElem_replicate h

@[simp] theorem getElem_add [Add α] (u v : SlotVector α n) (i : Nat) (h : i < n) :
    (u + v)[i] = u[i] + v[i] := Vector.getElem_zipWith h

@[simp] theorem getElem_mul [Mul α] (u v : SlotVector α n) (i : Nat) (h : i < n) :
    (u * v)[i] = u[i] * v[i] := Vector.getElem_zipWith h

@[simp] theorem getElem_ofFn (f : Nat → α) (i : Nat) (h : i < n) :
    (ofFn f : SlotVector α n)[i] = f i := Vector.getElem_ofFn h

theorem source_lt {n : Nat} (h : 0 < n) (i : Nat) (k : Int) : source n i k < n := by
  have h₀ := Int.emod_nonneg (i + k) (b := (n : Int)) (by omega)
  have h₁ := Int.emod_lt_of_pos (i + k) (b := (n : Int)) (by omega)
  unfold source; omega

theorem getElem_rotate (v : SlotVector α n) (k : Int) (i : Nat) (h : i < n)
    (hs : source n i k < n := source_lt (Nat.zero_lt_of_lt h) i k) :
    (v.rotate k)[i] = v[source n i k] := by
  have hm : (i + (k % n).toNat) % n = source n i k := by
    have h₀ : 0 ≤ k % (n : Int) := Int.emod_nonneg k (by omega)
    have h₁ : ((i + (k % n).toNat : Nat) : Int) % n = (i + k) % (n : Int) := by
      rw [Int.natCast_add, Int.toNat_of_nonneg h₀, Int.add_emod_emod]
    unfold source; omega
  change (v.rotate k).slots[i] = v.slots[source n i k]
  simp only [rotate, Vector.getElem_ofFn, hm]

end SlotVector
end SlotPacking
