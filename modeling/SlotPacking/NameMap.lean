/-!
Finite maps from names, kept as a list in strictly increasing order of the
names. Names are compared by code points, which is the order of their UTF-8
bytes; two maps with the same entries are equal.
-/
namespace SlotPacking

structure NameMap (β : Type) where
  entries : List (String × β)
  sorted : entries.Pairwise fun a b => a.1 < b.1

namespace NameMap
variable {β : Type}

@[ext] theorem ext {a b : NameMap β} (h : a.entries = b.entries) : a = b := by
  cases a; cases b; simp_all

instance [BEq β] : BEq (NameMap β) := ⟨fun a b => a.entries == b.entries⟩

/-- Puts an entry at its place in a sorted list, over one of the same name. -/
def put (name : String) (x : β) : List (String × β) → List (String × β)
  | [] => [(name, x)]
  | e :: es =>
    if name < e.1 then (name, x) :: e :: es
    else if e.1 < name then e :: put name x es
    else (name, x) :: es

theorem mem_put {name : String} {x : β} {es : List (String × β)} {e : String × β}
    (h : e ∈ put name x es) : e = (name, x) ∨ e ∈ es := by
  induction es with
  | nil => simpa [put] using h
  | cons d ds ih =>
    simp only [put] at h
    split at h
    · simpa using h
    split at h
    · rcases List.mem_cons.mp h with rfl | h
      · simp
      · rcases ih h with h | h <;> simp [h]
    · rcases List.mem_cons.mp h with rfl | h <;> simp_all

theorem put_sorted {name : String} {x : β} {es : List (String × β)}
    (h : es.Pairwise fun a b => a.1 < b.1) :
    (put name x es).Pairwise fun a b => a.1 < b.1 := by
  induction es with
  | nil => simp [put]
  | cons d ds ih =>
    obtain ⟨hd, hds⟩ := List.pairwise_cons.mp h
    simp only [put]
    split
    next lt =>
      refine List.pairwise_cons.mpr ⟨fun e he => ?_, h⟩
      rcases List.mem_cons.mp he with rfl | he
      · exact lt
      · exact String.lt_trans lt (hd e he)
    split
    next gt =>
      refine List.pairwise_cons.mpr ⟨fun e he => ?_, ih hds⟩
      rcases mem_put he with rfl | he
      · exact gt
      · exact hd e he
    next nlt ngt =>
      have : name = d.1 := String.le_antisymm (String.not_lt.mp ngt) (String.not_lt.mp nlt)
      subst this
      exact List.pairwise_cons.mpr ⟨hd, hds⟩

def empty : NameMap β := ⟨[], .nil⟩

instance : EmptyCollection (NameMap β) := ⟨empty⟩

/-- The map with the entry put in, in place of any older one of that name. -/
def set (m : NameMap β) (name : String) (x : β) : NameMap β :=
  ⟨put name x m.entries, put_sorted m.sorted⟩

def get? (m : NameMap β) (name : String) : Option β :=
  (m.entries.find? fun e => e.1 == name).map (·.2)

def contains (m : NameMap β) (name : String) : Bool := m.entries.any fun e => e.1 == name

def size (m : NameMap β) : Nat := m.entries.length

def isEmpty (m : NameMap β) : Bool := m.entries.isEmpty

def names (m : NameMap β) : List String := m.entries.map (·.1)

def toList (m : NameMap β) : List (String × β) := m.entries

@[simp] theorem get?_empty (name : String) : (∅ : NameMap β).get? name = none := rfl

theorem find?_put (name other : String) (x : β) (es : List (String × β)) :
    ((put name x es).find? fun e => e.1 == other).map (·.2) =
      if name = other then some x else (es.find? fun e => e.1 == other).map (·.2) := by
  induction es with
  | nil => by_cases h : name = other <;> simp [put, h]
  | cons d ds ih =>
    simp only [put]
    split
    · by_cases h : name = other <;> simp [h]
    split
    next gt =>
      by_cases hd : d.1 = other
      · have : name ≠ other := fun e => String.lt_irrefl other (by rw [← hd] at e; grind)
        simp [hd, this]
      · simp [hd, ih]
    next nlt ngt =>
      have : name = d.1 := String.le_antisymm (String.not_lt.mp ngt) (String.not_lt.mp nlt)
      subst this
      by_cases h : d.1 = other <;> simp [h]

theorem get?_set (m : NameMap β) (name other : String) (x : β) :
    (m.set name x).get? other = if name = other then some x else m.get? other :=
  find?_put name other x m.entries

theorem contains_eq_isSome_get? (m : NameMap β) (name : String) :
    m.contains name = (m.get? name).isSome := by
  simp [contains, get?, List.isSome_find?]

end NameMap
end SlotPacking
