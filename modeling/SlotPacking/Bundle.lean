import SlotPacking.NameMap
import SlotPacking.SlotVector

/-!
Named plaintext operands. A bundle only ever grows: a name is given once, and
what is stored under it stays.
-/
namespace SlotPacking

/-- Slot values with their name and the scale at which they are encoded. -/
structure Operand (α : Type) (n : Nat) where
  name : String
  values : SlotVector α n
  scale : Scale

instance {α : Type} {n : Nat} [BEq α] : BEq (Operand α n) where
  beq a b := a.name == b.name && a.values == b.values && a.scale == b.scale

/-- Operands by name, each under its own. -/
structure Bundle (α : Type) (n : Nat) extends NameMap (Operand α n) where
  named : ∀ e ∈ entries, e.2.name = e.1

/-- The scale that a correct evaluation has at each named stage. -/
abbrev ScaleTable := NameMap Scale

namespace Bundle
variable {α : Type} {n : Nat}

@[ext] theorem ext {a b : Bundle α n} (h : a.toNameMap = b.toNameMap) : a = b := by
  cases a; cases b; simp_all

instance [BEq α] : BEq (Bundle α n) := ⟨fun a b => a.toNameMap == b.toNameMap⟩

instance : EmptyCollection (Bundle α n) := ⟨⟨∅, fun _ h => absurd h List.not_mem_nil⟩⟩

@[simp] theorem toNameMap_empty : (∅ : Bundle α n).toNameMap = ∅ := rfl

/-- The operands in the order of their names. -/
def operands (bundle : Bundle α n) : List (Operand α n) := bundle.entries.map (·.2)

/-- The bundle with the operand put in under its name. -/
def set (bundle : Bundle α n) (operand : Operand α n) : Bundle α n where
  toNameMap := bundle.toNameMap.set operand.name operand
  named e he := by
    rcases NameMap.mem_put he with rfl | he
    · rfl
    · exact bundle.named e he

theorem get?_set (bundle : Bundle α n) (operand : Operand α n) (name : String) :
    (bundle.set operand).get? name =
      if operand.name = name then some operand else bundle.get? name :=
  NameMap.get?_set bundle.toNameMap operand.name name operand

/-- The bundle with one more operand; its name must be new. -/
def insert (bundle : Bundle α n) (operand : Operand α n) : Result (Bundle α n) :=
  if bundle.contains operand.name then reject (.duplicateOperand operand.name)
  else .ok (bundle.set operand)

theorem insert_of_contains {bundle : Bundle α n} {operand : Operand α n}
    (h : bundle.contains operand.name = true) :
    bundle.insert operand = reject (.duplicateOperand operand.name) := if_pos h

theorem insert_of_not_contains {bundle : Bundle α n} {operand : Operand α n}
    (h : bundle.contains operand.name = false) :
    bundle.insert operand = .ok (bundle.set operand) := by
  simp [insert, h]

/-- Inserts operands one after another. The first name that is taken stops it, with the
operands before it already in. -/
def insertAll (bundle : Bundle α n) : List (Operand α n) → Bundle α n × Option Failure
  | [] => (bundle, none)
  | operand :: rest =>
    match bundle.insert operand with
    | .ok bundle => insertAll bundle rest
    | .error e => (bundle, some e)

/-- Inserts the operands of another bundle in the order of their names. -/
def absorb (bundle other : Bundle α n) : Bundle α n × Option Failure :=
  bundle.insertAll other.operands

/-- The union of two bundles without a common name. -/
def merge (bundle other : Bundle α n) : Result (Bundle α n) :=
  match bundle.absorb other with
  | (union, none) => .ok union
  | (_, some e) => .error e

end Bundle
end SlotPacking
