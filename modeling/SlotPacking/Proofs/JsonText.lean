import SlotPacking.Json.Export

/-!
The text of objects. A writer that only appends can be read as a function of
what it writes, and an object is then the texts of its members in their order,
between commas.
-/
namespace SlotPacking.Json
variable {α : Type} {write : String → α → String} {text : α → String}

/-- The writer adds a text after whatever stands before. -/
def Writes (write : String → α → String) (text : α → String) : Prop :=
  ∀ out x, write out x = out ++ text x

theorem foldl_writes (h : Writes write text) (x : α) (rest : List α) (out : String) :
    rest.foldl (fun out x => write (out.push ',') x) (out ++ text x) =
      out ++ ",".intercalate ((x :: rest).map text) := by
  induction rest generalizing x out with
  | nil => rw [List.foldl_nil, List.map_singleton, String.intercalate_singleton]
  | cons y rest ih =>
    rw [List.foldl_cons, h, String.push_eq_append, ih y, List.map_cons, List.map_cons,
      List.map_cons, String.intercalate_cons_cons]
    simp only [String.append_assoc]
    rfl

/-- Items are written with commas between them. -/
theorem writeItems_eq (h : Writes write text) (out : String) (items : List α) :
    writeItems write out items = out ++ ",".intercalate (items.map text) := by
  cases items with
  | nil => rw [writeItems, List.map_nil, String.intercalate_nil, String.append_empty]
  | cons x rest => rw [writeItems, h out x, foldl_writes h]

theorem writes_array (h : Writes write text) : Writes (writeArray write) fun items =>
    "[" ++ ",".intercalate (items.map text) ++ "]" := by
  intro out items
  rw [writeArray, writeItems_eq h, String.push_eq_append, String.push_eq_append]
  simp only [String.append_assoc]
  rfl

/-- The text of one member of an object. -/
def member (text : α → String) (m : String × α) : String := quoted m.1 ++ ":" ++ text m.2

/-- An object is its members in their order, with commas between them. -/
theorem writes_object (h : Writes write text) : Writes (writeObject write) fun members =>
    "\x7b" ++ ",".intercalate (members.map (member text)) ++ "\x7d" := by
  intro out members
  have hmember : Writes (fun out (m : String × α) => write ((out ++ quoted m.1).push ':') m.2)
      (member text) := by
    intro out m
    change write ((out ++ quoted m.1).push ':') m.2 = out ++ member text m
    rw [h, String.push_eq_append, member]
    simp only [String.append_assoc]
    rfl
  rw [writeObject, writeItems_eq hmember, String.push_eq_append, String.push_eq_append]
  simp only [String.append_assoc]
  rfl

/-- The text of an operand. -/
def operandText {n : Nat} (operand : Operand Float n) : String := writeOperand "" operand

theorem writes_operand {n : Nat} : Writes writeOperand (operandText (n := n)) := by
  intro out operand
  have hfloats : Writes (fun out (xs : Array Float) => writeFloats out xs)
      fun xs => "[" ++ ",".intercalate (xs.toList.map numberToken) ++ "]" := by
    intro out xs
    exact writes_array (fun _ _ => rfl) out xs.toList
  simp only [operandText, writeOperand, writeMember, String.push_eq_append,
    hfloats _ operand.values.toArray, String.append_assoc, String.empty_append]

/-- A bundle is written operand by operand, in the order in which it is listed. -/
theorem writeBundle_eq {n : Nat} (bundle : Bundle Float n) : writeBundle "" bundle =
    "\x7b" ++ ",".intercalate (bundle.toList.map (member operandText)) ++ "\x7d" := by
  rw [writeBundle, writes_object writes_operand, String.empty_append]

end SlotPacking.Json
