import SlotPacking.Json.Reader
import SlotPacking.Proofs.TokenText

/-!
Reading arrays and objects. Values between commas are read one after the other,
and so are the members of an object, as long as no field of them is set before.
-/
namespace SlotPacking.Json
variable {α β σ : Type}

section Arrays
variable {item : Token → Option β} {token : α → Token} {value : α → β} {xs : List α}

/-- The tokens of an array of scalars. -/
def arrayTokens (token : α → Token) (xs : List α) : List Token :=
  .openBracket :: ([Token.comma].intercalate (xs.map fun x => [token x]) ++ [.closeBracket])

theorem readItems_tokens (x : α) (xs : List α) (seen : Array β) (rest : List Token)
    (h : ∀ y ∈ x :: xs, item (token y) = some (value y)) :
    readItems item seen ([Token.comma].intercalate ((x :: xs).map fun y => [token y]) ++
      .closeBracket :: rest) = .ok (seen ++ ((x :: xs).map value).toArray, rest) := by
  induction xs generalizing x seen with
  | nil =>
    have hx := h x List.mem_cons_self
    simp [readItems, hx]
  | cons y xs ih =>
    obtain ⟨hx, hxs⟩ := List.forall_mem_cons.mp h
    have items := ih y (seen.push (value x)) hxs
    rw [List.map_cons] at items
    rw [List.map_cons, List.map_cons, List.intercalate_cons_cons]
    simp only [List.cons_append, List.nil_append]
    rw [readItems, hx]
    dsimp only
    rw [items]
    simp

/-- An array is read back if its items are. -/
theorem readArray_tokens (hclose : item .closeBracket = none)
    (h : ∀ x ∈ xs, item (token x) = some (value x)) (rest : List Token) :
    readArray item (arrayTokens token xs ++ rest) = .ok ((xs.map value).toArray, rest) := by
  unfold arrayTokens
  cases xs with
  | nil => simp [readArray]
  | cons x xs =>
    have items := readItems_tokens x xs #[] rest h
    have first : ∀ behind, [Token.comma].intercalate ((x :: xs).map fun y => [token y]) ++
        .closeBracket :: rest ≠ .closeBracket :: behind := by
      intro behind heq
      have hx := h x List.mem_cons_self
      have head : token x = .closeBracket := by
        cases xs <;> simp at heq <;> exact heq.1
      rw [head, hclose] at hx
      cases hx
    rw [List.cons_append, List.append_assoc, List.singleton_append]
    unfold readArray
    split
    next heq => exact absurd (List.cons.inj heq).2 (first _)
    next heq =>
      obtain rfl := (List.cons.inj heq).2
      rw [items, Array.empty_append]
    next hno => exact absurd rfl (hno _)

end Arrays

section Objects
variable {fields : List (Field σ)} {s s' s'' : σ} {ms : List (String × List Token)}

/-- Members, with the tokens of their values, whose fields are read one after the other from one
state to another. None of the fields is set when its turn comes. -/
inductive ReadsMembers (fields : List (Field σ)) : List (String × List Token) → σ → σ → Prop where
  | nil {s : σ} : ReadsMembers fields [] s s
  | cons {name : String} {tokens : List Token} {f : Field σ} {ms : List (String × List Token)}
      {s s' s'' : σ} (hfind : fields.find? (fun f => f.name == name) = some f)
      (hset : f.isSet s = false) (hread : ∀ rest, f.read s (tokens ++ rest) = .ok (s', rest))
      (h : ReadsMembers fields ms s' s'') : ReadsMembers fields ((name, tokens) :: ms) s s''

def namedTokens (m : String × List Token) : List Token := .string (some m.1) :: .colon :: m.2

/-- The tokens of an object. -/
def objectTokens (ms : List (String × List Token)) : List Token :=
  .openBrace :: ([Token.comma].intercalate (ms.map namedTokens) ++ [.closeBrace])

theorem readMember_tokens {name : String} {tokens : List Token} {f : Field σ}
    (hfind : fields.find? (fun f => f.name == name) = some f) (hset : f.isSet s = false)
    (hread : ∀ rest, f.read s (tokens ++ rest) = .ok (s', rest)) (rest : List Token) :
    readMember fields name s (.colon :: (tokens ++ rest)) = .ok (s', rest) := by
  simp only [readMember, hfind, hset, hread, Bool.false_eq_true, if_false]

theorem readMembers_tokens {m : String × List Token} (h : ReadsMembers fields (m :: ms) s s')
    {fuel : ℕ} (hfuel : ms.length < fuel) (rest : List Token) :
    readMembers fields fuel s
      ([Token.comma].intercalate ((m :: ms).map namedTokens) ++ .closeBrace :: rest) =
      .ok (s', rest) := by
  induction ms generalizing m s fuel with
  | nil =>
    obtain ⟨fuel, rfl⟩ := Nat.exists_eq_succ_of_ne_zero (Nat.ne_zero_of_lt hfuel)
    cases h with
    | cons hfind hset hread h =>
      cases h
      rw [List.map_singleton, List.intercalate_singleton, namedTokens]
      simp only [List.cons_append, readMembers, readMember_tokens hfind hset hread]
      rfl
  | cons m' ms ih =>
    obtain ⟨fuel, rfl⟩ := Nat.exists_eq_succ_of_ne_zero (Nat.ne_zero_of_lt hfuel)
    cases h with
    | cons hfind hset hread h =>
      have behind := ih h (Nat.lt_of_succ_lt_succ hfuel)
      rw [List.map_cons] at behind
      rw [List.map_cons, List.map_cons, List.intercalate_cons_cons, namedTokens]
      simp only [List.cons_append, List.append_assoc, List.nil_append, readMembers,
        readMember_tokens hfind hset hread]
      exact behind

theorem length_le_intercalate (ms : List (String × List Token)) :
    ms.length ≤ ([Token.comma].intercalate (ms.map namedTokens)).length := by
  induction ms with
  | nil => exact Nat.zero_le _
  | cons m ms ih =>
    cases ms with
    | nil => simp [namedTokens]
    | cons m' ms =>
      rw [List.map_cons] at ih
      rw [List.map_cons, List.map_cons, List.intercalate_cons_cons, List.length_append,
        List.length_append, List.length_cons]
      exact (Nat.succ_le_succ ih).trans (by simp)

/-- An object is read back if its members are. -/
theorem readFields_tokens (h : ReadsMembers fields ms s s') (rest : List Token) :
    readFields fields s (objectTokens ms ++ rest) = .ok (s', rest) := by
  unfold objectTokens
  cases ms with
  | nil =>
    cases h
    simp [readFields]
  | cons m ms =>
    have first : ∀ behind, [Token.comma].intercalate ((m :: ms).map namedTokens) ++
        .closeBrace :: rest ≠ .closeBrace :: behind := by
      intro behind
      cases ms <;> simp [namedTokens]
    have hlength := length_le_intercalate (m :: ms)
    rw [List.cons_append, List.append_assoc, List.singleton_append]
    unfold readFields
    split
    next heq => exact absurd (List.cons.inj heq).2 (first _)
    next heq =>
      obtain rfl := (List.cons.inj heq).2
      refine readMembers_tokens h ?_ rest
      rw [List.length_append]
      rw [List.length_cons] at hlength
      omega
    next heq => cases (List.cons.inj heq).1
    next hno _ => exact absurd rfl (hno _)

/-- A record is read back if its fields make up the value. -/
theorem readRecord_tokens {finish : σ → Except ReadError α} {x : α}
    (h : ReadsMembers fields ms s s') (hx : finish s' = .ok x) (rest : List Token) :
    readRecord fields s finish (objectTokens ms ++ rest) = .ok (x, rest) := by
  simp only [readRecord, readFields_tokens h]
  change (do return (← finish s', rest)) = _
  rw [hx]
  rfl

/-- A text is read from its tokens. -/
theorem readText_eq {read : Reader α} {text : String} {tokens : List Token} {x : α}
    (h : Lexes text tokens) (hread : ∀ rest, read (tokens ++ rest) = .ok (x, rest)) :
    readText read text = .ok x := by
  have all := hread []
  rw [List.append_nil] at all
  rw [readText, h.scan_eq, all]
  rfl

end Objects
end SlotPacking.Json
