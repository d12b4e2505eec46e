import SlotPacking.Json.Token

/-!
Reading values from JSON tokens. A record is an object with its fields in any
order, or an array of exactly its fields in their order. A field of an object
must not come twice, which is an error as soon as its name is seen; other names
are passed over with their values.
-/
namespace SlotPacking.Json

inductive ReadError where
  | malformed
  | missingField (name : String)
  | duplicateField (name : String)
  deriving DecidableEq

def ReadError.message : ReadError → String
  | .malformed => "malformed JSON"
  | .missingField name => s!"missing field `{name}`"
  | .duplicateField name => s!"duplicate field `{name}`"

/-- A reader takes its value from the front of the tokens. -/
abbrev Reader (α : Type) := List Token → Except ReadError (α × List Token)

def malformed {α : Type} : Except ReadError α := .error .malformed

/-- An open bracket around a value that is passed over. -/
inductive Bracket where
  | square
  | brace

mutual

/-- Passes over one value inside the given brackets and over all that closes them. -/
def skipIn (inside : List Bracket) : List Token → Except ReadError (List Token)
  | .openBracket :: .closeBracket :: rest => skipOut inside rest
  | .openBracket :: rest => skipIn (.square :: inside) rest
  | .openBrace :: .closeBrace :: rest => skipOut inside rest
  | .openBrace :: .string _ :: .colon :: rest => skipIn (.brace :: inside) rest
  | .string _ :: rest => skipOut inside rest
  | .number _ :: rest => skipOut inside rest
  | .word :: rest => skipOut inside rest
  | _ => malformed

/-- Passes over what follows a value inside the given brackets. -/
def skipOut (inside : List Bracket) (tokens : List Token) : Except ReadError (List Token) :=
  match inside, tokens with
  | [], rest => .ok rest
  | .square :: outer, .closeBracket :: rest => skipOut outer rest
  | .square :: outer, .comma :: rest => skipIn (.square :: outer) rest
  | .brace :: outer, .closeBrace :: rest => skipOut outer rest
  | .brace :: outer, .comma :: .string _ :: .colon :: rest => skipIn (.brace :: outer) rest
  | _, _ => malformed

end

/-- Passes over one value of any kind. -/
def skipValue : List Token → Except ReadError (List Token) := skipIn []

/-- Reads scalars, from the first on, up to the end of an array. -/
def readItems {α : Type} (item : Token → Option α) (seen : Array α) : Reader (Array α)
  | t :: .comma :: rest =>
    match item t with
    | some x => readItems item (seen.push x) rest
    | none => malformed
  | t :: .closeBracket :: rest =>
    match item t with
    | some x => .ok (seen.push x, rest)
    | none => malformed
  | _ => malformed

/-- Reads an array of scalars. -/
def readArray {α : Type} (item : Token → Option α) : Reader (Array α)
  | .openBracket :: .closeBracket :: rest => .ok (#[], rest)
  | .openBracket :: rest => readItems item #[] rest
  | _ => malformed

/-- A field of a record that is put together in a state `σ`. -/
structure Field (σ : Type) where
  name : String
  isSet : σ → Bool
  read : σ → Reader σ

section Record
variable {σ : Type}

/-- Reads the fields of a record from the rest of an array. -/
def readPositional : List (Field σ) → σ → Reader σ
  | [], _, _ => malformed
  | [f], s, tokens => do
    match ← f.read s tokens with
    | (s, .closeBracket :: rest) => .ok (s, rest)
    | _ => malformed
  | f :: g :: fs, s, tokens => do
    match ← f.read s tokens with
    | (s, .comma :: rest) => readPositional (g :: fs) s rest
    | _ => malformed

/-- Reads one member of an object whose name has been read. -/
def readMember (fields : List (Field σ)) (name : String) (s : σ) : Reader σ := fun tokens =>
  match fields.find? fun f => f.name == name with
  | some f =>
    if f.isSet s then .error (.duplicateField name)
    else match tokens with
      | .colon :: rest => f.read s rest
      | _ => malformed
  | none =>
    match tokens with
    | .colon :: rest => (skipValue rest).map fun rest => (s, rest)
    | _ => malformed

/-- Reads the members of an object, at most `fuel` of them. -/
def readMembers (fields : List (Field σ)) : Nat → σ → Reader σ
  | 0, _, _ => malformed
  | fuel + 1, s, .string (some name) :: rest => do
    match ← readMember fields name s rest with
    | (s, .comma :: rest) => readMembers fields fuel s rest
    | (s, .closeBrace :: rest) => .ok (s, rest)
    | _ => malformed
  | _ + 1, _, _ => malformed

/-- Reads the fields of a record into a state. There are no more members than tokens. -/
def readFields (fields : List (Field σ)) (s : σ) : Reader σ
  | .openBrace :: .closeBrace :: rest => .ok (s, rest)
  | .openBrace :: rest => readMembers fields rest.length s rest
  | .openBracket :: rest => readPositional fields s rest
  | _ => malformed

/-- Reads a record; `finish` takes it from the state or finds the first missing field. -/
def readRecord {α : Type} (fields : List (Field σ)) (s : σ) (finish : σ → Except ReadError α) :
    Reader α := fun tokens => do
  let (s, rest) ← readFields fields s tokens
  return (← finish s, rest)

end Record

def require {α : Type} (name : String) : Option α → Except ReadError α
  | some x => .ok x
  | none => .error (.missingField name)

/-- Reads a text that holds one value and nothing behind it. -/
def readText {α : Type} (read : Reader α) (text : String) : Except ReadError α := do
  match ← read (Token.scan text.toList) with
  | (x, []) => .ok x
  | _ => malformed

end SlotPacking.Json
