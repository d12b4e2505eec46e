import SlotPacking.Decimal.Notation

/-!
Writing JSON text without spaces. Every writer appends to the text before it.
-/
namespace SlotPacking.Json

def hexDigit (n : Nat) : Char := (Nat.toDigits 16 n).headD '0'

/-- A character inside quotes: quote, backslash and the controls are escaped. -/
def escaped (c : Char) : List Char :=
  if c = '"' then ['\\', '"']
  else if c = '\\' then ['\\', '\\']
  else if c = '\x08' then ['\\', 'b']
  else if c = '\t' then ['\\', 't']
  else if c = '\n' then ['\\', 'n']
  else if c = '\x0c' then ['\\', 'f']
  else if c = '\r' then ['\\', 'r']
  else if c.toNat < 0x20 then
    ['\\', 'u', '0', '0', hexDigit (c.toNat / 16), hexDigit (c.toNat % 16)]
  else [c]

def quoted (s : String) : String := String.ofList ('"' :: s.toList.flatMap escaped ++ ['"'])

/-- The token of a number; zero, the commonest, needs no search for digits. -/
def numberToken (x : Float) : String :=
  if x.toBits = 0 then "0.0" else FloatStyle.json.text x

/-- Writes items with commas between them. -/
def writeItems {α : Type} (write : String → α → String) (out : String) : List α → String
  | [] => out
  | x :: rest => rest.foldl (fun out x => write (out.push ',') x) (write out x)

def writeArray {α : Type} (write : String → α → String) (out : String) (items : List α) :
    String :=
  (writeItems write (out.push '[') items).push ']'

/-- Writes an object from the names of its members and what to write for them. -/
def writeObject {α : Type} (write : String → α → String) (out : String)
    (members : List (String × α)) : String :=
  (writeItems (fun out m => write ((out ++ quoted m.1).push ':') m.2) (out.push '\x7b')
    members).push '\x7d'

def writeFloats (out : String) (xs : Array Float) : String :=
  writeArray (fun out x => out ++ numberToken x) out xs.toList

def writeNats (out : String) (ns : List Nat) : String :=
  writeArray (fun out n => out ++ toString n) out ns

end SlotPacking.Json
