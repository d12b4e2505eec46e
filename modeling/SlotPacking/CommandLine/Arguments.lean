import SlotPacking.Word

/-!
The arguments of the packing command. Every option is long and takes a value,
behind an equals sign or as the next argument; it is given at most once.
-/
namespace SlotPacking.CommandLine

structure Arguments where
  params : String
  image : String
  level : Nat
  output : Option String

/-- What the arguments ask for. -/
inductive Request where
  | usageError
  | help
  | run (arguments : Arguments)

/-- The options read so far. -/
structure Options where
  params : Option String := none
  image : Option String := none
  level : Option Nat := none
  output : Option String := none

def defaultLevel : Nat := 16

/-- A level: decimal digits, a plus sign before them allowed, of at most a 64-bit word. -/
def level? (text : String) : Option Nat :=
  let digits := match text.toList with
    | '+' :: rest => rest
    | digits => digits
  if digits.isEmpty then none
  else if digits.all Char.isDigit then
    let n := digits.foldl (fun n c => n * 10 + (c.toNat - '0'.toNat)) 0
    if n < Word.bound then some n else none
  else none

/-- A path, which is not empty. -/
def path? (text : String) : Option String := if text.isEmpty then none else some text

/-- Takes up the value of an option that has none yet. -/
def Options.set? (o : Options) (name value : String) : Option Options :=
  match name with
  | "params" =>
    if o.params.isSome then none
    else (path? value).map fun p => { o with params := some p }
  | "image" =>
    if o.image.isSome then none
    else (path? value).map fun p => { o with image := some p }
  | "level" =>
    if o.level.isSome then none
    else (level? value).map fun n => { o with level := some n }
  | "output" =>
    if o.output.isSome then none
    else (path? value).map fun p => { o with output := some p }
  | _ => none

/-- Both required options must have been given. -/
def Options.request (o : Options) : Request :=
  match o.params, o.image with
  | some params, some image => .run ⟨params, image, o.level.getD defaultLevel, o.output⟩
  | _, _ => .usageError

/-- An argument that is meant as an option: a lone hyphen is not. -/
def isOption (arg : String) : Bool := arg.startsWith "-" && arg != "-"

/-- Reads the arguments from the first to the last; the first mistake decides. A double hyphen
ends the options, and nothing may follow it. -/
def requestFrom (o : Options) : List String → Request
  | [] => o.request
  | "--" :: rest => if rest.isEmpty then o.request else .usageError
  | "--help" :: _ => .help
  | arg :: rest =>
    match arg.toList with
    | '-' :: '-' :: option =>
      let name := String.ofList (option.takeWhile (· != '='))
      match option.dropWhile (· != '=') with
      | _ :: value =>
        match o.set? name (String.ofList value) with
        | some o => requestFrom o rest
        | none => .usageError
      | [] =>
        match rest with
        | value :: rest =>
          if isOption value then .usageError
          else match o.set? name value with
            | some o => requestFrom o rest
            | none => .usageError
        | [] => .usageError
    | '-' :: 'h' :: _ => .help
    | _ => .usageError

def request (args : List String) : Request := requestFrom {} args

end SlotPacking.CommandLine
