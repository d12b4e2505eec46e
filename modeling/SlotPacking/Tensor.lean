import SlotPacking.Json.Reader
import SlotPacking.Json.Writer
import SlotPacking.Matrix

/-!
Tensors as they are stored: a shape and the values in row-major order. What is
read is only checked for its form; `check` asks for positive dimensions whose
product is the number of values.
-/
namespace SlotPacking

structure Tensor (α : Type) where
  shape : List Nat
  data : Array α

inductive TensorFault where
  /-- There is no dimension, or one is zero. -/
  | invalidShape (shape : List Nat)
  /-- The product of the dimensions does not fit a word. -/
  | shapeOverflow (shape : List Nat)
  | valueCount (shape : List Nat) (values : Nat)
  | unexpectedShape (expected actual : List Nat)
  | unsupportedShape (shape : List Nat)
  deriving DecidableEq

/-- A list in brackets. -/
def shapeText (shape : List Nat) : String :=
  "[" ++ String.intercalate ", " (shape.map toString) ++ "]"

def TensorFault.message : TensorFault → String
  | .invalidShape shape => s!"invalid shape {shapeText shape}"
  | .shapeOverflow shape => s!"shape {shapeText shape} overflows"
  | .valueCount shape values => s!"shape {shapeText shape} does not match {values} values"
  | .unexpectedShape expected actual =>
    s!"expected shape {shapeText expected}, got {shapeText actual}"
  | .unsupportedShape shape => s!"unsupported shape {shapeText shape}"

namespace Tensor
variable {α : Type}

/-- The number of values that a shape asks for. -/
def volume (shape : List Nat) : Nat := shape.foldl (· * ·) 1

def check (t : Tensor α) : Except TensorFault Unit :=
  if t.shape = [] ∨ 0 ∈ t.shape then .error (.invalidShape t.shape)
  else if Word.bound ≤ volume t.shape then .error (.shapeOverflow t.shape)
  else if volume t.shape ≠ t.data.size then .error (.valueCount t.shape t.data.size)
  else .ok ()

/-- The values as a matrix, whose size they must fill. -/
def fill (t : Tensor α) (rows cols : Nat) : Except TensorFault (Matrix α) :=
  match Matrix.ofArray? rows cols t.data with
  | some m => .ok m
  | none => .error (.valueCount t.shape t.data.size)

def toMatrix (t : Tensor α) (rows cols : Nat) : Except TensorFault (Matrix α) := do
  t.check
  if t.shape = [rows, cols] then t.fill rows cols
  else .error (.unexpectedShape [rows, cols] t.shape)

def toVector (t : Tensor α) (length : Nat) : Except TensorFault (Array α) := do
  t.check
  if t.shape = [length] then .ok t.data else .error (.unexpectedShape [length] t.shape)

end Tensor

namespace Json

/-- The fields of a tensor that have been read. -/
structure TensorFields where
  shape : Option (List Nat) := none
  data : Option (Array Float) := none

def dimension? : Token → Option Nat
  | .number n => n.toWord?
  | _ => none

def float? : Token → Option Float
  | .number n => n.toFloat?
  | _ => none

def tensorFields : List (Field TensorFields) := [
  { name := "shape"
    isSet := fun s => s.shape.isSome
    read := fun s tokens => do
      let (shape, rest) ← readArray dimension? tokens
      return ({ s with shape := some shape.toList }, rest) },
  { name := "data"
    isSet := fun s => s.data.isSome
    read := fun s tokens => do
      let (data, rest) ← readArray float? tokens
      return ({ s with data := some data }, rest) }]

def readTensor : Reader (Tensor Float) :=
  readRecord tensorFields {} fun s => do
    let shape ← require "shape" s.shape
    let data ← require "data" s.data
    return ⟨shape, data⟩

def writeTensor (out : String) (t : Tensor Float) : String :=
  let out := writeNats ((out.push '\x7b' ++ quoted "shape").push ':') t.shape
  (writeFloats ((out.push ',' ++ quoted "data").push ':') t.data).push '\x7d'

end Json
end SlotPacking
