import SlotPacking.Scale.Basic

/-!
The ways in which packing can go wrong. A `PackError` is a cause that a caller
can meet with legal data, together with its wording; a `Fault` is a broken
precondition of the arithmetic itself and carries no wording.
-/
namespace SlotPacking

inductive Fault where
  /-- A product or a negation leaves the range of 64-bit words. -/
  | overflow
  /-- A vector would take more bytes than a signed word counts. -/
  | capacity
  /-- An index lies outside a matrix, a vector or one of its rows. -/
  | indexOutOfRange
  /-- A scale is divided by zero. -/
  | divisionByZero
  /-- A vector without slots is rotated. -/
  | emptyRotation
  /-- A vector does not have one entry for each column of a matrix. -/
  | dimensionMismatch
  deriving DecidableEq

/-- Combinations of sizes for which no layout is defined. -/
inductive ShapeError where
  | slotCount (expected actual : Nat)
  | unfilledMatrix (values rows cols : Nat)
  | notSquare (size rows cols : Nat)
  | noSuchKernel (channel kernels taps : Nat)
  | weightShape (layer : String) (rows cols actualRows actualCols : Nat)
  | zeroStride
  | emptyKernel
  | kernelTooLarge (kernelHeight kernelWidth imageHeight imageWidth : Nat)
  | tooManyTaps (taps lanes : Nat)
  | tooManyPositions (positions lanes : Nat)
  | biasBroadcast (values block lanes : Nat)
  | gridMismatch (babysteps giantsteps diagonals : Nat)
  | emptyGrid (layer : String)
  | missingOperand (name : String)
  | biasPerKernel (kernels biases : Nat)
  | biasLength (layer : String) (expected actual : Nat)
  deriving DecidableEq

def ShapeError.message : ShapeError → String
  | .slotCount expected actual => s!"slot vector needs {expected} values, got {actual}"
  | .unfilledMatrix values rows cols => s!"{values} values cannot fill a {rows}x{cols} matrix"
  | .notSquare size rows cols => s!"expected a {size}x{size} matrix, got {rows}x{cols}"
  | .noSuchKernel channel kernels taps => s!"channel {channel} of {kernels}x{taps} kernels"
  | .weightShape layer rows cols actualRows actualCols =>
    s!"{layer} weight must be {rows}x{cols}, got {actualRows}x{actualCols}"
  | .zeroStride => "stride must be positive"
  | .emptyKernel => "empty kernel"
  | .kernelTooLarge kernelHeight kernelWidth imageHeight imageWidth =>
    s!"{kernelHeight}x{kernelWidth} kernel does not fit a {imageHeight}x{imageWidth} image"
  | .tooManyTaps taps lanes => s!"kernel footprint of {taps} taps exceeds {lanes} lanes"
  | .tooManyPositions positions lanes => s!"{positions} output positions exceed {lanes} lanes"
  | .biasBroadcast values block lanes =>
    s!"cannot broadcast {values} bias values in blocks of {block} over {lanes} lanes"
  | .gridMismatch babysteps giantsteps diagonals =>
    s!"{babysteps} babysteps x {giantsteps} giantsteps do not cover {diagonals} diagonals"
  | .emptyGrid layer => s!"{layer} has an empty BSGS grid"
  | .missingOperand name => s!"missing operand {name}"
  | .biasPerKernel kernels biases => s!"{kernels} kernels with {biases} biases"
  | .biasLength layer expected actual => s!"{layer} bias must have {expected} values, got {actual}"

inductive PackError where
  | invalidLevel (level : Nat)
  /-- The fraction offered as a scale has no positive value. -/
  | invalidScale (num den : Nat)
  | levelMismatch (lhs rhs : Nat)
  | scaleMismatch (lhs rhs : Scale)
  | levelOutOfRange (level available : Nat)
  | unsupportedShape (shape : ShapeError)
  | duplicateOperand (name : String)
  deriving DecidableEq

def PackError.message : PackError → String
  | .invalidLevel level => s!"level must be positive (got {level})"
  | .invalidScale num den => s!"scale must be a positive rational (got {fractionText num den})"
  | .levelMismatch lhs rhs => s!"levels must be the same (lhs={lhs}, rhs={rhs})"
  | .scaleMismatch lhs rhs =>
    s!"scales must be the same for addition (lhs={lhs.text}, rhs={rhs.text})"
  | .levelOutOfRange level available =>
    s!"level {level} needs more primes than the chain holds ({available})"
  | .unsupportedShape shape => s!"unsupported shape: {shape.message}"
  | .duplicateOperand name => s!"operand {name} emitted twice"

inductive Failure where
  | rejected (error : PackError)
  | fault (fault : Fault)
  deriving DecidableEq

abbrev Result := Except Failure

def reject {α : Type} (error : PackError) : Result α := .error (.rejected error)

def rejectShape {α : Type} (shape : ShapeError) : Result α := reject (.unsupportedShape shape)

def faulty {α : Type} (fault : Fault) : Result α := .error (.fault fault)

end SlotPacking
