import SlotPacking.Bundle
import SlotPacking.Diagonal.Operator

/-!
The babystep-giantstep circuit. With babysteps `B` and giantsteps `G`, diagonal
`g * |B| + b` is used with total rotation `B[b] + G[g]`. It is rotated against
its giantstep beforehand, so that the input needs one rotation for each babystep
and each giantstep's sum needs one:

  y = sum over g of rotate (sum over b of weight g b * rotate x B[b]) G[g]

The same circuit runs on weights cut from an operator and on weights found by
name in a bundle.
-/
namespace SlotPacking.Circuit
variable {α : Type} {n : Nat}

/-- The name of the weight of a babystep and a giantstep. -/
def cellName (base : String) (babystep giantstep : Int) : String :=
  s!"{base}_{babystep}_{giantstep}"

/-- The cells of the grid, giantstep by giantstep. -/
def cells (babysteps giantsteps : List Int) : List (Int × Int) :=
  giantsteps.flatMap fun gs => babysteps.map fun bs => (bs, gs)

def checkGrid (op : DiagonalOperator α n) (babysteps giantsteps : List Int) : Result Unit := do
  let cells ← Word.mul babysteps.length giantsteps.length
  if cells = op.count then .ok ()
  else rejectShape (.gridMismatch babysteps.length giantsteps.length op.count)

/-- The rotation against a step. The least signed word has no opposite. -/
def rotateAgainst (v : SlotVector α n) (step : Int) : Result (SlotVector α n) :=
  if step = Word.leastSigned then faulty .overflow else v.rotate? (-step)

/-- The weights of an operator on a grid, all at one scale. -/
def encode (base : String) (op : DiagonalOperator α n) (scale : Scale)
    (babysteps giantsteps : List Int) : Result (Bundle α n) := do
  checkGrid op babysteps giantsteps
  ((cells babysteps giantsteps).zip op.toList).foldlM
    (fun bundle ((bs, gs), diagonal) => do
      let values ← rotateAgainst diagonal gs
      bundle.insert ⟨cellName base bs gs, values, scale⟩)
    ∅

section Evaluation
variable [Zero α] [Add α] [Mul α]

/-- The sum of the products of the weights with the rotated inputs, babystep by babystep. -/
def rowSum (weights inputs : List (SlotVector α n)) : SlotVector α n :=
  (weights.zip inputs).foldl (fun sum p => sum + p.1 * p.2) 0

/-- The circuit on one row of weights for each giantstep. -/
def evaluate (input : SlotVector α n) (babysteps : List Int)
    (rows : List (Int × List (SlotVector α n))) : SlotVector α n :=
  let inputs := babysteps.map input.rotate
  rows.foldl (fun sum row => sum + (rowSum row.2 inputs).rotate row.1) 0

/-- A vector without slots can pass no step. -/
def checkRotations (n : Nat) (babysteps giantsteps : List Int) : Result Unit :=
  if n = 0 ∧ (babysteps ≠ [] ∨ giantsteps ≠ []) then faulty .emptyRotation else .ok ()

/-- The diagonals of each giantstep, rotated against it, `width` of them at a time. -/
def weightRows (width : Nat) :
    List Int → List (SlotVector α n) → List (Int × List (SlotVector α n))
  | [], _ => []
  | gs :: giantsteps, diagonals =>
    (gs, (diagonals.take width).map fun d => d.rotate (-gs)) ::
      weightRows width giantsteps (diagonals.drop width)

/-- The matrix-vector product from the diagonals themselves. -/
def matmul (input : SlotVector α n) (op : DiagonalOperator α n)
    (babysteps giantsteps : List Int) : Result (SlotVector α n) := do
  checkGrid op babysteps giantsteps
  checkRotations n babysteps giantsteps
  if babysteps ≠ [] ∧ Word.leastSigned ∈ giantsteps then faulty .overflow else
  return evaluate input babysteps (weightRows babysteps.length giantsteps op.toList)

/-- The weight stored for a cell. -/
def weight (bundle : Bundle α n) (base : String) (babystep giantstep : Int) :
    Result (SlotVector α n) :=
  let name := cellName base babystep giantstep
  match bundle.get? name with
  | some operand => .ok operand.values
  | none => rejectShape (.missingOperand name)

/-- The circuit on the weights that a bundle holds under a base name. -/
def evaluateEncoded (input : SlotVector α n) (bundle : Bundle α n) (base : String)
    (babysteps giantsteps : List Int) : Result (SlotVector α n) := do
  checkRotations n babysteps giantsteps
  let rows ← giantsteps.mapM fun gs => do
    let weights ← babysteps.mapM fun bs => weight bundle base bs gs
    return (gs, weights)
  return evaluate input babysteps rows

end Evaluation
end SlotPacking.Circuit
