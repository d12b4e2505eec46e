import SlotPacking.Layer
import SlotPacking.Model

/-!
Everything the evaluation engine needs for one inference: the packed image, the
operands of all layers, and the scale that a correct evaluation has after each
stage. A convolution and two fully connected layers alternate with squarings.
-/
namespace SlotPacking

inductive Stage where
  | conv
  | convSquare
  | fc1
  | fc1Square
  | prediction
  deriving DecidableEq

namespace Stage

/-- The name under which the scale of a stage is recorded. -/
def name : Stage → String
  | conv => "conv"
  | convSquare => "conv_sq"
  | fc1 => "o2"
  | fc1Square => "o2_sq"
  | prediction => "pred"

/-- The stages in the order of the evaluation. -/
def all : List Stage := [conv, convSquare, fc1, fc1Square, prediction]

end Stage

structure Program (α : Type) where
  operands : Bundle α slotCount
  outputScales : ScaleTable

def Program.imageName : String := "image"

def ScaleTable.record (table : ScaleTable) (stage : Stage) (m : Metadata) : ScaleTable :=
  table.set stage.name m.scale

/-- Packs an image and a model for an evaluation that starts at the given level. -/
def assemble {α : Type} [Zero α] (image : Matrix α) (level : Nat) (model : Model α)
    (chain : PrimeChain) : Result (Program α) := do
  let input ← Metadata.new (Scale.pow2 imageScaleBits) level
  let packed ← packImage image model.kernel convStride
  let operands ← Bundle.insert ∅ ⟨Program.imageName, packed, input.scale⟩
  let conv ← packConv input model.convWeight model.convBias chain
  let operands ← operands.merge conv.operands
  let convSquare ← conv.output.square chain
  let fc1 ← packDense .fc1 convSquare model.fc1Weight model.fc1Bias chain
  let operands ← operands.merge fc1.operands
  let fc1Square ← fc1.output.square chain
  let prediction ← packDense .fc2 fc1Square model.fc2Weight model.fc2Bias chain
  let operands ← operands.merge prediction.operands
  let outputScales := ScaleTable.record ∅ .conv conv.output
  let outputScales := outputScales.record .convSquare convSquare
  let outputScales := outputScales.record .fc1 fc1.output
  let outputScales := outputScales.record .fc1Square fc1Square
  let outputScales := outputScales.record .prediction prediction.output
  return ⟨operands, outputScales⟩

end SlotPacking
