import SlotPacking.Layout
import SlotPacking.Matrix

/-!
Packing of an image for the convolution. The image is unrolled into one row for
each output position and one column for each kernel tap; lane `i` of output
position `j` then holds tap `(i + j) mod 64`, at an address that wraps around
the slot vector with a small shift for every turn.
-/
namespace SlotPacking

structure Kernel where
  outChannels : Nat
  height : Nat
  width : Nat
  deriving DecidableEq

/-- Height and width of the output of a convolution. -/
structure OutputDims where
  height : Nat
  width : Nat
  deriving DecidableEq

/-- The output dimensions of a convolution without padding. -/
def Kernel.outputDims (kernel : Kernel) (imageHeight imageWidth stride : Nat) :
    Result OutputDims :=
  if stride = 0 then rejectShape .zeroStride
  else if kernel.height = 0 ∨ kernel.width = 0 then rejectShape .emptyKernel
  else if imageHeight < kernel.height ∨ imageWidth < kernel.width then
    rejectShape (.kernelTooLarge kernel.height kernel.width imageHeight imageWidth)
  else .ok ⟨(imageHeight - kernel.height) / stride + 1, (imageWidth - kernel.width) / stride + 1⟩

def Kernel.taps (kernel : Kernel) : Result Nat := Word.mul kernel.height kernel.width

def OutputDims.positions (dims : OutputDims) : Result Nat := Word.mul dims.height dims.width

variable {α : Type}

/-- The unrolled image: the row of an output position holds its receptive field, row by row. -/
def unroll (image : Matrix α) (kernel : Kernel) (stride : Nat) : Result (Matrix α) := do
  let dims ← kernel.outputDims image.rows image.cols stride
  let positions ← dims.positions
  let taps ← kernel.taps
  Matrix.build positions taps fun position tap =>
    image.get (position / dims.width * stride + tap / kernel.width)
      (position % dims.width * stride + tap % kernel.width)

/-- The slot of a lane of an output position. -/
def imageSlot (lane position : Nat) : Nat :=
  let index := laneStride * (lane * imageLanes + position)
  index % slotCount + index / slotCount * wrapShift

/-- The tap in a lane of an output position. -/
def imageTap (lane position : Nat) : Nat := (lane + position) % imageLanes

/-- Lanes and positions, lane by lane, that hold one of the first `taps` taps. -/
def imageCells (positions taps : Nat) : List (Nat × Nat) :=
  (List.range imageLanes).flatMap fun lane =>
    ((List.range positions).filter fun position => imageTap lane position < taps).map
      fun position => (lane, position)

def packImage [Zero α] (image : Matrix α) (kernel : Kernel) (stride : Nat) :
    Result (Slots α) := do
  let dims ← kernel.outputDims image.rows image.cols stride
  let taps ← kernel.taps
  if imageLanes < taps then rejectShape (.tooManyTaps taps imageLanes) else
  let positions ← dims.positions
  if imageLanes < positions then rejectShape (.tooManyPositions positions imageLanes) else
  let unrolled ← unroll image kernel stride
  let writes ← (imageCells positions taps).mapM fun (lane, position) => do
    return (imageSlot lane position, ← unrolled.get position (imageTap lane position))
  SlotVector.scatter writes

end SlotPacking
