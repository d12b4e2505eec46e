import SlotPacking.Circuit
import SlotPacking.Metadata

/-!
Packing of single layers: the operator and the bias of a layer, encoded at the
level of its input, and the metadata of its output.
-/
namespace SlotPacking
variable {α : Type}

/-- The operands of a layer and the metadata of what it gives. -/
structure PackedLayer (α : Type) where
  operands : Bundle α slotCount
  output : Metadata

structure LinearLayer (α : Type) where
  weightName : String
  biasName : String
  operator : DiagonalOperator α slotCount
  bias : Slots α
  babysteps : List Int
  giantsteps : List Int

/-- The lanes, out of `lanes`, that hold a value when the values are repeated every `block`
lanes. -/
def biasWrites (values : Array α) (block lanes : Nat) : List (Nat × α) :=
  (List.range lanes).filterMap fun lane =>
    values[lane % block]?.map fun x => (lane * laneStride, x)

/-- Broadcasts values to the first `lanes` lanes, repeated every `block` lanes; the rest of each
block is zero. -/
def packBias [Zero α] (values : Array α) (block lanes : Nat) : Result (Slots α) := do
  let refused : Result (Slots α) := rejectShape (.biasBroadcast values.size block lanes)
  if block = 0 ∨ block < values.size then refused else
  let width ← Word.mul lanes laneStride
  if slotCount < width then refused else
  SlotVector.scatter (biasWrites values block lanes)

/-- Metadata after the circuit of a grid and one rescale: the products of every babystep are
added, then the sums of every giantstep. -/
def linearMetadata (input weights : Metadata) (babyCount giantCount : Nat) (chain : PrimeChain) :
    Result Metadata := do
  let product ← input.afterRotation.multiply weights
  let row ← product.sumOfCopies babyCount
  let sum ← row.afterRotation.sumOfCopies giantCount
  sum.rescale chain

/-- Encodes a linear layer. The weights are scaled by the two moduli at the input's level and
below it; the bias takes the scale of the rescaled product, to which it is added. -/
def packLinear (layer : LinearLayer α) (input : Metadata) (chain : PrimeChain) :
    Result (PackedLayer α) := do
  if layer.babysteps = [] ∨ layer.giantsteps = [] then
    rejectShape (.emptyGrid layer.weightName)
  else
    let (high, low) ← chain.matrixPrimes input.level
    let scale := (Scale.ofNat high).times (Scale.ofNat low)
    let operands ← Circuit.encode layer.weightName layer.operator scale
      layer.babysteps layer.giantsteps
    let weights ← Metadata.new scale input.level
    let product ← linearMetadata input weights layer.babysteps.length layer.giantsteps.length chain
    let bias ← Metadata.new product.scale product.level
    let output ← product.add bias
    let operands ← operands.insert ⟨layer.biasName, layer.bias, bias.scale⟩
    return ⟨operands, output⟩

def convWeightName (channel : Nat) : String := s!"conv_weight_{channel}"

def convBiasName (channel : Nat) : String := s!"conv_bias_{channel}"

/-- One output channel of a convolution. -/
def packChannel [Zero α] (input : Metadata) (kernels : Matrix α) (chain : PrimeChain)
    (channel : Nat) (bias : α) : Result (PackedLayer α) := do
  let operator ← DiagonalOperator.conv kernels channel
  let bias ← packBias #[bias] 1 (groupWidth / laneStride)
  let babysteps ← Split.conv.babysteps
  let giantsteps ← Split.conv.giantsteps
  packLinear
    { weightName := convWeightName channel, biasName := convBiasName channel,
      operator, bias, babysteps, giantsteps } input chain

/-- Packs the channels from `channel` on and adds them to a layer. -/
def packChannels [Zero α] (input : Metadata) (kernels : Matrix α) (chain : PrimeChain)
    (packed : PackedLayer α) (channel : Nat) : List α → Result (PackedLayer α)
  | [] => .ok packed
  | b :: rest => do
    let next ← packChannel input kernels chain channel b
    let operands ← packed.operands.merge next.operands
    packChannels input kernels chain ⟨operands, next.output⟩ (channel + 1) rest

/-- A convolution with one flattened kernel for each row of `kernels`. -/
def packConv [Zero α] (input : Metadata) (kernels : Matrix α) (bias : Array α)
    (chain : PrimeChain) : Result (PackedLayer α) := do
  if bias.size = kernels.rows then
    match bias.toList with
    | [] => rejectShape (.biasPerKernel kernels.rows bias.size)
    | b :: rest =>
      let first ← packChannel input kernels chain 0 b
      packChannels input kernels chain first 1 rest
  else rejectShape (.biasPerKernel kernels.rows bias.size)

/-- A fully connected layer over input-major weights; its bias is repeated over all lanes. -/
def packDense [Zero α] (layout : DenseLayout) (input : Metadata) (weights : Matrix α)
    (bias : Array α) (chain : PrimeChain) : Result (PackedLayer α) := do
  if bias.size = layout.outputs then
    let operator ← DiagonalOperator.dense layout weights layout.split
    let babysteps ← layout.split.babysteps
    let giantsteps ← layout.split.giantsteps
    let bias ← packBias bias layout.block (slotCount / laneStride)
    packLinear
      { weightName := layout.weightName, biasName := layout.biasName,
        operator, bias, babysteps, giantsteps } input chain
  else rejectShape (.biasLength layout.name layout.outputs bias.size)

end SlotPacking
