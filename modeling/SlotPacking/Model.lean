import SlotPacking.Image
import SlotPacking.Tensor

/-!
Parameters of the network and input images, checked against the sizes of the
layers. The tensors are checked in the order of their declaration, so the error
is about the first one that offends.
-/
namespace SlotPacking

/-- One tensor for each parameter of the network. -/
structure ModelTensors (τ : Type) where
  conv1Weight : τ
  conv1Bias : τ
  fc1Weight : τ
  fc1Bias : τ
  fc2Weight : τ
  fc2Bias : τ

/-- Checked parameters. A row of `convWeight` is the flattened kernel of a channel. -/
structure Model (α : Type) where
  kernel : Kernel
  convWeight : Matrix α
  convBias : Array α
  fc1Weight : Matrix α
  fc1Bias : Array α
  fc2Weight : Matrix α
  fc2Bias : Array α

inductive LoadReason where
  | json (error : Json.ReadError)
  | tensor (name : String) (fault : TensorFault)
  | notAnImage (shape : List Nat)
  deriving DecidableEq

def LoadReason.message : LoadReason → String
  | .json error => error.message
  | .tensor name fault => s!"{name}: {fault.message}"
  | .notAnImage shape => s!"image must be 2-D, got shape {shapeText shape}"

structure LoadError where
  origin : String
  reason : LoadReason
  deriving DecidableEq

def loadMessage (origin reason : String) : String :=
  s!"failed to load parameters from {origin}: {reason}"

def LoadError.message (e : LoadError) : String := loadMessage e.origin e.reason.message

namespace Model
variable {α : Type}

/-- The kernel that a weight tensor of three dimensions, or of four with one input channel,
describes. -/
def kernel? : List Nat → Option Kernel
  | [out, height, width] => some ⟨out, height, width⟩
  | [out, 1, height, width] => some ⟨out, height, width⟩
  | _ => none

/-- A step of the check, with the name of the tensor it is about. -/
def about {β : Type} (name : String) (step : Except TensorFault β) : Except LoadReason β :=
  step.mapError (.tensor name)

def ofTensors (t : ModelTensors (Tensor α)) : Except LoadReason (Model α) := do
  about "conv1_weight" t.conv1Weight.check
  let kernel ← match kernel? t.conv1Weight.shape with
    | some kernel => .ok kernel
    | none => .error (.tensor "conv1_weight" (.unsupportedShape t.conv1Weight.shape))
  let convWeight ← about "conv1_weight"
    (t.conv1Weight.fill kernel.outChannels (kernel.height * kernel.width))
  let convBias ← about "conv1_bias" (t.conv1Bias.toVector kernel.outChannels)
  let fc1 := DenseLayout.fc1
  let fc1Weight ← about "fc1_weight" (t.fc1Weight.toMatrix fc1.inputs fc1.outputs)
  let fc1Bias ← about "fc1_bias" (t.fc1Bias.toVector fc1.outputs)
  let fc2 := DenseLayout.fc2
  let fc2Weight ← about "fc2_weight" (t.fc2Weight.toMatrix fc2.inputs fc2.outputs)
  let fc2Bias ← about "fc2_bias" (t.fc2Bias.toVector fc2.outputs)
  return { kernel, convWeight, convBias, fc1Weight, fc1Bias, fc2Weight, fc2Bias }

end Model

/-- The image that a tensor of two dimensions holds. -/
def imageOfTensor {α : Type} (t : Tensor α) : Except LoadReason (Matrix α) := do
  Model.about "image" t.check
  match t.shape with
  | [rows, cols] => Model.about "image" (t.fill rows cols)
  | shape => .error (.notAnImage shape)

namespace Json

abbrev ModelFields := ModelTensors (Option (Tensor Float))

/-- A parameter as a field, from how it is found and put into the parameters read so far. -/
def parameter (name : String) (get : ModelFields → Option (Tensor Float))
    (put : ModelFields → Tensor Float → ModelFields) : Field ModelFields where
  name := name
  isSet s := (get s).isSome
  read s tokens := do
    let (t, rest) ← readTensor tokens
    return (put s t, rest)

def modelFields : List (Field ModelFields) := [
  parameter "conv1_weight" (·.conv1Weight) fun s t => { s with conv1Weight := some t },
  parameter "conv1_bias" (·.conv1Bias) fun s t => { s with conv1Bias := some t },
  parameter "fc1_weight" (·.fc1Weight) fun s t => { s with fc1Weight := some t },
  parameter "fc1_bias" (·.fc1Bias) fun s t => { s with fc1Bias := some t },
  parameter "fc2_weight" (·.fc2Weight) fun s t => { s with fc2Weight := some t },
  parameter "fc2_bias" (·.fc2Bias) fun s t => { s with fc2Bias := some t }]

def readModelTensors : Reader (ModelTensors (Tensor Float)) :=
  readRecord modelFields ⟨none, none, none, none, none, none⟩ fun s => do
    let conv1Weight ← require "conv1_weight" s.conv1Weight
    let conv1Bias ← require "conv1_bias" s.conv1Bias
    let fc1Weight ← require "fc1_weight" s.fc1Weight
    let fc1Bias ← require "fc1_bias" s.fc1Bias
    let fc2Weight ← require "fc2_weight" s.fc2Weight
    let fc2Bias ← require "fc2_bias" s.fc2Bias
    return { conv1Weight, conv1Bias, fc1Weight, fc1Bias, fc2Weight, fc2Bias }

end Json

/-- Reads a text and checks what it holds; errors name where the text came from. -/
def load {α β : Type} (read : Json.Reader α) (check : α → Except LoadReason β)
    (origin text : String) : Except LoadError β :=
  match Json.readText read text with
  | .error e => .error ⟨origin, .json e⟩
  | .ok x => (check x).mapError fun reason => ⟨origin, reason⟩

def loadModel (origin text : String) : Except LoadError (Model Float) :=
  load Json.readModelTensors Model.ofTensors origin text

def loadImage (origin text : String) : Except LoadError (Matrix Float) :=
  load Json.readTensor imageOfTensor origin text

end SlotPacking
