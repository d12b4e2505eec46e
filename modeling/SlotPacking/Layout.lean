import SlotPacking.SlotVector
import SlotPacking.Word

/-!
The slot layout shared with the evaluation engine: how lanes lie in a packed
vector, the babystep and giantstep splits of the layers, and the sizes of the
fully connected layers.
-/
namespace SlotPacking

/-- Slots of a packed vector. -/
abbrev slotCount : Nat := 32768

abbrev Slots (α : Type) := SlotVector α slotCount

/-- Distance between consecutive lanes. -/
def laneStride : Nat := 128

/-- Width of the slot group that the convolution and the last layer are laid out in. -/
def groupWidth : Nat := 8192

/-- Lanes of the packed image: no more output positions and no more kernel taps fit. -/
def imageLanes : Nat := 64

/-- Shift for every full turn of the image index around the slot vector. -/
def wrapShift : Nat := 8

/-- The image is encoded at the scale two to this power. -/
def imageScaleBits : Nat := 72

/-- Stride of the convolution. -/
def convStride : Nat := 3

/-- A grid of rotations: a babystep and a giantstep, each a multiple of its stride. -/
structure Split where
  babyCount : Nat
  babyStride : Nat
  giantCount : Nat
  giantStride : Nat
  deriving DecidableEq

namespace Split

def diagonals (s : Split) : Result Nat := Word.mul s.babyCount s.giantCount

/-- The first `count` multiples of a stride, as signed words. -/
def multiples (count stride : Nat) : Result (List Int) :=
  (List.range count).mapM fun i => (Word.mul i stride).map Word.signed

def babysteps (s : Split) : Result (List Int) := multiples s.babyCount s.babyStride

def giantsteps (s : Split) : Result (List Int) := multiples s.giantCount s.giantStride

def conv : Split := ⟨16, 8, 4, groupWidth⟩

def fc1 : Split := ⟨8, laneStride, 8, 1024⟩

def fc2 : Split := ⟨4, laneStride, 4, 512⟩

end Split

/-- A fully connected layer from `inputs` to `outputs` values, worked on in blocks of lanes. -/
structure DenseLayout where
  name : String
  inputs : Nat
  outputs : Nat
  /-- Lanes of a block; those from `outputs` on are padding. -/
  block : Nat
  split : Split
  deriving DecidableEq

namespace DenseLayout

def fc1 : DenseLayout := ⟨"fc1", 256, 64, 64, Split.fc1⟩

def fc2 : DenseLayout := ⟨"fc2", 64, 10, 16, Split.fc2⟩

def weightName (layout : DenseLayout) : String := layout.name ++ "_w"

def biasName (layout : DenseLayout) : String := layout.name ++ "_b"

end DenseLayout
end SlotPacking
