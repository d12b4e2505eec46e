import SlotPacking.Layout

/-!
Where the weights of each layer land: the slot of the diagonal that holds the
weight of a given row and column.
-/
namespace SlotPacking

structure Placement where
  diagonal : Nat
  slot : Nat
  row : Nat
  col : Nat
  deriving DecidableEq

namespace Placement

/-- The placements of an `n x n` matrix: slot `k` of diagonal `i` holds the weight of row `k` and
column `k + i`, taken modulo `n`. -/
def square (n : Nat) : List Placement :=
  (List.range n).flatMap fun i => (List.range n).map fun k => ⟨i, k, k, (k + i) % n⟩

/-- A lane of a rotation holds tap `lane + rotation` modulo the number of lanes, if the kernel has
it. Rotations come babystep by babystep and are regrouped giantstep by giantstep. -/
def conv (channel rotation lane taps : Nat) : Option Placement :=
  let tap := (lane + rotation) % imageLanes
  if tap < taps then
    some ⟨rotation % Split.conv.giantCount * Split.conv.babyCount +
      rotation / Split.conv.giantCount, lane * laneStride, channel, tap⟩
  else none

/-- All placements of one output channel of a convolution. -/
def convAll (channel taps : Nat) : List Placement :=
  (List.range (Split.conv.babyCount * Split.conv.giantCount)).flatMap fun rotation =>
    (List.range imageLanes).filterMap fun lane => conv channel rotation lane taps

/-- A fully connected layer meets input `i + j` in lane `j` of diagonal `i`, for the output that is
the lane's place in its block; padding lanes carry no weight. -/
def dense (layout : DenseLayout) (i j : Nat) : Option Placement :=
  if j % layout.block < layout.outputs then
    let index := laneStride * (i * layout.inputs + j)
    let region := laneStride * layout.inputs
    some ⟨index / region, index % region, (i + j) % layout.inputs, j % layout.block⟩
  else none

/-- All placements of a fully connected layer. -/
def denseAll (layout : DenseLayout) : List Placement :=
  (List.range layout.block).flatMap fun i =>
    (List.range layout.inputs).filterMap fun j => dense layout i j

end Placement
end SlotPacking
