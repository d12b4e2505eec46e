import SlotPacking.Proofs.ImagePacking
import SlotPacking.Proofs.LayerOperands

/-!
Convolutions. A diagonal stands for one rotation of the taps; in lane `l` it
holds the weight of the tap that the packed image holds, for output position
`l`, at the address the two steps of the diagonal lead to. The rotations meet
every tap once, so a lane ends up with the whole product at its position.
-/
namespace SlotPacking
open Finset Result SlotVector Circuit
open scoped BigOperators

/-- The rotation of a diagonal of the convolution: diagonals go giantstep by giantstep, rotations
babystep by babystep. -/
def convRotation (d : Nat) : Nat :=
  d % Split.conv.babyCount * Split.conv.giantCount + d / Split.conv.babyCount

/-- The diagonal of a rotation. -/
def convDiagonal (rotation : Nat) : Nat :=
  rotation % Split.conv.giantCount * Split.conv.babyCount + rotation / Split.conv.giantCount

section Regrouping
variable {d rotation : Nat}

theorem convRotation_lt (h : d < imageLanes) : convRotation d < imageLanes := by
  change d % 16 * 4 + d / 16 < 64
  unfold imageLanes at h
  omega

theorem convDiagonal_lt (h : rotation < imageLanes) : convDiagonal rotation < imageLanes := by
  change rotation % 4 * 16 + rotation / 4 < 64
  unfold imageLanes at h
  omega

theorem convRotation_mod (h : d < imageLanes) : convRotation d % 4 = d / 16 := by
  change (d % 16 * 4 + d / 16) % 4 = d / 16
  unfold imageLanes at h
  omega

theorem convRotation_div (h : d < imageLanes) : convRotation d / 4 = d % 16 := by
  change (d % 16 * 4 + d / 16) / 4 = d % 16
  unfold imageLanes at h
  omega

theorem convRotation_convDiagonal (h : rotation < imageLanes) :
    convRotation (convDiagonal rotation) = rotation := by
  change (rotation % 4 * 16 + rotation / 4) % 16 * 4 + (rotation % 4 * 16 + rotation / 4) / 16 = _
  unfold imageLanes at h
  omega

theorem convDiagonal_convRotation (h : d < imageLanes) : convDiagonal (convRotation d) = d := by
  change (d % 16 * 4 + d / 16) % 4 * 16 + (d % 16 * 4 + d / 16) / 4 = d
  unfold imageLanes at h
  omega

end Regrouping

theorem imageTap_comm (a b : Nat) : imageTap a b = imageTap b a := by
  rw [imageTap, imageTap, Nat.add_comm]

namespace Placement

theorem conv_eq_some {channel rotation lane taps : Nat} {p : Placement} :
    conv channel rotation lane taps = some p ↔ imageTap lane rotation < taps ∧
      p = ⟨convDiagonal rotation, laneStride * lane, channel, imageTap lane rotation⟩ := by
  rw [Nat.mul_comm laneStride lane]
  change (if imageTap lane rotation < taps then some _ else none) = some p ↔ _
  split
  next h =>
    rw [Option.some_inj, eq_comm]
    exact (and_iff_right h).symm
  next h => simp [h]

theorem mem_convAll {channel taps : Nat} {p : Placement} : p ∈ convAll channel taps ↔
    ∃ d < imageLanes, ∃ lane < imageLanes, imageTap lane (convRotation d) < taps ∧
      p = ⟨d, laneStride * lane, channel, imageTap lane (convRotation d)⟩ := by
  unfold convAll
  simp only [List.mem_flatMap, List.mem_filterMap, List.mem_range, conv_eq_some]
  constructor
  · rintro ⟨rotation, hr, lane, hl, ht, rfl⟩
    have back := convRotation_convDiagonal hr
    exact ⟨_, convDiagonal_lt hr, lane, hl, by rwa [back], by rw [back]⟩
  · rintro ⟨d, hd, lane, hl, ht, rfl⟩
    exact ⟨_, convRotation_lt hd, lane, hl, ht, by rw [convDiagonal_convRotation hd]⟩

end Placement

namespace DiagonalOperator
variable {α : Type} [Zero α] {kernels : Matrix α} {channel : Nat}
  {op : DiagonalOperator α slotCount}

theorem conv_eq_ok (h : conv kernels channel = .ok op) :
    kernels.cols ≤ imageLanes ∧ channel < kernels.rows ∧ op.count = imageLanes ∧
      ofPlacements op.count (Placement.convAll channel kernels.cols) kernels = .ok op := by
  unfold conv at h
  split at h
  next => simp at h
  next hs =>
    rw [Split.conv_proper.diagonals_eq, ok_bind] at h
    have hcount := ofPlacements_count h
    rw [← hcount] at h
    exact ⟨by omega, by omega, hcount, h⟩

theorem conv_succeeds (hc : kernels.cols ≤ imageLanes) (hr : channel < kernels.rows) :
    ∃ op : DiagonalOperator α slotCount, conv kernels channel = .ok op := by
  have placed (p : Placement) (hp : p ∈ Placement.convAll channel kernels.cols)
      (_ : p.diagonal < Split.conv.babyCount * Split.conv.giantCount) (_ : p.slot < slotCount) :
      p.row < kernels.rows ∧ p.col < kernels.cols := by
    obtain ⟨d, _, lane, _, ht, rfl⟩ := Placement.mem_convAll.mp hp
    exact ⟨hr, ht⟩
  obtain ⟨op, hop⟩ := ofPlacements_succeeds (by decide) placed
  refine ⟨op, ?_⟩
  rw [conv, if_neg (by omega), Split.conv_proper.diagonals_eq, ok_bind, hop]

/-- The operator of a channel depends only on its row of the kernels. -/
theorem conv_congr {kernels' : Matrix α} (hrows : kernels'.rows = kernels.rows)
    (hcols : kernels'.cols = kernels.cols)
    (hrow : ∀ tap, kernels'.get channel tap = kernels.get channel tap) :
    conv kernels' channel = conv kernels channel := by
  have placed (count : Nat) :
      (ofPlacements count (Placement.convAll channel kernels.cols) kernels' :
        Result (DiagonalOperator α slotCount)) =
          ofPlacements count (Placement.convAll channel kernels.cols) kernels := by
    apply ofPlacements_congr
    intro p hp
    obtain ⟨_, _, _, _, _, rfl⟩ := Placement.mem_convAll.mp hp
    exact hrow _
  simp only [conv, hrows, hcols, placed]

/-- The weight in a slot of a diagonal: lane `l` of the first group holds tap `l` plus the rotation,
if the kernel has it, everything else is zero. -/
theorem conv_coeff (h : conv kernels channel = .ok op) {d k : Nat} (hd : d < op.count)
    (hk : k < slotCount) : op.coeff d k =
      if k % laneStride = 0 ∧ k / laneStride < imageLanes ∧
          imageTap (k / laneStride) (convRotation d) < kernels.cols then
        kernels.entry channel (imageTap (k / laneStride) (convRotation d))
      else 0 := by
  obtain ⟨-, -, hcount, hplaced⟩ := conv_eq_ok h
  rw [ofPlacements_coeff_lanes (fun p => Placement.mem_convAll) hplaced hd hk]
  simp only [hcount ▸ hd, true_and]

end DiagonalOperator

section Run
variable {R : Type} [CommRing R] {kernels : Matrix R} {channel : Nat}
  {op : DiagonalOperator R slotCount}

theorem convRun_slot (h : DiagonalOperator.conv kernels channel = .ok op) (x : Slots R) {k : Nat}
    (hk : k < slotCount) : (Split.conv.run op x).slot k = ∑ d ∈ range imageLanes,
      op.coeff d k * x.slot ((k + (wrapShift * (d % 16) + groupWidth * (d / 16))) % slotCount) := by
  obtain ⟨-, -, hcount, -⟩ := DiagonalOperator.conv_eq_ok h
  have steps (g : Nat) (_ : g < Split.conv.giantCount) (b : Nat) (hb : b < 16) :
      b * 8 + g * 8192 = 8 * ((g * 16 + b) % 16) + 8192 * ((g * 16 + b) / 16) := by
    omega
  rw [Split.run_slot hcount (fun d => wrapShift * (d % 16) + groupWidth * (d / 16)) steps x hk,
    hcount]

/-- Slots other than the first lanes of the first group are zero. -/
theorem convRun_slot_eq_zero (h : DiagonalOperator.conv kernels channel = .ok op) (x : Slots R)
    {k : Nat} (outside : ¬(k % laneStride = 0 ∧ k / laneStride < imageLanes)) :
    (Split.conv.run op x).slot k = 0 := by
  by_cases hk : k < slotCount
  · rw [convRun_slot h x hk]
    obtain ⟨-, -, hcount, -⟩ := DiagonalOperator.conv_eq_ok h
    apply sum_eq_zero
    intro d hd
    rw [DiagonalOperator.conv_coeff h (hcount ▸ mem_range.mp hd) hk,
      if_neg fun hc => outside ⟨hc.1, hc.2.1⟩, zero_mul]
  · exact slot_of_ge _ (by omega)

/-- A lane meets, for each rotation, its tap under that rotation with the slot of the packed image
that holds the same tap. -/
theorem convRun_lane (h : DiagonalOperator.conv kernels channel = .ok op) (x : Slots R) {l : Nat}
    (hl : l < imageLanes) : (Split.conv.run op x).slot (laneStride * l) = ∑ r ∈ range imageLanes,
      (if imageTap l r < kernels.cols then kernels.entry channel (imageTap l r) else 0) *
        x.slot (imageSlot r l) := by
  obtain ⟨-, -, hcount, -⟩ := DiagonalOperator.conv_eq_ok h
  have hk : laneStride * l < slotCount := lane_lt (hl.trans (by decide))
  have address (d : Nat) (hd : d < imageLanes) :
      (laneStride * l + (wrapShift * (d % 16) + groupWidth * (d / 16))) % slotCount =
        imageSlot (convRotation d) l := by
    rw [imageSlot_eq (convRotation d) hl, convRotation_mod hd, convRotation_div hd]
    unfold laneStride wrapShift groupWidth slotCount imageLanes at *
    omega
  rw [convRun_slot h x hk]
  refine (sum_congr rfl fun d hd => ?_).trans (sum_grid_transpose (fun r =>
    (if imageTap l r < kernels.cols then kernels.entry channel (imageTap l r) else 0) *
      x.slot (imageSlot r l)) 4 16)
  have hd := mem_range.mp hd
  rw [DiagonalOperator.conv_coeff h (hcount ▸ hd) hk, address d hd, lane_mod, lane_div]
  simp only [hl, true_and]
  rfl

section Image
variable {image : Matrix R} {kernel : Kernel} {stride : Nat} {v : Slots R}

/-- On a packed image, the first lanes of the first group hold the products of the kernel with the
receptive fields of the output positions; nothing stands anywhere else. -/
theorem convRun_image (h : DiagonalOperator.conv kernels channel = .ok op)
    (hcols : kernels.cols = kernel.height * kernel.width)
    (hv : packImage image kernel stride = .ok v) :
    ∃ dims, kernel.outputDims image.rows image.cols stride = .ok dims ∧
      dims.height * dims.width ≤ imageLanes ∧
      (∀ l < dims.height * dims.width, (Split.conv.run op v).slot (laneStride * l) =
        ∑ tap ∈ range kernels.cols,
          kernels.entry channel tap * image.tapEntry dims kernel stride l tap) ∧
      ∀ i, (∀ l < dims.height * dims.width, i ≠ laneStride * l) →
        (Split.conv.run op v).slot i = 0 := by
  obtain ⟨dims, hdims, ht, hp, hslots⟩ := packImage_eq_ok hv
  rw [← hcols] at ht hslots
  refine ⟨dims, hdims, hp, fun l hl => ?_, fun i hi => ?_⟩
  · have met (r : Nat) (hr : r ∈ range imageLanes) :
        (if imageTap l r < kernels.cols then kernels.entry channel (imageTap l r) else 0) *
          v.slot (imageSlot r l) =
        if imageTap l r < kernels.cols then
          kernels.entry channel (imageTap l r) *
            image.tapEntry dims kernel stride l (imageTap l r)
        else 0 := by
      rw [hslots r (mem_range.mp hr) l (hl.trans_le hp), imageTap_comm r l]
      simp only [hl, true_and]
      split
      next => rfl
      next => rw [zero_mul]
    rw [convRun_lane h v (hl.trans_le hp), sum_congr rfl met]
    exact sum_cycle_lt (fun tap => kernels.entry channel tap *
      image.tapEntry dims kernel stride l tap) ht l
  · by_cases hlane : i % laneStride = 0 ∧ i / laneStride < imageLanes
    · obtain ⟨h0, hl⟩ := hlane
      have hs := lane_of_mod h0
      rw [← hs, convRun_lane h v hl]
      apply sum_eq_zero
      intro r hr
      have free : v.slot (imageSlot r (i / laneStride)) = 0 := by
        rw [hslots r (mem_range.mp hr) _ hl, if_neg fun hc => hi _ hc.1 hs.symm]
      rw [free, mul_zero]
    · exact convRun_slot_eq_zero h v hlane

/-- The taps of a kernel row by row. -/
theorem sum_tapEntry (dims : OutputDims) (kernel : Kernel) (stride l : Nat) (weight : Nat → R) :
    ∑ tap ∈ range (kernel.height * kernel.width),
        weight tap * image.tapEntry dims kernel stride l tap =
      ∑ kr ∈ range kernel.height, ∑ kc ∈ range kernel.width, weight (kr * kernel.width + kc) *
        image.entry (l / dims.width * stride + kr) (l % dims.width * stride + kc) := by
  rw [← sum_grid fun tap => weight tap * image.tapEntry dims kernel stride l tap]
  refine sum_congr rfl fun kr _ => sum_congr rfl fun kc hkc => ?_
  have hkc := mem_range.mp hkc
  rw [Matrix.tapEntry, Matrix.flat_div hkc, Matrix.flat_mod hkc]

end Image
end Run
end SlotPacking
