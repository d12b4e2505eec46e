import SlotPacking.Proofs.ImagePacking

/-!
Where the taps of a packed image lie. An image is refused only for its size, its
kernel or its stride. Otherwise every tap at every output position has a slot of
its own, which holds the entry of the image that the tap meets there, and all
other slots are zero.
-/
namespace SlotPacking
open Result SlotVector

section Refusal
variable {kernel : Kernel} {rows cols stride : Nat}

/-- What keeps an image from being packed, in the order in which it is looked for. -/
def Kernel.refusal? (kernel : Kernel) (rows cols stride : Nat) : Option ShapeError :=
  if stride = 0 then some .zeroStride
  else if kernel.height = 0 ∨ kernel.width = 0 then some .emptyKernel
  else kernel.misfit? rows cols stride

theorem Kernel.refusal?_eq_none : kernel.refusal? rows cols stride = none ↔
    ¬(stride = 0 ∨ kernel.height = 0 ∨ kernel.width = 0 ∨ rows < kernel.height ∨
      cols < kernel.width ∨ 64 < kernel.height * kernel.width ∨
      64 < ((rows - kernel.height) / stride + 1) * ((cols - kernel.width) / stride + 1)) := by
  unfold refusal? misfit? imageLanes
  dsimp only
  -- the two products are opaque to the case analysis
  generalize kernel.height * kernel.width = taps
  generalize ((rows - kernel.height) / stride + 1) * ((cols - kernel.width) / stride + 1) = positions
  split_ifs <;> simp only [true_iff, false_iff] <;> omega

theorem packImage_refusal {α : Type} [Zero α] (image : Matrix α) (kernel : Kernel) (stride : Nat) :
    match kernel.refusal? image.rows image.cols stride with
    | some shape => packImage image kernel stride = rejectShape shape
    | none => ∃ v : Slots α, packImage image kernel stride = .ok v := by
  unfold Kernel.refusal?
  split_ifs with hs hk
  · rw [packImage, Kernel.outputDims, if_pos hs]
    rfl
  · rw [packImage, Kernel.outputDims, if_neg hs, if_pos hk]
    rfl
  · exact packImage_outcome (Nat.pos_of_ne_zero hs) (by omega) (by omega)

end Refusal

section Lane
variable {lane tap position : Nat}

/-- The lane of an output position that holds a tap. -/
def tapLane (tap position : Nat) : Nat := (tap + imageLanes - position) % imageLanes

theorem tapLane_lt (tap position : Nat) : tapLane tap position < imageLanes :=
  Nat.mod_lt _ (by decide)

theorem imageTap_tapLane (ht : tap < imageLanes) (hp : position < imageLanes) :
    imageTap (tapLane tap position) position = tap := by
  unfold imageTap tapLane imageLanes at *
  omega

theorem tapLane_imageTap (hl : lane < imageLanes) (hp : position < imageLanes) :
    tapLane (imageTap lane position) position = lane := by
  unfold imageTap tapLane imageLanes at *
  omega

end Lane

/-- A tap of a kernel at an output position, each by its row and column. -/
structure TapUse where
  outRow : Nat
  outCol : Nat
  tapRow : Nat
  tapCol : Nat

namespace TapUse
variable {u u' : TapUse} {dims : OutputDims} {kernel : Kernel}

def position (u : TapUse) (dims : OutputDims) : Nat := u.outRow * dims.width + u.outCol

def tap (u : TapUse) (kernel : Kernel) : Nat := u.tapRow * kernel.width + u.tapCol

/-- The slot of a packed image that holds the tap. -/
def slot (u : TapUse) (dims : OutputDims) (kernel : Kernel) : Nat :=
  imageSlot (tapLane (u.tap kernel) (u.position dims)) (u.position dims)

/-- The output has the position and the kernel has the tap. -/
structure Within (u : TapUse) (dims : OutputDims) (kernel : Kernel) : Prop where
  outRow : u.outRow < dims.height
  outCol : u.outCol < dims.width
  tapRow : u.tapRow < kernel.height
  tapCol : u.tapCol < kernel.width

theorem Within.position_lt (h : u.Within dims kernel) :
    u.position dims < dims.height * dims.width := Matrix.flat_lt h.outRow h.outCol

theorem Within.tap_lt (h : u.Within dims kernel) : u.tap kernel < kernel.height * kernel.width :=
  Matrix.flat_lt h.tapRow h.tapCol

/-- The tap at the position of the given numbers. -/
def ofCell (dims : OutputDims) (kernel : Kernel) (position tap : Nat) : TapUse :=
  ⟨position / dims.width, position % dims.width, tap / kernel.width, tap % kernel.width⟩

/-- A tap at a position is determined by the numbers of both. -/
theorem Within.eq_ofCell (h : u.Within dims kernel) :
    ofCell dims kernel (u.position dims) (u.tap kernel) = u := by
  simp only [ofCell, position, tap, Matrix.flat_div h.outCol, Matrix.flat_mod h.outCol,
    Matrix.flat_div h.tapCol, Matrix.flat_mod h.tapCol]

section Cell
variable {p t : Nat}

theorem ofCell_position : (ofCell dims kernel p t).position dims = p := Nat.div_add_mod' p dims.width

theorem ofCell_tap : (ofCell dims kernel p t).tap kernel = t := Nat.div_add_mod' t kernel.width

theorem ofCell_within (hp : p < dims.height * dims.width) (ht : t < kernel.height * kernel.width) :
    (ofCell dims kernel p t).Within dims kernel where
  outRow := Nat.div_lt_of_lt_mul (by rwa [Nat.mul_comm])
  outCol := Nat.mod_lt _ (Nat.pos_of_mul_pos_left (Nat.zero_lt_of_lt hp))
  tapRow := Nat.div_lt_of_lt_mul (by rwa [Nat.mul_comm])
  tapCol := Nat.mod_lt _ (Nat.pos_of_mul_pos_left (Nat.zero_lt_of_lt ht))

end Cell

section Lanes
variable (hp : dims.height * dims.width ≤ imageLanes)
  (ht : kernel.height * kernel.width ≤ imageLanes)

include hp in
theorem Within.slot_lt (h : u.Within dims kernel) : u.slot dims kernel < slotCount :=
  imageSlot_lt (tapLane_lt _ _) (h.position_lt.trans_le hp)

include hp ht in
/-- Different taps or positions have different slots. -/
theorem Within.slot_inj (h : u.Within dims kernel) (h' : u'.Within dims kernel)
    (hs : u.slot dims kernel = u'.slot dims kernel) : u = u' := by
  have hpos := h.position_lt.trans_le hp
  have hpos' := h'.position_lt.trans_le hp
  obtain ⟨lane, position⟩ := imageSlot_inj (tapLane_lt _ _) hpos (tapLane_lt _ _) hpos' hs
  have tap : u.tap kernel = u'.tap kernel := by
    rw [← imageTap_tapLane (h.tap_lt.trans_le ht) hpos, lane, position,
      imageTap_tapLane (h'.tap_lt.trans_le ht) hpos']
  rw [← h.eq_ofCell, ← h'.eq_ofCell, position, tap]

end Lanes
end TapUse

section Pack
variable {α : Type} [Zero α] {image : Matrix α} {kernel : Kernel} {stride : Nat} {v : Slots α}
  {dims : OutputDims}

/-- A tap at a position of the output meets an entry of the image. -/
theorem TapUse.Within.get_eq_ok {u : TapUse} (hu : u.Within dims kernel)
    (hdims : kernel.outputDims image.rows image.cols stride = .ok dims) :
    image.get (u.outRow * stride + u.tapRow) (u.outCol * stride + u.tapCol) =
      .ok (image.tapEntry dims kernel stride (u.position dims) (u.tap kernel)) := by
  obtain ⟨row, col⟩ := Kernel.outputDims_fits hdims hu.position_lt hu.tap_lt
  rw [Matrix.tapEntry]
  simp only [TapUse.position, TapUse.tap, Matrix.flat_div hu.outCol, Matrix.flat_mod hu.outCol,
    Matrix.flat_div hu.tapCol, Matrix.flat_mod hu.tapCol] at row col ⊢
  exact Matrix.get_of_lt image row col

/-- The slot of a tap at a position holds the entry of the image that the tap meets there. -/
theorem packImage_slot_tap (h : packImage image kernel stride = .ok v)
    (hdims : kernel.outputDims image.rows image.cols stride = .ok dims) {u : TapUse}
    (hu : u.Within dims kernel) :
    image.get (u.outRow * stride + u.tapRow) (u.outCol * stride + u.tapCol) =
      .ok (v.slot (u.slot dims kernel)) := by
  obtain ⟨dims', hdims', ht, hp, hslot⟩ := packImage_eq_ok h
  obtain rfl : dims = dims' := Except.ok.inj (hdims.symm.trans hdims')
  have hpos := hu.position_lt.trans_le hp
  have held := hslot _ (tapLane_lt (u.tap kernel) (u.position dims)) _ hpos
  rw [imageTap_tapLane (hu.tap_lt.trans_le ht) hpos, if_pos ⟨hu.position_lt, hu.tap_lt⟩] at held
  rw [hu.get_eq_ok hdims, ← held]
  rfl

/-- A slot that belongs to no tap at any position is zero. -/
theorem packImage_slot_free (h : packImage image kernel stride = .ok v)
    (hdims : kernel.outputDims image.rows image.cols stride = .ok dims) {i : Nat}
    (hi : ∀ u : TapUse, u.Within dims kernel → u.slot dims kernel ≠ i) : v.slot i = 0 := by
  obtain ⟨dims', hdims', -, hp, -⟩ := packImage_eq_ok h
  obtain rfl : dims = dims' := Except.ok.inj (hdims.symm.trans hdims')
  refine packImage_slot_eq_zero h hdims fun lane hl position hposition htap => ?_
  have free := hi _ (TapUse.ofCell_within hposition htap)
  rwa [TapUse.slot, TapUse.ofCell_tap, TapUse.ofCell_position,
    tapLane_imageTap hl (hposition.trans_le hp)] at free

/-- An image is refused for want of a stride, of a kernel, of room for the kernel, or of lanes for
its taps or positions, and for nothing else. When it is packed, each tap at each output position
has a slot of its own that holds the entry of the image it meets there; all other slots are
zero. -/
theorem packImage_places_taps (image : Matrix α) (kernel : Kernel) (stride : Nat) :
    let dims : OutputDims :=
      ⟨(image.rows - kernel.height) / stride + 1, (image.cols - kernel.width) / stride + 1⟩
    if stride = 0 ∨ kernel.height = 0 ∨ kernel.width = 0 ∨ image.rows < kernel.height ∨
        image.cols < kernel.width ∨ 64 < kernel.height * kernel.width ∨
        64 < dims.height * dims.width then
      ∃ shape, kernel.refusal? image.rows image.cols stride = some shape ∧
        packImage image kernel stride = rejectShape shape
    else
      ∃ v, packImage image kernel stride = .ok v ∧
        (∀ u : TapUse, u.Within dims kernel → u.slot dims kernel < 32768 ∧
          image.get (u.outRow * stride + u.tapRow) (u.outCol * stride + u.tapCol) =
            .ok (v.slot (u.slot dims kernel))) ∧
        (∀ u u' : TapUse, u.Within dims kernel → u'.Within dims kernel →
          u.slot dims kernel = u'.slot dims kernel → u = u') ∧
        ∀ i, (∀ u : TapUse, u.Within dims kernel → u.slot dims kernel ≠ i) → v.slot i = 0 := by
  intro dims
  have packs := packImage_refusal image kernel stride
  split_ifs with refused
  · cases hr : kernel.refusal? image.rows image.cols stride with
    | none => exact absurd refused (Kernel.refusal?_eq_none.mp hr)
    | some shape =>
      rw [hr] at packs
      exact ⟨shape, rfl, packs⟩
  · rw [Kernel.refusal?_eq_none.mpr refused] at packs
    obtain ⟨v, h⟩ := packs
    obtain ⟨dims', hdims, ht, hp, -⟩ := packImage_eq_ok h
    obtain rfl : dims' = dims := (Kernel.outputDims_eq_ok.mp hdims).2.2.2
    exact ⟨v, h, fun u hu => ⟨hu.slot_lt hp, packImage_slot_tap h hdims hu⟩,
      fun u u' hu hu' => hu.slot_inj hp ht hu', fun i => packImage_slot_free h hdims⟩

/-- The second row of the kernel at the last of six positions lies in lane 61, in the sixteenth
turn around the slots. -/
theorem packImage_places_taps_of_ramp :
    let image : Matrix Nat := ⟨3, 4, #[1, 2, 3, 4, 5, 6, 7, 8, 9, 10, 11, 12], rfl, by decide⟩
    (∃ v, packImage image ⟨1, 2, 2⟩ 1 = .ok v ∧
      TapUse.slot ⟨1, 2, 1, 0⟩ ⟨2, 3⟩ ⟨1, 2, 2⟩ = 8952 ∧ v.slot 8952 = 11) ∧
    packImage image ⟨1, 4, 2⟩ 1 = rejectShape (.kernelTooLarge 4 2 3 4) := by
  intro image
  have packs := packImage_places_taps image ⟨1, 2, 2⟩ 1
  have refuses := packImage_places_taps image ⟨1, 4, 2⟩ 1
  rw [show image.rows = 3 from rfl, show image.cols = 4 from rfl] at packs
  rw [if_neg (by decide)] at packs
  rw [if_pos (by decide)] at refuses
  obtain ⟨v, hv, holds, -⟩ := packs
  obtain ⟨shape, hshape, refused⟩ := refuses
  have address : TapUse.slot ⟨1, 2, 1, 0⟩ ⟨2, 3⟩ ⟨1, 2, 2⟩ = 8952 := by decide
  have held : image.get 2 2 = .ok (v.slot (TapUse.slot ⟨1, 2, 1, 0⟩ ⟨2, 3⟩ ⟨1, 2, 2⟩)) :=
    (holds ⟨1, 2, 1, 0⟩ ⟨by decide, by decide, by decide, by decide⟩).2
  rw [address] at held
  refine ⟨⟨v, hv, address, (Except.ok.inj held).symm⟩, ?_⟩
  rw [refused, ← Option.some.inj hshape]

end Pack
end SlotPacking
