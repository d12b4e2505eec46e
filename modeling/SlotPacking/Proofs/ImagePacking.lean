import SlotPacking.Image
import SlotPacking.Proofs.MatrixEntries
import SlotPacking.Proofs.SlotVectors

/-!
The packed image, read lane by lane. No two lanes of two output positions share
a slot, so a lane of a position holds the entry of the image that its tap meets
there, and lanes without a tap or a position hold zero.
-/
namespace SlotPacking
open Result SlotVector

section Addresses
variable {lane position : Nat}

/-- Without wrapping: a group for each lane modulo four, a lane of the group for each position, and
a shift for each four lanes. -/
theorem imageSlot_eq (lane : Nat) (hp : position < imageLanes) :
    imageSlot lane position =
      groupWidth * (lane % 4) + laneStride * position + wrapShift * (lane / 4) := by
  unfold imageSlot groupWidth laneStride wrapShift imageLanes slotCount at *
  dsimp only
  omega

theorem imageSlot_group (hl : lane < imageLanes) (hp : position < imageLanes) :
    imageSlot lane position / groupWidth = lane % 4 := by
  rw [imageSlot_eq lane hp]
  unfold groupWidth laneStride wrapShift imageLanes at *
  omega

theorem imageSlot_position (hl : lane < imageLanes) (hp : position < imageLanes) :
    imageSlot lane position % groupWidth / laneStride = position := by
  rw [imageSlot_eq lane hp, Nat.add_assoc, Nat.mul_add_mod]
  unfold groupWidth laneStride wrapShift imageLanes at *
  omega

theorem imageSlot_shift (hl : lane < imageLanes) (hp : position < imageLanes) :
    imageSlot lane position % laneStride / wrapShift = lane / 4 := by
  rw [imageSlot_eq lane hp]
  unfold groupWidth laneStride wrapShift imageLanes at *
  omega

/-- Every lane of every position has a slot of its own. -/
theorem imageSlot_inj {lane' position' : Nat} (hl : lane < imageLanes) (hp : position < imageLanes)
    (hl' : lane' < imageLanes) (hp' : position' < imageLanes)
    (h : imageSlot lane position = imageSlot lane' position') :
    lane = lane' ∧ position = position' := by
  have group := congrArg (· / groupWidth) h
  have shift := congrArg (· % laneStride / wrapShift) h
  have pos := congrArg (· % groupWidth / laneStride) h
  simp only [imageSlot_group, imageSlot_shift, imageSlot_position, hl, hp, hl', hp']
    at group shift pos
  exact ⟨by omega, pos⟩

theorem imageSlot_lt (hl : lane < imageLanes) (hp : position < imageLanes) :
    imageSlot lane position < slotCount := by
  rw [imageSlot_eq lane hp]
  unfold groupWidth laneStride wrapShift imageLanes slotCount at *
  omega

theorem mem_imageCells {positions taps : Nat} : (lane, position) ∈ imageCells positions taps ↔
    lane < imageLanes ∧ position < positions ∧ imageTap lane position < taps := by
  unfold imageCells
  simp [and_comm, and_left_comm]

end Addresses

section OutputDims
variable {kernel : Kernel} {rows cols stride : Nat} {dims : OutputDims}

theorem Kernel.outputDims_eq_ok : kernel.outputDims rows cols stride = .ok dims ↔
    0 < stride ∧ (0 < kernel.height ∧ 0 < kernel.width) ∧
      (kernel.height ≤ rows ∧ kernel.width ≤ cols) ∧
      dims = ⟨(rows - kernel.height) / stride + 1, (cols - kernel.width) / stride + 1⟩ := by
  unfold outputDims
  split
  next h => simp [h]
  next hs =>
    split
    next h => simp; omega
    next hk =>
      split
      next h => simp; omega
      next hr =>
        rw [Except.ok.injEq, eq_comm]
        constructor
        · intro h
          exact ⟨by omega, by omega, by omega, h⟩
        · exact fun h => h.2.2.2

/-- The last place is the last at which the kernel fits, whatever the stride leaves over. -/
theorem place_lt_iff {size kernelSize place : Nat} (hs : 0 < stride) (hk : kernelSize ≤ size) :
    place < (size - kernelSize) / stride + 1 ↔ place * stride + kernelSize ≤ size := by
  rw [Nat.lt_succ_iff, Nat.le_div_iff_mul_le hs]
  omega

/-- Every tap at every output position meets an entry of the image. -/
theorem Kernel.outputDims_fits (h : kernel.outputDims rows cols stride = .ok dims)
    {position tap : Nat} (hp : position < dims.height * dims.width)
    (ht : tap < kernel.height * kernel.width) :
    position / dims.width * stride + tap / kernel.width < rows ∧
      position % dims.width * stride + tap % kernel.width < cols := by
  obtain ⟨hs, ⟨-, hw⟩, ⟨hr, hc⟩, rfl⟩ := outputDims_eq_ok.mp h
  rw [Nat.mul_comm] at hp ht
  have row := (place_lt_iff hs hr).mp (Nat.div_lt_of_lt_mul hp)
  have col := (place_lt_iff hs hc).mp (Nat.mod_lt position (Nat.succ_pos _))
  exact ⟨(Nat.add_lt_add_left (Nat.div_lt_of_lt_mul ht) _).trans_le row,
    (Nat.add_lt_add_left (Nat.mod_lt tap hw) _).trans_le col⟩

/-- On an image that can be addressed, taps and output positions can be counted. -/
theorem Kernel.outputDims_addressable (h : kernel.outputDims rows cols stride = .ok dims)
    (addressable : rows * cols < Word.bound) :
    kernel.height * kernel.width < Word.bound ∧ dims.height * dims.width < Word.bound := by
  obtain ⟨-, ⟨hh, hw⟩, ⟨hr, hc⟩, rfl⟩ := outputDims_eq_ok.mp h
  have positions_le {size kernelSize : Nat} (h0 : 0 < kernelSize) (hk : kernelSize ≤ size) :
      (size - kernelSize) / stride + 1 ≤ size := by
    have := Nat.div_le_self (size - kernelSize) stride
    omega
  exact ⟨(Nat.mul_le_mul hr hc).trans_lt addressable,
    (Nat.mul_le_mul (positions_le hh hr) (positions_le hw hc)).trans_lt addressable⟩

/-- What keeps an image from being packed: the kernel does not fit it, or it has more taps or more
output positions than there are lanes. -/
def Kernel.misfit? (kernel : Kernel) (rows cols stride : Nat) : Option ShapeError :=
  let taps := kernel.height * kernel.width
  let positions := ((rows - kernel.height) / stride + 1) * ((cols - kernel.width) / stride + 1)
  if rows < kernel.height ∨ cols < kernel.width then
    some (.kernelTooLarge kernel.height kernel.width rows cols)
  else if imageLanes < taps then some (.tooManyTaps taps imageLanes)
  else if imageLanes < positions then some (.tooManyPositions positions imageLanes)
  else none

end OutputDims

section Unroll
variable {α : Type} [Zero α] {image unrolled : Matrix α} {kernel : Kernel} {stride : Nat}

/-- The entry of the image that a tap of the kernel meets at an output position. -/
def Matrix.tapEntry (image : Matrix α) (dims : OutputDims) (kernel : Kernel)
    (stride position tap : Nat) : α :=
  image.entry (position / dims.width * stride + tap / kernel.width)
    (position % dims.width * stride + tap % kernel.width)

theorem unroll_entries {dims : OutputDims}
    (hdims : kernel.outputDims image.rows image.cols stride = .ok dims)
    (h : unroll image kernel stride = .ok unrolled) :
    unrolled.rows = dims.height * dims.width ∧ unrolled.cols = kernel.height * kernel.width ∧
      ∀ position < dims.height * dims.width, ∀ tap < kernel.height * kernel.width,
        unrolled.entry position tap = image.tapEntry dims kernel stride position tap := by
  rw [unroll, hdims, ok_bind] at h
  obtain ⟨positions, hpositions, h⟩ := bind_eq_ok.mp h
  obtain ⟨taps, htaps, h⟩ := bind_eq_ok.mp h
  obtain ⟨-, rfl⟩ := Word.mul_eq_ok.mp hpositions
  obtain ⟨-, rfl⟩ := Word.mul_eq_ok.mp htaps
  obtain ⟨hr, hc, hentry⟩ := Matrix.build_eq_ok h
  refine ⟨hr, hc, fun position hp tap ht => ?_⟩
  exact (((Matrix.get_eq_ok image).mp (hentry position hp tap ht)).2).symm

theorem unroll_succeeds {dims : OutputDims}
    (hdims : kernel.outputDims image.rows image.cols stride = .ok dims)
    (room : dims.height * dims.width * (kernel.height * kernel.width) * 8 < 0x8000000000000000) :
    ∃ unrolled, unroll image kernel stride = .ok unrolled := by
  obtain ⟨taps_lt, positions_lt⟩ := Kernel.outputDims_addressable hdims image.addressable
  rw [unroll, hdims, ok_bind, OutputDims.positions, Word.mul_of_lt positions_lt, ok_bind,
    Kernel.taps, Word.mul_of_lt taps_lt, ok_bind]
  apply Matrix.build_succeeds room
  intro position hposition tap htap
  obtain ⟨row, col⟩ := Kernel.outputDims_fits hdims hposition htap
  exact ⟨_, Matrix.get_of_lt image row col⟩

end Unroll

section Pack
variable {α : Type} [Zero α] {image : Matrix α} {kernel : Kernel} {stride : Nat} {v : Slots α}

/-- The writes of a packed image: one for each lane of a position whose tap the kernel has. -/
theorem mem_imageWrites {unrolled : Matrix α} {writes : List (Nat × α)}
    (h : (imageCells unrolled.rows unrolled.cols).mapM (fun (lane, position) => do
      return (imageSlot lane position, ← unrolled.get position (imageTap lane position))) =
        .ok writes) {w : Nat × α} :
    w ∈ writes ↔ ∃ lane < imageLanes, ∃ position < unrolled.rows,
      imageTap lane position < unrolled.cols ∧
        w = (imageSlot lane position, unrolled.entry position (imageTap lane position)) := by
  rw [mem_mapM_eq_ok h]
  constructor
  · rintro ⟨⟨lane, position⟩, hcell, hw⟩
    obtain ⟨hl, hp, ht⟩ := mem_imageCells.mp hcell
    obtain ⟨x, hx, hw⟩ := bind_eq_ok.mp hw
    obtain ⟨-, rfl⟩ := (Matrix.get_eq_ok unrolled).mp hx
    exact ⟨lane, hl, position, hp, ht, (Except.ok.inj hw).symm⟩
  · rintro ⟨lane, hl, position, hp, ht, rfl⟩
    refine ⟨(lane, position), mem_imageCells.mpr ⟨hl, hp, ht⟩, ?_⟩
    simp only [Matrix.get_of_lt unrolled hp ht, ok_bind, pure_eq_ok]

/-- A lane of a position holds the entry of the unrolled image that its tap names, if both are
there. -/
theorem imageWrites_slot {unrolled : Matrix α} {writes : List (Nat × α)}
    (hwrites : (imageCells unrolled.rows unrolled.cols).mapM (fun (lane, position) => do
      return (imageSlot lane position, ← unrolled.get position (imageTap lane position))) =
        .ok writes)
    (h : scatter writes = .ok v) (hrows : unrolled.rows ≤ imageLanes) {lane position : Nat}
    (hl : lane < imageLanes) (hp : position < imageLanes) :
    v.slot (imageSlot lane position) =
      if position < unrolled.rows ∧ imageTap lane position < unrolled.cols then
        unrolled.entry position (imageTap lane position)
      else 0 := by
  have cell (w : Nat × α) (hw : w ∈ writes) (hs : w.1 = imageSlot lane position) :
      position < unrolled.rows ∧ imageTap lane position < unrolled.cols ∧
        w.2 = unrolled.entry position (imageTap lane position) := by
    obtain ⟨lane', hl', position', hp', ht', rfl⟩ := (mem_imageWrites hwrites).mp hw
    obtain ⟨rfl, rfl⟩ := imageSlot_inj hl' (hp'.trans_le hrows) hl hp hs
    exact ⟨hp', ht', rfl⟩
  split
  next hin =>
    have hmem := (mem_imageWrites hwrites).mpr ⟨lane, hl, position, hin.1, hin.2, rfl⟩
    exact scatter_slot_of_mem h hmem fun w hw hs => (cell w hw hs).2.2
  next hout =>
    apply scatter_slot_of_not_mem h
    intro w hw hs
    obtain ⟨hpos, htap, -⟩ := cell w hw hs
    exact hout ⟨hpos, htap⟩

/-- The steps of packing an image, down to the writes of its slots. -/
theorem packImage_eq_scatter (h : packImage image kernel stride = .ok v) :
    ∃ dims unrolled writes, kernel.outputDims image.rows image.cols stride = .ok dims ∧
      kernel.height * kernel.width ≤ imageLanes ∧ dims.height * dims.width ≤ imageLanes ∧
      unroll image kernel stride = .ok unrolled ∧
      unrolled.rows = dims.height * dims.width ∧ unrolled.cols = kernel.height * kernel.width ∧
      (imageCells unrolled.rows unrolled.cols).mapM (fun (lane, position) => do
        return (imageSlot lane position, ← unrolled.get position (imageTap lane position))) =
          .ok writes ∧
      scatter writes = .ok v := by
  obtain ⟨dims, hdims, h⟩ := bind_eq_ok.mp h
  obtain ⟨taps, htaps, h⟩ := bind_eq_ok.mp h
  obtain ⟨-, rfl⟩ := Word.mul_eq_ok.mp htaps
  split at h
  next => simp at h
  next ht =>
    obtain ⟨positions, hpositions, h⟩ := bind_eq_ok.mp h
    obtain ⟨-, rfl⟩ := Word.mul_eq_ok.mp hpositions
    split at h
    next => simp at h
    next hp =>
      obtain ⟨unrolled, hunrolled, h⟩ := bind_eq_ok.mp h
      obtain ⟨writes, hwrites, h⟩ := bind_eq_ok.mp h
      obtain ⟨hrows, hcols, -⟩ := unroll_entries hdims hunrolled
      rw [← hrows, ← hcols] at hwrites
      exact ⟨dims, unrolled, writes, hdims, by omega, by omega, hunrolled, hrows, hcols, hwrites, h⟩

theorem packImage_eq_ok (h : packImage image kernel stride = .ok v) :
    ∃ dims, kernel.outputDims image.rows image.cols stride = .ok dims ∧
      kernel.height * kernel.width ≤ imageLanes ∧ dims.height * dims.width ≤ imageLanes ∧
      ∀ lane < imageLanes, ∀ position < imageLanes, v.slot (imageSlot lane position) =
        if position < dims.height * dims.width ∧
            imageTap lane position < kernel.height * kernel.width then
          image.tapEntry dims kernel stride position (imageTap lane position)
        else 0 := by
  obtain ⟨dims, unrolled, writes, hdims, ht, hp, hunrolled, hrows, hcols, hwrites, h⟩ :=
    packImage_eq_scatter h
  obtain ⟨-, -, hentry⟩ := unroll_entries hdims hunrolled
  refine ⟨dims, hdims, ht, hp, fun lane hl position hpos => ?_⟩
  rw [← hrows] at hp
  rw [← hrows, ← hcols] at hentry ⊢
  rw [imageWrites_slot hwrites h hp hl hpos]
  split
  next hin => rw [hentry position hin.1 _ hin.2]
  next => rfl

/-- A slot that no lane of a position with a tap has is not written. -/
theorem packImage_slot_eq_zero (h : packImage image kernel stride = .ok v) {dims : OutputDims}
    (hdims : kernel.outputDims image.rows image.cols stride = .ok dims) {i : Nat}
    (hi : ∀ lane < imageLanes, ∀ position < dims.height * dims.width,
      imageTap lane position < kernel.height * kernel.width → imageSlot lane position ≠ i) :
    v.slot i = 0 := by
  obtain ⟨dims', unrolled, writes, hdims', -, -, -, hrows, hcols, hwrites, h⟩ :=
    packImage_eq_scatter h
  obtain rfl : dims = dims' := Except.ok.inj (hdims.symm.trans hdims')
  rw [← hrows, ← hcols] at hi
  apply scatter_slot_of_not_mem h
  intro w hw
  obtain ⟨lane, hl, position, hp, ht, rfl⟩ := (mem_imageWrites hwrites).mp hw
  exact hi lane hl position hp ht

theorem packImage_succeeds {dims : OutputDims}
    (hdims : kernel.outputDims image.rows image.cols stride = .ok dims)
    (hp : dims.height * dims.width ≤ imageLanes) (ht : kernel.height * kernel.width ≤ imageLanes) :
    ∃ v : Slots α, packImage image kernel stride = .ok v := by
  have fits {a : Nat} (ha : a ≤ imageLanes) : a < Word.bound := ha.trans_lt (by decide)
  have room := (Nat.mul_le_mul_right 8 (Nat.mul_le_mul hp ht)).trans_lt
    (show imageLanes * imageLanes * 8 < 0x8000000000000000 by decide)
  obtain ⟨unrolled, hunrolled⟩ := unroll_succeeds hdims room
  obtain ⟨hrows, hcols, -⟩ := unroll_entries hdims hunrolled
  obtain ⟨writes, hwrites⟩ := mapM_succeeds
    (l := imageCells unrolled.rows unrolled.cols) (f := fun (lane, position) => do
      return (imageSlot lane position, ← unrolled.get position (imageTap lane position)))
    fun cell hcell => by
      obtain ⟨-, hposition, htap⟩ := mem_imageCells.mp hcell
      simp only [Matrix.get_of_lt unrolled hposition htap, ok_bind]
      exact ⟨_, rfl⟩
  have inside : ∀ w ∈ writes, w.1 < slotCount := by
    intro w hw
    obtain ⟨lane, hl, position, hposition, -, rfl⟩ := (mem_imageWrites hwrites).mp hw
    exact imageSlot_lt hl (by omega)
  obtain ⟨v, hv⟩ := scatter_succeeds inside
  refine ⟨v, ?_⟩
  rw [packImage, hdims, ok_bind, Kernel.taps, Word.mul_of_lt (fits ht), ok_bind,
    if_neg (Nat.not_lt.mpr ht), OutputDims.positions, Word.mul_of_lt (fits hp), ok_bind,
    if_neg (Nat.not_lt.mpr hp), hunrolled, ok_bind, ← hrows, ← hcols, hwrites, ok_bind, hv]

/-- With a kernel and a stride to move it by, an image is packed unless one of the three limits is
exceeded, and the first that is exceeded is reported. -/
theorem packImage_outcome (hs : 0 < stride) (hh : 0 < kernel.height) (hw : 0 < kernel.width) :
    match kernel.misfit? image.rows image.cols stride with
    | some shape => packImage image kernel stride = rejectShape shape
    | none => ∃ v : Slots α, packImage image kernel stride = .ok v := by
  by_cases hsmall : image.rows < kernel.height ∨ image.cols < kernel.width
  · simp only [Kernel.misfit?, if_pos hsmall]
    rw [packImage, Kernel.outputDims, if_neg (by omega), if_neg (by omega), if_pos hsmall]
    rfl
  · have hdims := Kernel.outputDims_eq_ok.mpr
      ⟨hs, ⟨hh, hw⟩, (show kernel.height ≤ image.rows ∧ kernel.width ≤ image.cols by omega), rfl⟩
    obtain ⟨taps_lt, positions_lt⟩ := Kernel.outputDims_addressable hdims image.addressable
    simp only [Kernel.misfit?, if_neg hsmall]
    split_ifs with htaps hpositions
    · simp only [packImage, hdims, ok_bind, Kernel.taps, Word.mul_of_lt taps_lt, if_pos htaps]
    · simp only [packImage, hdims, ok_bind, Kernel.taps, Word.mul_of_lt taps_lt, if_neg htaps,
        OutputDims.positions, Word.mul_of_lt positions_lt, if_pos hpositions]
    · exact packImage_succeeds hdims (Nat.le_of_not_lt hpositions) (Nat.le_of_not_lt htaps)

/-- An image that is packed exceeds no limit. -/
theorem packImage_fits (hs : 0 < stride) (hh : 0 < kernel.height) (hw : 0 < kernel.width)
    (h : packImage image kernel stride = .ok v) :
    kernel.misfit? image.rows image.cols stride = none := by
  have outcome := @packImage_outcome _ _ image kernel stride hs hh hw
  cases hm : kernel.misfit? image.rows image.cols stride with
  | some shape =>
    rw [hm] at outcome
    exact absurd (outcome.symm.trans h) (rejectShape_ne_ok shape v)
  | none => rfl

/-- Whether an image is packed depends only on its dimensions. -/
theorem packImage_status {image' : Matrix α} (hrows : image'.rows = image.rows)
    (hcols : image'.cols = image.cols) (hs : 0 < stride) (hh : 0 < kernel.height)
    (hw : 0 < kernel.width) : (packImage image' kernel stride).map (fun _ => ()) =
      (packImage image kernel stride).map (fun _ => ()) := by
  have outcome := @packImage_outcome _ _ image kernel stride hs hh hw
  have outcome' := @packImage_outcome _ _ image' kernel stride hs hh hw
  rw [hrows, hcols] at outcome'
  cases hm : kernel.misfit? image.rows image.cols stride with
  | some shape =>
    rw [hm] at outcome outcome'
    rw [outcome, outcome']
  | none =>
    rw [hm] at outcome outcome'
    obtain ⟨v, hv⟩ := outcome
    obtain ⟨v', hv'⟩ := outcome'
    rw [hv, hv']
    rfl

theorem packImage_error (hs : 0 < stride) (hh : 0 < kernel.height) (hw : 0 < kernel.width)
    {e : Failure} (h : packImage image kernel stride = .error e) :
    ∃ shape, kernel.misfit? image.rows image.cols stride = some shape ∧
      e = .rejected (.unsupportedShape shape) := by
  have outcome := @packImage_outcome _ _ image kernel stride hs hh hw
  cases hm : kernel.misfit? image.rows image.cols stride with
  | some shape =>
    rw [hm] at outcome
    exact ⟨shape, rfl, (Except.error.inj (outcome.symm.trans h)).symm⟩
  | none =>
    rw [hm] at outcome
    obtain ⟨v, hv⟩ := outcome
    rw [hv] at h
    cases h

end Pack
end SlotPacking
