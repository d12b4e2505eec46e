import SlotPacking.Proofs.TapPlacement

/-!
The windows of an unrolled image. A kernel takes a place on a side of the image
exactly when it fits there, and places can be counted on words. Each row of the
unrolled image is the window at one of them, so nothing outside the image is read.
-/
namespace SlotPacking
open Result

section Words

def Word.sub (a b : Nat) : Result Nat := if b ≤ a then .ok (a - b) else faulty .overflow

def Word.add (a b : Nat) : Result Nat := if a + b < bound then .ok (a + b) else faulty .overflow

/-- The places of a kernel along one side of an image, counted on words. -/
def Kernel.countPlaces (size kernelSize stride : Nat) : Result Nat := do
  let span ← Word.sub size kernelSize
  Word.add (span / stride) 1

theorem Kernel.countPlaces_eq_ok {size kernelSize : Nat} (stride : Nat) (hsize : size < Word.bound)
    (h0 : 0 < kernelSize) (hk : kernelSize ≤ size) :
    countPlaces size kernelSize stride = .ok ((size - kernelSize) / stride + 1) := by
  have span := Nat.div_le_self (size - kernelSize) stride
  rw [countPlaces, Word.sub, if_pos hk, ok_bind, Word.add, if_pos (by omega)]

end Words

section Dims
variable {kernel : Kernel} {rows cols stride : Nat}

theorem Kernel.outputDims_refuses (h : stride = 0 ∨ kernel.height = 0 ∨ kernel.width = 0 ∨
    rows < kernel.height ∨ cols < kernel.width) :
    ∃ shape, kernel.outputDims rows cols stride = rejectShape shape := by
  unfold outputDims
  split_ifs
  case neg => omega
  all_goals exact ⟨_, rfl⟩

theorem Kernel.outputDims_counts (hrows : rows < Word.bound) (hcols : cols < Word.bound)
    (h : ¬(stride = 0 ∨ kernel.height = 0 ∨ kernel.width = 0 ∨ rows < kernel.height ∨
      cols < kernel.width)) :
    ∃ dims, kernel.outputDims rows cols stride = .ok dims ∧
      countPlaces rows kernel.height stride = .ok dims.height ∧
      countPlaces cols kernel.width stride = .ok dims.width ∧
      (∀ i, i < dims.height ↔ i * stride + kernel.height ≤ rows) ∧
      ∀ i, i < dims.width ↔ i * stride + kernel.width ≤ cols := by
  have hs : 0 < stride := by omega
  have hr : kernel.height ≤ rows := by omega
  have hc : kernel.width ≤ cols := by omega
  exact ⟨_, outputDims_eq_ok.mpr ⟨hs, by omega, ⟨hr, hc⟩, rfl⟩,
    countPlaces_eq_ok stride hrows (by omega) hr, countPlaces_eq_ok stride hcols (by omega) hc,
    fun _ => place_lt_iff hs hr, fun _ => place_lt_iff hs hc⟩

end Dims

section Windows
variable {α : Type} [Zero α] {image unrolled : Matrix α} {kernel : Kernel} {stride : Nat}
  {dims : OutputDims}

/-- The window at a place holds, row by row, what the taps of the kernel meet there. -/
theorem Matrix.window_of_place (hdims : kernel.outputDims image.rows image.cols stride = .ok dims)
    {h w : Nat} (hh : h < dims.height) (hw : w < dims.width) :
    ∃ region, image.window (h * stride) (w * stride) kernel.height kernel.width = .ok region ∧
      region.size = kernel.height * kernel.width ∧
      ∀ tap < kernel.height * kernel.width,
        region.getD tap 0 = image.tapEntry dims kernel stride (h * dims.width + w) tap := by
  obtain ⟨hs, ⟨-, hkw⟩, ⟨hr, hc⟩, hd⟩ := Kernel.outputDims_eq_ok.mp hdims
  have top := (place_lt_iff hs hr).mp (hd ▸ hh)
  have left := (place_lt_iff hs hc).mp (hd ▸ hw)
  obtain ⟨region, hregion, hsize, hentry⟩ := window_eq_ok image top left
  refine ⟨region, hregion, hsize, fun tap ht => ?_⟩
  have held := hentry (tap / kernel.width) (Nat.div_lt_of_lt_mul (by rwa [Nat.mul_comm]))
    (tap % kernel.width) (Nat.mod_lt tap hkw)
  rw [Nat.div_add_mod'] at held
  rw [held, tapEntry, flat_div hw, flat_mod hw]

theorem unroll_row (hdims : kernel.outputDims image.rows image.cols stride = .ok dims)
    (hunroll : unroll image kernel stride = .ok unrolled) {h w : Nat} (hh : h < dims.height)
    (hw : w < dims.width) :
    ∃ region, image.window (h * stride) (w * stride) kernel.height kernel.width = .ok region ∧
      unrolled.row (h * dims.width + w) = .ok region := by
  obtain ⟨hrows, hcols, hentry⟩ := unroll_entries hdims hunroll
  have hposition := Matrix.flat_lt hh hw
  obtain ⟨region, hregion, hsize, hregionEntry⟩ := Matrix.window_of_place hdims hh hw
  obtain ⟨row, hrow, hrowSize, hrowEntry⟩ := Matrix.row_eq_ok unrolled (hrows ▸ hposition)
  rw [hcols] at hrowSize hrowEntry
  obtain rfl : region = row := array_ext_getD (hsize.trans hrowSize.symm) fun tap ht => by
    rw [hrowSize] at ht
    rw [hregionEntry tap ht, hrowEntry tap ht, hentry _ hposition tap ht]
  exact ⟨region, hregion, hrow⟩

theorem unroll_get (hdims : kernel.outputDims image.rows image.cols stride = .ok dims)
    (hunroll : unroll image kernel stride = .ok unrolled) {u : TapUse}
    (hu : u.Within dims kernel) :
    ∃ x, image.get (u.outRow * stride + u.tapRow) (u.outCol * stride + u.tapCol) = .ok x ∧
      unrolled.get (u.position dims) (u.tap kernel) = .ok x := by
  obtain ⟨hrows, hcols, hentry⟩ := unroll_entries hdims hunroll
  refine ⟨_, hu.get_eq_ok hdims, ?_⟩
  rw [Matrix.get_of_lt unrolled (hrows ▸ hu.position_lt) (hcols ▸ hu.tap_lt),
    hentry _ hu.position_lt _ hu.tap_lt]

omit [Zero α] in
/-- An unrolled image of which a vector cannot hold the entries is not built. -/
theorem unroll_of_no_room (hdims : kernel.outputDims image.rows image.cols stride = .ok dims)
    (size_lt : dims.height * dims.width * (kernel.height * kernel.width) < Word.bound)
    (full : 0x8000000000000000 ≤ dims.height * dims.width * (kernel.height * kernel.width) * 8) :
    unroll image kernel stride = faulty .capacity := by
  obtain ⟨taps_lt, positions_lt⟩ := Kernel.outputDims_addressable hdims image.addressable
  rw [unroll, hdims, ok_bind, OutputDims.positions, Word.mul_of_lt positions_lt, ok_bind,
    Kernel.taps, Word.mul_of_lt taps_lt, ok_bind, Matrix.build, Word.mul_of_lt size_lt, ok_bind,
    Word.reserve_of_ge full]
  rfl

end Windows

/-- On words, the places of a kernel are counted without overflow. They are refused exactly when
there is no stride or no kernel, or when the kernel does not fit the image; otherwise they are the
places at which the kernel fits. The unrolled image, if there is room for its entries, then has the
window at each place as a row, and reads nothing outside the image. -/
theorem unroll_takes_windows (kernel : Kernel) (stride : Nat) :
    (∀ rows < Word.bound, ∀ cols < Word.bound,
      if stride = 0 ∨ kernel.height = 0 ∨ kernel.width = 0 ∨ rows < kernel.height ∨
          cols < kernel.width then
        ∃ shape, kernel.outputDims rows cols stride = rejectShape shape
      else
        ∃ dims, kernel.outputDims rows cols stride = .ok dims ∧
          Kernel.countPlaces rows kernel.height stride = .ok dims.height ∧
          Kernel.countPlaces cols kernel.width stride = .ok dims.width ∧
          (∀ i, i < dims.height ↔ i * stride + kernel.height ≤ rows) ∧
          ∀ i, i < dims.width ↔ i * stride + kernel.width ≤ cols) ∧
    ∀ {α : Type} [Zero α] (image : Matrix α) (dims : OutputDims),
      kernel.outputDims image.rows image.cols stride = .ok dims →
      dims.height * dims.width * (kernel.height * kernel.width) * 8 < 0x8000000000000000 →
      ∃ unrolled, unroll image kernel stride = .ok unrolled ∧
        unrolled.rows = dims.height * dims.width ∧
        unrolled.cols = kernel.height * kernel.width ∧
        ∀ h < dims.height, ∀ w < dims.width,
          (∃ region,
            image.window (h * stride) (w * stride) kernel.height kernel.width = .ok region ∧
              unrolled.row (h * dims.width + w) = .ok region) ∧
          ∀ r < kernel.height, ∀ c < kernel.width,
            ∃ x, image.get (h * stride + r) (w * stride + c) = .ok x ∧
              unrolled.get (h * dims.width + w) (r * kernel.width + c) = .ok x := by
  constructor
  · intro rows hrows cols hcols
    split_ifs with refused
    · exact Kernel.outputDims_refuses refused
    · exact Kernel.outputDims_counts hrows hcols refused
  · intro α _ image dims hdims room
    obtain ⟨unrolled, hunroll⟩ := unroll_succeeds hdims room
    obtain ⟨hrows, hcols, -⟩ := unroll_entries hdims hunroll
    exact ⟨unrolled, hunroll, hrows, hcols, fun h hh w hw => ⟨unroll_row hdims hunroll hh hw,
      fun r hr c hc => unroll_get (u := ⟨h, w, r, c⟩) hdims hunroll ⟨hh, hw, hr, hc⟩⟩⟩

/-- A kernel of half the width of a wide image has more windows than there is room for, although
their entries can be counted on words. -/
theorem unroll_of_wide_image :
    let image : Matrix Nat := Matrix.ofEntries 1 0x80000000 (by decide) fun _ _ => 0
    let kernel : Kernel := ⟨1, 1, 0x40000000⟩
    ∃ dims, kernel.outputDims image.rows image.cols 1 = .ok dims ∧
      dims.height * dims.width * (kernel.height * kernel.width) < Word.bound ∧
      unroll image kernel 1 = faulty .capacity := by
  intro image kernel
  have hdims : kernel.outputDims 1 0x80000000 1 = .ok ⟨1, 0x40000001⟩ :=
    Kernel.outputDims_eq_ok.mpr ⟨by decide, by decide, by decide, by decide⟩
  exact ⟨_, hdims, by decide, unroll_of_no_room hdims (by decide) (by decide)⟩

/-- The last of two rows of two windows, with a row and no column of the image left over. -/
theorem unroll_takes_windows_of_ramp :
    let image : Matrix Nat := Matrix.ofEntries 6 5 (by decide) fun r c => 5 * r + c
    (∃ unrolled, unroll image ⟨1, 2, 2⟩ 3 = .ok unrolled ∧ unrolled.rows = 4 ∧
      unrolled.get 3 3 = .ok 24) ∧
    ∃ shape, Kernel.outputDims ⟨1, 2, 2⟩ 6 5 0 = rejectShape shape := by
  intro image
  have hdims : Kernel.outputDims ⟨1, 2, 2⟩ 6 5 3 = .ok ⟨2, 2⟩ := rfl
  obtain ⟨unrolled, hunroll, hrows, -, windows⟩ :=
    (unroll_takes_windows ⟨1, 2, 2⟩ 3).2 image ⟨2, 2⟩ hdims (by decide)
  obtain ⟨x, hx, held⟩ := (windows 1 (by decide) 1 (by decide)).2 1 (by decide) 1 (by decide)
  have met : image.entry 4 4 = 24 := Matrix.entry_ofEntries (by decide) (by decide)
  obtain rfl : 24 = x := met.symm.trans ((Matrix.get_eq_ok image).mp hx).2
  have refuses := (unroll_takes_windows ⟨1, 2, 2⟩ 0).1 6 (by decide) 5 (by decide)
  rw [if_pos (by decide)] at refuses
  exact ⟨⟨unrolled, hunroll, hrows, held⟩, refuses⟩

end SlotPacking
