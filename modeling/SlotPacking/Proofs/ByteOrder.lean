import Mathlib.Algebra.Order.Group.Nat

/-!
The order of names. Names are compared by their code points; this is the order
of their UTF-8 bytes, since the leading byte of a character grows with the number
of bytes behind it, and those bytes are the digits of the code point.
-/
namespace SlotPacking

/-- The bytes of a text in UTF-8. -/
def utf8Bytes (s : String) : List UInt8 := s.toUTF8.data.toList

theorem utf8Bytes_eq (s : String) : utf8Bytes s = s.toList.flatMap String.utf8EncodeChar := by
  conv_lhs => rw [← String.ofList_toList (s := s)]
  rw [utf8Bytes, String.toUTF8, String.toByteArray_ofList, List.utf8Encode,
    List.toList_data_toByteArray]

/-- The last `count` digits of a code point to the base 64, as the bytes of its encoding. -/
def trailingBytes : Nat → Nat → List UInt8
  | 0, _ => []
  | count + 1, code => UInt8.ofNat (code / 64 ^ count % 64 + 128) :: trailingBytes count code

/-- How many bytes of an encoding follow the leading one. -/
def trailingCount (code : Nat) : Nat :=
  if code ≤ 0x7f then 0 else if code ≤ 0x7ff then 1 else if code ≤ 0xffff then 2 else 3

/-- The leading byte holds the first digits, and in front of them the number of bytes. -/
def leadingByte (code : Nat) : Nat :=
  if code ≤ 0x7f then code
  else if code ≤ 0x7ff then code / 64 % 32 + 0xc0
  else if code ≤ 0xffff then code / 4096 % 16 + 0xe0
  else code / 262144 % 8 + 0xf0

theorem utf8EncodeChar_eq (c : Char) : String.utf8EncodeChar c =
    UInt8.ofNat (leadingByte c.val.toNat) ::
      trailingBytes (trailingCount c.val.toNat) c.val.toNat := by
  unfold String.utf8EncodeChar leadingByte trailingCount
  generalize c.val.toNat = code
  dsimp only
  split_ifs <;> simp [trailingBytes]

section Bytes
variable {a b code next : Nat} {s t : List UInt8}

theorem byte_cons_lt (hb : b < 256) (h : a < b) : UInt8.ofNat a :: s < UInt8.ofNat b :: t := by
  refine List.cons_lt_cons_iff.mpr (.inl (UInt8.lt_iff_toNat_lt.mpr ?_))
  rwa [UInt8.toNat_ofNat', UInt8.toNat_ofNat', Nat.mod_eq_of_lt (h.trans hb), Nat.mod_eq_of_lt hb]

theorem byte_cons_lt_of_eq (h : a = b) (hst : s < t) :
    UInt8.ofNat a :: s < UInt8.ofNat b :: t :=
  List.cons_lt_cons_iff.mpr (.inr ⟨congrArg UInt8.ofNat h, hst⟩)

theorem trailingBytes_lt {count : Nat} (h : code % 64 ^ count < next % 64 ^ count) :
    trailingBytes count code ++ s < trailingBytes count next ++ t := by
  induction count with
  | zero => simp [Nat.mod_one] at h
  | succ count ih =>
    rw [Nat.mod_pow_succ, Nat.mod_pow_succ] at h
    have hdigit : next / 64 ^ count % 64 < 64 := Nat.mod_lt _ (by decide)
    rcases Nat.lt_trichotomy (code / 64 ^ count % 64) (next / 64 ^ count % 64) with lt | eq | gt
    · exact byte_cons_lt (by omega) (Nat.add_lt_add_right lt 128)
    · rw [eq] at h
      exact byte_cons_lt_of_eq (congrArg (· + 128) eq) (ih (Nat.lt_of_add_lt_add_right h))
    · have hrest : next % 64 ^ count < 64 ^ count := Nat.mod_lt _ (Nat.pow_pos (by decide))
      have hstep := Nat.mul_le_mul_left (64 ^ count) (Nat.succ_le_of_lt gt)
      rw [Nat.mul_succ] at hstep
      omega

/-- A greater code point has a greater leading byte, or as many digits behind the same one. -/
theorem leading_or_trailing (h : code < next) (hmax : next < 0x110000) :
    leadingByte code < leadingByte next ∨
      (leadingByte code = leadingByte next ∧ trailingCount code = trailingCount next ∧
        code % 64 ^ trailingCount next < next % 64 ^ trailingCount next) := by
  unfold leadingByte trailingCount
  split_ifs <;> omega

theorem leadingByte_lt (hmax : code < 0x110000) : leadingByte code < 256 := by
  unfold leadingByte
  split_ifs <;> omega

end Bytes

theorem code_lt (c : Char) : c.val.toNat < 0x110000 := by
  rcases c.valid with h | ⟨-, h⟩
  · exact h.trans (by decide)
  · exact h

/-- The bytes of a smaller character come first, whatever follows either. -/
theorem utf8EncodeChar_lt {c d : Char} (h : c < d) (s t : List UInt8) :
    String.utf8EncodeChar c ++ s < String.utf8EncodeChar d ++ t := by
  rw [utf8EncodeChar_eq, utf8EncodeChar_eq]
  have hcode : c.val.toNat < d.val.toNat := h
  rcases leading_or_trailing hcode (code_lt d) with lt | ⟨eq, count, lt⟩
  · exact byte_cons_lt (leadingByte_lt (code_lt d)) lt
  · rw [count]
    exact byte_cons_lt_of_eq eq (trailingBytes_lt lt)

theorem flatMap_utf8_lt {l m : List Char} (h : l < m) :
    l.flatMap String.utf8EncodeChar < m.flatMap String.utf8EncodeChar := by
  induction l generalizing m with
  | nil =>
    cases m with
    | nil => exact absurd h (List.not_lt_nil _)
    | cons d m =>
      rw [List.flatMap_cons, utf8EncodeChar_eq]
      exact List.nil_lt_cons _ _
  | cons c l ih =>
    cases m with
    | nil => exact absurd h (List.not_lt_nil _)
    | cons d m =>
      rw [List.flatMap_cons, List.flatMap_cons]
      rcases List.cons_lt_cons_iff.mp h with hcd | ⟨rfl, hlm⟩
      · exact utf8EncodeChar_lt hcd _ _
      · exact List.append_left_lt (ih hlm)

/-- The order of texts is the order of their bytes. -/
theorem utf8Bytes_lt {s t : String} (h : s < t) : utf8Bytes s < utf8Bytes t := by
  rw [utf8Bytes_eq, utf8Bytes_eq]
  exact flatMap_utf8_lt h

theorem utf8Bytes_lt_iff {s t : String} : utf8Bytes s < utf8Bytes t ↔ s < t := by
  refine ⟨fun h => ?_, utf8Bytes_lt⟩
  by_contra hst
  rcases Std.le_iff_lt_or_eq.mp (String.not_lt.mp hst) with hts | rfl
  · exact List.lt_asymm h (utf8Bytes_lt hts)
  · exact List.lt_irrefl _ h

end SlotPacking
