import SlotPacking.Proofs.BundleNames
import SlotPacking.Proofs.CanonicalScales
import SlotPacking.Proofs.JsonText
import SlotPacking.Proofs.TokenText

/-!
The text of a bundle is unambiguous. Every operand over the same number of slots
has equally many tokens, so the commas between operands are found again, and each
token gives back what was written: a name, a scale, or the value of a slot.
-/
namespace SlotPacking

section Blocks
variable {α : Type} {sep : α} {size : ℕ} {xs ys : List (List α)}

/-- With a separator in front too, there is one before every block. -/
theorem cons_intercalate (sep : α) (hne : xs ≠ []) :
    sep :: [sep].intercalate xs = xs.flatMap (sep :: ·) := by
  induction xs with
  | nil => exact absurd rfl hne
  | cons x xs ih =>
    cases xs with
    | nil => simp
    | cons y ys =>
      rw [List.intercalate_cons_cons, List.flatMap_cons, ← ih (List.cons_ne_nil y ys)]
      simp

theorem length_flatMap_cons (sep : α) (hx : ∀ x ∈ xs, x.length = size) :
    (xs.flatMap (sep :: ·)).length = xs.length * (size + 1) := by
  induction xs with
  | nil => simp
  | cons x xs ih =>
    obtain ⟨hx, hxs⟩ := List.forall_mem_cons.mp hx
    rw [List.flatMap_cons, List.length_append, ih hxs, List.length_cons, hx, List.length_cons,
      Nat.succ_mul, Nat.add_comm]

theorem length_intercalate (sep : α) (hx : ∀ x ∈ xs, x.length = size) :
    ([sep].intercalate xs).length = xs.length * (size + 1) - 1 := by
  by_cases hne : xs = []
  · simp [hne]
  · have length := congrArg List.length (cons_intercalate sep hne)
    rw [length_flatMap_cons sep hx, List.length_cons] at length
    exact Nat.eq_sub_of_add_eq length

theorem flatMap_cons_injective (hx : ∀ x ∈ xs, x.length = size) (hy : ∀ y ∈ ys, y.length = size)
    (h : xs.flatMap (sep :: ·) = ys.flatMap (sep :: ·)) : xs = ys := by
  induction xs generalizing ys with
  | nil =>
    cases ys with
    | nil => rfl
    | cons y ys => simp at h
  | cons x xs ih =>
    cases ys with
    | nil => simp at h
    | cons y ys =>
      obtain ⟨hx, hxs⟩ := List.forall_mem_cons.mp hx
      obtain ⟨hy, hys⟩ := List.forall_mem_cons.mp hy
      rw [List.flatMap_cons, List.flatMap_cons] at h
      obtain ⟨hhead, htail⟩ := List.append_inj h (by simp [hx, hy])
      rw [(List.cons.inj hhead).2, ih hxs hys htail]

theorem eq_nil_of_intercalate (hsize : 0 < size) (hx : ∀ x ∈ xs, x.length = size)
    (h : [sep].intercalate xs = []) : xs = [] := by
  have length := length_intercalate sep hx
  rw [h, List.length_nil] at length
  cases xs with
  | nil => rfl
  | cons x xs =>
    rw [List.length_cons, Nat.succ_mul] at length
    omega

/-- Blocks of one length are told apart by the separators between them. -/
theorem intercalate_injective (hsize : 0 < size) (hx : ∀ x ∈ xs, x.length = size)
    (hy : ∀ y ∈ ys, y.length = size) (h : [sep].intercalate xs = [sep].intercalate ys) :
    xs = ys := by
  by_cases hxs : xs = []
  · subst hxs
    exact (eq_nil_of_intercalate hsize hy h.symm).symm
  · have hys : ys ≠ [] := by
      rintro rfl
      exact hxs (eq_nil_of_intercalate hsize hx h)
    have same : xs.flatMap (sep :: ·) = ys.flatMap (sep :: ·) := by
      rw [← cons_intercalate sep hxs, h, cons_intercalate sep hys]
    exact flatMap_cons_injective hx hy same

/-- A function that tells the members of two lists apart tells the lists apart. -/
theorem map_injective_of_mem {β : Type} {f : α → β} {as bs : List α}
    (hf : ∀ a ∈ as, ∀ b ∈ bs, f a = f b → a = b) (h : as.map f = bs.map f) : as = bs := by
  have hlength : as.length = bs.length := by simpa using congrArg List.length h
  refine List.ext_getElem hlength fun i hi hi' => ?_
  refine hf _ (List.getElem_mem hi) _ (List.getElem_mem hi') ?_
  have entry := List.getElem_of_eq h (by simpa using hi)
  simpa using entry

end Blocks

namespace Json
variable {n : ℕ}

/-- The tokens of an operand. -/
def operandTokens (operand : Operand Float n) : List Token :=
  .openBrace :: .string (some "scale") :: .colon :: .string (some operand.scale.text) :: .comma ::
    .string (some "scale_f64") :: .colon :: floatToken operand.scale.toFloat :: .comma ::
    .string (some "values") :: .colon :: .openBracket ::
    ([Token.comma].intercalate (operand.values.toList.map fun x => [floatToken x]) ++
      [.closeBracket, .closeBrace])

def memberTokens (m : String × Operand Float n) : List Token :=
  .string (some m.1) :: .colon :: operandTokens m.2

def bundleTokens (bundle : Bundle Float n) : List Token :=
  .openBrace :: ([Token.comma].intercalate (bundle.toList.map memberTokens) ++ [.closeBrace])

theorem operandText_eq (operand : Operand Float n) : operandText operand =
    "\x7b" ++ (quoted "scale" ++ (":" ++ (quoted operand.scale.text ++ ("," ++
      (quoted "scale_f64" ++ (":" ++ (numberToken operand.scale.toFloat ++ ("," ++
        (quoted "values" ++ (":" ++ ("[" ++
          (",".intercalate (operand.values.toList.map numberToken) ++ ("]" ++ "\x7d")))))))))))))
    := by
  have hfloats (out : String) (xs : Array Float) : writeFloats out xs =
      out ++ ("[" ++ (",".intercalate (xs.toList.map numberToken) ++ "]")) := by
    rw [writeFloats, writes_array fun _ _ => rfl]
    simp only [String.append_assoc]
  simp only [operandText, writeOperand, writeMember, hfloats, String.push_eq_append,
    String.append_assoc, String.empty_append]
  rfl

theorem lexes_operand (operand : Operand Float n) :
    Lexes (operandText operand) (operandTokens operand) := by
  rw [operandText_eq]
  have values := lexes_items operand.values.toList fun x _ => lexes_numberToken x
  exact .mark .openBrace (.quoted "scale" (.mark .colon (.quoted _ (.mark .comma
    (.quoted "scale_f64" (.mark .colon ((lexes_numberToken _).append .comma (.quoted "values"
      (.mark .colon (.mark .openBracket
        (values.append .closeBracket (lexes_mark .closeBrace))))))))))))

theorem lexes_bundle (bundle : Bundle Float n) :
    Lexes (writeBundle "" bundle) (bundleTokens bundle) := by
  have lexes_member (m : String × Operand Float n) :
      Lexes (member operandText m) (memberTokens m) := by
    rw [member, String.append_assoc]
    exact .quoted m.1 (.mark .colon (lexes_operand m.2))
  rw [writeBundle_eq, String.append_assoc]
  have members := lexes_items bundle.toList fun m _ => lexes_member m
  exact .mark .openBrace (members.append_mark .closeBrace)

/-- Every operand over the same slots has equally many tokens. -/
theorem length_memberTokens (m : String × Operand Float n) :
    (memberTokens m).length = 16 + (n * 2 - 1) := by
  have singles : ∀ ts ∈ m.2.values.toList.map fun x => [floatToken x], ts.length = 1 := by simp
  have values : ([Token.comma].intercalate
      (m.2.values.toList.map fun x => [floatToken x])).length = n * 2 - 1 := by
    rw [length_intercalate _ singles, List.length_map]
    simp [SlotVector.toList]
  simp only [memberTokens, operandTokens, List.length_cons, List.length_append, values,
    List.length_nil]
  omega

theorem memberTokens_injective {a b : String × Operand Float n} (named : a.2.name = a.1)
    (named' : b.2.name = b.1) (ha : ∀ x ∈ a.2.values.toList, x.isFinite = true)
    (hb : ∀ x ∈ b.2.values.toList, x.isFinite = true) (h : memberTokens a = memberTokens b) :
    a = b := by
  obtain ⟨key, ⟨name, ⟨values⟩, scale⟩⟩ := a
  obtain ⟨key', ⟨name', ⟨values'⟩, scale'⟩⟩ := b
  obtain rfl : name = key := named
  obtain rfl : name' = key' := named'
  simp only [memberTokens, operandTokens, List.cons.injEq, Token.string.injEq, Option.some.injEq,
    true_and, List.append_cancel_right_eq, Scale.text_inj] at h
  obtain ⟨rfl, rfl, -, hvalues⟩ := h
  have slots := intercalate_injective Nat.one_pos (by simp) (by simp) hvalues
  have same : values.toList = values'.toList := map_injective_of_mem
    (fun x hx y hy hxy => floatToken_injective (ha x hx) (hb y hy) (List.cons.inj hxy).1) slots
  rw [Vector.toList_inj.mp same]

end Json

namespace Bundle
open Json
variable {n : ℕ} {a b : Bundle Float n}

/-- All slots of all operands are finite. -/
def SlotsFinite (bundle : Bundle Float n) : Prop :=
  ∀ name operand, bundle.get? name = some operand →
    ∀ i (h : i < n), (operand.values[i]).isFinite = true

theorem SlotsFinite.of_mem {e : String × Operand Float n} (ha : SlotsFinite a)
    (he : e ∈ a.entries) : ∀ x ∈ e.2.values.toList, x.isFinite = true := by
  intro x hx
  obtain ⟨i, hi, rfl⟩ := List.getElem_of_mem hx
  exact ha e.1 e.2 (get?_of_mem he) i (by simpa [SlotVector.toList] using hi)

/-- Bundles of finite slots with one text have the same names, under each name the same exact scale,
and bit for bit the same slots. -/
theorem writeBundle_injective (ha : a.SlotsFinite) (hb : b.SlotsFinite)
    (h : writeBundle "" a = writeBundle "" b) :
    a = b ∧ a.names = b.names ∧
    ∀ name x y, a.get? name = some x → b.get? name = some y →
      x.scale = y.scale ∧ ∀ i (h : i < n), (x.values[i]).toBits = (y.values[i]).toBits := by
  have tokens : bundleTokens a = bundleTokens b := by
    rw [← (lexes_bundle a).scan_eq, h, (lexes_bundle b).scan_eq]
  unfold bundleTokens at tokens
  simp only [List.cons.injEq, true_and, List.append_cancel_right_eq] at tokens
  have length (m : Bundle Float n) : ∀ ts ∈ m.toList.map memberTokens, ts.length = 16 + (n * 2 - 1) := by
    simp only [List.forall_mem_map]
    exact fun e _ => length_memberTokens e
  have members := intercalate_injective (by omega) (length a) (length b) tokens
  obtain rfl : a = b := Bundle.ext <| NameMap.ext <| map_injective_of_mem
    (fun e he e' he' => memberTokens_injective (a.named e he) (b.named e' he') (ha.of_mem he)
      (hb.of_mem he')) members
  refine ⟨rfl, rfl, fun name x y hx hy => ?_⟩
  obtain rfl := Option.some.inj (hx.symm.trans hy)
  exact ⟨rfl, fun i h => rfl⟩

/-- Names that need escapes, given in two orders, over zeros of either sign. -/
theorem writeBundle_injective_of_signed_zeros :
    let zeros : Operand Float 2 := ⟨"\"\\", ⟨#v[0.0, -0.0]⟩, Scale.ofNat 3⟩
    let ones : Operand Float 2 := ⟨"\n", ⟨#v[1.0, -1.0]⟩, Scale.ofNat 3⟩
    let a : Bundle Float 2 := (Bundle.set ∅ zeros).set ones
    let b : Bundle Float 2 := (Bundle.set ∅ ones).set zeros
    a.SlotsFinite ∧ b.SlotsFinite ∧ writeBundle "" a = writeBundle "" b ∧ a = b := by
  intro zeros ones a b
  have order : "\n" < "\"\\" ∧ ¬ "\"\\" < "\n" := by decide
  have same : a = b := by
    apply Bundle.ext
    apply NameMap.ext
    change NameMap.put "\n" ones [("\"\\", zeros)] = NameMap.put "\"\\" zeros [("\n", ones)]
    simp only [NameMap.put, if_pos order.1, if_neg order.2]
  have finite : a.SlotsFinite := by
    intro name operand h
    simp only [a, get?_set] at h
    split at h
    · obtain rfl := Option.some.inj h
      decide
    · split at h
      · obtain rfl := Option.some.inj h
        decide
      · cases h
  have text : writeBundle "" a = writeBundle "" b := congrArg _ same
  exact ⟨finite, same ▸ finite, text, (writeBundle_injective finite (same ▸ finite) text).1⟩

end Bundle
end SlotPacking
