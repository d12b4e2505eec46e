import Mathlib.Data.List.Nodup
import SlotPacking.Proofs.BundleGrowth

/-!
The names in a bundle, up to their order. An insertion adds one name and a merge
adds those of the other bundle, so the names of a bundle can be counted off from
how it was put together.
-/
namespace SlotPacking

namespace NameMap
variable {β : Type} {m : NameMap β} {name : String} {x : β}

theorem put_names {es : List (String × β)} (h : name ∉ es.map (·.1)) :
    ((put name x es).map (·.1)).Perm (name :: es.map (·.1)) := by
  induction es with
  | nil => exact .refl _
  | cons e es ih =>
    rw [List.map_cons, List.mem_cons, not_or] at h
    simp only [put]
    split
    next => exact .refl _
    split
    next => exact ((ih h.2).cons e.1).trans (.swap name e.1 _)
    next nlt ngt =>
      exact absurd (String.le_antisymm (String.not_lt.mp ngt) (String.not_lt.mp nlt)) h.1

theorem mem_names : name ∈ m.names ↔ ∃ x, m.get? name = some x := by
  rw [← Option.isSome_iff_exists, ← contains_eq_isSome_get?]
  simp [names, contains]

theorem set_names (h : m.get? name = none) : (m.set name x).names.Perm (name :: m.names) := by
  apply put_names
  intro hm
  obtain ⟨y, hy⟩ := mem_names.mp hm
  simp [h] at hy

theorem put_last {es : List (String × β)} (h : ∀ e ∈ es, e.1 < name) :
    put name x es = es ++ [(name, x)] := by
  induction es with
  | nil => rfl
  | cons e es ih =>
    have hlt : e.1 < name := h e List.mem_cons_self
    rw [put, if_neg (fun hn => String.lt_irrefl _ (String.lt_trans hn hlt)), if_pos hlt,
      ih fun d hd => h d (List.mem_cons_of_mem e hd), List.cons_append]

theorem names_sorted (m : NameMap β) : m.names.Pairwise (· < ·) :=
  List.pairwise_map.mpr m.sorted

/-- Names that agree up to their order are the same. -/
theorem names_eq_of_perm {γ : Type} {m' : NameMap γ} (h : m'.names.Perm m.names) :
    m'.names = m.names :=
  h.eq_of_pairwise (fun _ _ _ _ hab hba => absurd hba (String.lt_asymm hab)) m'.names_sorted
    m.names_sorted

/-- Entries that come in the order of their names are appended. -/
theorem foldl_set_entries {es : List (String × β)}
    (h : ((m.entries ++ es).map (·.1)).Pairwise (· < ·)) :
    (es.foldl (fun m e => m.set e.1 e.2) m).entries = m.entries ++ es := by
  induction es generalizing m with
  | nil => simp
  | cons e es ih =>
    have hlast : (m.set e.1 e.2).entries = m.entries ++ [e] := by
      refine put_last fun d hd => ?_
      rw [List.map_append, List.pairwise_append] at h
      exact h.2.2 _ (List.mem_map_of_mem hd) _ (by simp)
    rw [List.foldl_cons, ih (by simpa [hlast] using h), hlast, List.append_assoc]
    rfl

/-- A map that is filled in the order of the names keeps what it is given. -/
theorem fill_entries {es : List (String × β)} (h : (es.map (·.1)).Pairwise (· < ·)) :
    (es.foldl (fun (m : NameMap β) e => m.set e.1 e.2) ∅).entries = es :=
  foldl_set_entries (m := ∅) h

theorem length_names (m : NameMap β) : m.names.length = m.size := List.length_map _

end NameMap

namespace Bundle
variable {α : Type} {n : Nat} {a b bundle new union : Bundle α n} {operand : Operand α n}

theorem get?_of_mem {e : String × Operand α n} (h : e ∈ bundle.entries) :
    bundle.get? e.1 = some e.2 := by
  obtain ⟨operand, ho⟩ := NameMap.mem_names.mp (List.mem_map_of_mem h : e.1 ∈ bundle.names)
  have same := List.inj_on_of_nodup_map bundle.names_nodup (get?_mem ho) h rfl
  rw [ho, ← same]

theorem get?_name (h : operand ∈ bundle.operands) : bundle.get? operand.name = some operand := by
  obtain ⟨e, he, rfl⟩ := List.mem_map.mp h
  rw [bundle.named e he, get?_of_mem he]

/-- A name finds the operand of that name. -/
theorem get?_eq_some {name : String} :
    bundle.get? name = some operand ↔ operand ∈ bundle.operands ∧ operand.name = name :=
  ⟨get?_operand, fun ⟨h, hname⟩ => hname ▸ get?_name h⟩

/-- Bundles in which every name finds the same are equal. -/
theorem ext_get? (h : ∀ name, a.get? name = b.get? name) : a = b := by
  have mem (e : String × Operand α n) : e ∈ a.entries ↔ e ∈ b.entries := by
    constructor
    · intro he
      exact get?_mem ((h e.1).symm.trans (get?_of_mem he))
    · intro he
      exact get?_mem ((h e.1).trans (get?_of_mem he))
  have perm : a.entries.Perm b.entries :=
    (List.perm_ext_iff_of_nodup (List.Nodup.of_map _ a.names_nodup)
      (List.Nodup.of_map _ b.names_nodup)).mpr mem
  exact Bundle.ext (NameMap.ext (perm.eq_of_pairwise
    (fun _ _ _ _ hab hba => absurd hba (String.lt_asymm hab)) a.sorted b.sorted))

theorem insert_names (h : bundle.insert operand = .ok new) :
    new.names.Perm (operand.name :: bundle.names) := by
  obtain ⟨hfree, rfl⟩ := insert_eq_ok h
  exact NameMap.set_names hfree

theorem insertAll_names {operands : List (Operand α n)}
    (h : bundle.insertAll operands = (new, none)) :
    new.names.Perm (bundle.names ++ operands.map (·.name)) := by
  induction operands generalizing bundle with
  | nil =>
    obtain rfl : bundle = new := congrArg Prod.fst h
    simp
  | cons e rest ih =>
    simp only [insertAll] at h
    split at h
    next next hnext =>
      refine (ih h).trans (((insert_names hnext).append_right _).trans ?_)
      exact List.perm_middle.symm
    next => cases h

/-- Insertions add nothing but what they are given. -/
theorem mem_insertAll {operands : List (Operand α n)}
    (h : operand ∈ (bundle.insertAll operands).1.operands) :
    operand ∈ bundle.operands ∨ operand ∈ operands := by
  induction operands generalizing bundle with
  | nil => exact .inl h
  | cons d rest ih =>
    simp only [insertAll] at h
    split at h
    next new hnew =>
      obtain ⟨-, rfl⟩ := insert_eq_ok hnew
      rcases ih h with hset | hrest
      · obtain ⟨e, he, rfl⟩ := List.mem_map.mp hset
        rcases NameMap.mem_put he with rfl | hold
        · exact .inr List.mem_cons_self
        · exact .inl (List.mem_map_of_mem hold)
      · exact .inr (List.mem_cons_of_mem d hrest)
    next => exact .inl h

/-- After insertions that succeed, a name finds what it found before or what was inserted. -/
theorem insertAll_get? {operands : List (Operand α n)}
    (h : bundle.insertAll operands = (new, none)) {name : String} :
    new.get? name = some operand ↔
      bundle.get? name = some operand ∨ operand ∈ operands ∧ operand.name = name := by
  have hnew : (bundle.insertAll operands).1 = new := congrArg Prod.fst h
  constructor
  · intro hn
    obtain ⟨hmem, rfl⟩ := get?_operand hn
    rw [← hnew] at hmem
    exact (mem_insertAll hmem).imp get?_name fun hin => ⟨hin, rfl⟩
  · rintro (hold | ⟨hin, rfl⟩)
    · exact hnew ▸ insertAll_extends operands bundle name operand hold
    · exact hnew ▸ insertAll_stores (congrArg Prod.snd h) _ hin

/-- A merge brings the names of both bundles together. -/
theorem merge_names (h : a.merge b = .ok union) : union.names.Perm (a.names ++ b.names) := by
  rw [← b.operands_names]
  exact insertAll_names (merge_eq_ok h)

end Bundle
end SlotPacking
