import SlotPacking.Proofs.BundleNames
import SlotPacking.Proofs.ByteOrder

/-!
Merges of bundles. Two bundles without a common name are united. Otherwise the
least common name stops the merge, after the operands with smaller names, so
both orders of two bundles end alike. Bundles of which no two share a name are
united in every order.
-/
namespace SlotPacking.Bundle
open Result
variable {α : Type} {n : Nat} {a b new bundle : Bundle α n} {d : String}

/-- The bundles have no common name. -/
def Apart (a b : Bundle α n) : Prop := ∀ name ∈ a.names, name ∉ b.names

instance : Decidable (Apart a b) := inferInstanceAs (Decidable (∀ name ∈ a.names, name ∉ b.names))

theorem Apart.symm (h : Apart a b) : Apart b a := fun name hb ha => h name ha hb

theorem Apart.get?_eq_none (h : Apart a b) {name : String} {operand : Operand α n}
    (hb : b.get? name = some operand) : a.get? name = none := by
  cases ha : a.get? name with
  | none => rfl
  | some other => exact absurd (NameMap.mem_names.mpr ⟨_, hb⟩) (h _ (NameMap.mem_names.mpr ⟨_, ha⟩))

/-- The least name that two bundles have in common. -/
structure Conflict (a b : Bundle α n) (d : String) : Prop where
  left : d ∈ a.names
  right : d ∈ b.names
  least : ∀ name ∈ a.names, name ∈ b.names → ¬name < d

theorem Conflict.symm (h : Conflict a b d) : Conflict b a d :=
  ⟨h.right, h.left, fun name hb ha => h.least name ha hb⟩

theorem exists_conflict (h : ¬Apart a b) : ∃ d, Conflict a b d := by
  have sorted : (a.names.filter (· ∈ b.names)).Pairwise (· < ·) := a.names_sorted.filter _
  -- The common names increase, so the first of them is the least.
  cases hc : a.names.filter (· ∈ b.names) with
  | nil =>
    refine absurd (fun name ha hb => ?_) h
    have : name ∈ a.names.filter (· ∈ b.names) := List.mem_filter.mpr ⟨ha, by simpa using hb⟩
    simp [hc] at this
  | cons d rest =>
    rw [hc, List.pairwise_cons] at sorted
    have common (name : String) : name ∈ d :: rest ↔ name ∈ a.names ∧ name ∈ b.names := by
      rw [← hc, List.mem_filter, decide_eq_true_iff]
    obtain ⟨ha, hb⟩ := (common d).mp List.mem_cons_self
    refine ⟨d, ha, hb, fun name hna hnb hlt => ?_⟩
    rcases List.mem_cons.mp ((common name).mpr ⟨hna, hnb⟩) with rfl | hrest
    · exact String.lt_irrefl _ hlt
    · exact String.lt_asymm hlt (sorted.1 name hrest)

section Absorb

/-- Insertions that find all their names free add what they insert. -/
theorem insertAll_or {operands : List (Operand α n)} {found : String → Option (Operand α n)}
    (h : bundle.insertAll operands = (new, none))
    (fresh : ∀ e ∈ operands, bundle.get? e.name = none)
    (hfound : ∀ name operand, found name = some operand ↔ operand ∈ operands ∧ operand.name = name)
    (name : String) : new.get? name = (bundle.get? name).or (found name) := by
  ext operand
  rw [insertAll_get? h, Option.or_eq_some_iff, hfound]
  constructor
  · exact Or.imp_right fun hin => ⟨hin.2 ▸ fresh _ hin.1, hin⟩
  · exact Or.imp_right And.right

/-- Bundles without a common name are united. -/
theorem absorb_of_apart (h : Apart a b) : ∃ union, a.absorb b = (union, none) ∧
    ∀ name, union.get? name = (a.get? name).or (b.get? name) := by
  have fresh : ∀ e ∈ b.operands, a.get? e.name = none := fun e he => h.get?_eq_none (get?_name he)
  have hunion : a.absorb b = ((a.absorb b).1, none) :=
    Prod.ext rfl (insertAll_succeeds (b.operands_names ▸ b.names_nodup) fresh)
  exact ⟨_, hunion, insertAll_or hunion fresh fun _ _ => get?_eq_some⟩

theorem operands_sorted (b : Bundle α n) : b.operands.Pairwise (·.name < ·.name) :=
  List.pairwise_map.mp (b.operands_names ▸ b.names_sorted)

/-- The operands of a sorted bundle that come before a name are those of smaller names. -/
theorem mem_before {before after : List (Operand α n)} {e : Operand α n}
    (h : b.operands = before ++ e :: after) (name : String) (operand : Operand α n) :
    (if name < e.name then b.get? name else none) = some operand ↔
      operand ∈ before ∧ operand.name = name := by
  have sorted := b.operands_sorted
  rw [h, List.pairwise_append, List.pairwise_cons] at sorted
  obtain ⟨-, ⟨hafter, -⟩, hbefore⟩ := sorted
  rw [Option.ite_none_right_eq_some, get?_eq_some, h, List.mem_append, List.mem_cons]
  constructor
  · rintro ⟨hlt, hin | rfl | hin, rfl⟩
    · exact ⟨hin, rfl⟩
    · exact absurd hlt (String.lt_irrefl _)
    · exact absurd hlt (String.lt_asymm (hafter _ hin))
  · rintro ⟨hin, rfl⟩
    exact ⟨hbefore _ hin _ List.mem_cons_self, .inl hin, rfl⟩

/-- The least common name stops a merge, with the operands of smaller names in. -/
theorem absorb_of_conflict (h : Conflict a b d) :
    ∃ left, a.absorb b = (left, some (.rejected (.duplicateOperand d))) ∧
      ∀ name, left.get? name = (a.get? name).or (if name < d then b.get? name else none) := by
  obtain ⟨e, hmem, rfl⟩ := List.mem_map.mp (b.operands_names ▸ h.right)
  obtain ⟨before, after, hoperands⟩ := List.append_of_mem hmem
  have fresh : ∀ c ∈ before, a.get? c.name = none := by
    intro c hc
    obtain ⟨hlt, hb⟩ :=
      Option.ite_none_right_eq_some.mp ((mem_before hoperands c.name c).mpr ⟨hc, rfl⟩)
    cases ha : a.get? c.name with
    | none => rfl
    | some x =>
      exact absurd hlt (h.least _ (NameMap.mem_names.mpr ⟨x, ha⟩) (NameMap.mem_names.mpr ⟨_, hb⟩))
  have distinct : (before.map (·.name)).Nodup := by
    have := b.names_nodup
    rw [← b.operands_names, hoperands, List.map_append] at this
    exact this.of_append_left
  have hbefore : a.insertAll before = ((a.insertAll before).1, none) :=
    Prod.ext rfl (insertAll_succeeds distinct fresh)
  have taken : (a.insertAll before).1.contains e.name = true := by
    obtain ⟨x, hx⟩ := NameMap.mem_names.mp h.left
    rw [NameMap.contains_eq_isSome_get?, insertAll_extends before a _ _ hx]
    rfl
  refine ⟨_, ?_, insertAll_or hbefore fresh (mem_before hoperands)⟩
  rw [absorb, hoperands, insertAll_stops hbefore taken]

end Absorb

section Merge

theorem merge_of_absorb {failure : Failure} (h : a.absorb b = (new, some failure)) :
    a.merge b = .error failure := by
  rw [merge, h]

theorem merge_of_apart (h : Apart a b) : ∃ union, a.merge b = .ok union ∧
    ∀ name, union.get? name = (a.get? name).or (b.get? name) := by
  obtain ⟨union, hunion, lookup⟩ := absorb_of_apart h
  exact ⟨union, by rw [merge, hunion], lookup⟩

/-- Both orders of a merge end in one bundle or with one name. -/
theorem merge_comm (a b : Bundle α n) : a.merge b = b.merge a := by
  by_cases h : Apart a b
  · obtain ⟨union, hunion, lookup⟩ := merge_of_apart h
    obtain ⟨union', hunion', lookup'⟩ := merge_of_apart h.symm
    have same : union = union' := by
      refine ext_get? fun name => ?_
      rw [lookup, lookup']
      cases hb : b.get? name with
      | none => simp
      | some operand => simp [h.get?_eq_none hb]
    rw [hunion, hunion', same]
  · obtain ⟨d, hd⟩ := exists_conflict h
    obtain ⟨_, hleft, -⟩ := absorb_of_conflict hd
    obtain ⟨_, hright, -⟩ := absorb_of_conflict hd.symm
    rw [merge_of_absorb hleft, merge_of_absorb hright]

/-- Bundles of which no two share a name are merged into what is there, and each name finds what it
finds in one of them. -/
theorem exists_mergeAll {bundles : List (Bundle α n)} (h : bundles.Pairwise Apart)
    (hbundle : ∀ b ∈ bundles, Apart bundle b) :
    ∃ union, bundles.foldlM merge bundle = .ok union ∧ ∀ name operand,
      union.get? name = some operand ↔
        bundle.get? name = some operand ∨ ∃ b ∈ bundles, b.get? name = some operand := by
  induction bundles generalizing bundle with
  | nil => exact ⟨bundle, rfl, by simp⟩
  | cons b rest ih =>
    rw [List.pairwise_cons] at h
    obtain ⟨new, hnew, lookup⟩ := merge_of_apart (hbundle b List.mem_cons_self)
    have holds (name : String) (operand : Operand α n) : new.get? name = some operand ↔
        bundle.get? name = some operand ∨ b.get? name = some operand := by
      rw [lookup, Option.or_eq_some_iff]
      exact or_congr_right ⟨And.right, fun hb =>
        ⟨(hbundle b List.mem_cons_self).get?_eq_none hb, hb⟩⟩
    have apart : ∀ c ∈ rest, Apart new c := by
      intro c hc name hn
      obtain ⟨operand, ho⟩ := NameMap.mem_names.mp hn
      rcases (holds name operand).mp ho with hold | hb
      · exact hbundle c (List.mem_cons_of_mem b hc) name (NameMap.mem_names.mpr ⟨_, hold⟩)
      · exact h.1 c hc name (NameMap.mem_names.mpr ⟨_, hb⟩)
    obtain ⟨union, hunion, found⟩ := ih h.2 apart
    refine ⟨union, by rw [List.foldlM_cons, hnew, ok_bind, hunion], fun name operand => ?_⟩
    rw [found, holds, or_assoc, List.exists_mem_cons_iff]

/-- Bundles of which no two share a name are united in every order. -/
theorem mergeAll_perm {bundles order : List (Bundle α n)} (h : bundles.Pairwise Apart)
    (hp : order.Perm bundles) : ∃ union : Bundle α n,
      bundles.foldlM merge ∅ = .ok union ∧ order.foldlM merge ∅ = .ok union := by
  have start (b : Bundle α n) : Apart ∅ b := fun _ h => absurd h List.not_mem_nil
  obtain ⟨union, hunion, found⟩ := exists_mergeAll h fun b _ => start b
  obtain ⟨union', hunion', found'⟩ :=
    exists_mergeAll ((hp.pairwise_iff Apart.symm).mpr h) fun b _ => start b
  have same : union = union' := by
    refine ext_get? fun name => Option.ext fun operand => ?_
    rw [found, found']
    simp only [hp.mem_iff]
  exact ⟨union, hunion, same ▸ hunion'⟩

/-- A merge unites bundles without a common name. Otherwise it reports the common name whose bytes
come first, and only the operands with smaller names are in. The order of two bundles makes no
difference to either, and that of many bundles without common names makes none to their union. -/
theorem absorb_outcome (a b : Bundle α n) :
    (if Apart a b then
      ∃ union, a.absorb b = (union, none) ∧ a.merge b = .ok union ∧
        ∀ name, union.get? name = (a.get? name).or (b.get? name)
    else
      ∃ d ∈ a.names, d ∈ b.names ∧
        (∀ name ∈ a.names, name ∈ b.names → ¬utf8Bytes name < utf8Bytes d) ∧
        ∃ left, a.absorb b = (left, some (.rejected (.duplicateOperand d))) ∧
          a.merge b = reject (.duplicateOperand d) ∧
          ∀ name, left.get? name =
            (a.get? name).or (if utf8Bytes name < utf8Bytes d then b.get? name else none)) ∧
    a.merge b = b.merge a ∧
    ∀ bundles order : List (Bundle α n), bundles.Pairwise Apart → order.Perm bundles →
      ∃ union : Bundle α n,
        bundles.foldlM merge ∅ = .ok union ∧ order.foldlM merge ∅ = .ok union := by
  refine ⟨?_, merge_comm a b, fun _ _ => mergeAll_perm⟩
  simp only [utf8Bytes_lt_iff]
  split
  next h =>
    obtain ⟨union, hunion, lookup⟩ := absorb_of_apart h
    exact ⟨union, hunion, by rw [merge, hunion], lookup⟩
  next h =>
    obtain ⟨d, hd⟩ := exists_conflict h
    obtain ⟨left, hleft, lookup⟩ := absorb_of_conflict hd
    exact ⟨d, hd.left, hd.right, hd.least, left, hleft, merge_of_absorb hleft, lookup⟩

/-- A name that ends in more digits may come first: of the second bundle, `w_0_16` is merged and
`z` is not. -/
theorem absorb_outcome_of_shared_weight :
    let old (name : String) : Operand Nat 1 := ⟨name, ⟨#v[1]⟩, .ofNat 3⟩
    let new (name : String) : Operand Nat 1 := ⟨name, ⟨#v[2]⟩, .ofNat 5⟩
    let a : Bundle Nat 1 := (Bundle.set ∅ (old "b")).set (old "w_0_8")
    let b : Bundle Nat 1 := ((Bundle.set ∅ (new "z")).set (new "w_0_8")).set (new "w_0_16")
    ∃ left, a.absorb b = (left, some (.rejected (.duplicateOperand "w_0_8"))) ∧
      left.get? "w_0_16" = some (new "w_0_16") ∧ left.get? "w_0_8" = some (old "w_0_8") ∧
      left.get? "z" = none ∧
      b.merge a = reject (.duplicateOperand "w_0_8") := by
  intro old new a b
  obtain ⟨parts, comm, -⟩ := absorb_outcome a b
  have ha : a.names = ["b", "w_0_8"] := by decide +kernel
  have hb : b.names = ["w_0_16", "w_0_8", "z"] := by decide +kernel
  rw [if_neg (by decide +kernel)] at parts
  obtain ⟨d, hda, hdb, -, left, hleft, hmerge, lookup⟩ := parts
  obtain rfl : d = "w_0_8" := by
    simp only [ha, hb, List.mem_cons, List.not_mem_nil, or_false] at hda hdb
    rcases hda with rfl | rfl
    · simp at hdb
    · rfl
  simp only [utf8Bytes_lt_iff] at lookup
  have before : "w_0_16" < "w_0_8" := by decide +kernel
  have behind : ¬"z" < "w_0_8" := by decide +kernel
  refine ⟨left, hleft, ?_, ?_, ?_, comm.symm.trans hmerge⟩
  · simp [lookup, before, a, b, old, new, get?_set]
  · simp [lookup, a, old, get?_set]
  · simp [lookup, behind, a, old, get?_set]

end Merge
end SlotPacking.Bundle
