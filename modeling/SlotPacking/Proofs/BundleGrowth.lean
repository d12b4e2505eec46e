import SlotPacking.Bundle
import SlotPacking.Proofs.Outcome

/-!
Bundles only grow. Whatever is inserted or merged, and whether it succeeds or
not, an operand that is stored under a name stays stored under it. Insertions
and merges of operands with new names succeed.
-/
namespace SlotPacking.Bundle
variable {α : Type} {n : Nat}

/-- Every operand of the old bundle is in the new one, under the same name. -/
def Extends (old new : Bundle α n) : Prop :=
  ∀ name operand, old.get? name = some operand → new.get? name = some operand

theorem Extends.refl (bundle : Bundle α n) : Extends bundle bundle := fun _ _ h => h

theorem Extends.trans {a b c : Bundle α n} (hab : Extends a b) (hbc : Extends b c) :
    Extends a c :=
  fun name operand h => hbc name operand (hab name operand h)

theorem get?_eq_none_of_contains {bundle : Bundle α n} {name : String}
    (h : bundle.contains name = false) : bundle.get? name = none := by
  simpa [NameMap.contains_eq_isSome_get?] using h

theorem get?_mem {bundle : Bundle α n} {name : String} {operand : Operand α n}
    (h : bundle.get? name = some operand) : (name, operand) ∈ bundle.entries := by
  obtain ⟨e, he, rfl⟩ := Option.map_eq_some_iff.mp h
  obtain rfl : e.1 = name := by simpa using List.find?_some he
  exact List.mem_of_find?_eq_some he

/-- What is found under a name is an operand of that name. -/
theorem get?_operand {bundle : Bundle α n} {name : String} {operand : Operand α n}
    (h : bundle.get? name = some operand) : operand ∈ bundle.operands ∧ operand.name = name :=
  ⟨List.mem_map_of_mem (get?_mem h), bundle.named _ (get?_mem h)⟩

section Insert
variable {bundle new : Bundle α n} {operand : Operand α n}

/-- An insertion that succeeds finds its name free and sets it. -/
theorem insert_eq_ok (h : bundle.insert operand = .ok new) :
    bundle.get? operand.name = none ∧ new = bundle.set operand := by
  cases hc : bundle.contains operand.name with
  | true => simp [insert_of_contains hc] at h
  | false =>
    rw [insert_of_not_contains hc] at h
    exact ⟨get?_eq_none_of_contains hc, (Except.ok.inj h).symm⟩

theorem insert_stores (h : bundle.insert operand = .ok new) :
    new.get? operand.name = some operand := by
  rw [(insert_eq_ok h).2, get?_set, if_pos rfl]

theorem insert_extends (h : bundle.insert operand = .ok new) : Extends bundle new := by
  obtain ⟨hn, rfl⟩ := insert_eq_ok h
  intro other stored ho
  have hne : operand.name ≠ other := by
    rintro rfl
    rw [hn] at ho
    cases ho
  rw [get?_set, if_neg hne, ho]

end Insert

theorem insertAll_extends (operands : List (Operand α n)) (bundle : Bundle α n) :
    Extends bundle (bundle.insertAll operands).1 := by
  induction operands generalizing bundle with
  | nil => exact .refl bundle
  | cons e rest ih =>
    simp only [insertAll]
    split
    next new h => exact (insert_extends h).trans (ih new)
    next => exact .refl bundle

theorem insertAll_stores {operands : List (Operand α n)} {bundle : Bundle α n}
    (h : (bundle.insertAll operands).2 = none) :
    ∀ e ∈ operands, (bundle.insertAll operands).1.get? e.name = some e := by
  induction operands generalizing bundle with
  | nil => simp
  | cons d rest ih =>
    simp only [insertAll] at h ⊢
    split at h
    next new hd =>
      intro e he
      rcases List.mem_cons.mp he with rfl | he
      · exact insertAll_extends rest new _ _ (insert_stores hd)
      · exact ih h e he
    next => cases h

theorem insertAll_append {before after : List (Operand α n)} {bundle mid : Bundle α n}
    (h : bundle.insertAll before = (mid, none)) :
    bundle.insertAll (before ++ after) = mid.insertAll after := by
  induction before generalizing bundle with
  | nil =>
    obtain rfl : bundle = mid := congrArg Prod.fst h
    rfl
  | cons d rest ih =>
    simp only [List.cons_append, insertAll] at h ⊢
    split at h
    next new hd => exact ih h
    next => cases h

/-- Insertions stop at the first name that is taken; what comes before it is in, and nothing else. -/
theorem insertAll_stops {before after : List (Operand α n)} {e : Operand α n}
    {bundle mid : Bundle α n} (h : bundle.insertAll before = (mid, none))
    (taken : mid.contains e.name = true) : bundle.insertAll (before ++ e :: after) =
      (mid, some (.rejected (.duplicateOperand e.name))) := by
  rw [insertAll_append h, insertAll, insert_of_contains taken]
  rfl

/-- What is left of a run of insertions: the bundle, unless a name was taken. -/
def outcome : Bundle α n × Option Failure → Result (Bundle α n)
  | (bundle, none) => .ok bundle
  | (_, some e) => .error e

theorem outcome_eq_ok {r : Bundle α n × Option Failure} {bundle : Bundle α n}
    (h : outcome r = .ok bundle) : r = (bundle, none) := by
  obtain ⟨b, e⟩ := r
  cases e with
  | none => rw [Except.ok.inj h]
  | some => cases h

theorem outcome_of_none {r : Bundle α n × Option Failure} (h : r.2 = none) :
    outcome r = .ok r.1 := by
  obtain ⟨b, e⟩ := r
  obtain rfl : e = none := h
  rfl

theorem outcome_of_some {r : Bundle α n × Option Failure} {e : Failure} (h : r.2 = some e) :
    outcome r = .error e := by
  obtain ⟨b, e'⟩ := r
  obtain rfl : e' = some e := h
  rfl

/-- A fold whose steps insert one operand each is a run of insertions. -/
theorem foldlM_insert {β : Type} {step : Bundle α n → β → Result (Bundle α n)}
    {operand : β → Operand α n} {l : List β}
    (h : ∀ a ∈ l, ∀ b, step b a = b.insert (operand a)) (bundle : Bundle α n) :
    l.foldlM step bundle = outcome (bundle.insertAll (l.map operand)) := by
  induction l generalizing bundle with
  | nil => rfl
  | cons a l ih =>
    rw [List.foldlM_cons, h a List.mem_cons_self, List.map_cons, insertAll]
    cases hi : bundle.insert (operand a) with
    | error e => rfl
    | ok new => exact ih (fun b hb => h b (List.mem_cons_of_mem a hb)) new

/-- As `foldlM_insert`, for steps of which only the successful ones need to insert. -/
theorem foldlM_inserts {β : Type} {step : Bundle α n → β → Result (Bundle α n)}
    {operand : β → Operand α n} {l : List β} {bundle new : Bundle α n}
    (hstep : ∀ c ∈ l, ∀ s t, step s c = .ok t → s.insert (operand c) = .ok t)
    (h : l.foldlM step bundle = .ok new) : bundle.insertAll (l.map operand) = (new, none) := by
  induction l generalizing bundle with
  | nil =>
    obtain rfl : bundle = new := by simpa using h
    rfl
  | cons c l ih =>
    rw [List.foldlM_cons, Result.bind_eq_ok] at h
    obtain ⟨next, hnext, h⟩ := h
    simp only [List.map_cons, insertAll, hstep c List.mem_cons_self _ _ hnext]
    exact ih (fun d hd => hstep d (List.mem_cons_of_mem c hd)) h

section Names
variable {p q : String → Prop} {bundle new : Bundle α n}

/-- All names of the bundle have a property. -/
def NamedBy (bundle : Bundle α n) (p : String → Prop) : Prop :=
  ∀ name operand, bundle.get? name = some operand → p name

theorem NamedBy.mono (h : NamedBy bundle p) (hpq : ∀ name, p name → q name) : NamedBy bundle q :=
  fun name operand ho => hpq name (h name operand ho)

theorem namedBy_empty : NamedBy (∅ : Bundle α n) p := by
  intro name operand h
  cases h

theorem NamedBy.get?_eq_none (h : NamedBy bundle p) {name : String} (hn : ¬p name) :
    bundle.get? name = none := by
  cases hg : bundle.get? name with
  | none => rfl
  | some operand => exact absurd (h name operand hg) hn

theorem NamedBy.of_mem (h : NamedBy bundle p) {operand : Operand α n}
    (ho : operand ∈ bundle.operands) : p operand.name := by
  obtain ⟨e, he, rfl⟩ := List.mem_map.mp ho
  rw [bundle.named e he]
  cases hg : bundle.get? e.1 with
  | none =>
    have := List.find?_eq_none.mp (Option.map_eq_none_iff.mp hg) e he
    simp at this
  | some operand => exact h _ _ hg

theorem insert_namedBy {operand : Operand α n} (h : bundle.insert operand = .ok new)
    (hb : NamedBy bundle p) (hn : p operand.name) : NamedBy new p := by
  obtain ⟨-, rfl⟩ := insert_eq_ok h
  intro other stored ho
  rw [get?_set] at ho
  split at ho
  next he => exact he ▸ hn
  next => exact hb other stored ho

theorem insertAll_namedBy {operands : List (Operand α n)} (hb : NamedBy bundle p)
    (he : ∀ e ∈ operands, p e.name) : NamedBy (bundle.insertAll operands).1 p := by
  induction operands generalizing bundle with
  | nil => exact hb
  | cons d rest ih =>
    simp only [insertAll]
    split
    next new h =>
      exact ih (insert_namedBy h hb (he d List.mem_cons_self))
        fun e hr => he e (List.mem_cons_of_mem d hr)
    next => exact hb

theorem insert_succeeds {operand : Operand α n} (h : bundle.get? operand.name = none) :
    bundle.insert operand = .ok (bundle.set operand) := by
  apply insert_of_not_contains
  rw [NameMap.contains_eq_isSome_get?, h]
  rfl

/-- Operands with distinct new names are all inserted. -/
theorem insertAll_succeeds {operands : List (Operand α n)}
    (distinct : (operands.map (·.name)).Nodup)
    (fresh : ∀ e ∈ operands, bundle.get? e.name = none) :
    (bundle.insertAll operands).2 = none := by
  induction operands generalizing bundle with
  | nil => rfl
  | cons d rest ih =>
    rw [List.map_cons, List.nodup_cons] at distinct
    rw [insertAll, insert_succeeds (fresh d List.mem_cons_self)]
    apply ih distinct.2
    intro e he
    have hne : d.name ≠ e.name := fun h => distinct.1 (List.mem_map.mpr ⟨e, he, h.symm⟩)
    rw [get?_set, if_neg hne, fresh e (List.mem_cons_of_mem d he)]

end Names

section Merge
variable {a b union : Bundle α n} {p q : String → Prop}

theorem merge_eq_outcome : a.merge b = outcome (a.insertAll b.operands) := by
  rw [merge, absorb]
  rfl

theorem merge_eq_ok (h : a.merge b = .ok union) : a.insertAll b.operands = (union, none) :=
  outcome_eq_ok (merge_eq_outcome.symm.trans h)

theorem extends_merge_left (h : a.merge b = .ok union) : Extends a union := by
  have := insertAll_extends b.operands a
  rwa [merge_eq_ok h] at this

theorem extends_merge_right (h : a.merge b = .ok union) : Extends b union := by
  have hu := merge_eq_ok h
  intro name operand hb
  obtain ⟨hmem, rfl⟩ := get?_operand hb
  have := insertAll_stores (congrArg Prod.snd hu) _ hmem
  rwa [hu] at this

theorem merge_namedBy (h : a.merge b = .ok union) (ha : NamedBy a p) (hb : NamedBy b p) :
    NamedBy union p := by
  have := insertAll_namedBy ha fun e he => hb.of_mem he
  rwa [merge_eq_ok h] at this

theorem operands_names (bundle : Bundle α n) : bundle.operands.map (·.name) = bundle.names := by
  rw [operands, List.map_map]
  exact List.map_congr_left bundle.named

theorem names_nodup (bundle : Bundle α n) : bundle.names.Nodup := by
  rw [NameMap.names, List.Nodup, List.pairwise_map]
  refine bundle.sorted.imp fun {d e} h he => ?_
  rw [he] at h
  exact String.lt_irrefl _ h

/-- Bundles without a common name are merged. -/
theorem merge_succeeds (ha : NamedBy a p) (hb : NamedBy b q) (disjoint : ∀ name, p name → ¬q name) :
    ∃ union, a.merge b = .ok union := by
  have fresh : ∀ e ∈ b.operands, a.get? e.name = none := fun e he =>
    ha.get?_eq_none fun hp => disjoint e.name hp (hb.of_mem he)
  have hm := insertAll_succeeds (b.operands_names ▸ b.names_nodup) fresh
  exact ⟨_, merge_eq_outcome.trans (outcome_of_none hm)⟩

end Merge
end SlotPacking.Bundle
