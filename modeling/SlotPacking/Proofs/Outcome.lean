import SlotPacking.Error
import Mathlib.Data.List.Forall2

/-!
Reasoning about steps that may fail. A sequence gives a value when each of its
steps does, a traversal when it does at every element, and a fold that gives a
state keeps what each of its steps keeps.
-/
namespace SlotPacking.Result
variable {α β σ γ : Type}

theorem bind_eq_ok {ε : Type} {x : Except ε α} {f : α → Except ε β} {b : β} :
    x >>= f = .ok b ↔ ∃ a, x = .ok a ∧ f a = .ok b := by
  cases x <;> simp [bind, Except.bind]

theorem bind_eq_error {ε : Type} {x : Except ε α} {f : α → Except ε β} {e : ε} :
    x >>= f = .error e ↔ x = .error e ∨ ∃ a, x = .ok a ∧ f a = .error e := by
  cases x <;> simp [bind, Except.bind]

@[simp] theorem ok_bind (a : α) (f : α → Result β) : (Except.ok a : Result α) >>= f = f a := rfl

@[simp] theorem error_bind (e : Failure) (f : α → Result β) :
    (Except.error e : Result α) >>= f = .error e := rfl

@[simp] theorem pure_eq_ok (a : α) : (pure a : Result α) = .ok a := rfl

theorem map_eq_ok {x : Result α} {f : α → β} {b : β} :
    x.map f = .ok b ↔ ∃ a, x = .ok a ∧ f a = b := by
  cases x <;> simp [Except.map]

theorem map_eq_error {x : Result α} {f : α → β} {e : Failure} :
    x.map f = .error e ↔ x = .error e := by
  cases x <;> simp [Except.map]

/-- How a step ends is all that a step which ignores its value learns from it. -/
theorem bind_const_congr {β' : Type} {x : Result α} {y : Result β'} {z : Result γ}
    (h : x.map (fun _ => ()) = y.map (fun _ => ())) :
    (x >>= fun _ => z) = (y >>= fun _ => z) := by
  cases x with
  | ok a =>
    cases y with
    | ok b => rfl
    | error e => cases h
  | error e =>
    rw [error_bind, map_eq_error.mp h.symm, error_bind]

@[simp] theorem reject_ne_ok (e : PackError) (a : α) : reject e ≠ .ok a := nofun

@[simp] theorem rejectShape_ne_ok (e : ShapeError) (a : α) : rejectShape e ≠ .ok a := nofun

@[simp] theorem faulty_ne_ok (e : Fault) (a : α) : faulty e ≠ .ok a := nofun

theorem mapM_eq_ok {f : α → Result β} {l : List α} {ys : List β} :
    l.mapM f = .ok ys ↔ List.Forall₂ (fun a b => f a = .ok b) l ys := by
  induction l generalizing ys with
  | nil => simp [eq_comm]
  | cons a l ih =>
    simp only [List.mapM_cons, bind_eq_ok, ih, pure_eq_ok, Except.ok.injEq,
      List.forall₂_cons_left_iff]
    constructor
    · rintro ⟨b, hb, bs, hbs, rfl⟩
      exact ⟨b, bs, hb, hbs, rfl⟩
    · rintro ⟨b, bs, hb, hbs, rfl⟩
      exact ⟨b, hb, bs, hbs, rfl⟩

/-- A traversal gives exactly what its step gives at some element. -/
theorem mem_mapM_eq_ok {f : α → Result β} {l : List α} {ys : List β} (h : l.mapM f = .ok ys)
    {b : β} : b ∈ ys ↔ ∃ a ∈ l, f a = .ok b := by
  induction mapM_eq_ok.mp h with
  | nil => simp
  | @cons a c l ys hac hly ih =>
    rw [List.mem_cons, ih (mapM_eq_ok.mpr hly), List.exists_mem_cons_iff, hac, Except.ok.injEq,
      eq_comm]

theorem mapM_eq_ok_map {f : α → Result β} {g : α → β} {l : List α}
    (h : ∀ a ∈ l, f a = .ok (g a)) : l.mapM f = .ok (l.map g) := by
  rw [mapM_eq_ok, List.forall₂_map_right_iff, List.forall₂_same]
  exact h

theorem mapM_succeeds {f : α → Result β} {l : List α} (h : ∀ a ∈ l, ∃ b, f a = .ok b) :
    ∃ ys, l.mapM f = .ok ys := by
  induction l with
  | nil => exact ⟨[], rfl⟩
  | cons a l ih =>
    obtain ⟨b, hb⟩ := h a List.mem_cons_self
    obtain ⟨ys, hys⟩ := ih fun c hc => h c (List.mem_cons_of_mem a hc)
    exact ⟨b :: ys, by rw [List.mapM_cons, hb, ok_bind, hys, ok_bind, pure_eq_ok]⟩

theorem mapM_range_eq_ok {f : Nat → Result β} {n : Nat} {ys : List β}
    (h : (List.range n).mapM f = .ok ys) :
    ys.length = n ∧ ∀ i (hi : i < ys.length), f i = .ok ys[i] := by
  have hf := mapM_eq_ok.mp h
  have hl : n = ys.length := by simpa using hf.length_eq
  refine ⟨hl.symm, fun i hi => ?_⟩
  simpa using hf.get (by simpa [hl] using hi) hi

theorem mapM_congr {f f' : α → Result β} {l : List α} (h : ∀ a ∈ l, f' a = f a) :
    l.mapM f' = l.mapM f := by
  induction l with
  | nil => rfl
  | cons a l ih =>
    rw [List.mapM_cons, List.mapM_cons, h a List.mem_cons_self,
      ih fun b hb => h b (List.mem_cons_of_mem a hb)]

/-- A traversal whose step fails exactly on the bad elements stops at the first of them. -/
theorem mapM_eq_find? {f : α → Result β} (bad : α → Bool) (failure : α → Failure) (g : α → β)
    (fails : ∀ a, bad a = true → f a = .error (failure a))
    (gives : ∀ a, bad a = false → f a = .ok (g a)) (l : List α) :
    l.mapM f = match l.find? bad with
      | some a => .error (failure a)
      | none => .ok (l.map g) := by
  induction l with
  | nil => rfl
  | cons a l ih =>
    rw [List.mapM_cons]
    cases ha : bad a with
    | true => rw [fails a ha, List.find?_cons_of_pos ha, error_bind]
    | false =>
      rw [gives a ha, ok_bind, ih, List.find?_cons_of_neg (by simp [ha])]
      cases l.find? bad with
      | some b => rfl
      | none => rfl

section Fold
variable {step : σ → α → Result σ} {l : List α} {s t : σ}

/-- What every step keeps holds after the fold. -/
theorem foldlM_keeps (kept : σ → Prop)
    (hstep : ∀ a ∈ l, ∀ s t, kept s → step s a = .ok t → kept t)
    (hs : kept s) (h : l.foldlM step s = .ok t) : kept t := by
  induction l generalizing s with
  | nil =>
    obtain rfl : s = t := by simpa using h
    exact hs
  | cons a l ih =>
    rw [List.foldlM_cons, bind_eq_ok] at h
    obtain ⟨u, hu, h⟩ := h
    exact ih (fun b hb => hstep b (List.mem_cons_of_mem a hb))
      (hstep a List.mem_cons_self s u hs hu) h

/-- A fold whose steps succeed on the states they are given succeeds. -/
theorem foldlM_succeeds (kept : σ → Prop)
    (hstep : ∀ a ∈ l, ∀ s, kept s → ∃ t, step s a = .ok t ∧ kept t)
    (hs : kept s) : ∃ t, l.foldlM step s = .ok t ∧ kept t := by
  induction l generalizing s with
  | nil => exact ⟨s, by simp, hs⟩
  | cons a l ih =>
    obtain ⟨u, hu, hk⟩ := hstep a List.mem_cons_self s hs
    obtain ⟨t, ht, hk⟩ := ih (fun b hb => hstep b (List.mem_cons_of_mem a hb)) hk
    exact ⟨t, by rw [List.foldlM_cons, hu, ok_bind, ht], hk⟩

/-- A fold that fails has taken its steps up to the first that fails. -/
theorem foldlM_eq_error {e : Failure} (h : l.foldlM step s = .error e) : ∃ done a rest reached,
    l = done ++ a :: rest ∧ done.foldlM step s = .ok reached ∧ step reached a = .error e := by
  induction l generalizing s with
  | nil => exact nomatch h
  | cons a l ih =>
    rw [List.foldlM_cons, bind_eq_error] at h
    obtain hfirst | ⟨u, hu, h⟩ := h
    · exact ⟨[], a, l, s, rfl, rfl, hfirst⟩
    · obtain ⟨done, b, rest, reached, rfl, hdone, hb⟩ := ih h
      exact ⟨a :: done, b, rest, reached, rfl, by rw [List.foldlM_cons, hu, ok_bind, hdone], hb⟩

/-- A fold whose steps fail on the bad elements alone, and all in the same way, fails in this way
when there is one. -/
theorem foldlM_of_bad {e : Failure} (kept : σ → Prop) (bad : α → Prop)
    (fails : ∀ a ∈ l, bad a → ∀ s, kept s → step s a = .error e)
    (gives : ∀ a ∈ l, ¬bad a → ∀ s, kept s → ∃ t, step s a = .ok t ∧ kept t)
    (hs : kept s) (h : ∃ a ∈ l, bad a) : l.foldlM step s = .error e := by
  induction l generalizing s with
  | nil => simp at h
  | cons a l ih =>
    rw [List.foldlM_cons]
    by_cases ha : bad a
    · rw [fails a List.mem_cons_self ha s hs, error_bind]
    · obtain ⟨t, ht, hk⟩ := gives a List.mem_cons_self ha s hs
      rw [ht, ok_bind]
      refine ih (fun b hb => fails b (List.mem_cons_of_mem a hb))
        (fun b hb => gives b (List.mem_cons_of_mem a hb)) hk ?_
      exact ((List.exists_mem_cons_iff ..).mp h).resolve_left ha

/-- Elements that leave every state as it is can be left out. -/
theorem foldlM_filter (kept : σ → Prop) (counts : α → Bool)
    (skips : ∀ a ∈ l, counts a = false → ∀ s, kept s → step s a = .ok s)
    (keeps : ∀ a ∈ l, ∀ s t, kept s → step s a = .ok t → kept t) (hs : kept s) :
    (l.filter counts).foldlM step s = l.foldlM step s := by
  induction l generalizing s with
  | nil => rfl
  | cons a l ih =>
    have rest {t : σ} (ht : kept t) : (l.filter counts).foldlM step t = l.foldlM step t :=
      ih (fun b hb => skips b (List.mem_cons_of_mem a hb))
        (fun b hb => keeps b (List.mem_cons_of_mem a hb)) ht
    rw [List.foldlM_cons]
    cases ha : counts a with
    | false =>
      rw [List.filter_cons_of_neg (by simp [ha]), skips a List.mem_cons_self ha s hs, ok_bind,
        rest hs]
    | true =>
      rw [List.filter_cons_of_pos ha, List.foldlM_cons]
      cases hstep : step s a with
      | ok t => rw [ok_bind, ok_bind, rest (keeps a List.mem_cons_self s t hs hstep)]
      | error e => rfl

theorem foldlM_congr {step' : σ → α → Result σ} (h : ∀ a ∈ l, ∀ s, step' s a = step s a) :
    l.foldlM step' s = l.foldlM step s := by
  induction l generalizing s with
  | nil => rfl
  | cons a l ih =>
    rw [List.foldlM_cons, List.foldlM_cons, h a List.mem_cons_self]
    congr 1
    funext t
    exact ih fun b hb => h b (List.mem_cons_of_mem a hb)

/-- The last element of a list that hits an observed place. -/
def lastHit (hits : α → Bool) (l : List α) : Option α := l.reverse.find? hits

/-- An observation that steps either replace or leave alone is decided by the last step that
replaces it. -/
theorem foldlM_observed (kept : σ → Prop) (observe : σ → γ) (hits : α → Bool) (value : α → γ)
    (hstep : ∀ a ∈ l, ∀ s t, kept s → step s a = .ok t →
      kept t ∧ observe t = if hits a then value a else observe s)
    (hs : kept s) (h : l.foldlM step s = .ok t) :
    observe t = ((lastHit hits l).map value).getD (observe s) := by
  induction l generalizing s with
  | nil =>
    obtain rfl : s = t := by simpa using h
    simp [lastHit]
  | cons a l ih =>
    rw [List.foldlM_cons, bind_eq_ok] at h
    obtain ⟨u, hu, h⟩ := h
    obtain ⟨hk, ho⟩ := hstep a List.mem_cons_self s u hs hu
    rw [ih (fun b hb => hstep b (List.mem_cons_of_mem a hb)) hk h, ho]
    simp only [lastHit, List.reverse_cons, List.find?_append]
    cases l.reverse.find? hits with
    | some b => simp
    | none => by_cases ha : hits a <;> simp [ha]

end Fold

theorem lastHit_eq_none {hits : α → Bool} {l : List α} (h : ∀ a ∈ l, hits a = false) :
    lastHit hits l = none := by
  simpa [lastHit] using h

/-- The last hit of a list is one that no element behind it repeats. -/
theorem lastHit_of_split {hits : α → Bool} {before after : List α} {a : α} (hit : hits a = true)
    (last : ∀ b ∈ after, hits b = false) : lastHit hits (before ++ a :: after) = some a := by
  have none_after : after.reverse.find? hits = none := by simpa using last
  simp [lastHit, none_after, hit]

/-- When all elements that hit a place have the value of one of them, the last has it too. -/
theorem lastHit_map {hits : α → Bool} {l : List α} {value : α → γ} {a : α} (ha : a ∈ l)
    (hit : hits a = true) (same : ∀ b ∈ l, hits b = true → value b = value a) :
    (lastHit hits l).map value = some (value a) := by
  cases hf : lastHit hits l with
  | none =>
    have := List.find?_eq_none.mp hf a (List.mem_reverse.mpr ha)
    exact absurd hit this
  | some b =>
    have hb : b ∈ l := List.mem_reverse.mp (List.mem_of_find?_eq_some hf)
    rw [Option.map_some, same b hb (List.find?_some hf)]

end SlotPacking.Result
