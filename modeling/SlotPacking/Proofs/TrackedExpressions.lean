import Mathlib.Tactic.NormNum
import SlotPacking.Proofs.ScaleValues

/-!
Tracking scale and level through whole circuits. An expression can be read in
three ways: on the metadata of its leaves, on their plain values, and on the
encodings, which are the plain values times their scales. When the first reading
is accepted, its scale is what the third reading carries on top of the second.
-/
namespace SlotPacking
open Result

namespace Metadata
variable {a b : Metadata} {chain : PrimeChain} {failure : Failure}

theorem multiply_eq_error (h : a.multiply b = .error failure) :
    a.level ≠ b.level ∧ failure = .rejected (.levelMismatch a.level b.level) := by
  unfold multiply at h
  split at h
  next => cases h
  next hl => exact ⟨hl, (Except.error.inj h).symm⟩

theorem add_eq_error (h : a.add b = .error failure) :
    (a.level ≠ b.level ∧ failure = .rejected (.levelMismatch a.level b.level)) ∨
      (a.level = b.level ∧ a.scale ≠ b.scale ∧
        failure = .rejected (.scaleMismatch a.scale b.scale)) := by
  unfold add at h
  split at h
  next hl =>
    split at h
    next => cases h
    next hs => exact .inr ⟨hl, mt beq_iff_eq.mpr hs, (Except.error.inj h).symm⟩
  next hl => exact .inl ⟨hl, (Except.error.inj h).symm⟩

theorem rescale_at_one (h : a.level = 1) : a.rescale chain = reject (.invalidLevel 0) := by
  rw [rescale, if_pos h]

theorem rescale_beyond (h1 : a.level ≠ 1) (h : chain.length < a.level) :
    a.rescale chain = reject (.levelOutOfRange a.level chain.length) := by
  rw [rescale, if_neg h1, PrimeChain.atLevel_beyond h]
  rfl

/-- Over moduli that can be divided by, a rescale stops only for want of a level or a modulus. -/
theorem rescale_eq_error (hc : chain.Nonzero) (h : a.rescale chain = .error failure) :
    (a.level = 1 ∧ failure = .rejected (.invalidLevel 0)) ∨
      (a.level ≠ 1 ∧ chain.length < a.level ∧
        failure = .rejected (.levelOutOfRange a.level chain.length)) := by
  by_cases h1 : a.level = 1
  · rw [rescale_at_one h1] at h
    exact .inl ⟨h1, (Except.error.inj h).symm⟩
  · by_cases hl : chain.length < a.level
    · rw [rescale_beyond h1 hl] at h
      exact .inr ⟨h1, hl, (Except.error.inj h).symm⟩
    · have := a.level_pos
      obtain ⟨b, hb, -⟩ := rescale_succeeds hc (show 2 ≤ a.level by omega) (by omega)
      rw [hb] at h
      cases h

end Metadata

/-- A circuit over encoded values. A leaf is a plain value with the metadata it is encoded at. -/
inductive Expression where
  | leaf (value : ℚ) (encoding : Metadata)
  | multiply (a b : Expression)
  | add (a b : Expression)
  | rescale (a : Expression)
  | rotate (a : Expression)

namespace Expression
variable {chain : PrimeChain} {a b e : Expression} {m : Metadata}

/-- The metadata of the result, or what the first operation that is refused says. -/
def track (chain : PrimeChain) : Expression → Result Metadata
  | leaf _ encoding => .ok encoding
  | multiply a b => do (← a.track chain).multiply (← b.track chain)
  | add a b => do (← a.track chain).add (← b.track chain)
  | rescale a => do (← a.track chain).rescale chain
  | rotate a => do return (← a.track chain).afterRotation

/-- The value on plain numbers, where rescales and rotations do nothing. -/
def plain : Expression → ℚ
  | leaf value _ => value
  | multiply a b => a.plain * b.plain
  | add a b => a.plain + b.plain
  | rescale a => a.plain
  | rotate a => a.plain

/-- The level that the tracker gives an expression; zero where it gives none. -/
def trackedLevel (chain : PrimeChain) (e : Expression) : Nat :=
  match e.track chain with
  | .ok m => m.level
  | .error _ => 0

/-- The value on encodings. A rescale divides by the modulus of the level of its operand. -/
def encoded (chain : PrimeChain) : Expression → ℚ
  | leaf value encoding => value * encoding.scale.value
  | multiply a b => a.encoded chain * b.encoded chain
  | add a b => a.encoded chain + b.encoded chain
  | rescale a => a.encoded chain / chain.modulus (a.trackedLevel chain)
  | rotate a => a.encoded chain

/-- The expression and all expressions below it. -/
def nodes : Expression → List Expression
  | leaf value encoding => [leaf value encoding]
  | multiply a b => multiply a b :: (a.nodes ++ b.nodes)
  | add a b => add a b :: (a.nodes ++ b.nodes)
  | rescale a => rescale a :: a.nodes
  | rotate a => rotate a :: a.nodes

/-- A path from the root to a leaf, with the number of rescales on it and the metadata of the
leaf. -/
inductive Path : Expression → Nat → Metadata → Prop where
  | leaf (value : ℚ) (encoding : Metadata) : Path (leaf value encoding) 0 encoding
  | multiply_left {a b : Expression} {rescales : Nat} {m : Metadata} :
      Path a rescales m → Path (multiply a b) rescales m
  | multiply_right {a b : Expression} {rescales : Nat} {m : Metadata} :
      Path b rescales m → Path (multiply a b) rescales m
  | add_left {a b : Expression} {rescales : Nat} {m : Metadata} :
      Path a rescales m → Path (add a b) rescales m
  | add_right {a b : Expression} {rescales : Nat} {m : Metadata} :
      Path b rescales m → Path (add a b) rescales m
  | rescale {a : Expression} {rescales : Nat} {m : Metadata} :
      Path a rescales m → Path (rescale a) (rescales + 1) m
  | rotate {a : Expression} {rescales : Nat} {m : Metadata} :
      Path a rescales m → Path (rotate a) rescales m

/-- An operation that is refused although its operands are tracked, and what it says. -/
inductive Refuses (chain : PrimeChain) : Expression → PackError → Prop where
  | multiply_levels {a b : Expression} {m n : Metadata} : a.track chain = .ok m →
      b.track chain = .ok n → m.level ≠ n.level →
      Refuses chain (multiply a b) (.levelMismatch m.level n.level)
  | add_levels {a b : Expression} {m n : Metadata} : a.track chain = .ok m →
      b.track chain = .ok n → m.level ≠ n.level →
      Refuses chain (add a b) (.levelMismatch m.level n.level)
  | add_scales {a b : Expression} {m n : Metadata} : a.track chain = .ok m →
      b.track chain = .ok n → m.level = n.level → m.scale ≠ n.scale →
      Refuses chain (add a b) (.scaleMismatch m.scale n.scale)
  | last_level {a : Expression} {m : Metadata} : a.track chain = .ok m → m.level = 1 →
      Refuses chain (rescale a) (.invalidLevel 0)
  | beyond_chain {a : Expression} {m : Metadata} : a.track chain = .ok m → m.level ≠ 1 →
      chain.length < m.level → Refuses chain (rescale a) (.levelOutOfRange m.level chain.length)

theorem track_multiply : (multiply a b).track chain = .ok m ↔
    ∃ x y, a.track chain = .ok x ∧ b.track chain = .ok y ∧ x.multiply y = .ok m := by
  simp only [track, bind_eq_ok, exists_and_left]

theorem track_add : (add a b).track chain = .ok m ↔
    ∃ x y, a.track chain = .ok x ∧ b.track chain = .ok y ∧ x.add y = .ok m := by
  simp only [track, bind_eq_ok, exists_and_left]

theorem track_rescale : (rescale a).track chain = .ok m ↔
    ∃ x, a.track chain = .ok x ∧ x.rescale chain = .ok m := by
  simp only [track, bind_eq_ok]

theorem track_rotate : (rotate a).track chain = .ok m ↔ a.track chain = .ok m := by
  simp only [track, bind_eq_ok, Metadata.afterRotation, pure_eq_ok, Except.ok.injEq,
    exists_eq_right]

theorem trackedLevel_eq (h : e.track chain = .ok m) : e.trackedLevel chain = m.level := by
  rw [trackedLevel, h]

theorem mem_nodes_self (e : Expression) : e ∈ e.nodes := by
  cases e <;> exact List.mem_cons_self

/-- An accepted expression is accepted at every node. -/
theorem nodes_track (h : e.track chain = .ok m) :
    ∀ node ∈ e.nodes, ∃ n, node.track chain = .ok n := by
  induction e generalizing m with
  | leaf value encoding => exact List.forall_mem_singleton.mpr ⟨m, h⟩
  | multiply a b iha ihb =>
    obtain ⟨x, y, hx, hy, -⟩ := track_multiply.mp h
    exact List.forall_mem_cons.mpr ⟨⟨m, h⟩, List.forall_mem_append.mpr ⟨iha hx, ihb hy⟩⟩
  | add a b iha ihb =>
    obtain ⟨x, y, hx, hy, -⟩ := track_add.mp h
    exact List.forall_mem_cons.mpr ⟨⟨m, h⟩, List.forall_mem_append.mpr ⟨iha hx, ihb hy⟩⟩
  | rescale a ih =>
    obtain ⟨x, hx, -⟩ := track_rescale.mp h
    exact List.forall_mem_cons.mpr ⟨⟨m, h⟩, ih hx⟩
  | rotate a ih => exact List.forall_mem_cons.mpr ⟨⟨m, h⟩, ih (track_rotate.mp h)⟩

/-- The encodings carry the tracked scale on top of the plain values. -/
theorem encoded_eq (h : e.track chain = .ok m) : e.encoded chain = m.scale.value * e.plain := by
  induction e generalizing m with
  | leaf value encoding =>
    obtain rfl := Except.ok.inj h
    exact mul_comm _ _
  | multiply a b iha ihb =>
    obtain ⟨x, y, hx, hy, h⟩ := track_multiply.mp h
    obtain ⟨-, hscale, -⟩ := Metadata.multiply_eq_ok.mp h
    rw [encoded, plain, iha hx, ihb hy, hscale, Scale.value_times]
    exact mul_mul_mul_comm _ _ _ _
  | add a b iha ihb =>
    obtain ⟨x, y, hx, hy, h⟩ := track_add.mp h
    -- both terms have one scale, which is what distributes over the sum
    obtain ⟨rfl, hscale, -⟩ := Metadata.add_eq_ok.mp h
    rw [encoded, plain, iha hx, ihb hy, ← hscale, mul_add]
  | rescale a ih =>
    obtain ⟨x, hx, h⟩ := track_rescale.mp h
    obtain ⟨-, -, -, hscale⟩ := Metadata.rescale_value h
    rw [encoded, plain, ih hx, trackedLevel_eq hx, hscale]
    exact mul_div_right_comm _ _ _
  | rotate a ih => exact ih (track_rotate.mp h)

/-- Every path goes down from the level of its leaf by one level for each rescale. -/
theorem path_level {rescales : Nat} {leaf : Metadata} (hp : Path e rescales leaf)
    (h : e.track chain = .ok m) : leaf.level = m.level + rescales := by
  induction hp generalizing m with
  | leaf value encoding =>
    obtain rfl := Except.ok.inj h
    rfl
  | multiply_left _ ih =>
    obtain ⟨x, y, hx, -, h⟩ := track_multiply.mp h
    obtain ⟨-, -, hlevel⟩ := Metadata.multiply_eq_ok.mp h
    rw [ih hx, hlevel]
  | multiply_right _ ih =>
    obtain ⟨x, y, -, hy, h⟩ := track_multiply.mp h
    obtain ⟨hsame, -, hlevel⟩ := Metadata.multiply_eq_ok.mp h
    rw [ih hy, hlevel, hsame]
  | add_left _ ih =>
    obtain ⟨x, y, hx, -, h⟩ := track_add.mp h
    obtain ⟨rfl, -, -⟩ := Metadata.add_eq_ok.mp h
    exact ih hx
  | add_right _ ih =>
    obtain ⟨x, y, -, hy, h⟩ := track_add.mp h
    obtain ⟨rfl, -, hsame⟩ := Metadata.add_eq_ok.mp h
    rw [ih hy, hsame]
  | rescale _ ih =>
    obtain ⟨x, hx, h⟩ := track_rescale.mp h
    have hlevel := Metadata.rescale_level h
    have := ih hx
    omega
  | rotate _ ih => exact ih (track_rotate.mp h)

/-- A failure of an expression is the refusal of one of its nodes. -/
def Blames (chain : PrimeChain) (e : Expression) (failure : Failure) : Prop :=
  ∃ error, failure = .rejected error ∧ ∃ node ∈ e.nodes, node.Refuses chain error

theorem Refuses.blames {error : PackError} (h : e.Refuses chain error) :
    e.Blames chain (.rejected error) :=
  ⟨error, rfl, e, mem_nodes_self e, h⟩

theorem Blames.mono {failure : Failure} (h : a.Blames chain failure)
    (hsub : ∀ node ∈ a.nodes, node ∈ e.nodes) : e.Blames chain failure := by
  obtain ⟨error, rfl, node, hnode, hr⟩ := h
  exact ⟨error, rfl, node, hsub node hnode, hr⟩

/-- An expression that is not accepted fails as one of its nodes is refused. -/
theorem track_eq_error (hc : chain.Nonzero) {failure : Failure}
    (h : e.track chain = .error failure) : e.Blames chain failure := by
  induction e with
  | leaf value encoding => cases h
  | multiply a b iha ihb =>
    rcases bind_eq_error.mp h with ha | ⟨x, hx, h⟩
    · exact (iha ha).mono fun node hn => List.mem_cons_of_mem _ (List.mem_append_left _ hn)
    rcases bind_eq_error.mp h with hb | ⟨y, hy, h⟩
    · exact (ihb hb).mono fun node hn => List.mem_cons_of_mem _ (List.mem_append_right _ hn)
    obtain ⟨hl, rfl⟩ := Metadata.multiply_eq_error h
    exact (Refuses.multiply_levels hx hy hl).blames
  | add a b iha ihb =>
    rcases bind_eq_error.mp h with ha | ⟨x, hx, h⟩
    · exact (iha ha).mono fun node hn => List.mem_cons_of_mem _ (List.mem_append_left _ hn)
    rcases bind_eq_error.mp h with hb | ⟨y, hy, h⟩
    · exact (ihb hb).mono fun node hn => List.mem_cons_of_mem _ (List.mem_append_right _ hn)
    rcases Metadata.add_eq_error h with ⟨hl, rfl⟩ | ⟨hl, hs, rfl⟩
    · exact (Refuses.add_levels hx hy hl).blames
    · exact (Refuses.add_scales hx hy hl hs).blames
  | rescale a ih =>
    rcases bind_eq_error.mp h with ha | ⟨x, hx, h⟩
    · exact (ih ha).mono fun node hn => List.mem_cons_of_mem _ hn
    rcases Metadata.rescale_eq_error hc h with ⟨h1, rfl⟩ | ⟨h1, hl, rfl⟩
    · exact (Refuses.last_level hx h1).blames
    · exact (Refuses.beyond_chain hx h1 hl).blames
  | rotate a ih =>
    rcases bind_eq_error.mp h with ha | ⟨x, -, h⟩
    · exact (ih ha).mono fun node hn => List.mem_cons_of_mem _ hn
    · cases h

/-- An operation is refused for levels or scales that differ, at the last level, or beyond the
chain. -/
theorem Refuses.kind {error : PackError} (h : e.Refuses chain error) :
    error = .invalidLevel 0 ∨ (∃ lhs rhs, error = .levelMismatch lhs rhs) ∨
      (∃ lhs rhs, error = .scaleMismatch lhs rhs) ∨
      ∃ level, error = .levelOutOfRange level chain.length := by
  cases h with
  | multiply_levels _ _ _ => exact .inr (.inl ⟨_, _, rfl⟩)
  | add_levels _ _ _ => exact .inr (.inl ⟨_, _, rfl⟩)
  | add_scales _ _ _ _ => exact .inr (.inr (.inl ⟨_, _, rfl⟩))
  | last_level _ _ => exact .inl rfl
  | beyond_chain _ _ _ => exact .inr (.inr (.inr ⟨_, rfl⟩))

/-- An accepted expression is accepted at every node, its encodings carry a positive scale on top
of the plain values, and its levels count the rescales on every path. One that is not accepted
fails as one of its nodes is refused, and never by a fault. -/
theorem track_sound (hc : chain.Nonzero) (e : Expression) :
    (∀ m, e.track chain = .ok m →
      (∀ node ∈ e.nodes, ∃ n, node.track chain = .ok n) ∧
      e.encoded chain = m.scale.value * e.plain ∧ 0 < m.scale.value ∧ 1 ≤ m.level ∧
      ∀ rescales leaf, Path e rescales leaf → leaf.level = m.level + rescales) ∧
    ∀ failure, e.track chain = .error failure → ∃ error, failure = .rejected error ∧
      (∃ node ∈ e.nodes, node.Refuses chain error) ∧
      (error = .invalidLevel 0 ∨ (∃ lhs rhs, error = .levelMismatch lhs rhs) ∨
        (∃ lhs rhs, error = .scaleMismatch lhs rhs) ∨
        ∃ level, error = .levelOutOfRange level chain.length) := by
  constructor
  · intro m h
    exact ⟨nodes_track h, encoded_eq h, m.value_pos, m.level_pos,
      fun rescales leaf hp => path_level hp h⟩
  · intro failure h
    obtain ⟨error, rfl, node, hnode, hr⟩ := track_eq_error hc h
    exact ⟨error, rfl, ⟨node, hnode, hr⟩, hr.kind⟩

/-- A product meets a sum after its rescale, and is refused there without it. -/
theorem track_sound_of_product :
    let chain : PrimeChain := ⟨#[3, 5, 7]⟩
    let fine : Metadata := ⟨.pow2 3, 3, by decide, by decide⟩
    let coarse : Metadata := ⟨(Scale.pow2 6).quotient 7 (by decide), 2, by decide, by decide⟩
    let product := multiply (leaf (1 / 2) fine) (rotate (leaf 6 fine))
    let sum := add (rescale product) (leaf 5 coarse)
    let early := add product (leaf 5 coarse)
    chain.Nonzero ∧
      (sum.track chain = .ok coarse ∧ sum.encoded chain = 64 / 7 * 8) ∧
      early.track chain = reject (.levelMismatch 3 2) ∧
      ∃ node ∈ early.nodes, node.Refuses chain (.levelMismatch 3 2) := by
  intro chain fine coarse product sum early
  have hc : chain.Nonzero := by decide
  have hscale : coarse.scale.value = 64 / 7 := by
    rw [Scale.value_quotient, Scale.value_pow2]
    norm_num
  have hproduct : product.track chain = fine.multiply fine := rfl
  obtain ⟨squared, hsquared, -⟩ := Metadata.multiply_succeeds (a := fine) rfl
  obtain ⟨-, hs, hl⟩ := Metadata.multiply_eq_ok.mp hsquared
  replace hl : squared.level = 3 := hl
  obtain ⟨m, hm, -⟩ := Metadata.rescale_succeeds hc (hl ▸ by decide : 2 ≤ squared.level)
    (hl ▸ by decide)
  obtain ⟨-, -, hlevel, hvalue⟩ := Metadata.rescale_value hm
  have hcoarse : m = coarse := by
    refine Metadata.ext_value ?_ (show m.level = 2 by omega)
    rw [hvalue, hs, hl, Scale.value_times, hscale]
    change (Scale.pow2 3).value * (Scale.pow2 3).value / (7 : Nat) = 64 / 7
    rw [Scale.value_pow2]
    norm_num
  have hsum : sum.track chain = .ok coarse := track_add.mpr
    ⟨m, coarse, track_rescale.mpr ⟨squared, hproduct.trans hsquared, hm⟩, rfl,
      hcoarse ▸ Metadata.add_self coarse⟩
  have hearly : early.track chain = reject (.levelMismatch 3 2) := rfl
  obtain ⟨-, hencoded, -⟩ := (track_sound hc sum).1 coarse hsum
  obtain ⟨error, he, hnode, -⟩ := (track_sound hc early).2 _ hearly
  obtain rfl := Failure.rejected.inj he
  refine ⟨hc, ⟨hsum, ?_⟩, hearly, hnode⟩
  have hplain : sum.plain = 8 := by
    change 1 / 2 * 6 + 5 = (8 : ℚ)
    norm_num
  rw [hencoded, hscale, hplain]

end Expression
end SlotPacking
