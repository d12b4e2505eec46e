import SlotPacking.Layer
import SlotPacking.Proofs.FractionOrder
import SlotPacking.Proofs.Outcome

/-!
Levels through a layer. Products and sums stay at the level of their terms and a
rescale goes down by one, so a linear layer leaves one level below its input.
Nothing but the level and the moduli decides whether these steps succeed.
-/
namespace SlotPacking
open Result
variable {chain : PrimeChain}

namespace PrimeChain

/-- All moduli can be divided by. -/
def Nonzero (chain : PrimeChain) : Prop := ∀ p ∈ chain.primes, 0 < p

instance : Decidable chain.Nonzero := inferInstanceAs (Decidable (∀ p ∈ chain.primes, 0 < p))

theorem standard_nonzero : standard.Nonzero := by decide +kernel

theorem atLevel_eq_ok {level p : Nat} :
    chain.atLevel level = .ok p ↔ 0 < level ∧ chain.primes[level - 1]? = some p := by
  unfold atLevel
  split
  next h => simp [h]
  next h =>
    split
    next q hq => simp [hq, Nat.pos_of_ne_zero h]
    next hq => simp [hq]

theorem atLevel_beyond {level : Nat} (h : chain.length < level) :
    chain.atLevel level = reject (.levelOutOfRange level chain.length) := by
  have hnone : chain.primes[level - 1]? = none := by
    unfold length at h
    exact Array.getElem?_eq_none (by omega)
  rw [atLevel, if_neg (by omega), hnone]

theorem atLevel_succeeds {level : Nat} (h0 : 0 < level) (hl : level ≤ chain.length) :
    ∃ p, chain.atLevel level = .ok p ∧ p ∈ chain.primes := by
  have hlt : level - 1 < chain.primes.size := by
    unfold length at hl
    omega
  exact ⟨chain.primes[level - 1], atLevel_eq_ok.mpr ⟨h0, Array.getElem?_eq_getElem hlt⟩,
    Array.getElem_mem hlt⟩

theorem matrixPrimes_eq_ok {level high low : Nat} : chain.matrixPrimes level = .ok (high, low) ↔
    2 ≤ level ∧ chain.atLevel level = .ok high ∧ chain.atLevel (level - 1) = .ok low := by
  unfold matrixPrimes
  split
  next h => simp; omega
  next h =>
    simp only [bind_eq_ok, pure_eq_ok, Except.ok.injEq, Prod.mk.injEq]
    constructor
    · rintro ⟨_, hhigh, _, hlow, rfl, rfl⟩
      exact ⟨by omega, hhigh, hlow⟩
    · rintro ⟨-, hhigh, hlow⟩
      exact ⟨_, hhigh, _, hlow, rfl, rfl⟩

/-- The chain has two moduli for every level from two up to its length. -/
theorem matrixPrimes_succeeds {level : Nat} (h2 : 2 ≤ level) (hl : level ≤ chain.length) :
    ∃ high low, chain.matrixPrimes level = .ok (high, low) ∧
      high ∈ chain.primes ∧ low ∈ chain.primes := by
  obtain ⟨high, hh, hhigh⟩ := atLevel_succeeds (show 0 < level by omega) hl
  obtain ⟨low, hw, hlow⟩ : ∃ p, chain.atLevel (level - 1) = .ok p ∧ p ∈ chain.primes :=
    atLevel_succeeds (by omega) (by omega)
  exact ⟨high, low, matrixPrimes_eq_ok.mpr ⟨h2, hh, hw⟩, hhigh, hlow⟩

end PrimeChain

namespace Metadata
variable {a b : Metadata}

theorem new_eq_ok {scale : Scale} {level : Nat} :
    new scale level = .ok a ↔
      0 < level ∧ scale.IsPositive ∧ a.scale = scale ∧ a.level = level := by
  unfold new
  split
  next hl =>
    split
    next hs => simp [hl, hs, Metadata.ext_iff, eq_comm]
    next hs => simp [hs]
  next hl => simp [hl]

theorem new_succeeds {scale : Scale} {level : Nat} (hl : 0 < level) (hs : scale.IsPositive) :
    ∃ m, new scale level = .ok m ∧ m.scale = scale ∧ m.level = level :=
  ⟨⟨scale, level, hs, hl⟩, new_eq_ok.mpr ⟨hl, hs, rfl, rfl⟩, rfl, rfl⟩

theorem add_eq_ok {sum : Metadata} :
    a.add b = .ok sum ↔ sum = a ∧ a.scale = b.scale ∧ a.level = b.level := by
  unfold add
  split
  next hl =>
    split
    next hs => simp [hl, beq_iff_eq.mp hs, eq_comm]
    next hs => simp [mt beq_iff_eq.mpr hs]
  next hl => simp [hl]

theorem add_self (a : Metadata) : a.add a = .ok a := add_eq_ok.mpr ⟨rfl, rfl, rfl⟩

theorem sumOfCopies_eq (term : Metadata) (count : Nat) : term.sumOfCopies count = .ok term := by
  unfold sumOfCopies
  induction count - 1 with
  | zero => rfl
  | succ k ih => rw [List.replicate_succ, List.foldlM_cons, add_self, ok_bind, ih]

theorem multiply_eq_ok {product : Metadata} : a.multiply b = .ok product ↔
    a.level = b.level ∧ product.scale = a.scale.times b.scale ∧ product.level = a.level := by
  unfold multiply
  split
  next hl => simp [hl, Metadata.ext_iff, eq_comm]
  next hl => simp [hl]

theorem multiply_succeeds (h : a.level = b.level) :
    ∃ product, a.multiply b = .ok product ∧ product.level = a.level :=
  ⟨⟨a.scale.times b.scale, a.level, Scale.times_isPositive a.scale_pos b.scale_pos, a.level_pos⟩,
    multiply_eq_ok.mpr ⟨h, rfl, rfl⟩, rfl⟩

theorem rescale_level (h : a.rescale chain = .ok b) : b.level + 1 = a.level := by
  unfold rescale at h
  split at h
  next => simp at h
  next =>
    obtain ⟨prime, _, h⟩ := bind_eq_ok.mp h
    obtain ⟨scale, _, h⟩ := bind_eq_ok.mp h
    obtain ⟨hl, _, _, he⟩ := new_eq_ok.mp h
    omega

/-- A value above level one is rescaled by a modulus that can be divided by. -/
theorem rescale_of_modulus (h2 : 2 ≤ a.level) {p : Nat} (hp : chain.atLevel a.level = .ok p)
    (ppos : 0 < p) : ∃ b, a.rescale chain = .ok b ∧ b.level + 1 = a.level := by
  obtain ⟨b, hb, -, -⟩ := new_succeeds (show 0 < a.level - 1 by omega)
    (Scale.quotient_isPositive a.scale_pos (h := ppos))
  have ok : a.rescale chain = .ok b := by
    rw [rescale, if_neg (by omega), hp, ok_bind, Scale.divPrime, dif_pos ppos, ok_bind, hb]
  exact ⟨b, ok, rescale_level ok⟩

theorem rescale_succeeds (hc : chain.Nonzero) (h2 : 2 ≤ a.level) (hl : a.level ≤ chain.length) :
    ∃ b, a.rescale chain = .ok b ∧ b.level + 1 = a.level := by
  obtain ⟨p, hp, hmem⟩ := PrimeChain.atLevel_succeeds a.level_pos hl
  exact rescale_of_modulus h2 hp (hc p hmem)

end Metadata

theorem linearMetadata_of_modulus {input weights : Metadata} (h : weights.level = input.level)
    (h2 : 2 ≤ input.level) {p : Nat} (hp : chain.atLevel input.level = .ok p) (ppos : 0 < p)
    (babyCount giantCount : Nat) :
    ∃ out, linearMetadata input weights babyCount giantCount chain = .ok out ∧
      out.level + 1 = input.level := by
  obtain ⟨product, hproduct, hl⟩ := Metadata.multiply_succeeds h.symm
  obtain ⟨out, hout, ho⟩ := Metadata.rescale_of_modulus (a := product) (by omega) (hl ▸ hp) ppos
  refine ⟨out, ?_, by omega⟩
  simp only [linearMetadata, Metadata.afterRotation, hproduct, ok_bind, Metadata.sumOfCopies_eq,
    hout]

end SlotPacking
