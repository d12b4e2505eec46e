import SlotPacking.Proofs.Levels

/-!
What a step costs in levels. A step of the circuit either finds enough levels and
leaves what is left of them, or is rejected because no level would be left, and
steps taken one after another cost the sum of their costs.
-/
namespace SlotPacking
open Result
variable {β γ : Type}

/-- A step from a value at `level` that costs the given number of levels: it asks for more than it
costs, and `left` holds of the level that is left and of what the step gives. -/
structure Spends (cost level : Nat) (left : Nat → β → Prop) (step : Result β) : Prop where
  short : level ≤ cost → step = reject (.invalidLevel 0)
  enough : cost < level → ∃ b, step = .ok b ∧ left (level - cost) b

namespace Spends
variable {cost rest level : Nat} {left : Nat → β → Prop} {after : Nat → γ → Prop}
  {step : Result β} {next : β → Result γ}

/-- Steps one after another, of which the second starts from the level that the first has left. -/
theorem bind (h : Spends cost level left step)
    (hnext : ∀ b, step = .ok b → cost < level → left (level - cost) b →
      Spends rest (level - cost) after (next b)) :
    Spends (rest + cost) level after (step >>= next) := by
  by_cases hc : cost < level
  · obtain ⟨b, hb, hleft⟩ := h.enough hc
    obtain ⟨hshort, henough⟩ := hnext b hb hc hleft
    rw [hb, ok_bind]
    refine ⟨fun hl => hshort (by omega), fun hl => ?_⟩
    obtain ⟨c, hcok, hafter⟩ := henough (by omega)
    exact ⟨c, hcok, (show level - (rest + cost) = level - cost - rest by omega) ▸ hafter⟩
  · rw [h.short (by omega)]
    exact ⟨fun _ => rfl, fun hl => absurd hl (by omega)⟩

/-- A step that does not look at the level. -/
theorem free {b : β} (h : step = .ok b) (hpos : 0 < level) (hleft : left level b) :
    Spends 0 level left step :=
  ⟨fun hl => absurd hpos (by omega), fun _ => ⟨b, h, hleft⟩⟩

end Spends

namespace PrimeChain
variable {chain : PrimeChain} {level : Nat}

theorem matrixPrimes_at_one (chain : PrimeChain) :
    chain.matrixPrimes 1 = reject (.invalidLevel 0) := rfl

theorem matrixPrimes_beyond (h2 : 2 ≤ level) (hl : chain.length < level) :
    chain.matrixPrimes level = reject (.levelOutOfRange level chain.length) := by
  rw [matrixPrimes, if_neg (by omega), atLevel_beyond hl]
  rfl

end PrimeChain

namespace Metadata
variable {a : Metadata} {chain : PrimeChain}

theorem rescale_spends (hc : chain.Nonzero) (hl : a.level ≤ chain.length) :
    Spends 1 a.level (fun k b => b.level = k) (a.rescale chain) where
  short h := by
    have := a.level_pos
    rw [rescale, if_pos (by omega)]
  enough h := by
    obtain ⟨b, hb, hlevel⟩ := rescale_succeeds hc (show 2 ≤ a.level by omega) hl
    exact ⟨b, hb, by omega⟩

theorem square_spends (hc : chain.Nonzero) (hl : a.level ≤ chain.length) :
    Spends 2 a.level (fun k b => b.level = k) (a.square chain) := by
  obtain ⟨product, hproduct, hlevel⟩ := multiply_succeeds (a := a) (b := a) rfl
  rw [square, hproduct, ok_bind, ← hlevel]
  refine (rescale_spends hc (by omega)).bind fun once _ h1 honce => ?_
  rw [← honce]
  exact rescale_spends hc (by omega)

end Metadata
end SlotPacking
