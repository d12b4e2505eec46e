import SlotPacking.Proofs.LevelCost
import SlotPacking.Proofs.LinearOutcome

/-!
Depth of networks. A network threads the metadata of one value through linear
layers and squarings. A layer costs one level and a squaring two, whatever comes
before them, so a network runs when its input has more levels than its stages
cost together, and otherwise stops at the first stage that has none left.
-/
namespace SlotPacking
open Result Circuit
variable {α : Type} {chain : PrimeChain} {input : Metadata}

/-- A grid of distinct steps with one cell for each diagonal, of which none has the name of the
bias. -/
structure LinearLayer.WellFormed (layer : LinearLayer α) : Prop where
  babysteps_ne_nil : layer.babysteps ≠ []
  giantsteps_ne_nil : layer.giantsteps ≠ []
  grid : layer.babysteps.length * layer.giantsteps.length = layer.operator.count
  babysteps_nodup : layer.babysteps.Nodup
  giantsteps_nodup : layer.giantsteps.Nodup
  bias_apart : layer.biasName ∉ cellNames layer.weightName layer.babysteps layer.giantsteps

/-- A layer takes one level and leaves the modulus below it in the scale. -/
theorem packLinear_spends {layer : LinearLayer α} (hw : layer.WellFormed)
    (least : Word.leastSigned ∉ layer.giantsteps) (hc : chain.Nonzero)
    (hl : input.level ≤ chain.length) :
    Spends 1 input.level (fun k out => out.output.level = k ∧
      out.output.scale.value = input.scale.value * chain.modulus (input.level - 1))
      (packLinear layer input chain) where
  short h := by
    have h1 : input.level = 1 := Nat.le_antisymm h input.level_pos
    exact packLinear_error hw.babysteps_ne_nil hw.giantsteps_ne_nil
      (h1 ▸ chain.matrixPrimes_at_one)
  enough h := by
    obtain ⟨high, low, hprimes, hhigh, hlow⟩ := PrimeChain.matrixPrimes_succeeds h hl
    obtain ⟨encoded, hencoded⟩ := encode_of_nodup (by decide) layer.weightName
      ((Scale.ofNat high).times (Scale.ofNat low)) hw.grid least
      (cells_nodup hw.babysteps_nodup hw.giantsteps_nodup)
    obtain ⟨out, hout⟩ := packLinear_bias_free hw.babysteps_ne_nil hw.giantsteps_ne_nil hprimes
      hencoded (hc _ hhigh) (hc _ hlow) hw.bias_apart
    obtain ⟨-, hlevel, hscale⟩ := packLinear_output hout
    exact ⟨out, hout, by omega, hscale⟩

inductive NetworkStage (α : Type) where
  | linear (layer : LinearLayer α)
  | squaring

namespace NetworkStage
variable {stages : List (NetworkStage α)}

def isLinear : NetworkStage α → Bool
  | linear _ => true
  | squaring => false

def isSquaring : NetworkStage α → Bool
  | linear _ => false
  | squaring => true

def apply (chain : PrimeChain) (input : Metadata) : NetworkStage α → Result Metadata
  | linear layer => do
    let packed ← packLinear layer input chain
    return packed.output
  | squaring => input.square chain

/-- The metadata of a value after the stages of a network. -/
def run (chain : PrimeChain) (input : Metadata) (stages : List (NetworkStage α)) :
    Result Metadata :=
  stages.foldlM (apply chain) input

def cost : NetworkStage α → Nat
  | linear _ => 1
  | squaring => 2

/-- The value of the scale and the level after a stage. -/
def track (chain : PrimeChain) : ℚ × Nat → NetworkStage α → ℚ × Nat
  | (scale, level), linear _ => (scale * chain.modulus (level - 1), level - 1)
  | (scale, level), squaring =>
    (scale ^ 2 / (chain.modulus level * chain.modulus (level - 1)), level - 2)

theorem sum_cost (stages : List (NetworkStage α)) :
    (stages.map cost).sum = stages.countP isLinear + 2 * stages.countP isSquaring := by
  induction stages with
  | nil => rfl
  | cons stage rest ih =>
    rw [List.map_cons, List.sum_cons, ih]
    cases stage with
    | linear layer =>
      rw [List.countP_cons_of_pos rfl, List.countP_cons_of_neg (by simp [isSquaring]), cost]
      omega
    | squaring =>
      rw [List.countP_cons_of_neg (by simp [isLinear]), List.countP_cons_of_pos rfl, cost]
      omega

theorem apply_spends {stage : NetworkStage α}
    (sound : ∀ layer, linear layer = stage → layer.WellFormed)
    (least : ∀ layer, linear layer = stage → Word.leastSigned ∉ layer.giantsteps)
    (hc : chain.Nonzero) (hl : input.level ≤ chain.length) :
    Spends stage.cost input.level (fun k out => out.level = k ∧
      (out.scale.value, out.level) = track chain (input.scale.value, input.level) stage)
      (apply chain input stage) := by
  cases stage with
  | linear layer =>
    have packs := packLinear_spends (sound layer rfl) (least layer rfl) hc hl
    refine ⟨fun h => ?_, fun h => ?_⟩
    · rw [apply, packs.short h]
      rfl
    · obtain ⟨out, hout, hlevel, hscale⟩ := packs.enough h
      exact ⟨out.output, by rw [apply, hout]; rfl, hlevel, by rw [hscale, hlevel]; rfl⟩
  | squaring =>
    have squares := Metadata.square_spends hc hl
    refine ⟨squares.short, fun h => ?_⟩
    obtain ⟨out, hout, hlevel⟩ := squares.enough h
    exact ⟨out, hout, hlevel, by rw [(Metadata.square_value hout).2, hlevel]; rfl⟩

/-- The stages of a network cost what each of them costs, wherever they stand. -/
theorem run_spends (sound : ∀ layer, linear layer ∈ stages → layer.WellFormed)
    (least : ∀ layer, linear layer ∈ stages → Word.leastSigned ∉ layer.giantsteps)
    (hc : chain.Nonzero) (hl : input.level ≤ chain.length) :
    Spends (stages.map cost).sum input.level (fun k out => out.level = k ∧
      (out.scale.value, out.level) = stages.foldl (track chain) (input.scale.value, input.level))
      (run chain input stages) := by
  induction stages generalizing input with
  | nil => exact .free rfl input.level_pos ⟨rfl, rfl⟩
  | cons stage rest ih =>
    rw [run, List.foldlM_cons, List.map_cons, List.sum_cons, Nat.add_comm]
    refine (apply_spends (fun layer h => sound layer (h ▸ List.mem_cons_self))
      (fun layer h => least layer (h ▸ List.mem_cons_self)) hc hl).bind
      fun next _ _ ⟨hlevel, htrack⟩ => ?_
    rw [List.foldl_cons, ← htrack, ← hlevel]
    exact ih (fun layer h => sound layer (List.mem_cons_of_mem _ h))
      (fun layer h => least layer (List.mem_cons_of_mem _ h)) (by omega)

/-- A network runs exactly when its input has one level more than its stages cost together. The
scale is then what the moduli of the levels on the way make of it; otherwise the first stage that
fails has no level left. -/
theorem run_outcome (stages : List (NetworkStage α)) (input : Metadata) (chain : PrimeChain)
    (hc : chain.Nonzero) (hl : input.level ≤ chain.length)
    (sound : ∀ layer, linear layer ∈ stages → layer.WellFormed)
    (least : ∀ layer, linear layer ∈ stages → Word.leastSigned ∉ layer.giantsteps) :
    if 1 + stages.countP isLinear + 2 * stages.countP isSquaring ≤ input.level then
      ∃ out, run chain input stages = .ok out ∧
        out.level = input.level - (stages.countP isLinear + 2 * stages.countP isSquaring) ∧
        (out.scale.value, out.level) = stages.foldl (track chain) (input.scale.value, input.level)
    else
      run chain input stages = reject (.invalidLevel 0) ∧
        ∃ done stage rest reached, stages = done ++ stage :: rest ∧
          run chain input done = .ok reached ∧
          apply chain reached stage = reject (.invalidLevel 0) := by
  have spends := run_spends sound least hc hl
  rw [sum_cost] at spends
  split_ifs with h
  · obtain ⟨out, hout, hlevel, htrack⟩ := spends.enough (by omega)
    exact ⟨out, hout, hlevel, htrack⟩
  · have fails := spends.short (by omega)
    exact ⟨fails, foldlM_eq_error fails⟩

/-- Two layers around a squaring need level five; at level four the second layer has none left. -/
theorem run_outcome_of_three_stages :
    let layer : LinearLayer Int := ⟨"w", "b", ⟨#[0, 0], by decide⟩, 0, [0, -1], [3]⟩
    let stages := [linear layer, squaring, linear layer]
    let chain : PrimeChain := ⟨#[2, 3, 5, 7, 11]⟩
    (∃ out, run chain ⟨.ofNat 1, 5, by decide, by decide⟩ stages = .ok out ∧ out.level = 1 ∧
      out.scale.value = (7 ^ 2 / (7 * 5) : ℚ) * 2) ∧
    run chain ⟨.ofNat 1, 4, by decide, by decide⟩ stages = reject (.invalidLevel 0) := by
  intro layer stages chain
  have sound : ∀ l, linear l ∈ stages → l.WellFormed := by
    intro l h
    obtain rfl : l = layer := by simpa [stages] using h
    exact ⟨by decide, by decide, rfl, by decide, by decide, by decide +kernel⟩
  have least : ∀ l, linear l ∈ stages → Word.leastSigned ∉ l.giantsteps := by
    intro l h
    obtain rfl : l = layer := by simpa [stages] using h
    decide
  have outcome (level : Nat) (hpos : 0 < level) (hl : level ≤ 5) :=
    run_outcome stages ⟨.ofNat 1, level, by decide, hpos⟩ chain (by decide) hl sound least
  constructor
  · obtain ⟨out, hout, hlevel, htrack⟩ := outcome 5 (by decide) (by decide)
    exact ⟨out, hout, hlevel, (congrArg Prod.fst htrack).trans (by decide +kernel)⟩
  · exact (outcome 4 (by decide) (by decide)).1

/-- A layer with a giantstep that has no opposite overflows, although there are levels enough. -/
theorem run_of_least_giantstep :
    let layer : LinearLayer Int := ⟨"w", "b", ⟨#[0], by decide⟩, 0, [0], [Word.leastSigned]⟩
    layer.WellFormed ∧ PrimeChain.Nonzero ⟨#[5, 7]⟩ ∧
      run ⟨#[5, 7]⟩ ⟨.ofNat 1, 2, by decide, by decide⟩ [linear layer] = faulty .overflow := by
  intro layer
  exact ⟨⟨by decide, by decide, rfl, by decide, by decide, by decide +kernel⟩, by decide, rfl⟩

end NetworkStage
end SlotPacking
