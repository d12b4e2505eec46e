import SlotPacking.Proofs.BundleMerge
import SlotPacking.Proofs.EncodedCircuit

/-!
Encodings under different base names. A name determines the base and the steps
of its cell, so the weights of two operators never meet in one bundle.
-/
namespace SlotPacking.Circuit
variable {α : Type} {n : Nat} {base base' : String} {op op' : DiagonalOperator α n}
  {scale scale' : Scale} {babysteps giantsteps babysteps' giantsteps' : List Int}
  {a b : Bundle α n}

theorem encode_apart (hne : base ≠ base')
    (ha : encode base op scale babysteps giantsteps = .ok a)
    (hb : encode base' op' scale' babysteps' giantsteps' = .ok b) : a.Apart b := by
  intro name hname hname'
  obtain ⟨bs, -, gs, -, hcell⟩ := mem_cellNames.mp ((encode_names ha).mem_iff.mp hname)
  obtain ⟨bs', -, gs', -, hcell'⟩ := mem_cellNames.mp ((encode_names hb).mem_iff.mp hname')
  exact hne (cellName_inj.mp (hcell.symm.trans hcell')).1

/-- The name of a cell determines its base and both of its steps, whatever the base looks like.
Operators that are encoded under different bases have no weight name in common, on any steps, and
are merged without a loss. -/
theorem cellName_determines_cell (base base' : String) :
    (∀ bs gs bs' gs', cellName base bs gs = cellName base' bs' gs' →
      base = base' ∧ bs = bs' ∧ gs = gs') ∧
    (base ≠ base' → encode base op scale babysteps giantsteps = .ok a →
      encode base' op' scale' babysteps' giantsteps' = .ok b →
      (∀ name ∈ a.names, name ∉ b.names) ∧
      ∃ union, a.merge b = .ok union ∧
        ∀ name, union.get? name = (a.get? name).or (b.get? name)) := by
  refine ⟨fun bs gs bs' gs' h => cellName_inj.mp h, fun hne ha hb => ?_⟩
  have apart := encode_apart hne ha hb
  exact ⟨apart, Bundle.merge_of_apart apart⟩

/-- A base that ends like a step: the two layers share no weight. -/
theorem cellName_determines_channel :
    let op : DiagonalOperator Int 1 := ⟨#[⟨#v[3]⟩], by decide⟩
    ∃ a b, encode "conv_weight_1" op (.pow2 1) [0] [-8] = .ok a ∧
      encode "conv_weight_1_0" op (.pow2 1) [0] [-8] = .ok b ∧
      (∀ name ∈ a.names, name ∉ b.names) ∧ ∃ union, a.merge b = .ok union := by
  intro op
  obtain ⟨a, ha, -⟩ := encode_succeeds (by decide) "conv_weight_1" (.pow2 1)
    (show [(0 : Int)].length * [(-8 : Int)].length = op.count from rfl) (by decide) (by decide)
    (by decide)
  obtain ⟨b, hb, -⟩ := encode_succeeds (by decide) "conv_weight_1_0" (.pow2 1)
    (show [(0 : Int)].length * [(-8 : Int)].length = op.count from rfl) (by decide) (by decide)
    (by decide)
  obtain ⟨apart, union, hunion, -⟩ :=
    (cellName_determines_cell "conv_weight_1" "conv_weight_1_0").2 (by decide) ha hb
  exact ⟨a, b, ha, hb, apart, union, hunion⟩

end SlotPacking.Circuit
