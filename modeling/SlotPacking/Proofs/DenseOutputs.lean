import SlotPacking.Proofs.DenseLayer

/-!
Packed fully connected layers, end to end. The circuit on the operands of a
packed layer, folded over the lanes of an output, gives the product with its
weights; the bias operand adds the bias.
-/
namespace SlotPacking
open Finset Result SlotVector Circuit DenseLayout
open scoped BigOperators

theorem DenseLayout.biasName_apart (layout : DenseLayout) (bs gs : Int) :
    layout.biasName ≠ cellName layout.weightName bs gs := by
  intro h
  have hl := congrArg String.toList h
  simp [cellName_toList, biasName, weightName] at hl

/-- The operands of a layer start with its name. -/
theorem DenseLayout.name_starts {layout : DenseLayout} {name : String}
    (h : LayerName layout.weightName layout.biasName name) :
    (layout.name ++ "_").toList <+: name.toList := by
  refine h.starts ?_ ?_
  · simp [weightName]
  · simp [biasName]

section Packed
variable {α : Type} [Zero α] {layout : DenseLayout} {input : Metadata} {weights : Matrix α}
  {bias : Array α} {chain : PrimeChain} {out : PackedLayer α}

/-- The layer of a layout. -/
def DenseLayout.layer (layout : DenseLayout) (op : DiagonalOperator α slotCount)
    (bias : Slots α) : LinearLayer α :=
  ⟨layout.weightName, layout.biasName, op, bias, layout.split.babyList, layout.split.giantList⟩

theorem packDense_eq_ok (hl : layout.Aligned)
    (h : packDense layout input weights bias chain = .ok out) :
    weights.rows = layout.inputs ∧ weights.cols = layout.outputs ∧
      bias.size = layout.outputs ∧
      ∃ op packed, DiagonalOperator.dense layout weights layout.split = .ok op ∧
        packBias bias layout.block (slotCount / laneStride) = .ok packed ∧
        packLinear (layout.layer op packed) input chain = .ok out := by
  unfold packDense at h
  split at h
  next hb =>
    obtain ⟨op, hop, h⟩ := bind_eq_ok.mp h
    rw [hl.proper.babysteps_eq, hl.proper.giantsteps_eq, ok_bind, ok_bind] at h
    obtain ⟨packed, hpacked, h⟩ := bind_eq_ok.mp h
    obtain ⟨hr, hc, -, -⟩ := DiagonalOperator.dense_eq_ok hop
    exact ⟨hr, hc, hb, op, packed, hop, hpacked, h⟩
  next => simp at h

theorem packDense_output (hl : layout.Aligned)
    (h : packDense layout input weights bias chain = .ok out) :
    input.level ≤ chain.length ∧ out.output.level + 1 = input.level ∧
      out.output.scale.value = input.scale.value * chain.modulus (input.level - 1) := by
  obtain ⟨-, -, -, _, _, -, -, h⟩ := packDense_eq_ok hl h
  exact packLinear_output h

/-- The names of the operands of a layout. -/
def DenseLayout.names (layout : DenseLayout) : List String :=
  layout.biasName :: cellNames layout.weightName layout.split.babyList layout.split.giantList

theorem packDense_names (hl : layout.Aligned)
    (h : packDense layout input weights bias chain = .ok out) :
    out.operands.names.Perm layout.names := by
  obtain ⟨-, -, -, _, _, -, -, h⟩ := packDense_eq_ok hl h
  exact packLinear_names h

/-- A packed layer holds the operands of its layout. -/
theorem packDense_stored (hl : layout.Aligned)
    (h : packDense layout input weights bias chain = .ok out) :
    ∃ op packed weightScale, DiagonalOperator.dense layout weights layout.split = .ok op ∧
      packBias bias layout.block (slotCount / laneStride) = .ok packed ∧
      weightScale.value = chain.modulus input.level * chain.modulus (input.level - 1) ∧
      (layout.layer op packed).StoredIn out.operands weightScale out.output.scale := by
  obtain ⟨-, -, -, op, packed, hop, hpacked, h⟩ := packDense_eq_ok hl h
  obtain ⟨weightScale, hvalue, stored⟩ := packLinear_stored h
  exact ⟨op, packed, weightScale, hop, hpacked, hvalue, stored⟩

/-- Packing an aligned layer of the right sizes is packing a layer on a proper grid. -/
theorem packDense_eq_packLinear (hl : layout.Aligned) (hr : weights.rows = layout.inputs)
    (hc : weights.cols = layout.outputs) (hb : bias.size = layout.outputs) :
    ∃ op packed, (layout.layer op packed).Encodable ∧
      packDense layout input weights bias chain =
        packLinear (layout.layer op packed) input chain := by
  obtain ⟨op, hop⟩ := DiagonalOperator.dense_succeeds hl.room hl.inputs_pos hr hc
    hl.proper.diagonals_eq
  obtain ⟨packed, hpacked⟩ := packBias_succeeds hl.block_pos (hb ▸ hl.outputs_le)
    (show slotCount / laneStride * laneStride ≤ slotCount by decide)
  refine ⟨op, packed, hl.proper.encodable ((hl.count_eq hop).trans hl.grid.symm)
    layout.biasName_apart packed, ?_⟩
  rw [packDense, if_pos hb, hop, hl.proper.babysteps_eq, hl.proper.giantsteps_eq, hpacked]
  rfl

/-- An aligned layer of the right sizes is packed at every level with two moduli. -/
theorem packDense_succeeds (hl : layout.Aligned) (hr : weights.rows = layout.inputs)
    (hc : weights.cols = layout.outputs) (hb : bias.size = layout.outputs)
    (hchain : chain.Nonzero) (h2 : 2 ≤ input.level) (hlevel : input.level ≤ chain.length) :
    ∃ out, packDense layout input weights bias chain = .ok out ∧
      out.output.level + 1 = input.level ∧
      out.operands.NamedBy (LayerName layout.weightName layout.biasName) := by
  obtain ⟨op, packed, encodable, heq⟩ := packDense_eq_packLinear hl hr hc hb
  rw [heq]
  exact packLinear_succeeds encodable hchain h2 hlevel

theorem packDense_error (hl : layout.Aligned) (hr : weights.rows = layout.inputs)
    (hc : weights.cols = layout.outputs) (hb : bias.size = layout.outputs) {e : Failure}
    (h : chain.matrixPrimes input.level = .error e) :
    packDense layout input weights bias chain = .error e := by
  obtain ⟨op, packed, encodable, heq⟩ := packDense_eq_packLinear hl hr hc hb
  rw [heq, packLinear_error encodable.babysteps_ne_nil encodable.giantsteps_ne_nil h]

end Packed

section Outputs
variable {R : Type} [CommRing R] {layout : DenseLayout} {input : Metadata} {weights : Matrix R}
  {bias : Array R} {chain : PrimeChain} {out : PackedLayer R}

/-- The circuit on the operands of a packed layer is the circuit of its operator, and its bias
operand repeats the bias over all lanes. -/
theorem packDense_circuit (hl : layout.Aligned)
    (h : packDense layout input weights bias chain = .ok out) :
    ∃ op operand, DiagonalOperator.dense layout weights layout.split = .ok op ∧
      (∀ x, evaluateEncoded x out.operands layout.weightName layout.split.babyList
        layout.split.giantList = .ok (layout.split.run op x)) ∧
      out.operands.get? layout.biasName = some operand ∧
      ∀ l < slotCount / laneStride,
        operand.values.slot (laneStride * l) = bias.getD (l % layout.block) 0 := by
  obtain ⟨op, packed, _, hop, hpacked, -, stored⟩ := packDense_stored hl h
  have hcount := (hl.count_eq hop).trans hl.grid.symm
  exact ⟨op, _, hop, Split.evaluateEncoded_eq_run hcount stored.weights, stored.bias,
    fun _ hlane => packBias_lane hpacked hlane⟩

/-- The first layer on any input: the four lanes of an output fold to its weights times the input
lanes, and with the bias to the affine output, over all lanes; nothing stands off the lanes. -/
theorem fc1_fold_eq_affine (h : packDense .fc1 input weights bias chain = .ok out) (x : Slots R) :
    weights.rows = 256 ∧ weights.cols = 64 ∧ bias.size = 64 ∧
      ∃ babysteps giantsteps y operand,
        Split.fc1.babysteps = .ok babysteps ∧ Split.fc1.giantsteps = .ok giantsteps ∧
        evaluateEncoded x out.operands "fc1_w" babysteps giantsteps = .ok y ∧
        out.operands.get? "fc1_b" = some operand ∧
        (∀ i, ¬laneStride ∣ i → y.slot i = 0) ∧
        ∀ l < 256,
          ∑ k ∈ range 4, y.slot (laneStride * ((l + 64 * k) % 256)) =
            ∑ f ∈ range 256, weights.entry f (l % 64) * x.slot (laneStride * f) ∧
          (∑ k ∈ range 4, y.slot (laneStride * ((l + 64 * k) % 256))) +
              operand.values.slot (laneStride * l) =
            (∑ f ∈ range 256, weights.entry f (l % 64) * x.slot (laneStride * f)) +
              bias.getD (l % 64) 0 := by
  obtain ⟨hr, hc, hb, -⟩ := packDense_eq_ok fc1_aligned h
  obtain ⟨op, operand, hop, hrun, hbias, hlanes⟩ := packDense_circuit fc1_aligned h
  refine ⟨hr, hc, hb, Split.fc1.babyList, Split.fc1.giantList, Split.fc1.run op x, operand,
    Split.fc1_proper.babysteps_eq, Split.fc1_proper.giantsteps_eq, hrun x, hbias, ?_, ?_⟩
  · intro i hi
    by_cases hs : i < slotCount
    · exact fc1_aligned.run_slot_eq_zero hop x hs fun hlane =>
        hi (Nat.dvd_of_mod_eq_zero hlane.1)
    · exact slot_of_ge _ (by omega)
  · intro l hl
    -- All lanes are inputs, so the input itself is what its lanes repeat.
    have whole : ∀ j < slotCount / laneStride,
        x.slot (laneStride * j) = x.slot (laneStride * (j % fc1.inputs)) := by
      intro j hj
      rw [show j % fc1.inputs = j from Nat.mod_eq_of_lt hj]
    have fold := fc1_aligned.run_fold hop (v := fun f => x.slot (laneStride * f)) whole
      (Nat.mod_lt l (by decide))
    exact ⟨fold, congrArg₂ (· + ·) fold (hlanes l hl)⟩

theorem fc1_fold_of_ramp : ∃ out babysteps giantsteps y operand,
    packDense .fc1 ⟨Scale.pow2 72, 6, by decide, by decide⟩
      (⟨256, 64, Array.replicate 16384 1, by simp, by decide⟩ : Matrix Int)
      (Array.replicate 64 5) .standard = .ok out ∧
    Split.fc1.babysteps = .ok babysteps ∧ Split.fc1.giantsteps = .ok giantsteps ∧
    evaluateEncoded (SlotVector.ofFn fun i => (i : Int)) out.operands "fc1_w"
      babysteps giantsteps = .ok y ∧
    out.operands.get? "fc1_b" = some operand ∧
    (∑ k ∈ range 4, y.slot (laneStride * ((70 + 64 * k) % 256))) +
      operand.values.slot (laneStride * 70) = 4177925 := by
  obtain ⟨out, hout, -⟩ := @packDense_succeeds Int _ fc1 ⟨Scale.pow2 72, 6, by decide, by decide⟩
    ⟨256, 64, Array.replicate 16384 1, by simp, by decide⟩ (Array.replicate 64 5) .standard
    fc1_aligned rfl rfl Array.size_replicate PrimeChain.standard_nonzero (by decide) (by decide)
  obtain ⟨-, -, -, babysteps, giantsteps, y, operand, hb, hg, hy, hbias, -, hlanes⟩ :=
    fc1_fold_eq_affine hout (SlotVector.ofFn fun i => (i : Int))
  refine ⟨out, babysteps, giantsteps, y, operand, hout, hb, hg, hy, hbias, ?_⟩
  have product (f : Nat) (hf : f ∈ range 256) :
      (⟨256, 64, Array.replicate 16384 1, by simp, by decide⟩ : Matrix Int).entry f (70 % 64) *
        slot (SlotVector.ofFn fun i => (i : Int) : Slots Int) (laneStride * f) =
          laneStride * f := by
    have hf := mem_range.mp hf
    have hd : f * 64 + 6 < 16384 := by omega
    have hs : laneStride * f < slotCount := by unfold laneStride slotCount; omega
    rw [slot_of_lt _ hs, getElem_ofFn]
    simp [Matrix.entry, hd]
  rw [(hlanes 70 (by decide)).2, sum_congr rfl product]
  decide +kernel

/-- The second layer on an input that repeats 64 values over all lanes: the four lanes of a class
fold to its weights times the values, and with the bias to the affine output; nothing stands
outside the lanes of the classes. -/
theorem fc2_fold_eq_affine (h : packDense .fc2 input weights bias chain = .ok out) {x : Slots R}
    {v : Nat → R} (hx : ∀ l < 256, x.slot (laneStride * l) = v (l % 64)) :
    weights.rows = 64 ∧ weights.cols = 10 ∧ bias.size = 10 ∧
      ∃ babysteps giantsteps y operand,
        Split.fc2.babysteps = .ok babysteps ∧ Split.fc2.giantsteps = .ok giantsteps ∧
        evaluateEncoded x out.operands "fc2_w" babysteps giantsteps = .ok y ∧
        out.operands.get? "fc2_b" = some operand ∧
        (∀ i, (∀ j < 64, j % 16 < 10 → i ≠ laneStride * j) → y.slot i = 0) ∧
        ∀ c < 10,
          ∑ k ∈ range 4, y.slot (laneStride * (c + 16 * k)) =
            ∑ f ∈ range 64, weights.entry f c * v f ∧
          (∑ k ∈ range 4, y.slot (laneStride * (c + 16 * k))) +
              operand.values.slot (laneStride * c) =
            (∑ f ∈ range 64, weights.entry f c * v f) + bias.getD c 0 := by
  obtain ⟨hr, hc, hb, -⟩ := packDense_eq_ok fc2_aligned h
  obtain ⟨op, operand, hop, hrun, hbias, hlanes⟩ := packDense_circuit fc2_aligned h
  refine ⟨hr, hc, hb, Split.fc2.babyList, Split.fc2.giantList, Split.fc2.run op x, operand,
    Split.fc2_proper.babysteps_eq, Split.fc2_proper.giantsteps_eq, hrun x, hbias, ?_, ?_⟩
  · intro i hi
    by_cases hs : i < slotCount
    · refine fc2_aligned.run_slot_eq_zero hop x hs fun ⟨h0, hj, ho⟩ => hi _ hj ho ?_
      exact (Nat.mul_div_cancel' (Nat.dvd_of_mod_eq_zero h0)).symm
    · exact slot_of_ge _ (by omega)
  · intro c hc
    have hmod : c % fc2.block = c := Nat.mod_eq_of_lt (hc.trans (by decide))
    have fold := fc2_aligned.run_fold hop hx (l := c) (hmod.symm ▸ hc)
    rw [hmod] at fold
    -- The lanes of a class stay within the inputs, so its fold does not wrap around.
    have lane (k : Nat) (hk : k ∈ range 4) :
        (Split.fc2.run op x).slot (laneStride * ((c + 16 * k) % 64)) =
          (Split.fc2.run op x).slot (laneStride * (c + 16 * k)) := by
      have := mem_range.mp hk
      rw [Nat.mod_eq_of_lt (by omega)]
    have fold := (sum_congr rfl lane).symm.trans fold
    have hlane := hlanes c (hc.trans (by decide))
    rw [hmod] at hlane
    exact ⟨fold, congrArg₂ (· + ·) fold hlane⟩

theorem fc2_fold_of_steps : ∃ out babysteps giantsteps y operand,
    packDense .fc2 ⟨Scale.pow2 72, 3, by decide, by decide⟩
      (⟨64, 10, Array.replicate 640 2, by simp, by decide⟩ : Matrix Int)
      (Array.replicate 10 (-7)) .standard = .ok out ∧
    Split.fc2.babysteps = .ok babysteps ∧ Split.fc2.giantsteps = .ok giantsteps ∧
    evaluateEncoded (SlotVector.ofFn fun i => ((i / laneStride % 64 : Nat) : Int)) out.operands
      "fc2_w" babysteps giantsteps = .ok y ∧
    out.operands.get? "fc2_b" = some operand ∧
    (∑ k ∈ range 4, y.slot (laneStride * (9 + 16 * k))) +
      operand.values.slot (laneStride * 9) = 4025 := by
  obtain ⟨out, hout, -⟩ := @packDense_succeeds Int _ fc2 ⟨Scale.pow2 72, 3, by decide, by decide⟩
    ⟨64, 10, Array.replicate 640 2, by simp, by decide⟩ (Array.replicate 10 (-7)) .standard
    fc2_aligned rfl rfl Array.size_replicate PrimeChain.standard_nonzero (by decide) (by decide)
  have repeats (l : Nat) (hl : l < 256) :
      slot (SlotVector.ofFn fun i => ((i / laneStride % 64 : Nat) : Int) : Slots Int)
        (laneStride * l) = ((l % 64 : Nat) : Int) := by
    have hs : laneStride * l < slotCount := by unfold laneStride slotCount; omega
    rw [slot_of_lt _ hs, getElem_ofFn, Nat.mul_div_cancel_left l (by decide)]
  obtain ⟨-, -, -, babysteps, giantsteps, y, operand, hb, hg, hy, hbias, -, hlanes⟩ :=
    fc2_fold_eq_affine hout (v := fun f => (f : Int)) repeats
  refine ⟨out, babysteps, giantsteps, y, operand, hout, hb, hg, hy, hbias, ?_⟩
  have product (f : Nat) (hf : f ∈ range 64) :
      (⟨64, 10, Array.replicate 640 2, by simp, by decide⟩ : Matrix Int).entry f 9 * (f : Int) =
        2 * f := by
    have hf := mem_range.mp hf
    have hd : f * 10 + 9 < 640 := by omega
    simp [Matrix.entry, hd]
  rw [(hlanes 9 (by decide)).2, sum_congr rfl product]
  decide +kernel

end Outputs
end SlotPacking
