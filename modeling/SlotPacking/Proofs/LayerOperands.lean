import SlotPacking.Proofs.LevelCost
import SlotPacking.Proofs.ScaleValues
import SlotPacking.Proofs.SplitCircuit

/-!
What a packed layer holds. A layer that is packed holds the encoded weights of
its operator at the product of two moduli and its bias at the scale of the
layer's output, and nothing else; a bias is repeated over the lanes and zero
elsewhere.
-/
namespace SlotPacking
open Result SlotVector Circuit

section Bias
variable {α : Type}

theorem mem_biasWrites {values : Array α} {block lanes : Nat} {w : Nat × α} :
    w ∈ biasWrites values block lanes ↔
      ∃ lane < lanes, values[lane % block]? = some w.2 ∧ lane * laneStride = w.1 := by
  unfold biasWrites
  simp only [List.mem_filterMap, List.mem_range, Option.map_eq_some_iff, Prod.ext_iff]
  constructor
  · rintro ⟨lane, hl, x, hx, hw, rfl⟩
    exact ⟨lane, hl, hx, hw⟩
  · rintro ⟨lane, hl, hx, hw⟩
    exact ⟨lane, hl, w.2, hx, hw, rfl⟩

theorem packBias_eq_ok [Zero α] {values : Array α} {block lanes : Nat} {v : Slots α} :
    packBias values block lanes = .ok v ↔ 0 < block ∧ values.size ≤ block ∧
      lanes * laneStride ≤ slotCount ∧ scatter (biasWrites values block lanes) = .ok v := by
  unfold packBias
  constructor
  · intro h
    split at h
    next => simp at h
    next hb =>
      obtain ⟨width, hwidth, h⟩ := bind_eq_ok.mp h
      obtain ⟨-, rfl⟩ := Word.mul_eq_ok.mp hwidth
      split at h
      next => simp at h
      next hl => exact ⟨by omega, by omega, by omega, h⟩
  · rintro ⟨hb, hv, hl, h⟩
    have hw : lanes * laneStride < Word.bound := hl.trans_lt (by decide)
    rw [if_neg (by omega), Word.mul_of_lt hw, ok_bind, if_neg (by omega), h]

/-- A packed bias repeats its values every `block` lanes and is zero elsewhere. -/
theorem packBias_slot [Zero α] {values : Array α} {block lanes : Nat} {v : Slots α}
    (h : packBias values block lanes = .ok v) (i : Nat) :
    v.slot i = if i % laneStride = 0 ∧ i / laneStride < lanes then
      values.getD (i / laneStride % block) 0 else 0 := by
  obtain ⟨-, -, -, h⟩ := packBias_eq_ok.mp h
  have lane_of : ∀ lane, lane * laneStride = i →
      i % laneStride = 0 ∧ i / laneStride = lane := by
    unfold laneStride; omega
  have none_of (hnone : ∀ lane < lanes, lane * laneStride = i →
      values[lane % block]? = none) : v.slot i = 0 := by
    apply scatter_slot_of_not_mem h
    intro w hw hi
    obtain ⟨lane, hl, hx, hs⟩ := mem_biasWrites.mp hw
    rw [hnone lane hl (hs.trans hi)] at hx
    cases hx
  split
  next hi =>
    rw [Array.getD_eq_getD_getElem?]
    have hs : i / laneStride * laneStride = i := Nat.div_mul_cancel (Nat.dvd_of_mod_eq_zero hi.1)
    cases hx : values[i / laneStride % block]? with
    | none =>
      apply none_of
      intro lane _ hlane
      rwa [← (lane_of lane hlane).2]
    | some x =>
      apply scatter_slot_of_mem h (mem_biasWrites.mpr ⟨_, hi.2, hx, hs⟩)
      intro w hw hw1
      obtain ⟨lane, _, hv, hlane⟩ := mem_biasWrites.mp hw
      rw [← (lane_of lane (hlane.trans hw1)).2, hx] at hv
      exact (Option.some.inj hv).symm
  next hi =>
    apply none_of
    intro lane hl hlane
    obtain ⟨h0, rfl⟩ := lane_of lane hlane
    exact absurd ⟨h0, hl⟩ hi

theorem packBias_lane [Zero α] {values : Array α} {block lanes l : Nat} {v : Slots α}
    (h : packBias values block lanes = .ok v) (hl : l < lanes) :
    v.slot (laneStride * l) = values.getD (l % block) 0 := by
  rw [packBias_slot h, lane_mod, lane_div, if_pos ⟨rfl, hl⟩]

/-- A lane whose place in its block has a value holds that value. -/
theorem packBias_lane_value [Zero α] {values : Array α} {block lanes l : Nat} {v : Slots α}
    (h : packBias values block lanes = .ok v) (hl : l < lanes) (hx : l % block < values.size) :
    values[l % block]? = some (v.slot (laneStride * l)) := by
  rw [packBias_lane h hl, Array.getElem?_eq_getElem hx, Array.getD_eq_getD_getElem?,
    Array.getElem?_eq_getElem hx, Option.getD_some]

theorem packBias_slot_eq_zero [Zero α] {values : Array α} {block lanes i : Nat} {v : Slots α}
    (h : packBias values block lanes = .ok v)
    (hi : ∀ l < lanes, l % block < values.size → i ≠ laneStride * l) : v.slot i = 0 := by
  rw [packBias_slot h]
  split
  next hlane =>
    have hs : laneStride * (i / laneStride) = i :=
      Nat.mul_div_cancel' (Nat.dvd_of_mod_eq_zero hlane.1)
    have hsize : values.size ≤ i / laneStride % block := by
      by_contra hlt
      exact hi _ hlane.2 (Nat.lt_of_not_le hlt) hs.symm
    rw [Array.getD_eq_getD_getElem?, Array.getElem?_eq_none hsize, Option.getD_none]
  next => rfl

theorem packBias_succeeds [Zero α] {values : Array α} {block lanes : Nat} (hb : 0 < block)
    (hv : values.size ≤ block) (hl : lanes * laneStride ≤ slotCount) :
    ∃ v : Slots α, packBias values block lanes = .ok v := by
  have inside : ∀ w ∈ biasWrites values block lanes, w.1 < slotCount := by
    intro w hw
    obtain ⟨lane, hlane, -, hs⟩ := mem_biasWrites.mp hw
    have := Nat.mul_lt_mul_of_pos_right hlane (show 0 < laneStride by decide)
    omega
  obtain ⟨v, hscatter⟩ := scatter_succeeds inside
  exact ⟨v, packBias_eq_ok.mpr ⟨hb, hv, hl, hscatter⟩⟩

end Bias

section Linear
variable {α : Type} {layer : LinearLayer α} {input : Metadata} {chain : PrimeChain}
  {out : PackedLayer α}

/-- The steps of packing a layer, with what each of them gives. -/
theorem packLinear_eq_ok (h : packLinear layer input chain = .ok out) :
    ∃ high low encoded weights, chain.matrixPrimes input.level = .ok (high, low) ∧
      encode layer.weightName layer.operator ((Scale.ofNat high).times (Scale.ofNat low))
        layer.babysteps layer.giantsteps = .ok encoded ∧
      weights.scale = (Scale.ofNat high).times (Scale.ofNat low) ∧
      linearMetadata input weights layer.babysteps.length layer.giantsteps.length chain =
        .ok out.output ∧
      encoded.insert ⟨layer.biasName, layer.bias, out.output.scale⟩ = .ok out.operands := by
  unfold packLinear at h
  split at h
  next => simp at h
  next =>
    obtain ⟨⟨high, low⟩, hprimes, h⟩ := bind_eq_ok.mp h
    obtain ⟨encoded, hencoded, h⟩ := bind_eq_ok.mp h
    obtain ⟨weights, hweights, h⟩ := bind_eq_ok.mp h
    obtain ⟨product, hproduct, h⟩ := bind_eq_ok.mp h
    obtain ⟨bias, _, h⟩ := bind_eq_ok.mp h
    obtain ⟨output, houtput, h⟩ := bind_eq_ok.mp h
    obtain ⟨operands, hoperands, h⟩ := bind_eq_ok.mp h
    obtain rfl := Except.ok.inj h
    obtain ⟨-, -, hscale, -⟩ := Metadata.new_eq_ok.mp hweights
    obtain ⟨rfl, hbias, -⟩ := Metadata.add_eq_ok.mp houtput
    exact ⟨high, low, encoded, weights, hprimes, hencoded, hscale, hproduct, hbias ▸ hoperands⟩

theorem weightScale_value {level high low : Nat} (h : chain.matrixPrimes level = .ok (high, low)) :
    ((Scale.ofNat high).times (Scale.ofNat low)).value =
      chain.modulus level * chain.modulus (level - 1) := by
  obtain ⟨-, -, hhigh, hlow⟩ := PrimeChain.matrixPrimes_modulus h
  rw [Scale.value_times, Scale.value_ofNat, Scale.value_ofNat, hhigh, hlow]

theorem packLinear_output (h : packLinear layer input chain = .ok out) :
    input.level ≤ chain.length ∧ out.output.level + 1 = input.level ∧
      out.output.scale.value = input.scale.value * chain.modulus (input.level - 1) := by
  obtain ⟨high, low, encoded, weights, hprimes, -, hscale, hlinear, -⟩ := packLinear_eq_ok h
  obtain ⟨-, hl, -, -⟩ := PrimeChain.matrixPrimes_modulus hprimes
  exact ⟨hl, linearMetadata_value hlinear (by rw [hscale, weightScale_value hprimes])⟩

def LinearLayer.names (layer : LinearLayer α) : List String :=
  layer.biasName :: cellNames layer.weightName layer.babysteps layer.giantsteps

theorem packLinear_names (h : packLinear layer input chain = .ok out) :
    out.operands.names.Perm layer.names := by
  obtain ⟨_, _, encoded, _, -, hencoded, -, -, hinsert⟩ := packLinear_eq_ok h
  exact (Bundle.insert_names hinsert).trans ((encode_names hencoded).cons _)

/-- The bundle holds the operands of a layer: its encoded operator at one scale and its bias at
another. -/
structure LinearLayer.StoredIn (layer : LinearLayer α) (bundle : Bundle α slotCount)
    (weightScale biasScale : Scale) : Prop where
  grid : layer.babysteps.length * layer.giantsteps.length = layer.operator.count
  weights : Encodes bundle layer.weightName layer.operator weightScale layer.babysteps
    layer.giantsteps
  bias : bundle.get? layer.biasName = some ⟨layer.biasName, layer.bias, biasScale⟩

theorem LinearLayer.StoredIn.extend {old new : Bundle α slotCount} {weightScale biasScale : Scale}
    (h : layer.StoredIn old weightScale biasScale) (he : Bundle.Extends old new) :
    layer.StoredIn new weightScale biasScale :=
  ⟨h.grid, h.weights.extend he, he _ _ h.bias⟩

/-- A packed layer holds its operator at the product of two moduli and its bias at the scale of its
output. -/
theorem packLinear_stored (h : packLinear layer input chain = .ok out) : ∃ weightScale,
    weightScale.value = chain.modulus input.level * chain.modulus (input.level - 1) ∧
      layer.StoredIn out.operands weightScale out.output.scale := by
  obtain ⟨high, low, encoded, weights, hprimes, hencoded, -, -, hinsert⟩ := packLinear_eq_ok h
  obtain ⟨grid, hweights⟩ := encode_eq_ok hencoded
  exact ⟨_, weightScale_value hprimes, grid, hweights.extend (Bundle.insert_extends hinsert),
    Bundle.insert_stores hinsert⟩

/-- A grid of distinct steps with opposites, whose weights have names apart from the bias. -/
structure LinearLayer.Encodable (layer : LinearLayer α) : Prop where
  babysteps_ne_nil : layer.babysteps ≠ []
  giantsteps_ne_nil : layer.giantsteps ≠ []
  grid : layer.babysteps.length * layer.giantsteps.length = layer.operator.count
  least : Word.leastSigned ∉ layer.giantsteps
  babysteps_nodup : layer.babysteps.Nodup
  giantsteps_nodup : layer.giantsteps.Nodup
  bias_apart : ∀ bs gs, layer.biasName ≠ cellName layer.weightName bs gs

/-- An operator with one diagonal for each cell of a split is encodable on its steps. -/
theorem Split.Proper.encodable {s : Split} (hs : s.Proper) {weightName biasName : String}
    {op : DiagonalOperator α slotCount} (hc : op.count = s.babyCount * s.giantCount)
    (apart : ∀ bs gs, biasName ≠ cellName weightName bs gs) (bias : Slots α) :
    LinearLayer.Encodable ⟨weightName, biasName, op, bias, s.babyList, s.giantList⟩ where
  babysteps_ne_nil := hs.babyList_ne_nil
  giantsteps_ne_nil := hs.giantList_ne_nil
  grid := by simp only [babyList, giantList, length_steps, hc]
  least := leastSigned_not_mem_steps
  babysteps_nodup := nodup_steps hs.babyStride_pos
  giantsteps_nodup := nodup_steps hs.giantStride_pos
  bias_apart := apart

/-- With encoded weights and moduli that can be divided by, only the name of the bias can be
refused. -/
theorem packLinear_eq_insert {high low : Nat} {encoded : Bundle α slotCount}
    (hb : layer.babysteps ≠ []) (hg : layer.giantsteps ≠ [])
    (hprimes : chain.matrixPrimes input.level = .ok (high, low)) (hhigh : 0 < high) (hlow : 0 < low)
    (hencoded : encode layer.weightName layer.operator ((Scale.ofNat high).times (Scale.ofNat low))
      layer.babysteps layer.giantsteps = .ok encoded) :
    ∃ product : Metadata, product.level + 1 = input.level ∧ packLinear layer input chain =
      (encoded.insert ⟨layer.biasName, layer.bias, product.scale⟩).map (⟨·, product⟩) := by
  obtain ⟨h2, hlevel, -⟩ := PrimeChain.matrixPrimes_eq_ok.mp hprimes
  have hscale : ((Scale.ofNat high).times (Scale.ofNat low)).IsPositive :=
    Scale.times_isPositive (a := Scale.ofNat high) (b := Scale.ofNat low) hhigh hlow
  obtain ⟨weights, hweights, -, hw⟩ := Metadata.new_succeeds input.level_pos hscale
  obtain ⟨product, hproduct, hp⟩ := linearMetadata_of_modulus hw h2 hlevel hhigh
    layer.babysteps.length layer.giantsteps.length
  obtain ⟨bias, hbias, hbs, hbl⟩ := Metadata.new_succeeds product.level_pos product.scale_pos
  have houtput : product.add bias = .ok product :=
    Metadata.add_eq_ok.mpr ⟨rfl, hbs.symm, hbl.symm⟩
  refine ⟨product, hp, ?_⟩
  rw [packLinear, if_neg fun h => h.elim hb hg, hprimes, ok_bind]
  simp only [hencoded, hweights, hproduct, hbias, houtput, hbs, ok_bind]
  cases encoded.insert ⟨layer.biasName, layer.bias, product.scale⟩ with
  | ok operands => rfl
  | error e => rfl

/-- An encodable layer is packed at every level with two moduli, one level below its input. -/
theorem packLinear_succeeds (he : layer.Encodable) (hc : chain.Nonzero) (h2 : 2 ≤ input.level)
    (hl : input.level ≤ chain.length) :
    ∃ out, packLinear layer input chain = .ok out ∧ out.output.level + 1 = input.level ∧
      out.operands.NamedBy (LayerName layer.weightName layer.biasName) := by
  obtain ⟨high, low, hprimes, hhigh, hlow⟩ := PrimeChain.matrixPrimes_succeeds h2 hl
  obtain ⟨encoded, hencoded, hcells⟩ := encode_succeeds (by decide) layer.weightName
    ((Scale.ofNat high).times (Scale.ofNat low)) he.grid he.least he.babysteps_nodup
    he.giantsteps_nodup
  obtain ⟨product, hp, heq⟩ := packLinear_eq_insert he.babysteps_ne_nil he.giantsteps_ne_nil hprimes
    (hc _ hhigh) (hc _ hlow) hencoded
  have hfree : encoded.get? layer.biasName = none := hcells.get?_eq_none fun ⟨bs, gs, h⟩ =>
    he.bias_apart bs gs h
  have hinsert := @Bundle.insert_succeeds _ _ _ ⟨layer.biasName, layer.bias, product.scale⟩ hfree
  rw [hinsert] at heq
  exact ⟨_, heq, hp, Bundle.insert_namedBy hinsert (hcells.mono fun _ h => .inr h) (.inl rfl)⟩

/-- A level without two moduli is found out before anything is encoded. -/
theorem packLinear_error (hb : layer.babysteps ≠ []) (hg : layer.giantsteps ≠ []) {e : Failure}
    (h : chain.matrixPrimes input.level = .error e) : packLinear layer input chain = .error e := by
  rw [packLinear, if_neg fun h => h.elim hb hg, h, error_bind]

end Linear
end SlotPacking
