import SlotPacking.Proofs.BundleNames
import SlotPacking.Proofs.CircuitSum
import SlotPacking.Proofs.OperandNames

/-!
Running the circuit on named weights. Encoding an operator puts every diagonal,
rotated against its giantstep, under the name of its cell; on any bundle that
still holds these weights the named circuit is the circuit on the operator. A
merge keeps what either bundle holds, so this goes for every bundle in which the
weights stand among foreign operands.
-/
namespace SlotPacking.Circuit
open Result SlotVector
variable {α : Type} {n : Nat}

theorem mem_cells {babysteps giantsteps : List Int} {bs gs : Int} :
    (bs, gs) ∈ cells babysteps giantsteps ↔ bs ∈ babysteps ∧ gs ∈ giantsteps := by
  simp [cells, and_comm]

theorem cells_getElem? {babysteps giantsteps : List Int} {g b : Nat} {gs bs : Int}
    (hg : giantsteps[g]? = some gs) (hb : babysteps[b]? = some bs) :
    (cells babysteps giantsteps)[g * babysteps.length + b]? = some (bs, gs) := by
  have hlt : b < babysteps.length := (List.getElem?_eq_some_iff.mp hb).1
  induction giantsteps generalizing g with
  | nil => simp at hg
  | cons first rest ih =>
    rw [cells, List.flatMap_cons]
    cases g with
    | zero =>
      obtain rfl : first = gs := by simpa using hg
      rw [Nat.zero_mul, Nat.zero_add, List.getElem?_append_left (by simpa using hlt)]
      simp [hb]
    | succ g =>
      rw [Nat.succ_mul, List.getElem?_append_right (by rw [List.length_map]; omega),
        List.length_map, show g * babysteps.length + babysteps.length + b - babysteps.length =
          g * babysteps.length + b by omega]
      exact ih (by simpa using hg)

theorem rotateAgainst_eq_ok {v u : SlotVector α n} {step : Int}
    (h : rotateAgainst v step = .ok u) : u = v.rotate (-step) := by
  unfold rotateAgainst rotate? at h
  split at h
  next => simp at h
  next =>
    split at h
    next => simp at h
    next => exact (Except.ok.inj h).symm

/-- The bundle holds the weights of an operator on a grid under a base name. -/
def Encodes (bundle : Bundle α n) (base : String) (op : DiagonalOperator α n) (scale : Scale)
    (babysteps giantsteps : List Int) : Prop :=
  ∀ g b gs bs d, giantsteps[g]? = some gs → babysteps[b]? = some bs →
    op.toList[g * babysteps.length + b]? = some d →
    bundle.get? (cellName base bs gs) = some ⟨cellName base bs gs, d.rotate (-gs), scale⟩

section Encoding
variable {base : String} {op : DiagonalOperator α n} {scale : Scale}
  {babysteps giantsteps : List Int}

theorem Encodes.extend {old new : Bundle α n} (h : Encodes old base op scale babysteps giantsteps)
    (he : Bundle.Extends old new) : Encodes new base op scale babysteps giantsteps :=
  fun g b gs bs d hg hb hd => he _ _ (h g b gs bs d hg hb hd)

/-- Each cell of the grid has a diagonal of its own, and its weight is stored. -/
theorem Encodes.get?_cell {bundle : Bundle α n}
    (h : Encodes bundle base op scale babysteps giantsteps)
    (hc : babysteps.length * giantsteps.length = op.count) {g b : Nat} {gs bs : Int}
    (hg : giantsteps[g]? = some gs) (hb : babysteps[b]? = some bs) :
    ∃ d, op.toList[g * babysteps.length + b]? = some d ∧
      bundle.get? (cellName base bs gs) = some ⟨cellName base bs gs, d.rotate (-gs), scale⟩ := by
  have hlt : b < babysteps.length := (List.getElem?_eq_some_iff.mp hb).1
  have hrow := Nat.mul_le_mul_right babysteps.length (List.getElem?_eq_some_iff.mp hg).1
  have hcell : g * babysteps.length + b < op.toList.length := by
    have hl : op.toList.length = giantsteps.length * babysteps.length := by
      rw [Nat.mul_comm, hc]; rfl
    rw [Nat.succ_mul] at hrow
    omega
  exact ⟨_, List.getElem?_eq_getElem hcell, h g b gs bs _ hg hb (List.getElem?_eq_getElem hcell)⟩

/-- The weights of an operator on a grid, cell by cell. -/
def encodedOperands (base : String) (op : DiagonalOperator α n) (scale : Scale)
    (babysteps giantsteps : List Int) : List (Operand α n) :=
  ((cells babysteps giantsteps).zip op.toList).map fun c =>
    ⟨cellName base c.1.1 c.1.2, c.2.rotate (-c.1.2), scale⟩

theorem encode_inserts {bundle : Bundle α n}
    (h : encode base op scale babysteps giantsteps = .ok bundle) :
    babysteps.length * giantsteps.length = op.count ∧
      Bundle.insertAll ∅ (encodedOperands base op scale babysteps giantsteps) = (bundle, none) := by
  obtain ⟨_, hgrid, h⟩ := bind_eq_ok.mp h
  refine ⟨checkGrid_eq_ok.mp hgrid, Bundle.foldlM_inserts ?_ h⟩
  rintro ⟨⟨bs, gs⟩, d⟩ - s t ht
  obtain ⟨values, hv, ht⟩ := bind_eq_ok.mp ht
  obtain rfl := rotateAgainst_eq_ok hv
  exact ht

/-- What is encoded holds every diagonal, rotated against its giantstep, under the name of its
cell. -/
theorem encode_stores {bundle : Bundle α n}
    (h : encode base op scale babysteps giantsteps = .ok bundle) {bs gs : Int} {d : SlotVector α n}
    (hm : ((bs, gs), d) ∈ (cells babysteps giantsteps).zip op.toList) :
    bundle.get? (cellName base bs gs) = some ⟨cellName base bs gs, d.rotate (-gs), scale⟩ := by
  have hinserts := (encode_inserts h).2
  have stored := Bundle.insertAll_stores (congrArg Prod.snd hinserts) _ (List.mem_map_of_mem hm)
  rwa [hinserts] at stored

theorem encode_eq_ok {bundle : Bundle α n}
    (h : encode base op scale babysteps giantsteps = .ok bundle) :
    babysteps.length * giantsteps.length = op.count ∧
      Encodes bundle base op scale babysteps giantsteps := by
  refine ⟨(encode_inserts h).1, fun g b gs bs d hg hb hd => encode_stores h ?_⟩
  apply List.mem_of_getElem? (i := g * babysteps.length + b)
  rw [List.getElem?_zip_eq_some]
  exact ⟨cells_getElem? hg hb, hd⟩

theorem rotateAgainst_of_ne (hn : 0 < n) (v : SlotVector α n) {step : Int}
    (h : step ≠ Word.leastSigned) : rotateAgainst v step = .ok (v.rotate (-step)) := by
  rw [rotateAgainst, if_neg h, rotate?, if_neg hn.ne']

/-- The names of the cells of a grid. -/
def cellNames (base : String) (babysteps giantsteps : List Int) : List String :=
  (cells babysteps giantsteps).map fun c => cellName base c.1 c.2

theorem mem_cellNames {name : String} : name ∈ cellNames base babysteps giantsteps ↔
    ∃ bs ∈ babysteps, ∃ gs ∈ giantsteps, name = cellName base bs gs := by
  simp only [cellNames, List.mem_map, Prod.exists, mem_cells]
  constructor
  · rintro ⟨bs, gs, ⟨hb, hg⟩, rfl⟩
    exact ⟨bs, hb, gs, hg, rfl⟩
  · rintro ⟨bs, hb, gs, hg, rfl⟩
    exact ⟨bs, gs, ⟨hb, hg⟩, rfl⟩

theorem cells_eq_product (babysteps giantsteps : List Int) :
    cells babysteps giantsteps = (giantsteps ×ˢ babysteps).map Prod.swap := by
  change _ = (giantsteps.flatMap fun gs => babysteps.map (Prod.mk gs)).map Prod.swap
  rw [List.map_flatMap]
  simp only [List.map_map]
  rfl

/-- No cell of a grid comes twice when no step does. -/
theorem cells_nodup (hb : babysteps.Nodup) (hg : giantsteps.Nodup) :
    (cells babysteps giantsteps).Nodup := by
  rw [cells_eq_product]
  exact (hg.product hb).map Prod.swap_injective

theorem cellNames_nodup (h : (cells babysteps giantsteps).Nodup) (base : String) :
    (cellNames base babysteps giantsteps).Nodup := by
  refine h.map fun c d he => ?_
  obtain ⟨-, h1, h2⟩ := cellName_inj.mp he
  exact Prod.ext h1 h2

theorem length_cellNames (base : String) (babysteps giantsteps : List Int) :
    (cellNames base babysteps giantsteps).length = babysteps.length * giantsteps.length := by
  rw [cellNames, cells_eq_product, List.length_map, List.length_map, List.length_product,
    Nat.mul_comm]

theorem encode_eq_outcome (hn : 0 < n)
    (hc : babysteps.length * giantsteps.length = op.count)
    (least : Word.leastSigned ∉ giantsteps) :
    encode base op scale babysteps giantsteps =
      Bundle.outcome (Bundle.insertAll ∅ (encodedOperands base op scale babysteps giantsteps)) := by
  rw [encode, checkGrid_eq_ok.mpr hc, ok_bind]
  refine Bundle.foldlM_insert (fun c hm bundle => ?_) ∅
  obtain ⟨⟨bs, gs⟩, d⟩ := c
  have hgs : gs ∈ giantsteps := (mem_cells.mp (List.of_mem_zip hm).1).2
  have hne : gs ≠ Word.leastSigned := fun h => least (h ▸ hgs)
  simp only [rotateAgainst_of_ne hn d hne, ok_bind]

theorem encodedOperands_names (hc : babysteps.length * giantsteps.length = op.count) :
    (encodedOperands base op scale babysteps giantsteps).map (·.name) =
      cellNames base babysteps giantsteps := by
  have hl : (cells babysteps giantsteps).length ≤ op.toList.length := by
    rw [cells_eq_product, List.length_map, List.length_product, Nat.mul_comm, hc]
    exact le_rfl
  rw [encodedOperands, cellNames, List.map_map, ← List.map_fst_zip hl, List.map_map,
    List.map_fst_zip hl]
  rfl

/-- What is encoded on a grid has the names of its cells. -/
theorem encode_names {bundle : Bundle α n}
    (h : encode base op scale babysteps giantsteps = .ok bundle) :
    bundle.names.Perm (cellNames base babysteps giantsteps) := by
  obtain ⟨hc, hinserts⟩ := encode_inserts h
  have names := Bundle.insertAll_names hinserts
  rwa [encodedOperands_names hc] at names

/-- An operator on a grid without repeated cells is encoded. -/
theorem encode_of_nodup (hn : 0 < n) (base : String) (scale : Scale)
    (hc : babysteps.length * giantsteps.length = op.count)
    (least : Word.leastSigned ∉ giantsteps) (h : (cells babysteps giantsteps).Nodup) :
    ∃ bundle, encode base op scale babysteps giantsteps = .ok bundle := by
  have hd : ((encodedOperands base op scale babysteps giantsteps).map (·.name)).Nodup := by
    rw [encodedOperands_names hc]
    exact cellNames_nodup h base
  have hnone : (Bundle.insertAll ∅ (encodedOperands base op scale babysteps giantsteps)).2 = none :=
    Bundle.insertAll_succeeds hd fun _ _ => rfl
  exact ⟨_, by rw [encode_eq_outcome hn hc least, Bundle.outcome_of_none hnone]⟩

/-- An operator on a grid of distinct steps is encoded, under names of its base. -/
theorem encode_succeeds (hn : 0 < n) (base : String) (scale : Scale)
    (hc : babysteps.length * giantsteps.length = op.count)
    (least : Word.leastSigned ∉ giantsteps) (hb : babysteps.Nodup) (hg : giantsteps.Nodup) :
    ∃ bundle, encode base op scale babysteps giantsteps = .ok bundle ∧
      bundle.NamedBy fun name => ∃ bs gs, name = cellName base bs gs := by
  obtain ⟨bundle, h⟩ := encode_of_nodup hn base scale hc least (cells_nodup hb hg)
  refine ⟨bundle, h, fun name operand ho => ?_⟩
  have hname := (encode_names h).mem_iff.mp (NameMap.mem_names.mpr ⟨operand, ho⟩)
  obtain ⟨bs, -, gs, -, rfl⟩ := mem_cellNames.mp hname
  exact ⟨bs, gs, rfl⟩

end Encoding

section Evaluation
variable {base : String} {op : DiagonalOperator α n} {scale : Scale}
  {babysteps giantsteps : List Int} {bundle : Bundle α n}

theorem weight_eq_ok {bs gs : Int} {operand : Operand α n}
    (h : bundle.get? (cellName base bs gs) = some operand) :
    weight bundle base bs gs = .ok operand.values := by
  simp only [weight, h]

theorem rows_of_encodes (hc : babysteps.length * giantsteps.length = op.count)
    (h : Encodes bundle base op scale babysteps giantsteps) :
    (giantsteps.mapM fun gs => do
      let weights ← babysteps.mapM fun bs => weight bundle base bs gs
      return (gs, weights)) = .ok (weightRows babysteps.length giantsteps op.toList) := by
  have hl : op.toList.length = giantsteps.length * babysteps.length := by
    rw [Nat.mul_comm, hc]; rfl
  rw [mapM_eq_ok, weightRows_eq_ofFn, List.forall₂_iff_get]
  refine ⟨by simp, fun g hg _ => ?_⟩
  have hrow := Nat.mul_le_mul_right babysteps.length hg
  rw [← hl, Nat.succ_mul] at hrow
  rw [bind_eq_ok, List.get_ofFn]
  refine ⟨((op.toList.drop (g * babysteps.length)).take babysteps.length).map
    (·.rotate (-giantsteps[g])), ?_, rfl⟩
  rw [mapM_eq_ok, List.forall₂_iff_get]
  refine ⟨by simp; omega, fun b hb _ => ?_⟩
  have hd : g * babysteps.length + b < op.toList.length := by omega
  have hw := h g b _ _ _ (List.getElem?_eq_getElem hg) (List.getElem?_eq_getElem hb)
    (List.getElem?_eq_getElem hd)
  simpa using weight_eq_ok hw

/-- On a bundle that holds the weights of an operator, the named circuit is the circuit on the
operator. -/
theorem evaluateEncoded_of_encodes [Zero α] [Add α] [Mul α] (hn : 0 < n) (input : SlotVector α n)
    (hc : babysteps.length * giantsteps.length = op.count)
    (h : Encodes bundle base op scale babysteps giantsteps) :
    evaluateEncoded input bundle base babysteps giantsteps =
      .ok (evaluate input babysteps (weightRows babysteps.length giantsteps op.toList)) := by
  rw [evaluateEncoded, checkRotations_of_pos hn, ok_bind, rows_of_encodes hc h]
  rfl

end Evaluation

section Merged
variable {base : String} {op : DiagonalOperator α n} {scale : Scale}
  {babysteps giantsteps : List Int} {encoded : Bundle α n}

/-- In every bundle that its operands are merged with, the encoded circuit gives the product that
the operator itself gives; what else the bundle holds makes no difference. -/
theorem evaluateEncoded_merge_eq_matmul [Zero α] [Add α] [Mul α] (hn : 0 < n)
    (input : SlotVector α n) (least : Word.leastSigned ∉ giantsteps)
    (h : encode base op scale babysteps giantsteps = .ok encoded) :
    ∃ y, matmul input op babysteps giantsteps = .ok y ∧
      ∀ other merged, other.merge encoded = .ok merged ∨ encoded.merge other = .ok merged →
        evaluateEncoded input merged base babysteps giantsteps = .ok y := by
  obtain ⟨grid, holds⟩ := encode_eq_ok h
  refine ⟨_, matmul_eq_ok hn input grid least, fun other merged hm => ?_⟩
  have kept : Bundle.Extends encoded merged := by
    rcases hm with hm | hm
    · exact Bundle.extends_merge_right hm
    · exact Bundle.extends_merge_left hm
  exact evaluateEncoded_of_encodes hn input grid (holds.extend kept)

theorem evaluateEncoded_merge_signed_steps :
    ∃ op : DiagonalOperator Int 4, ∃ encoded other merged y,
      op.toList = [⟨#v[3, 1, 4, 1]⟩, ⟨#v[5, 9, 2, 6]⟩, ⟨#v[5, 3, 5, 8]⟩, ⟨#v[9, 7, 9, 3]⟩] ∧
      encode "w" op (Scale.pow2 3) [0, -3] [2, -5] = .ok encoded ∧
      Bundle.insert ∅ ⟨"w_0", ⟨#v[6, 6, 6, 6]⟩, Scale.ofNat 7⟩ = .ok other ∧
      other.merge encoded = .ok merged ∧
      matmul ⟨#v[2, -7, 1, 8]⟩ op [0, -3] [2, -5] = .ok y ∧
      evaluateEncoded ⟨#v[2, -7, 1, 8]⟩ merged "w" [0, -3] [2, -5] = .ok y := by
  let op : DiagonalOperator Int 4 :=
    ⟨#[⟨#v[3, 1, 4, 1]⟩, ⟨#v[5, 9, 2, 6]⟩, ⟨#v[5, 3, 5, 8]⟩, ⟨#v[9, 7, 9, 3]⟩], by decide⟩
  obtain ⟨encoded, other, merged, h, hother, hmerged⟩ : ∃ encoded other merged,
      encode "w" op (Scale.pow2 3) [0, -3] [2, -5] = .ok encoded ∧
      Bundle.insert ∅ ⟨"w_0", ⟨#v[6, 6, 6, 6]⟩, Scale.ofNat 7⟩ = .ok other ∧
      other.merge encoded = .ok merged := ⟨_, _, _, rfl, rfl, rfl⟩
  obtain ⟨y, product, run⟩ := evaluateEncoded_merge_eq_matmul (by decide) ⟨#v[2, -7, 1, 8]⟩
    (by decide) h
  exact ⟨op, encoded, other, merged, y, rfl, h, hother, hmerged, product, run _ _ (.inl hmerged)⟩

end Merged
end SlotPacking.Circuit
