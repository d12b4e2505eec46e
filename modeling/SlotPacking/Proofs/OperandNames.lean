import Mathlib
import SlotPacking.Layer

/-!
Names of operands. Numbers are written without an underscore, so the last two
underscores of a cell's name separate its steps from its base; different layers
and channels never share a name.
-/
namespace SlotPacking

theorem underscore_not_mem_text (i : Int) : '_' ∉ (toString i).toList := by
  change '_' ∉ i.repr.toList
  cases i with
  | ofNat n => simp [Int.repr]
  | negSucc n => simp [Int.repr]

/-- A list is cut at the first occurrence of a separator in only one way. -/
theorem cut_at_separator {α : Type} {a : α} {x y z w : List α} (hx : a ∉ x) (hy : a ∉ y)
    (h : x ++ a :: z = y ++ a :: w) : x = y ∧ z = w := by
  induction x generalizing y with
  | nil =>
    cases y with
    | nil => exact ⟨rfl, (List.cons.inj h).2⟩
    | cons c y => exact absurd (List.mem_cons.mpr (.inl (List.cons.inj h).1)) hy
  | cons b x ih =>
    cases y with
    | nil => exact absurd (List.mem_cons.mpr (.inl (List.cons.inj h).1.symm)) hx
    | cons c y =>
      obtain ⟨hbc, ht⟩ := List.cons.inj h
      obtain ⟨hxy, hzw⟩ := ih (fun m => hx (List.mem_cons_of_mem b m))
        (fun m => hy (List.mem_cons_of_mem c m)) ht
      exact ⟨by rw [hbc, hxy], hzw⟩

namespace Circuit
variable {base base' : String} {bs bs' gs gs' : Int}

theorem cellName_toList (base : String) (bs gs : Int) : (cellName base bs gs).toList =
    base.toList ++ '_' :: ((toString bs).toList ++ '_' :: (toString gs).toList) := by
  simp [cellName, toString]

/-- A name determines the base and both steps of its cell. -/
theorem cellName_inj :
    cellName base bs gs = cellName base' bs' gs' ↔ base = base' ∧ bs = bs' ∧ gs = gs' := by
  refine ⟨fun h => ?_, fun ⟨hb, hbs, hgs⟩ => by rw [hb, hbs, hgs]⟩
  have hl := congrArg (fun s : String => s.toList.reverse) h
  simp only [cellName_toList, List.reverse_append, List.reverse_cons, List.append_assoc,
    List.cons_append] at hl
  have text (i : Int) : '_' ∉ (toString i).toList.reverse := by
    simpa using underscore_not_mem_text i
  -- Read from the end, each step stops at the first underscore.
  obtain ⟨hg, hl⟩ := cut_at_separator (text gs) (text gs') hl
  obtain ⟨hb, hbase⟩ := cut_at_separator (text bs) (text bs') hl
  have text_inj {i j : Int} (he : (toString i).toList.reverse = (toString j).toList.reverse) :
      i = j :=
    Int.repr_injective (String.toList_inj.mp (List.reverse_injective he))
  exact ⟨String.toList_inj.mp (List.reverse_injective hbase), text_inj hb, text_inj hg⟩

end Circuit

/-- The names that a linear layer gives to its operands. -/
def LayerName (weightName biasName name : String) : Prop :=
  name = biasName ∨ ∃ bs gs, name = Circuit.cellName weightName bs gs

/-- The names of the operands of a channel. -/
abbrev ChannelName (channel : Nat) : String → Prop :=
  LayerName (convWeightName channel) (convBiasName channel)

theorem LayerName.starts {start : List Char} {weightName biasName name : String}
    (hw : start <+: weightName.toList) (hb : start <+: biasName.toList)
    (h : LayerName weightName biasName name) : start <+: name.toList := by
  rcases h with rfl | ⟨bs, gs, rfl⟩
  · exact hb
  · rw [Circuit.cellName_toList]
    exact hw.trans (List.prefix_append _ _)

/-- Names that start differently, over the same length, differ. -/
theorem ne_of_starts {s t : List Char} {name : String} (hl : s.length = t.length) (hne : s ≠ t)
    (hs : s <+: name.toList) (ht : t <+: name.toList) : False :=
  hne ((List.prefix_of_prefix_length_le hs ht hl.le).eq_of_length hl)

theorem convWeightName_toList (channel : Nat) : (convWeightName channel).toList =
    "conv_weight_".toList ++ channel.repr.toList := by
  simp [convWeightName, toString]

theorem convBiasName_toList (channel : Nat) : (convBiasName channel).toList =
    "conv_bias_".toList ++ channel.repr.toList := by
  simp [convBiasName, toString]

theorem convWeightName_inj {o p : Nat} (h : convWeightName o = convWeightName p) : o = p := by
  have hl := congrArg String.toList h
  rw [convWeightName_toList, convWeightName_toList, List.append_cancel_left_eq] at hl
  exact Nat.repr_injective (String.toList_inj.mp hl)

/-- A name with the start of a channel's weights is a weight of this channel. -/
theorem convWeight_channel {o p : Nat} {rest : String} {bs gs : Int}
    (h : s!"conv_weight_{o}_{rest}" = Circuit.cellName (convWeightName p) bs gs) : o = p := by
  have hl := congrArg String.toList h
  rw [Circuit.cellName_toList, convWeightName_toList] at hl
  have start : (s!"conv_weight_{o}_{rest}").toList =
      "conv_weight_".toList ++ (o.repr.toList ++ '_' :: rest.toList) := by
    simp [toString]
  rw [start, List.append_assoc, List.append_cancel_left_eq] at hl
  have text (i : Nat) : '_' ∉ i.repr.toList := underscore_not_mem_text i
  exact Nat.repr_injective (String.toList_inj.mp (cut_at_separator (text o) (text p) hl).1)

theorem convBiasName_inj {o p : Nat} (h : convBiasName o = convBiasName p) : o = p := by
  have hl := congrArg String.toList h
  rw [convBiasName_toList, convBiasName_toList, List.append_cancel_left_eq] at hl
  exact Nat.repr_injective (String.toList_inj.mp hl)

theorem convBiasName_ne_cellName (o p : Nat) (bs gs : Int) :
    convBiasName o ≠ Circuit.cellName (convWeightName p) bs gs := by
  intro h
  have hb : "conv_b".toList <+: (convBiasName o).toList := by simp [convBiasName_toList]
  have hw : "conv_w".toList <+: (convBiasName o).toList := by
    rw [h, Circuit.cellName_toList, convWeightName_toList]
    simp
  exact ne_of_starts (by simp) (by simp) hb hw

/-- No two channels share the name of an operand. -/
theorem ChannelName.unique {o p : Nat} {name : String} (ho : ChannelName o name)
    (hp : ChannelName p name) : o = p := by
  rcases ho with rfl | ⟨bs, gs, rfl⟩
  · rcases hp with h | ⟨bs, gs, h⟩
    · exact convBiasName_inj h
    · exact absurd h (convBiasName_ne_cellName o p bs gs)
  · rcases hp with h | ⟨bs', gs', h⟩
    · exact absurd h.symm (convBiasName_ne_cellName p o bs gs)
    · exact convWeightName_inj (Circuit.cellName_inj.mp h).1

theorem ChannelName.starts {o : Nat} {name : String} (h : ChannelName o name) :
    "conv".toList <+: name.toList := by
  refine LayerName.starts ?_ ?_ h
  · simp [convWeightName_toList]
  · simp [convBiasName_toList]

end SlotPacking
