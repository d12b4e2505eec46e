import Mathlib.Logic.Function.Basic
import SlotPacking.Proofs.ByteOrder
import SlotPacking.Proofs.EncodedCircuit
import SlotPacking.Proofs.JsonText

/-!
Bundles under whole sequences of calls. Operands are inserted, merged from other
bundles and encoded from operators, and any of these calls may fail, a merge with
part of its operands already in. Every call offers operands to one bundle, so
what one step keeps follows from what insertions keep.
-/
namespace SlotPacking

namespace Bundle
variable {α : Type} {n : Nat}

/-- The names are listed in the order of their bytes. -/
theorem names_increase (bundle : Bundle α n) :
    (bundle.names.map utf8Bytes).Pairwise (· < ·) := by
  rw [NameMap.names, List.map_map, List.pairwise_map]
  exact bundle.sorted.imp utf8Bytes_lt

end Bundle

theorem Circuit.mem_encode {α : Type} {n : Nat} {base : String} {op : DiagonalOperator α n}
    {scale : Scale} {babysteps giantsteps : List Int} {weights : Bundle α n}
    (h : encode base op scale babysteps giantsteps = .ok weights) {operand : Operand α n}
    (ho : operand ∈ weights.operands) :
    operand ∈ encodedOperands base op scale babysteps giantsteps := by
  have hinserts := (encode_inserts h).2
  have hmem : operand ∈ (Bundle.insertAll ∅ (encodedOperands base op scale babysteps
      giantsteps)).1.operands := by rwa [hinserts]
  exact (Bundle.mem_insertAll hmem).resolve_left List.not_mem_nil

/-- Bundles by number; all that calls work on. -/
abbrev Bundles (α : Type) (n : Nat) := Nat → Bundle α n

/-- A call that lets one bundle grow, by an operand, by those of another bundle, or by the weights
of an operator. -/
inductive BundleCall (α : Type) (n : Nat) where
  | insert (target : Nat) (operand : Operand α n)
  | merge (target source : Nat)
  | encode (target : Nat) (base : String) (op : DiagonalOperator α n) (scale : Scale)
      (babysteps giantsteps : List Int)

namespace Bundles
variable {α : Type} {n : Nat} {bundles : Bundles α n} {target i : Nat}
  {left : Bundle α n × Option Failure}

/-- One bundle replaced by what insertions leave, with the failure that stopped them. -/
def replace (bundles : Bundles α n) (target : Nat) (left : Bundle α n × Option Failure) :
    Bundles α n × Option Failure :=
  (Function.update bundles target left.1, left.2)

theorem replace_self : (bundles.replace target left).1 target = left.1 := Function.update_self ..

theorem replace_of_ne (h : i ≠ target) : (bundles.replace target left).1 i = bundles i :=
  Function.update_of_ne h ..

end Bundles

namespace BundleCall
variable {α : Type} {n : Nat}

/-- What a call leaves of the bundles, and its failure. Weights that cannot be encoded leave them
alone. -/
def apply (bundles : Bundles α n) : BundleCall α n → Bundles α n × Option Failure
  | insert target operand => bundles.replace target ((bundles target).insertAll [operand])
  | merge target source => bundles.replace target ((bundles target).absorb (bundles source))
  | encode target base op scale babysteps giantsteps =>
    match Circuit.encode base op scale babysteps giantsteps with
    | .ok weights => bundles.replace target ((bundles target).absorb weights)
    | .error failure => (bundles, some failure)

/-- The bundles after a sequence of calls on empty ones, whether they succeed or not. -/
def run (calls : List (BundleCall α n)) : Bundles α n :=
  calls.foldl (fun bundles call => (call.apply bundles).1) fun _ => ∅

/-- The operands that a call brings with it. -/
def supplied : BundleCall α n → List (Operand α n)
  | insert _ operand => [operand]
  | merge _ _ => []
  | encode _ base op scale babysteps giantsteps =>
    Circuit.encodedOperands base op scale babysteps giantsteps

section Step
variable {bundles : Bundles α n} {operands : List (Operand α n)} {operand : Operand α n}
  {target i : Nat}

theorem replace_extends :
    (bundles i).Extends ((bundles.replace target ((bundles target).insertAll operands)).1 i) := by
  obtain rfl | hi := eq_or_ne i target
  · rw [Bundles.replace_self]
    exact Bundle.insertAll_extends operands (bundles i)
  · rw [Bundles.replace_of_ne hi]
    exact .refl _

theorem mem_replace
    (h : operand ∈ ((bundles.replace target ((bundles target).insertAll operands)).1 i).operands) :
    operand ∈ operands ∨ ∃ j, operand ∈ (bundles j).operands := by
  obtain rfl | hi := eq_or_ne i target
  · rw [Bundles.replace_self] at h
    exact (Bundle.mem_insertAll h).symm.imp_right fun hold => ⟨i, hold⟩
  · rw [Bundles.replace_of_ne hi] at h
    exact .inr ⟨i, h⟩

/-- No call takes an operand away or changes it. -/
theorem apply_extends (call : BundleCall α n) :
    (bundles i).Extends ((call.apply bundles).1 i) := by
  cases call with
  | insert target operand => exact replace_extends
  | merge target source => exact replace_extends
  | encode target base op scale babysteps giantsteps =>
    rw [apply]
    split
    next => exact replace_extends
    next => exact .refl _

/-- After a call there is nothing in a bundle but what was in some bundle before or comes with the
call. -/
theorem mem_apply (call : BundleCall α n) (h : operand ∈ ((call.apply bundles).1 i).operands) :
    operand ∈ call.supplied ∨ ∃ j, operand ∈ (bundles j).operands := by
  cases call with
  | insert target operand => exact mem_replace h
  | merge target source =>
    rcases mem_replace h with hsource | hold
    · exact .inr ⟨source, hsource⟩
    · exact .inr hold
  | encode target base op scale babysteps giantsteps =>
    rw [apply] at h
    split at h
    next weights hw => exact (mem_replace h).imp_left (Circuit.mem_encode hw)
    next => exact .inr ⟨i, h⟩

/-- An insertion that fails has found its name taken, and leaves all bundles as they were. -/
theorem apply_insert_fails {left : Bundles α n} {failure : Failure}
    (h : (insert target operand).apply bundles = (left, some failure)) :
    left = bundles ∧ failure = .rejected (.duplicateOperand operand.name) ∧
      operand.name ∈ (bundles target).names := by
  rw [apply, Bundles.replace] at h
  cases hc : (bundles target).contains operand.name with
  | false =>
    simp [Bundle.insertAll, Bundle.insert_of_not_contains hc] at h
  | true =>
    simp only [Bundle.insertAll, Bundle.insert_of_contains hc, reject, Function.update_eq_self,
      Prod.mk.injEq, Option.some.injEq] at h
    obtain ⟨rfl, rfl⟩ := h
    rw [NameMap.contains_eq_isSome_get?, Option.isSome_iff_exists] at hc
    exact ⟨rfl, rfl, NameMap.mem_names.mpr hc⟩

end Step

theorem run_concat (calls : List (BundleCall α n)) (call : BundleCall α n) :
    run (calls ++ [call]) = (call.apply (run calls)).1 := by
  rw [run, List.foldl_append]
  rfl

/-- What is stored once stays through all further calls. -/
theorem run_extends (calls more : List (BundleCall α n)) (i : Nat) :
    (run calls i).Extends (run (calls ++ more) i) := by
  induction more using List.reverseRecOn with
  | nil =>
    rw [List.append_nil]
    exact .refl _
  | append_singleton more call ih =>
    rw [← List.append_assoc, run_concat]
    exact ih.trans (apply_extends call)

/-- Every operand of a bundle was brought by one of the calls. -/
theorem mem_run {calls : List (BundleCall α n)} {i : Nat} {operand : Operand α n}
    (h : operand ∈ (run calls i).operands) : ∃ call ∈ calls, operand ∈ call.supplied := by
  induction calls using List.reverseRecOn generalizing i with
  | nil => exact absurd h List.not_mem_nil
  | append_singleton calls call ih =>
    rw [run_concat] at h
    rcases mem_apply call h with hnew | ⟨j, hold⟩
    · exact ⟨call, List.mem_append_right _ (List.mem_singleton_self call), hnew⟩
    · obtain ⟨earlier, he, hs⟩ := ih hold
      exact ⟨earlier, List.mem_append_left _ he, hs⟩

/-- After any calls, each operand of a bundle stands under its own name and was brought by one of
the calls; the names are distinct and listed, and written, in the order of their bytes; further
calls keep all that is stored, and an insertion that fails changes nothing. -/
theorem run_invariant (calls : List (BundleCall Float n)) (i : Nat) :
    (∀ e ∈ (run calls i).entries, e.2.name = e.1 ∧ (run calls i).get? e.1 = some e.2 ∧
      ∃ call ∈ calls, e.2 ∈ call.supplied) ∧
    (run calls i).names.Nodup ∧
    ((run calls i).names.map utf8Bytes).Pairwise (· < ·) ∧
    (run calls i).toList.map (·.1) = (run calls i).names ∧
    Json.writeBundle "" (run calls i) = "\x7b" ++
      ",".intercalate ((run calls i).toList.map (Json.member Json.operandText)) ++ "\x7d" ∧
    (∀ more, (run calls i).Extends (run (calls ++ more) i)) ∧
    ∀ operand left failure, (insert i operand).apply (run calls) = (left, some failure) →
      left = run calls ∧ failure = .rejected (.duplicateOperand operand.name) ∧
        operand.name ∈ (run calls i).names := by
  refine ⟨fun e he => ⟨(run calls i).named e he, Bundle.get?_of_mem he,
    mem_run (List.mem_map_of_mem he)⟩, Bundle.names_nodup _, Bundle.names_increase _, rfl,
    Json.writeBundle_eq _, fun more => run_extends calls more i, ?_⟩
  intro operand left failure h
  exact apply_insert_fails h

/-- A merge that fails half way leaves what was stored, and so does an insertion after it. -/
theorem run_invariant_of_failing_merge :
    let old (name : String) : Operand Float 1 := ⟨name, ⟨#v[0.5]⟩, .ofNat 3⟩
    let new (name : String) : Operand Float 1 := ⟨name, ⟨#v[2.5]⟩, .ofNat 5⟩
    let calls := [insert 0 (old "m"), insert 1 (new "z"), insert 1 (new "m"), insert 1 (new "a")]
    let more := calls ++ [merge 0 1]
    ((merge 0 1).apply (run calls)).2 = some (.rejected (.duplicateOperand "m")) ∧
      (run calls 0).names = ["m"] ∧ (run more 0).names = ["a", "m"] ∧
      (run calls 0).Extends (run more 0) ∧ ((insert 0 (new "m")).apply (run more)).1 = run more := by
  intro old new calls more
  obtain ⟨-, -, -, -, -, kept, -⟩ := run_invariant calls 0
  obtain ⟨-, -, -, -, -, -, fails⟩ := run_invariant more 0
  have taken : ((insert 0 (new "m")).apply (run more)).2 =
      some (.rejected (.duplicateOperand "m")) := by decide
  exact ⟨by decide, rfl, by decide +kernel, kept _, (fails (new "m") _ _ (Prod.ext rfl taken)).1⟩

end BundleCall
end SlotPacking
