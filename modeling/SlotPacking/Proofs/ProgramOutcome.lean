import SlotPacking.Proofs.Assembly

/-!
Outcomes of an assembly. The parameters have been checked when they were loaded,
so only the level and the image can be refused: the level before anything is
packed, then the image, and then a level that the chain does not reach or that
does not last for all stages.
-/
namespace SlotPacking
open Result

section Outcome
variable {α : Type} [Zero α] {image : Matrix α} {level : Nat} {model : Model α}
  {chain : PrimeChain}

theorem assemble_zero : assemble image 0 model chain = reject (.invalidLevel 0) := rfl

/-- At a level, the image is the first thing that can be refused. -/
theorem assemble_image_error (h0 : 0 < level) {e : Failure}
    (h : packImage image model.kernel convStride = .error e) :
    assemble image level model chain = .error e := by
  obtain ⟨input, hinput, -⟩ := inputMetadata_succeeds h0
  rw [assemble, hinput, ok_bind, h, error_bind]

/-- With a packed image, a level without two moduli is found out by the first channel. -/
theorem assemble_level_error (hm : model.Sized) {packed : Slots α}
    (hpacked : packImage image model.kernel convStride = .ok packed) (h0 : 0 < level) {e : Failure}
    (h : chain.matrixPrimes level = .error e) : assemble image level model chain = .error e := by
  obtain ⟨-, -, htaps, -, -⟩ := packImage_eq_ok hpacked
  obtain ⟨input, hinput, rfl⟩ := inputMetadata_succeeds h0
  have hconv := packConv_error (hm.taps.trans_le htaps)
    (hm.convBias.trans hm.channels.symm) (hm.channels ▸ hm.outChannels_pos) h
  have hstart := @Bundle.insert_succeeds α slotCount ∅ ⟨Program.imageName, packed, input.scale⟩ rfl
  rw [assemble, hinput, ok_bind, hpacked, ok_bind, hstart, ok_bind, hconv, error_bind]

/-- How an assembly ends, from the level, the image and the length of the chain alone. -/
theorem assemble_status (hm : model.Sized) (hchain : chain.Nonzero) :
    (assemble image level model chain).map (fun _ => ()) =
      (if level = 0 then reject (.invalidLevel 0) else do
        let _ ← packImage image model.kernel convStride
        if level = 1 then reject (.invalidLevel 0)
        else if chain.length < level then reject (.levelOutOfRange level chain.length)
        else if level < 8 then reject (.invalidLevel 0)
        else .ok ()) := by
  by_cases h0 : level = 0
  · rw [h0, assemble_zero]
    rfl
  rw [if_neg h0]
  have hpos : 0 < level := Nat.pos_of_ne_zero h0
  cases hpacked : packImage image model.kernel convStride with
  | error e =>
    rw [assemble_image_error hpos hpacked]
    rfl
  | ok packed =>
    rw [ok_bind]
    split_ifs with h1 hn h8
    · rw [assemble_level_error hm hpacked hpos (h1 ▸ chain.matrixPrimes_at_one)]
      rfl
    · rw [assemble_level_error hm hpacked hpos (PrimeChain.matrixPrimes_beyond (by omega) hn)]
      rfl
    · rw [(assemble_spends hm hpacked hchain hpos (by omega)).short (by omega)]
      rfl
    · obtain ⟨program, hprogram, -⟩ :=
        (assemble_spends hm hpacked hchain hpos (by omega)).enough (by omega)
      rw [hprogram]
      rfl

/-- An assembly is refused for its level or for the size of its image, and for nothing else. -/
theorem assemble_error (hm : model.Sized) (hchain : chain.Nonzero)
    (hh : 0 < model.kernel.height) (hw : 0 < model.kernel.width) {e : Failure}
    (h : assemble image level model chain = .error e) :
    e = .rejected (.invalidLevel 0) ∨ e = .rejected (.levelOutOfRange level chain.length) ∨
      ∃ shape, model.kernel.misfit? image.rows image.cols convStride = some shape ∧
        e = .rejected (.unsupportedShape shape) := by
  have status := (map_eq_error.mpr h).symm.trans (assemble_status hm hchain)
  by_cases h0 : level = 0
  · rw [if_pos h0] at status
    exact .inl (Except.error.inj status)
  rw [if_neg h0] at status
  cases hpacked : packImage image model.kernel convStride with
  | error e' =>
    rw [hpacked] at status
    obtain rfl : e = e' := Except.error.inj status
    exact .inr (.inr (packImage_error (by decide) hh hw hpacked))
  | ok packed =>
    rw [hpacked, ok_bind] at status
    split_ifs at status with h1 hn h8
    · exact .inl (Except.error.inj status)
    · exact .inr (.inl (Except.error.inj status))
    · exact .inl (Except.error.inj status)

/-- Parameters that were accepted are assembled with every image that can be packed, at every level
from eight on that the chain reaches. Otherwise there is one error for each cause: an error is one
about the level or about the size of the image. A program takes seven levels. -/
theorem assemble_outcome {t : ModelTensors (Tensor α)} (hm : Model.ofTensors t = .ok model)
    (hchain : chain.Nonzero) (image : Matrix α) (level : Nat) :
    (assemble image level model chain).map (fun _ => ()) =
      (if level = 0 then reject (.invalidLevel 0) else do
        let _ ← packImage image model.kernel 3
        if level = 1 then reject (.invalidLevel 0)
        else if chain.length < level then reject (.levelOutOfRange level chain.length)
        else if level < 8 then reject (.invalidLevel 0)
        else .ok ()) ∧
    (∀ e, assemble image level model chain = .error e →
      e = .rejected (.invalidLevel 0) ∨ e = .rejected (.levelOutOfRange level chain.length) ∨
        ∃ shape, model.kernel.misfit? image.rows image.cols 3 = some shape ∧
          e = .rejected (.unsupportedShape shape)) ∧
    ∀ program, assemble image level model chain = .ok program →
      ∃ a : Assembly α, a.Computes image level model chain program ∧
        a.prediction.output.level + 7 = level := by
  have sized := Model.ofTensors_sized hm
  obtain ⟨hh, hw⟩ := Model.ofTensors_kernel_pos hm
  refine ⟨assemble_status sized hchain, fun e => assemble_error sized hchain hh hw,
    fun program h => ?_⟩
  obtain ⟨a, ha⟩ := assemble_eq_ok.mp h
  exact ⟨a, ha, ha.prediction_level⟩

theorem assemble_outcome_of_ones : ∃ model, Model.ofTensors (Model.constantTensors ⟨12, 2, 3⟩ 1) =
      .ok model ∧
    (∀ image : Matrix Int, image.rows = 5 → image.cols = 6 →
      assemble image 1 model .standard = reject (.invalidLevel 0) ∧
      assemble image 7 model .standard = reject (.invalidLevel 0) ∧
      assemble image 65 model .standard = reject (.levelOutOfRange 65 64)) ∧
    ∀ image : Matrix Int, image.rows = 1 → image.cols = 6 →
      assemble image 65 model .standard = rejectShape (.kernelTooLarge 2 3 1 6) := by
  obtain ⟨model, hm, hkernel⟩ := @Model.ofTensors_constant _ ⟨12, 2, 3⟩ (1 : Int)
    (by decide) (by decide) (by decide) (by decide)
  have status (image : Matrix Int) (level : Nat) :=
    (assemble_outcome hm PrimeChain.standard_nonzero image level).1
  have packed (image : Matrix Int) := @packImage_outcome _ _ image ⟨12, 2, 3⟩ 3
    (by decide) (by decide) (by decide)
  rw [hkernel] at status
  refine ⟨model, hm, fun image hr hc => ?_, fun image hr hc => ?_⟩
  · have fits := packed image
    rw [hr, hc] at fits
    obtain ⟨v, hv⟩ := fits
    have status := status image
    simp only [hv, ok_bind] at status
    exact ⟨map_eq_error.mp (status 1), map_eq_error.mp (status 7), map_eq_error.mp (status 65)⟩
  · have misfits := packed image
    rw [hr, hc] at misfits
    have status := status image 65
    rw [show packImage image ⟨12, 2, 3⟩ 3 = rejectShape (.kernelTooLarge 2 3 1 6) from misfits]
      at status
    exact map_eq_error.mp status

end Outcome
end SlotPacking
