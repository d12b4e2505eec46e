import SlotPacking.Proofs.Assembly

/-!
What a program computes. On the packed image, the named weights of a channel give
the convolution of the image with its kernel.
-/
namespace SlotPacking
open Finset Result SlotVector Circuit
open scoped BigOperators

section Convolution
variable {R : Type} [CommRing R] {t : ModelTensors (Tensor R)} {image : Matrix R} {level : Nat}
  {model : Model R} {chain : PrimeChain} {program : Program R}

/-- A program runs every channel of the convolution: on its packed image, the named weights give the
convolution of the image at each output position and zero everywhere else, and the bias operand
adds the bias of the channel. -/
theorem assemble_runs_convolution (hm : Model.ofTensors t = .ok model)
    (h : assemble image level model chain = .ok program) {o : Nat}
    (ho : o < model.kernel.outChannels) :
    ∃ dims packed babysteps giantsteps y bias b,
      model.kernel.outputDims image.rows image.cols 3 = .ok dims ∧
      program.operands.get? "image" = some packed ∧
      Split.conv.babysteps = .ok babysteps ∧ Split.conv.giantsteps = .ok giantsteps ∧
      evaluateEncoded packed.values program.operands s!"conv_weight_{o}" babysteps giantsteps =
        .ok y ∧
      program.operands.get? s!"conv_bias_{o}" = some bias ∧ model.convBias[o]? = some b ∧
      (∀ r < dims.height, ∀ c < dims.width,
        y.slot (laneStride * (r * dims.width + c)) =
          ∑ kr ∈ range model.kernel.height, ∑ kc ∈ range model.kernel.width,
            model.convWeight.entry o (kr * model.kernel.width + kc) *
              image.entry (r * 3 + kr) (c * 3 + kc) ∧
        (y + bias.values).slot (laneStride * (r * dims.width + c)) =
          (∑ kr ∈ range model.kernel.height, ∑ kc ∈ range model.kernel.width,
            model.convWeight.entry o (kr * model.kernel.width + kc) *
              image.entry (r * 3 + kr) (c * 3 + kc)) + b) ∧
      ∀ i, (∀ r < dims.height, ∀ c < dims.width, i ≠ laneStride * (r * dims.width + c)) →
        y.slot i = 0 := by
  obtain ⟨a, ha⟩ := assemble_eq_ok.mp h
  have sized := Model.ofTensors_sized hm
  obtain ⟨b, hb⟩ : ∃ b, model.convBias[o]? = some b :=
    ⟨_, Array.getElem?_eq_getElem (sized.convBias.symm ▸ ho)⟩
  have holds := ((packConv_holds ha.conv).2 o b hb).extend ha.extends_conv
  obtain ⟨op, bias, hop, hrun, hbias, hlanes⟩ := holds.evaluate
  obtain ⟨dims, hdims, hpositions, hproduct, hzero⟩ := convRun_image hop sized.taps ha.packed
  refine ⟨dims, _, _, _, Split.conv.run op a.packed, bias, _, hdims, ha.image_stored,
    Split.conv_proper.babysteps_eq, Split.conv_proper.giantsteps_eq, hrun a.packed, hbias, hb,
    fun r hr c hc => ?_, fun i hi => ?_⟩
  · have hposition : r * dims.width + c < dims.height * dims.width := Matrix.flat_lt hr hc
    have value := hproduct _ hposition
    rw [sized.taps, sum_tapEntry, Matrix.flat_div hc, Matrix.flat_mod hc] at value
    refine ⟨value, ?_⟩
    rw [slot_add, hlanes _ (hposition.trans_le hpositions)]
    exact congrArg (· + _) value
  · apply hzero i
    intro l hl hil
    have hw : 0 < dims.width := Nat.pos_of_mul_pos_left (Nat.zero_lt_of_lt hl)
    have hr : l / dims.width < dims.height := Nat.div_lt_of_lt_mul (Nat.mul_comm _ _ ▸ hl)
    refine hi _ hr _ (Nat.mod_lt l hw) ?_
    rw [Nat.div_add_mod' l dims.width, hil]

theorem assemble_runs_convolution_small :
    ∃ model program packed babysteps giantsteps y bias,
      Model.ofTensors ⟨⟨[2, 2, 3], #[1, 2, 3, 4, 5, 6, 7, 8, 9, 10, 11, 12]⟩, ⟨[2], #[100, 200]⟩,
        ⟨[256, 64], Array.replicate 16384 0⟩, ⟨[64], Array.replicate 64 0⟩,
        ⟨[64, 10], Array.replicate 640 0⟩, ⟨[10], Array.replicate 10 (0 : Int)⟩⟩ = .ok model ∧
      assemble ⟨5, 6, Array.ofFn fun i : Fin 30 => (i : Int), by simp, by decide⟩ 8 model
        .standard = .ok program ∧
      program.operands.get? "image" = some packed ∧
      Split.conv.babysteps = .ok babysteps ∧ Split.conv.giantsteps = .ok giantsteps ∧
      evaluateEncoded packed.values program.operands s!"conv_weight_{1}" babysteps giantsteps =
        .ok y ∧
      program.operands.get? s!"conv_bias_{1}" = some bias ∧
      (y + bias.values).slot (laneStride * 3) = 1656 := by
  let model : Model Int :=
    { kernel := ⟨2, 2, 3⟩
      convWeight := ⟨2, 6, #[1, 2, 3, 4, 5, 6, 7, 8, 9, 10, 11, 12], rfl, by decide⟩
      convBias := #[100, 200]
      fc1Weight := ⟨256, 64, Array.replicate 16384 0, by simp, by decide⟩
      fc1Bias := Array.replicate 64 0
      fc2Weight := ⟨64, 10, Array.replicate 640 0, by simp, by decide⟩
      fc2Bias := Array.replicate 10 0 }
  have hm : Model.ofTensors ⟨⟨[2, 2, 3], #[1, 2, 3, 4, 5, 6, 7, 8, 9, 10, 11, 12]⟩,
      ⟨[2], #[100, 200]⟩, ⟨[256, 64], Array.replicate 16384 0⟩, ⟨[64], Array.replicate 64 0⟩,
      ⟨[64, 10], Array.replicate 640 0⟩, ⟨[10], Array.replicate 10 (0 : Int)⟩⟩ = .ok model := by
    simp [Model.ofTensors_eq_ok, Tensor.toMatrix_eq_ok, Tensor.toVector_eq_ok, Tensor.fill_eq_ok,
      Tensor.check_eq_ok, Tensor.volume, Word.bound, Model.kernel?, model]
  obtain ⟨program, h⟩ := @assemble_succeeds Int _
    ⟨5, 6, Array.ofFn fun i : Fin 30 => (i : Int), by simp, by decide⟩ 8 model .standard
    (Model.ofTensors_sized hm) ⟨2, 2⟩ (by decide) (by decide) (by decide)
    PrimeChain.standard_nonzero (by decide) (by decide)
  obtain ⟨dims, packed, babysteps, giantsteps, y, bias, b, hdims, himage, hb, hg, hy, hbias,
    hchannel, hvalues, -⟩ := assemble_runs_convolution hm h (o := 1) (by decide)
  refine ⟨model, program, packed, babysteps, giantsteps, y, bias, hm, h, himage, hb, hg, hy, hbias,
    ?_⟩
  obtain rfl : dims = ⟨2, 2⟩ := Except.ok.inj (hdims.symm.trans (by decide))
  obtain rfl : b = 200 := (Option.some.inj hchannel).symm
  have value := (hvalues 1 (by decide) 1 (by decide)).2
  exact value.trans (by decide +kernel)

end Convolution
end SlotPacking
