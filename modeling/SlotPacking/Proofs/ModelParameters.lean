import SlotPacking.Proofs.ModelTensors

/-!
Models as families of parameters. A model of the right sizes is determined by its
parameters one by one, every family of parameters is that of a model, and every
such model is one that the check accepts.
-/
namespace SlotPacking
variable {α : Type}

inductive Parameter where
  | convWeight (channel tap : Nat)
  | convBias (channel : Nat)
  | fc1Weight (input output : Nat)
  | fc1Bias (output : Nat)
  | fc2Weight (input output : Nat)
  | fc2Bias (output : Nat)
  deriving DecidableEq

namespace Parameter

def Of (kernel : Kernel) : Parameter → Prop
  | convWeight channel tap => channel < kernel.outChannels ∧ tap < kernel.height * kernel.width
  | convBias channel => channel < kernel.outChannels
  | fc1Weight input output => input < 256 ∧ output < 64
  | fc1Bias output => output < 64
  | fc2Weight input output => input < 64 ∧ output < 10
  | fc2Bias output => output < 10

/-- The value of a parameter in a model. -/
def value [Zero α] (model : Model α) : Parameter → α
  | convWeight channel tap => model.convWeight.entry channel tap
  | convBias channel => model.convBias.getD channel 0
  | fc1Weight input output => model.fc1Weight.entry input output
  | fc1Bias output => model.fc1Bias.getD output 0
  | fc2Weight input output => model.fc2Weight.entry input output
  | fc2Bias output => model.fc2Bias.getD output 0

end Parameter

namespace Model
variable {kernel : Kernel} {model model' : Model α}

/-- Sized models of one kernel with the same parameters are the same. -/
theorem ext_parameters [Zero α] (hm : model.Sized) (hm' : model'.Sized)
    (hkernel : model'.kernel = model.kernel)
    (h : ∀ p : Parameter, p.Of model.kernel → p.value model' = p.value model) :
    model' = model := by
  have convWeight : model'.convWeight = model.convWeight := by
    refine Matrix.ext_entry (by rw [hm'.channels, hm.channels, hkernel])
      (by rw [hm'.taps, hm.taps, hkernel]) fun o ho tap ht => ?_
    exact h (.convWeight o tap) ⟨hm.channels ▸ ho, hm.taps ▸ ht⟩
  have convBias : model'.convBias = model.convBias :=
    array_ext_getD (by rw [hm'.convBias, hm.convBias, hkernel]) fun o ho =>
      h (.convBias o) (ho.trans_eq hm.convBias)
  have fc1Weight : model'.fc1Weight = model.fc1Weight :=
    Matrix.ext_entry (by rw [hm'.fc1Rows, hm.fc1Rows]) (by rw [hm'.fc1Cols, hm.fc1Cols])
      fun f hf c hc => h (.fc1Weight f c) ⟨hm.fc1Rows ▸ hf, hm.fc1Cols ▸ hc⟩
  have fc1Bias : model'.fc1Bias = model.fc1Bias :=
    array_ext_getD (by rw [hm'.fc1Bias, hm.fc1Bias]) fun c hc =>
      h (.fc1Bias c) (hc.trans_eq hm.fc1Bias)
  have fc2Weight : model'.fc2Weight = model.fc2Weight :=
    Matrix.ext_entry (by rw [hm'.fc2Rows, hm.fc2Rows]) (by rw [hm'.fc2Cols, hm.fc2Cols])
      fun f hf c hc => h (.fc2Weight f c) ⟨hm.fc2Rows ▸ hf, hm.fc2Cols ▸ hc⟩
  have fc2Bias : model'.fc2Bias = model.fc2Bias :=
    array_ext_getD (by rw [hm'.fc2Bias, hm.fc2Bias]) fun c hc =>
      h (.fc2Bias c) (hc.trans_eq hm.fc2Bias)
  cases model
  cases model'
  simp_all

/-- The model of a family of parameters. -/
def ofParameters (kernel : Kernel)
    (hv : kernel.outChannels * (kernel.height * kernel.width) < Word.bound)
    (f : Parameter → α) : Model α where
  kernel := kernel
  convWeight := .ofEntries kernel.outChannels (kernel.height * kernel.width) hv
    fun o tap => f (.convWeight o tap)
  convBias := Array.ofFn fun o : Fin kernel.outChannels => f (.convBias o)
  fc1Weight := .ofEntries 256 64 (by decide) fun i o => f (.fc1Weight i o)
  fc1Bias := Array.ofFn fun o : Fin 64 => f (.fc1Bias o)
  fc2Weight := .ofEntries 64 10 (by decide) fun i o => f (.fc2Weight i o)
  fc2Bias := Array.ofFn fun o : Fin 10 => f (.fc2Bias o)

section OfParameters
variable {hv : kernel.outChannels * (kernel.height * kernel.width) < Word.bound}
  {f : Parameter → α}

theorem value_ofParameters [Zero α] {p : Parameter} (hp : p.Of kernel) :
    p.value (ofParameters kernel hv f) = f p := by
  cases p with
  | convWeight o tap => rw [Parameter.value, ofParameters, Matrix.entry_ofEntries hp.1 hp.2]
  | convBias o => rw [Parameter.value, ofParameters, getD_ofFn _ hp]
  | fc1Weight i o => rw [Parameter.value, ofParameters, Matrix.entry_ofEntries hp.1 hp.2]
  | fc1Bias o => rw [Parameter.value, ofParameters, getD_ofFn _ hp]
  | fc2Weight i o => rw [Parameter.value, ofParameters, Matrix.entry_ofEntries hp.1 hp.2]
  | fc2Bias o => rw [Parameter.value, ofParameters, getD_ofFn _ hp]

theorem sized_ofParameters (hout : 0 < kernel.outChannels) :
    (ofParameters kernel hv f).Sized where
  channels := rfl
  taps := rfl
  convBias := Array.size_ofFn
  outChannels_pos := hout
  fc1Rows := rfl
  fc1Cols := rfl
  fc1Bias := Array.size_ofFn
  fc2Rows := rfl
  fc2Cols := rfl
  fc2Bias := Array.size_ofFn

end OfParameters

/-- Every sized model whose kernel has taps is accepted. -/
theorem Sized.accepted (hm : model.Sized) (hh : 0 < model.kernel.height)
    (hw : 0 < model.kernel.width) : ∃ t, ofTensors t = .ok model := by
  have volume_eq : Tensor.volume [model.kernel.outChannels, model.kernel.height,
      model.kernel.width] = model.convWeight.rows * model.convWeight.cols := by
    simp [Tensor.volume, Nat.mul_assoc, hm.channels, hm.taps]
  have hout := hm.outChannels_pos
  have channels_lt : model.kernel.outChannels < Word.bound := by
    have := model.convWeight.addressable
    rw [hm.channels, hm.taps] at this
    exact (Nat.le_mul_of_pos_right _ (Nat.mul_pos hh hw)).trans_lt this
  have check := Tensor.check_eq_ok (t := ⟨[model.kernel.outChannels, model.kernel.height,
    model.kernel.width], model.convWeight.data⟩) |>.mpr ⟨by simp, by simp; omega,
      volume_eq.trans_lt model.convWeight.addressable,
      volume_eq.trans model.convWeight.size_data.symm⟩
  exact ⟨⟨_, ⟨[model.kernel.outChannels], model.convBias⟩, ⟨[256, 64], model.fc1Weight.data⟩,
      ⟨[64], model.fc1Bias⟩, ⟨[64, 10], model.fc2Weight.data⟩, ⟨[10], model.fc2Bias⟩⟩,
    ofTensors_eq_ok.mpr ⟨check, rfl, Tensor.fill_eq_ok.mpr ⟨hm.channels, hm.taps, rfl⟩,
      Tensor.stored_toVector hm.convBias hout channels_lt,
      Tensor.stored_toMatrix hm.fc1Rows hm.fc1Cols (by decide) (by decide),
      Tensor.stored_toVector hm.fc1Bias (by decide) (by decide),
      Tensor.stored_toMatrix hm.fc2Rows hm.fc2Cols (by decide) (by decide),
      Tensor.stored_toVector hm.fc2Bias (by decide) (by decide)⟩⟩

end Model
end SlotPacking
