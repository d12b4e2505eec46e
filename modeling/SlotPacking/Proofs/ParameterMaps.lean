import SlotPacking.Proofs.TensorOutcome

/-!
Tensors with other values. The checks of parameters and images look at shapes and
counts only, so they accept and refuse the same tensors whatever the values are,
and pass the values on.
-/
namespace SlotPacking
variable {α β : Type}

/-- The same tensor with other values. -/
def Tensor.map (f : α → β) (t : Tensor α) : Tensor β := ⟨t.shape, t.data.map f⟩

/-- The same matrix with other entries. -/
def Matrix.map (f : α → β) (m : Matrix α) : Matrix β :=
  ⟨m.rows, m.cols, m.data.map f, Array.size_map.trans m.size_data, m.addressable⟩

/-- The same parameters with other values. -/
def Model.map (f : α → β) (model : Model α) : Model β where
  kernel := model.kernel
  convWeight := model.convWeight.map f
  convBias := model.convBias.map f
  fc1Weight := model.fc1Weight.map f
  fc1Bias := model.fc1Bias.map f
  fc2Weight := model.fc2Weight.map f
  fc2Bias := model.fc2Bias.map f

def ModelTensors.map (f : α → β) (t : ModelTensors α) : ModelTensors β :=
  ⟨f t.conv1Weight, f t.conv1Bias, f t.fc1Weight, f t.fc1Bias, f t.fc2Weight, f t.fc2Bias⟩

variable (f : α → β) (t : Tensor α)

theorem Matrix.ofArray?_map (rows cols : ℕ) (data : Array α) :
    ofArray? rows cols (data.map f) = (ofArray? rows cols data).map (map f) := by
  unfold ofArray?
  split
  next h =>
    rw [dif_pos (show data.size = _ ∧ _ from Array.size_map (f := f) ▸ h)]
    rfl
  next h =>
    rw [dif_neg (show ¬(data.size = _ ∧ _) from Array.size_map (f := f) ▸ h)]
    rfl

namespace Tensor

theorem check_map : (t.map f).check = t.check := by
  simp only [check, map, Array.size_map]

theorem fill_map (rows cols : ℕ) : (t.map f).fill rows cols = Matrix.map f <$> t.fill rows cols := by
  unfold fill map
  rw [Matrix.ofArray?_map, Array.size_map]
  cases Matrix.ofArray? rows cols t.data <;> rfl

theorem toMatrix_map (rows cols : ℕ) :
    (t.map f).toMatrix rows cols = Matrix.map f <$> t.toMatrix rows cols := by
  unfold toMatrix
  rw [check_map, fill_map, map_bind]
  split
  next h => rw [if_pos (show t.shape = _ from h)]
  next h =>
    rw [if_neg (show t.shape ≠ _ from h)]
    rfl

theorem toVector_map (length : ℕ) :
    (t.map f).toVector length = Array.map f <$> t.toVector length := by
  unfold toVector
  rw [check_map, map_bind]
  split
  next h =>
    rw [if_pos (show t.shape = _ from h)]
    rfl
  next h =>
    rw [if_neg (show t.shape ≠ _ from h)]
    rfl

end Tensor

theorem Model.about_map (name : String) (step : Except TensorFault α) :
    about name (f <$> step) = f <$> about name step := by
  cases step <;> rfl

theorem imageOfTensor_map : imageOfTensor (t.map f) = Matrix.map f <$> imageOfTensor t := by
  unfold imageOfTensor
  have shape : (t.map f).shape = t.shape := rfl
  rw [Tensor.check_map, map_bind, shape]
  congr 1
  funext _
  split
  · rw [Tensor.fill_map, Model.about_map]
  · rfl

/-- The check of parameters does not look at their values. -/
theorem Model.ofTensors_map (t : ModelTensors (Tensor α)) :
    ofTensors (t.map (Tensor.map f)) = Model.map f <$> ofTensors t := by
  have shape : (t.conv1Weight.map f).shape = t.conv1Weight.shape := rfl
  unfold ofTensors ModelTensors.map
  simp only [Tensor.check_map, Tensor.fill_map, Tensor.toMatrix_map, Tensor.toVector_map,
    about_map, map_bind, bind_map_left, shape]
  cases kernel? t.conv1Weight.shape <;> simp only [map_bind] <;> rfl

theorem Model.constantTensors_map (kernel : Kernel) (x : α) :
    (constantTensors kernel x).map (Tensor.map f) = constantTensors kernel (f x) := by
  simp only [constantTensors, ModelTensors.map, Tensor.map, Tensor.constant, Array.map_replicate]

end SlotPacking
