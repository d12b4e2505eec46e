import SlotPacking.Proofs.BundleText
import SlotPacking.Proofs.ProgramScales
import SlotPacking.Proofs.RatioConversion

/-!
Scales of a program as floating-point numbers. Every modulus is a word, and each
stage multiplies and divides by a few of them, which moves the binary range of its
scale by their sizes. No scale falls below one or comes near the greatest number.
-/
namespace SlotPacking

/-- The rational lies between two powers of two. -/
structure WithinBits (low high : ℤ) (x : ℚ) : Prop where
  lower : 2 ^ low ≤ x
  upper : x ≤ 2 ^ high

namespace WithinBits
variable {a b c d : ℤ} {x y : ℚ}

theorem pos (h : WithinBits a b x) : 0 < x := lt_of_lt_of_le (zpow_pos two_pos a) h.lower

theorem mono (h : WithinBits a b x) (hlow : c ≤ a) (hhigh : b ≤ d) : WithinBits c d x :=
  ⟨(zpow_le_zpow_right₀ one_le_two hlow).trans h.lower,
    h.upper.trans (zpow_le_zpow_right₀ one_le_two hhigh)⟩

theorem pow_two (k : ℕ) : WithinBits k k (2 ^ k) := by
  rw [← zpow_natCast]
  exact ⟨le_rfl, le_rfl⟩

theorem mul (hx : WithinBits a b x) (hy : WithinBits c d y) :
    WithinBits (a + c) (b + d) (x * y) := by
  constructor
  · rw [zpow_add₀ two_ne_zero]
    exact mul_le_mul hx.lower hy.lower (zpow_nonneg zero_le_two c) hx.pos.le
  · rw [zpow_add₀ two_ne_zero]
    exact mul_le_mul hx.upper hy.upper hy.pos.le (zpow_nonneg zero_le_two b)

theorem div (hx : WithinBits a b x) (hy : WithinBits c d y) :
    WithinBits (a - d) (b - c) (x / y) := by
  constructor
  · rw [zpow_sub₀ two_ne_zero]
    exact div_le_div₀ hx.pos.le hx.lower hy.pos hy.upper
  · rw [zpow_sub₀ two_ne_zero]
    exact div_le_div₀ (zpow_nonneg zero_le_two b) hx.upper (zpow_pos two_pos c) hy.lower

end WithinBits

/-- Every modulus of the chain is a nonzero word. -/
def PrimeChain.Words (chain : PrimeChain) : Prop := ∀ p ∈ chain.primes, 0 < p ∧ p < Word.bound

theorem PrimeChain.Words.modulus {chain : PrimeChain} (h : chain.Words) {level : ℕ}
    (hpos : 0 < level) (hl : level ≤ chain.length) : WithinBits 0 64 (chain.modulus level) := by
  have hlt : level - 1 < chain.primes.size := by
    unfold length at hl
    omega
  have entry : chain.modulus level = (chain.primes[level - 1] : ℕ) := by
    rw [PrimeChain.modulus, Array.getD_eq_getD_getElem?, Array.getElem?_eq_getElem hlt,
      Option.getD_some]
  obtain ⟨hp, hbound⟩ := h _ (Array.getElem_mem hlt)
  rw [entry]
  constructor
  · rw [zpow_zero]
    exact_mod_cast hp
  · have : chain.primes[level - 1] ≤ 2 ^ 64 := hbound.le
    exact_mod_cast this

section Stages
variable {α : Type} [Zero α] {image : Matrix α} {level : Nat} {model : Model α} {chain : PrimeChain}
  {program : Program α} {a : Assembly α}

/-- The binary ranges of the scales of the stages. -/
theorem Assembly.Computes.stage_ranges (h : a.Computes image level model chain program)
    (hw : chain.Words) :
    WithinBits 72 136 a.conv.output.scale.value ∧ WithinBits 80 208 a.convSquare.scale.value ∧
      WithinBits 80 272 a.fc1.output.scale.value ∧ WithinBits 96 480 a.fc1Square.scale.value ∧
      WithinBits 96 544 a.prediction.output.scale.value := by
  have hl := h.levels.1
  have h7 := h.prediction_level
  have hprediction := a.prediction.output.level_pos
  have modulus (i : ℕ) (hi : i ≤ 7) : WithinBits 0 64 (chain.modulus (level - i)) :=
    hw.modulus (by omega) (by omega)
  have conv : WithinBits 72 136 a.conv.output.scale.value := by
    rw [h.conv_value]
    exact (WithinBits.pow_two 72).mul (modulus 1 (by decide))
  have convSquare : WithinBits 80 208 a.convSquare.scale.value := by
    rw [h.convSquare_value]
    exact ((WithinBits.pow_two 144).mul (modulus 1 (by decide))).div (modulus 2 (by decide))
  have fc1 : WithinBits 80 272 a.fc1.output.scale.value := by
    rw [h.fc1_value]
    exact convSquare.mul (modulus 4 (by decide))
  have fc1Square : WithinBits 96 480 a.fc1Square.scale.value := by
    -- One of the moduli that the squaring divides by is the one that the layer multiplied by.
    have split : a.fc1Square.scale.value =
        a.convSquare.scale.value * a.convSquare.scale.value * chain.modulus (level - 4) /
          chain.modulus (level - 5) := by
      have h4 := (modulus 4 (by decide)).pos.ne'
      have h5 := (modulus 5 (by decide)).pos.ne'
      rw [h.fc1Square_value, h.fc1_value]
      field_simp
    rw [split]
    exact ((convSquare.mul convSquare).mul (modulus 4 (by decide))).div (modulus 5 (by decide))
  have prediction : WithinBits 96 544 a.prediction.output.scale.value := by
    rw [h.prediction_value]
    exact fc1Square.mul (modulus 7 (by decide))
  exact ⟨conv, convSquare, fc1, fc1Square, prediction⟩

/-- The binary range of the scale of an operand. -/
theorem Assembly.Computes.operand_range (h : a.Computes image level model chain program)
    (hw : chain.Words) {name : String} {operand : Operand α slotCount}
    (hget : program.operands.get? name = some operand) :
    WithinBits 0 544 operand.scale.value := by
  obtain ⟨conv, -, fc1, -, prediction⟩ := h.stage_ranges hw
  have hl := h.levels.1
  have h7 := h.prediction_level
  have hprediction := a.prediction.output.level_pos
  have weights (i j : ℕ) (hi : i ≤ 7) (hj : j ≤ 7) :
      WithinBits 0 544 (chain.modulus (level - i) * chain.modulus (level - j)) :=
    ((hw.modulus (by omega) (by omega)).mul (hw.modulus (by omega) (by omega))).mono le_rfl
      (by decide)
  rcases h.operand_scale hget with ⟨-, hs⟩ | ⟨o, ⟨-, hs⟩ | ⟨bs, gs, -, hs⟩⟩ |
    (⟨-, hs⟩ | ⟨bs, gs, -, hs⟩) | (⟨-, hs⟩ | ⟨bs, gs, -, hs⟩)
  · rw [hs, h.input_value]
    exact (WithinBits.pow_two 72).mono (by decide) (by decide)
  · rw [hs]
    exact conv.mono (by decide) (by decide)
  · rw [hs]
    exact weights 0 1 (by decide) (by decide)
  · rw [hs]
    exact fc1.mono (by decide) (by decide)
  · rw [hs]
    exact weights 3 4 (by decide) (by decide)
  · rw [hs]
    exact prediction.mono (by decide) (by decide)
  · rw [hs]
    exact weights 6 7 (by decide) (by decide)

end Stages

namespace Scale

/-- The scale lies between one and `2 ^ 544`, and its floating-point number is finite, nearest to it
and no less than one. -/
structure Usable (s : Scale) : Prop where
  one_le : 1 ≤ s.value
  le_bound : s.value ≤ 2 ^ 544
  finite : s.toFloat.isFinite = true
  nearest : Binary64.IsNearest s.toFloat s.value
  one_le_toFloat : (1.0 : Float) ≤ s.toFloat

variable {s : Scale}

theorem toFloat_one : (ofNat 1).toFloat = 1.0 := by
  have bits : Binary64.nearestBits 1 1 = 0x3ff0000000000000 := by decide +kernel
  rw [toFloat_eq_nearest]
  apply Float.toBits_inj.mp
  apply UInt64.toNat_inj.mp
  exact (Binary64.toBits_nearest 1 1).trans bits

theorem usable_of_withinBits (h : WithinBits 0 544 s.value) : s.Usable := by
  have lower : 1 ≤ s.value := by simpa using h.lower
  have upper : s.value ≤ 2 ^ 544 := by
    have := h.upper
    rwa [show (544 : ℤ) = (544 : ℕ) from rfl, zpow_natCast] at this
  have threshold : (2 : ℚ) ^ 544 < 2 ^ 1024 - 2 ^ 970 :=
    Binary64.lt_overflow (pow_le_pow_right₀ one_le_two (by decide))
  have nearest := Binary64.isNearest_nearest s.den_pos (upper.trans_lt threshold)
  have one : (ofNat 1).value ≤ s.value := by simpa using lower
  rw [← toFloat_eq_nearest] at nearest
  refine ⟨lower, upper, nearest.finite, nearest, ?_⟩
  rw [← toFloat_one, toFloat_eq_nearest, toFloat_eq_nearest]
  exact Binary64.nearest_mono (ofNat 1).den_pos s.den_pos one

/-- The token of a usable scale is a positive numeral. -/
theorem Usable.token (h : s.Usable) : ∃ n, Json.floatToken s.toFloat = .number n ∧
    n.Denotes s.toFloat ∧ n.negative = false ∧ 0 < n.exactMagnitude := by
  obtain ⟨n, hn, denotes⟩ := Json.numberToken_reads h.finite
  have magnitude : s.toFloat.toBits.toNat < Binary64.signBit := by
    rw [toFloat_eq_nearest, Binary64.toBits_nearest]
    exact (Nat.min_le_right _ _).trans_lt (by decide)
  have rounds := denotes.rounds
  rw [Nat.mod_eq_of_lt magnitude] at rounds
  have positive : s.toFloat.toBits.toNat ≠ 0 := by
    rw [toFloat_eq_nearest]
    intro hzero
    have small : s.value ≤ 1 / 2 ^ 1075 :=
      (Binary64.toBits_nearest_eq_zero_iff s.den_pos).mp hzero
    have least : (1 : ℚ) / 2 ^ 1075 < 1 :=
      (div_lt_one (by positivity)).mpr (one_lt_pow₀ one_lt_two (by decide))
    exact (h.one_le.trans small).not_gt least
  have nonneg : 0 ≤ n.exactMagnitude := by
    unfold Json.Numeral.exactMagnitude
    positivity
  refine ⟨n, by rw [Json.floatToken, hn], denotes, ?_, lt_of_le_of_ne nonneg fun hzero => ?_⟩
  · rw [← Bool.not_eq_true, denotes.sign]
    exact magnitude.not_ge
  · rw [← hzero, ← Binary64.value_zero] at rounds
    exact positive (rounds.unique (Binary64.Rounds.self 0))

end Scale

section Program
variable {image : Matrix Float} {level : Nat} {model : Model Float} {chain : PrimeChain}
  {program : Program Float}

/-- Every operand and every stage of a program has a usable scale, and the number that is written
with an operand is a positive numeral that denotes the floating-point number of its scale. -/
theorem assemble_scales_usable (hw : chain.Words)
    (h : assemble image level model chain = .ok program) :
    (∀ name operand, program.operands.get? name = some operand → operand.scale.Usable ∧
      ∃ n behind, Json.Token.scan (Json.writeOperand "" operand).toList =
          [.openBrace, .string (some "scale"), .colon, .string (some operand.scale.text), .comma,
            .string (some "scale_f64"), .colon, .number n] ++ behind ∧
        n.Denotes operand.scale.toFloat ∧ n.negative = false ∧ 0 < n.exactMagnitude) ∧
    ∀ e ∈ program.outputScales.entries, e.2.Usable := by
  obtain ⟨a, ha⟩ := assemble_eq_ok.mp h
  constructor
  · intro name operand hget
    have usable := Scale.usable_of_withinBits (ha.operand_range hw hget)
    obtain ⟨n, hn, denotes⟩ := usable.token
    have tokens : Json.Token.scan (Json.writeOperand "" operand).toList =
        Json.operandTokens operand := (Json.lexes_operand operand).scan_eq
    rw [Json.operandTokens, hn] at tokens
    exact ⟨usable, n, _, tokens, denotes⟩
  · obtain ⟨conv, convSquare, fc1, fc1Square, prediction⟩ := ha.stage_ranges hw
    rw [ha.outputScales, a.outputScales_entries, Assembly.scales]
    simp only [List.forall_mem_cons, List.not_mem_nil, false_implies, implies_true, and_true]
    refine ⟨Scale.usable_of_withinBits (conv.mono ?_ ?_),
      Scale.usable_of_withinBits (convSquare.mono ?_ ?_),
      Scale.usable_of_withinBits (fc1.mono ?_ ?_),
      Scale.usable_of_withinBits (fc1Square.mono ?_ ?_),
      Scale.usable_of_withinBits (prediction.mono ?_ ?_)⟩ <;> decide

/-- A chain of the least and the greatest moduli that a word can hold. -/
theorem assemble_scales_usable_extreme : ∃ model program,
    Model.ofTensors (Model.constantTensors ⟨12, 2, 3⟩ (1 : Float)) = .ok model ∧
    (⟨#[1, 1, Word.bound - 1, 1, Word.bound - 1, Word.bound - 1, 1, 1]⟩ : PrimeChain).Words ∧
    assemble (⟨5, 6, Array.replicate 30 1, by simp, by decide⟩ : Matrix Float) 8 model
      ⟨#[1, 1, Word.bound - 1, 1, Word.bound - 1, Word.bound - 1, 1, 1]⟩ = .ok program ∧
    ∀ e ∈ program.outputScales.entries, e.2.Usable := by
  have words : (⟨#[1, 1, Word.bound - 1, 1, Word.bound - 1, Word.bound - 1, 1, 1]⟩ :
      PrimeChain).Words := by
    unfold PrimeChain.Words
    decide
  obtain ⟨model, program, hm, -, h⟩ := @exists_assemble_ok Float _
    ⟨5, 6, Array.replicate 30 1, by simp, by decide⟩ 8
    ⟨#[1, 1, Word.bound - 1, 1, Word.bound - 1, Word.bound - 1, 1, 1]⟩ ⟨12, 2, 3⟩ 1 (by decide)
    (by decide) (by decide) (by decide) (by decide) (fun p hp => (words p hp).1) (by decide)
    (by decide)
  exact ⟨model, program, hm, words, h, (assemble_scales_usable words h).2⟩

end Program
end SlotPacking
