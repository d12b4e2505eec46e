import SlotPacking.Proofs.ConvLayer

/-!
Packed convolutions. Every channel brings its weights and its bias under names
of its own, and merging the next channel keeps them, so the bundle of a packed
convolution runs each of its channels.
-/
namespace SlotPacking
open Result SlotVector Circuit SlotPacking.Bundle

section Channels
variable {α : Type} [Zero α] {input : Metadata} {kernels : Matrix α} {chain : PrimeChain}

/-- The layer of a channel. -/
def channelLayer (channel : Nat) (op : DiagonalOperator α slotCount) (bias : Slots α) :
    LinearLayer α :=
  ⟨convWeightName channel, convBiasName channel, op, bias, Split.conv.babyList,
    Split.conv.giantList⟩

theorem packChannel_eq_ok {channel : Nat} {b : α} {out : PackedLayer α}
    (h : packChannel input kernels chain channel b = .ok out) :
    ∃ op bias, DiagonalOperator.conv kernels channel = .ok op ∧
      packBias #[b] 1 imageLanes = .ok bias ∧
      packLinear (channelLayer channel op bias) input chain = .ok out := by
  obtain ⟨op, hop, h⟩ := bind_eq_ok.mp h
  obtain ⟨bias, hbias, h⟩ := bind_eq_ok.mp h
  rw [Split.conv_proper.babysteps_eq, Split.conv_proper.giantsteps_eq, ok_bind, ok_bind] at h
  exact ⟨op, bias, hop, hbias, h⟩

/-- The channels of a layer are packed one by one, and each stays in the bundle. -/
theorem packChannels_eq_ok {bias : List α} {channel : Nat} {packed out : PackedLayer α}
    (h : packChannels input kernels chain packed channel bias = .ok out) :
    Extends packed.operands out.operands ∧
      ∀ i b, bias[i]? = some b → ∃ next,
        packChannel input kernels chain (channel + i) b = .ok next ∧
          Extends next.operands out.operands := by
  induction bias generalizing packed channel with
  | nil =>
    obtain rfl : packed = out := Except.ok.inj h
    exact ⟨.refl _, by simp⟩
  | cons first rest ih =>
    obtain ⟨next, hnext, h⟩ := bind_eq_ok.mp h
    obtain ⟨operands, hmerge, h⟩ := bind_eq_ok.mp h
    obtain ⟨hextends, hrest⟩ := ih h
    refine ⟨(extends_merge_left hmerge).trans hextends, fun i b hi => ?_⟩
    cases i with
    | zero =>
      obtain rfl : first = b := by simpa using hi
      exact ⟨next, hnext, (extends_merge_right hmerge).trans hextends⟩
    | succ i =>
      have := hrest i b (by simpa using hi)
      rwa [Nat.add_assoc, Nat.add_comm 1 i] at this

/-- A convolution packs a first channel and then the others. -/
theorem packConv_eq_ok {bias : Array α} {out : PackedLayer α}
    (h : packConv input kernels bias chain = .ok out) : bias.size = kernels.rows ∧
      ∃ b rest first, bias.toList = b :: rest ∧ packChannel input kernels chain 0 b = .ok first ∧
        packChannels input kernels chain first 1 rest = .ok out := by
  unfold packConv at h
  split at h
  next hs =>
    split at h
    next => simp at h
    next b rest hbias =>
      obtain ⟨first, hfirst, h⟩ := bind_eq_ok.mp h
      exact ⟨hs, b, rest, first, hbias, hfirst, h⟩
  next => simp at h

theorem packConv_channel {bias : Array α} {out : PackedLayer α}
    (h : packConv input kernels bias chain = .ok out) {o : Nat} {b : α} (hb : bias[o]? = some b) :
    ∃ next, packChannel input kernels chain o b = .ok next ∧
      Extends next.operands out.operands := by
  obtain ⟨-, first, rest, packed, hbias, hpacked, h⟩ := packConv_eq_ok h
  obtain ⟨hextends, hrest⟩ := packChannels_eq_ok h
  rw [← Array.getElem?_toList, hbias] at hb
  cases o with
  | zero =>
    obtain rfl : first = b := by simpa using hb
    exact ⟨packed, hpacked, hextends⟩
  | succ o => exact Nat.add_comm 1 o ▸ hrest o b (by simpa using hb)

section Output

theorem packChannel_output {channel : Nat} {b : α} {out : PackedLayer α}
    (h : packChannel input kernels chain channel b = .ok out) :
    input.level ≤ chain.length ∧ out.output.level + 1 = input.level ∧
      out.output.scale.value = input.scale.value * chain.modulus (input.level - 1) := by
  obtain ⟨_, _, -, -, h⟩ := packChannel_eq_ok h
  exact packLinear_output h

/-- All channels give the same metadata. -/
theorem packChannel_output_eq {o p : Nat} {b c : α} {out out' : PackedLayer α}
    (h : packChannel input kernels chain o b = .ok out)
    (h' : packChannel input kernels chain p c = .ok out') : out.output = out'.output := by
  obtain ⟨-, hl, hs⟩ := packChannel_output h
  obtain ⟨-, hl', hs'⟩ := packChannel_output h'
  exact Metadata.ext_value (hs.trans hs'.symm) (by omega)

theorem packChannels_output {bias : List α} {channel o : Nat} {b : α}
    {packed out next : PackedLayer α}
    (h : packChannels input kernels chain packed channel bias = .ok out)
    (hnext : packChannel input kernels chain o b = .ok next)
    (hpacked : packed.output = next.output) : out.output = next.output := by
  induction bias generalizing packed channel with
  | nil =>
    obtain rfl : packed = out := Except.ok.inj h
    exact hpacked
  | cons first rest ih =>
    obtain ⟨last, hlast, h⟩ := bind_eq_ok.mp h
    obtain ⟨operands, _, h⟩ := bind_eq_ok.mp h
    have same : last.output = next.output := packChannel_output_eq hlast hnext
    exact ih h same

/-- A convolution gives what each of its channels gives. -/
theorem packConv_output_eq {bias : Array α} {out next : PackedLayer α} {o : Nat} {b : α}
    (h : packConv input kernels bias chain = .ok out)
    (hnext : packChannel input kernels chain o b = .ok next) : out.output = next.output := by
  obtain ⟨-, _, _, first, -, hfirst, h⟩ := packConv_eq_ok h
  exact packChannels_output h hnext (packChannel_output_eq hfirst hnext)

theorem packConv_output {bias : Array α} {out : PackedLayer α}
    (h : packConv input kernels bias chain = .ok out) :
    input.level ≤ chain.length ∧ out.output.level + 1 = input.level ∧
      out.output.scale.value = input.scale.value * chain.modulus (input.level - 1) := by
  obtain ⟨-, _, _, first, -, hfirst, -⟩ := packConv_eq_ok h
  rw [packConv_output_eq h hfirst]
  exact packChannel_output hfirst

end Output

section Names

/-- The names of the operands of a channel. -/
def channelNames (channel : Nat) : List String :=
  convBiasName channel ::
    cellNames (convWeightName channel) Split.conv.babyList Split.conv.giantList

theorem packChannel_names {channel : Nat} {b : α} {out : PackedLayer α}
    (h : packChannel input kernels chain channel b = .ok out) :
    out.operands.names.Perm (channelNames channel) := by
  obtain ⟨_, _, -, -, h⟩ := packChannel_eq_ok h
  exact packLinear_names h

theorem packChannels_names {bias : List α} {channel : Nat} {packed out : PackedLayer α}
    (h : packChannels input kernels chain packed channel bias = .ok out) :
    out.operands.names.Perm
      (packed.operands.names ++ (List.range' channel bias.length).flatMap channelNames) := by
  induction bias generalizing packed channel with
  | nil =>
    obtain rfl : packed = out := Except.ok.inj h
    simp
  | cons first rest ih =>
    obtain ⟨next, hnext, h⟩ := bind_eq_ok.mp h
    obtain ⟨operands, hmerge, h⟩ := bind_eq_ok.mp h
    have merged := (merge_names hmerge).trans ((packChannel_names hnext).append_left _)
    rw [List.length_cons, List.range'_succ, List.flatMap_cons, ← List.append_assoc]
    exact (ih h).trans (merged.append_right _)

/-- A packed convolution has the names of its channels. -/
theorem packConv_names {bias : Array α} {out : PackedLayer α}
    (h : packConv input kernels bias chain = .ok out) :
    out.operands.names.Perm ((List.range bias.size).flatMap channelNames) := by
  obtain ⟨-, b, rest, first, hbias, hfirst, h⟩ := packConv_eq_ok h
  have hsize : bias.size = rest.length + 1 := by
    rw [← Array.length_toList, hbias, List.length_cons]
  rw [hsize, List.range_eq_range', List.range'_succ, List.flatMap_cons]
  exact (packChannels_names h).trans ((packChannel_names hfirst).append_right _)

end Names

/-- A packed convolution holds the layer of each channel. -/
theorem packConv_stored {bias : Array α} {out : PackedLayer α}
    (h : packConv input kernels bias chain = .ok out) {o : Nat} {b : α} (hb : bias[o]? = some b) :
    ∃ op packed weightScale, DiagonalOperator.conv kernels o = .ok op ∧
      packBias #[b] 1 imageLanes = .ok packed ∧
      weightScale.value = chain.modulus input.level * chain.modulus (input.level - 1) ∧
      (channelLayer o op packed).StoredIn out.operands weightScale out.output.scale := by
  obtain ⟨next, hnext, hextends⟩ := packConv_channel h hb
  obtain ⟨op, packed, hop, hpacked, hlinear⟩ := packChannel_eq_ok hnext
  obtain ⟨weightScale, hvalue, stored⟩ := packLinear_stored hlinear
  rw [packConv_output_eq h hnext]
  exact ⟨op, packed, weightScale, hop, hpacked, hvalue, stored.extend hextends⟩

/-- The bundle holds the operands of a channel: its encoded operator, and its bias on all lanes of
the first group. -/
def HoldsChannel (bundle : Bundle α slotCount) (kernels : Matrix α) (channel : Nat) (b : α) :
    Prop :=
  ∃ op scale operand, DiagonalOperator.conv kernels channel = .ok op ∧
    Encodes bundle (convWeightName channel) op scale Split.conv.babyList Split.conv.giantList ∧
    bundle.get? (convBiasName channel) = some operand ∧
    ∀ l < imageLanes, operand.values.slot (laneStride * l) = b

/-- A packed convolution holds every channel. -/
theorem packConv_holds {bias : Array α} {out : PackedLayer α}
    (h : packConv input kernels bias chain = .ok out) :
    bias.size = kernels.rows ∧
      ∀ o b, bias[o]? = some b → HoldsChannel out.operands kernels o b := by
  refine ⟨(packConv_eq_ok h).1, fun o b hb => ?_⟩
  obtain ⟨op, packed, _, hop, hpacked, -, stored⟩ := packConv_stored h hb
  refine ⟨op, _, _, hop, stored.weights, stored.bias, fun l hl => ?_⟩
  rw [channelLayer, packBias_lane hpacked hl, Nat.mod_one]
  rfl

theorem HoldsChannel.extend {old new : Bundle α slotCount} {channel : Nat} {b : α}
    (h : HoldsChannel old kernels channel b) (he : Extends old new) :
    HoldsChannel new kernels channel b := by
  obtain ⟨op, scale, operand, hop, hencodes, hbias, hlanes⟩ := h
  exact ⟨op, scale, operand, hop, hencodes.extend he, he _ _ hbias, hlanes⟩

/-- Packing a channel of the kernels is packing a layer on a proper grid. -/
theorem packChannel_eq_packLinear {channel : Nat} (hcols : kernels.cols ≤ imageLanes)
    (hr : channel < kernels.rows) (b : α) : ∃ op bias, (channelLayer channel op bias).Encodable ∧
      packChannel input kernels chain channel b =
        packLinear (channelLayer channel op bias) input chain := by
  obtain ⟨op, hop⟩ := DiagonalOperator.conv_succeeds hcols hr
  obtain ⟨-, -, hcount, -⟩ := DiagonalOperator.conv_eq_ok hop
  obtain ⟨bias, hbias⟩ := packBias_succeeds Nat.one_pos (show #[b].size ≤ 1 from le_rfl)
    (show groupWidth / laneStride * laneStride ≤ slotCount by decide)
  refine ⟨op, bias, Split.conv_proper.encodable hcount (convBiasName_ne_cellName channel channel)
    bias, ?_⟩
  rw [packChannel, hop, ok_bind, hbias, ok_bind, Split.conv_proper.babysteps_eq, ok_bind,
    Split.conv_proper.giantsteps_eq, ok_bind]
  rfl

theorem packChannel_succeeds {channel : Nat} (hcols : kernels.cols ≤ imageLanes)
    (hr : channel < kernels.rows) (hchain : chain.Nonzero) (h2 : 2 ≤ input.level)
    (hl : input.level ≤ chain.length) (b : α) :
    ∃ out, packChannel input kernels chain channel b = .ok out ∧
      out.output.level + 1 = input.level ∧ out.operands.NamedBy (ChannelName channel) := by
  obtain ⟨op, bias, encodable, heq⟩ := packChannel_eq_packLinear hcols hr b
  rw [heq]
  exact packLinear_succeeds encodable hchain h2 hl

theorem packChannel_error {channel : Nat} (hcols : kernels.cols ≤ imageLanes)
    (hr : channel < kernels.rows) {e : Failure} (h : chain.matrixPrimes input.level = .error e)
    (b : α) : packChannel input kernels chain channel b = .error e := by
  obtain ⟨op, bias, encodable, heq⟩ := packChannel_eq_packLinear hcols hr b
  rw [heq, packLinear_error encodable.babysteps_ne_nil encodable.giantsteps_ne_nil h]

/-- Channels have names of their own, so they are packed one after another. -/
theorem packChannels_succeeds {bias : List α} {channel : Nat} {packed : PackedLayer α}
    (hcols : kernels.cols ≤ imageLanes) (hr : channel + bias.length ≤ kernels.rows)
    (hchain : chain.Nonzero) (h2 : 2 ≤ input.level) (hl : input.level ≤ chain.length)
    (hlev : packed.output.level + 1 = input.level)
    (hnames : packed.operands.NamedBy fun name => ∃ o < channel, ChannelName o name) :
    ∃ out, packChannels input kernels chain packed channel bias = .ok out ∧
      out.output.level + 1 = input.level ∧
      out.operands.NamedBy fun name => ∃ o, ChannelName o name := by
  induction bias generalizing packed channel with
  | nil => exact ⟨packed, rfl, hlev, hnames.mono fun _ ⟨o, _, h⟩ => ⟨o, h⟩⟩
  | cons b rest ih =>
    rw [List.length_cons] at hr
    obtain ⟨next, hnext, hnlev, hnnames⟩ :=
      packChannel_succeeds hcols (show channel < kernels.rows by omega) hchain h2 hl b
    obtain ⟨operands, hmerge⟩ := merge_succeeds hnames hnnames fun name ⟨o, ho, h⟩ hc =>
      absurd (h.unique hc) (by omega)
    have hunion : operands.NamedBy fun name => ∃ o < channel + 1, ChannelName o name :=
      merge_namedBy hmerge (hnames.mono fun _ ⟨o, ho, h⟩ => ⟨o, by omega, h⟩)
        (hnnames.mono fun _ h => ⟨channel, by omega, h⟩)
    obtain ⟨out, hout, hlev, hnames⟩ :=
      @ih (channel + 1) ⟨operands, next.output⟩ (by omega) hnlev hunion
    exact ⟨out, by rw [packChannels, hnext, ok_bind, hmerge, ok_bind, hout], hlev, hnames⟩

theorem packConv_succeeds {bias : Array α} (hcols : kernels.cols ≤ imageLanes)
    (hs : bias.size = kernels.rows) (h0 : 0 < kernels.rows) (hchain : chain.Nonzero)
    (h2 : 2 ≤ input.level) (hl : input.level ≤ chain.length) :
    ∃ out, packConv input kernels bias chain = .ok out ∧ out.output.level + 1 = input.level ∧
      out.operands.NamedBy fun name => ∃ o, ChannelName o name := by
  have hsize : bias.toList.length = kernels.rows := hs
  rw [packConv, if_pos hs]
  cases hbias : bias.toList with
  | nil =>
    rw [hbias, List.length_nil] at hsize
    omega
  | cons b rest =>
    rw [hbias, List.length_cons] at hsize
    obtain ⟨first, hfirst, hlev, hnames⟩ := packChannel_succeeds hcols h0 hchain h2 hl b
    obtain ⟨out, hout, hlev, hnames⟩ := packChannels_succeeds hcols
      (show 1 + rest.length ≤ kernels.rows by omega) hchain h2 hl hlev
      (hnames.mono fun _ h => ⟨0, Nat.one_pos, h⟩)
    exact ⟨out, by simp only [hfirst, ok_bind, hout], hlev, hnames⟩

theorem packConv_error {bias : Array α} (hcols : kernels.cols ≤ imageLanes)
    (hs : bias.size = kernels.rows) (h0 : 0 < kernels.rows) {e : Failure}
    (h : chain.matrixPrimes input.level = .error e) :
    packConv input kernels bias chain = .error e := by
  rw [packConv, if_pos hs]
  cases hbias : bias.toList with
  | nil =>
    have hsize : bias.toList.length = kernels.rows := hs
    rw [hbias, List.length_nil] at hsize
    omega
  | cons b rest => simp only [packChannel_error hcols h0 h, error_bind]

end Channels

section Evaluation
variable {R : Type} [CommRing R] {kernels : Matrix R} {channel : Nat} {b : R}
  {bundle : Bundle R slotCount}

/-- On a bundle that holds a channel, the named circuit is the circuit of the channel. -/
theorem HoldsChannel.evaluate (h : HoldsChannel bundle kernels channel b) :
    ∃ op operand, DiagonalOperator.conv kernels channel = .ok op ∧
      (∀ x, evaluateEncoded x bundle (convWeightName channel) Split.conv.babyList
        Split.conv.giantList = .ok (Split.conv.run op x)) ∧
      bundle.get? (convBiasName channel) = some operand ∧
      ∀ l < imageLanes, operand.values.slot (laneStride * l) = b := by
  obtain ⟨op, scale, operand, hop, hencodes, hbias, hlanes⟩ := h
  obtain ⟨-, -, hcount, -⟩ := DiagonalOperator.conv_eq_ok hop
  exact ⟨op, operand, hop, Split.evaluateEncoded_eq_run hcount hencodes, hbias, hlanes⟩

end Evaluation
end SlotPacking
