import AiMidi.Theory.BlueprintGenerator
import Mathlib.Data.List.Perm.Subperm

/-!
# `AiMidi.Proofs.BlueprintChannels`: who gets MIDI channel 9

`generate` assigns the channels in list order. A channel that is already taken is exchanged
for the first free one, and no exchange gives channel 9 to an instrument other than the drums.
So with at most nine other instruments there is always a free channel below 9, the channels
are pairwise distinct, and an instrument keeps channel 9 exactly when it asks for it before
anybody else has it (`assignChannels_others`).

The drums ask for channel 9 in their turn. `generate_channelsOk_iff`: they get it, and nobody
else does, exactly when no instrument in front of them asks for it.

The taken channels are carried along in list order, and only those other than 9 are counted
(`takenBelow`). The drums divide the list: in front of them and behind them the lemma about other
instruments applies, with channel 9 taken or not (`assignChannels_append`).
-/

set_option autoImplicit false

namespace AiMidi.Proofs.BlueprintChannels

open AiMidi.Lib AiMidi.Theory AiMidi.Theory.BlueprintGenerator

/-! ### The property -/

/-- The drums are on channel 9, nothing else is, and the channels are pairwise distinct. -/
structure ChannelsOk (insts : List BlueprintInstrument) : Prop where
  drum_iff : ∀ i ∈ insts, i.role = bytes "drum" ↔ i.channel = 9
  distinct : (insts.map BlueprintInstrument.channel).Nodup

/-! ### One instrument

The search for a free channel skips channel 9, so it can fail only when nine channels below it are
taken. With at most nine other instruments that does not happen to the last of them either. -/

/-- The taken channels other than 9. -/
def takenBelow (used : List Int) : List Int := used.filter (· ≠ 9)

/-- With fewer than nine of them taken there is a free channel below 9. -/
theorem exists_free {used : List Int} (h : (takenBelow used).length < 9) :
    ∃ ch : Nat, ch < 9 ∧ (ch : Int) ∉ used := by
  -- Were all nine channels taken, there would be nine of them below 9.
  refine Classical.byContradiction fun hnone => ?_
  have hall : ∀ ch : Nat, ch < 9 → (ch : Int) ∈ used := fun ch hlt =>
    Classical.byContradiction fun hfree => hnone ⟨ch, hlt, hfree⟩
  have hnodup : ((List.range 9).map Int.ofNat).Nodup := by decide
  have hsubset : (List.range 9).map Int.ofNat ⊆ takenBelow used := by
    intro z hz
    obtain ⟨ch, hch, rfl⟩ := List.mem_map.mp hz
    have hlt := List.mem_range.mp hch
    have hne : Int.ofNat ch ≠ 9 := by
      intro heq
      exact absurd (Int.ofNat.inj heq) (Nat.ne_of_lt hlt)
    exact List.mem_filter.mpr ⟨hall ch hlt, by simpa using hne⟩
  have hle := (List.subperm_of_subset hnodup hsubset).length_le
  rw [List.length_map, List.length_range] at hle
  omega

/-- The role is kept. -/
theorem resolveChannel_role (used : List Int) (i : BlueprintInstrument) :
    (resolveChannel used i).role = i.role := by
  unfold resolveChannel
  dsimp only
  repeat' split
  all_goals rfl

/-- An instrument other than the drums gets a free channel, and that is channel 9 only when it
asks for it and it is free. -/
theorem resolveChannel_other (used : List Int) {i : BlueprintInstrument}
    (hrole : i.role ≠ bytes "drum") (hfree : (takenBelow used).length < 9) :
    (resolveChannel used i).channel ∉ used ∧
      ((resolveChannel used i).channel = 9 ↔ i.channel = 9 ∧ 9 ∉ used) := by
  unfold resolveChannel
  rw [if_neg hrole, if_neg hrole]
  -- A channel that is taken is exchanged for the first free one below 9.
  by_cases htaken : i.channel ∈ used
  · rw [if_pos htaken]
    dsimp only
    cases hfind : (List.range 9).find? fun ch : Nat => (ch : Int) ∉ used with
    -- There is a free one, as fewer than nine are taken.
    | none =>
      obtain ⟨ch, hlt, hch⟩ := exists_free hfree
      have hnone := List.find?_eq_none.mp hfind ch (List.mem_range.mpr hlt)
      exact absurd hch (by simpa using hnone)
    | some ch =>
      have hch : (ch : Int) ∉ used := by simpa using List.find?_some hfind
      have hlt := List.mem_range.mp (List.mem_of_find?_eq_some hfind)
      refine ⟨hch, fun heq => ?_, fun ⟨heq, h9⟩ => absurd (heq ▸ htaken) h9⟩
      dsimp only at heq
      omega
  · rw [if_neg htaken]
    exact ⟨htaken, fun heq => ⟨heq, heq ▸ htaken⟩, fun h => h.1⟩

/-- The drums get channel 9 when it is free, and another one when it is not. -/
theorem resolveChannel_drum {used : List Int} {i : BlueprintInstrument}
    (hrole : i.role = bytes "drum") (h9 : 9 ∉ used) : (resolveChannel used i).channel = 9 := by
  unfold resolveChannel
  rw [if_pos hrole, if_neg h9]

/-! ### A list of instruments

The channels in use are a list that grows in front. An instrument sees those of the instruments
before it only, so the list can be split anywhere. -/

/-- The channels in list order. -/
def channels (used : List Int) (insts : List BlueprintInstrument) : List Int :=
  (assignChannels used insts).map BlueprintInstrument.channel

/-- The channel of the first instrument is taken for the others. -/
theorem channels_cons (used : List Int) (i : BlueprintInstrument)
    (insts : List BlueprintInstrument) :
    channels used (i :: insts) = (resolveChannel used i).channel ::
      channels (used ++ [(resolveChannel used i).channel]) insts := rfl

/-- The instruments of the second list see the channels of the first as taken. -/
theorem assignChannels_append (used : List Int) (insts insts' : List BlueprintInstrument) :
    assignChannels used (insts ++ insts') =
      assignChannels used insts ++ assignChannels (used ++ channels used insts) insts' := by
  induction insts generalizing used with
  | nil => rw [channels, assignChannels, List.map_nil, List.append_nil]; rfl
  | cons i insts ih =>
    rw [channels_cons, List.append_cons]
    show resolveChannel used i :: assignChannels _ (insts ++ insts') = _
    rw [ih]
    rfl

/-- The roles are kept in order. -/
theorem assignChannels_roles (used : List Int) (insts : List BlueprintInstrument) :
    (assignChannels used insts).map BlueprintInstrument.role =
      insts.map BlueprintInstrument.role := by
  induction insts generalizing used with
  | nil => rfl
  | cons i insts ih =>
    show (resolveChannel used i).role :: (assignChannels _ insts).map _ = _
    rw [ih, resolveChannel_role, List.map_cons]

/-- Every instrument gets one channel. -/
theorem length_channels (used : List Int) (insts : List BlueprintInstrument) :
    (channels used insts).length = insts.length := by
  have hlen := congrArg List.length (assignChannels_roles used insts)
  rwa [List.length_map, List.length_map, ← List.length_map (f := BlueprintInstrument.channel)]
    at hlen

/-- An instrument other than the drums keeps that role. -/
theorem role_ne_drum {used : List Int} {insts : List BlueprintInstrument}
    (hroles : ∀ i ∈ insts, i.role ≠ bytes "drum") :
    ∀ out ∈ assignChannels used insts, out.role ≠ bytes "drum" := by
  intro out hout hrole
  have hmem := List.mem_map_of_mem (f := BlueprintInstrument.role) hout
  rw [assignChannels_roles] at hmem
  obtain ⟨i, hi, hir⟩ := List.mem_map.mp hmem
  exact hroles i hi (hir.trans hrole)

/-- Another channel in use takes at most one channel below 9. -/
theorem takenBelow_concat_le (used : List Int) (ch : Int) :
    (takenBelow (used ++ [ch])).length ≤ (takenBelow used).length + 1 := by
  rw [takenBelow, List.filter_append, List.length_append]
  exact Nat.add_le_add_left (List.length_filter_le _ _) _

/-- Instruments other than the drums: as long as the channels below 9 suffice, all get
different free channels, and one of them gets channel 9 exactly when it is free and one of
them asks for it. -/
theorem assignChannels_others (used : List Int) {insts : List BlueprintInstrument}
    (hroles : ∀ i ∈ insts, i.role ≠ bytes "drum")
    (hfree : (takenBelow used).length + insts.length ≤ 9) :
    (channels used insts).Nodup ∧ (∀ ch ∈ channels used insts, ch ∉ used) ∧
      (9 ∈ channels used insts ↔ 9 ∉ used ∧ ∃ i ∈ insts, i.channel = 9) := by
  induction insts generalizing used with
  | nil =>
    exact ⟨List.nodup_nil, fun ch h => absurd h List.not_mem_nil,
      by simp [channels, assignChannels]⟩
  | cons i insts ih =>
    rw [List.length_cons] at hfree
    obtain ⟨hnew, h9⟩ := resolveChannel_other used (hroles i List.mem_cons_self)
      (by omega)
    rw [channels_cons]
    -- The new channel is fresh, so the rest is resolved with one more channel in use.
    generalize (resolveChannel used i).channel = ch at hnew h9 ⊢
    have hle := takenBelow_concat_le used ch
    obtain ⟨hnodup, hfresh, htail9⟩ := ih (used ++ [ch])
      (fun j hj => hroles j (List.mem_cons_of_mem i hj)) (by omega)
    refine ⟨List.nodup_cons.mpr ⟨fun hmem => ?_, hnodup⟩, fun c hc => ?_, ?_⟩
    · exact hfresh ch hmem (List.mem_append_right _ (List.mem_singleton_self ch))
    · rcases List.mem_cons.mp hc with rfl | hmem
      · exact hnew
      · exact fun hused => hfresh c hmem (List.mem_append_left _ hused)
    · rw [List.mem_cons, htail9, eq_comm, h9, List.mem_append, List.mem_singleton]
      -- Channel 9 goes to the first instrument that asks for it, here or further on.
      constructor
      · rintro (⟨hi, hfree9⟩ | ⟨hfree9, j, hj, hj9⟩)
        · exact ⟨hfree9, i, List.mem_cons_self, hi⟩
        · exact ⟨fun h => hfree9 (.inl h), j, List.mem_cons_of_mem i hj, hj9⟩
      · rintro ⟨hfree9, j, hj, hj9⟩
        by_cases hi : i.channel = 9
        · exact .inl ⟨hi, hfree9⟩
        · rcases List.mem_cons.mp hj with rfl | hmem
          · exact absurd hj9 hi
          · refine .inr ⟨fun h => ?_, j, hmem, hj9⟩
            rcases h with h | h
            · exact hfree9 h
            · exact hi (h9.mp h.symm).1

/-! ### The generator

The list is split at the drums. What stands in front of them decides whether channel 9 is still free
when their turn comes. -/

/-- The channels of an accepted blueprint are those of the assignment. -/
theorem generate_instruments {input : MusicBlueprint} (h : isValid (fillDefaults input) = true)
    (hne : input.instruments ≠ []) :
    (generate input).instruments = assignChannels [] input.instruments := by
  rw [generate, if_pos h]
  show assignChannels [] (fillDefaults input).instruments = _
  rw [show (fillDefaults input).instruments = input.instruments from if_neg hne]

variable {pre post : List BlueprintInstrument} {drum : BlueprintInstrument}

/-- Drums on channel 9 are alone there when the channels are distinct. -/
theorem channelsOk_of_nodup {outs outs' : List BlueprintInstrument} {d : BlueprintInstrument}
    (hrole : d.role = bytes "drum") (h9 : d.channel = 9)
    (hothers : ∀ out ∈ outs ++ outs', out.role ≠ bytes "drum")
    (hnodup : ((outs ++ d :: outs').map BlueprintInstrument.channel).Nodup) :
    ChannelsOk (outs ++ d :: outs') := by
  refine ⟨fun out hout => ?_, hnodup⟩
  have hperm : (outs ++ d :: outs').Perm (d :: (outs ++ outs')) := List.perm_middle
  have hnodup' := (hperm.map BlueprintInstrument.channel).nodup_iff.mp hnodup
  rcases List.mem_cons.mp (hperm.mem_iff.mp hout) with rfl | hmem
  · exact ⟨fun _ => h9, fun _ => hrole⟩
  · refine ⟨fun hdrum => absurd hdrum (hothers out hmem), fun hout9 => ?_⟩
    have hsame : d.channel ∈ (outs ++ outs').map BlueprintInstrument.channel :=
      h9.trans hout9.symm ▸ List.mem_map_of_mem hmem
    exact absurd hsame (List.nodup_cons.mp hnodup').1

/-- The assignment puts the drums alone on channel 9 exactly when no instrument in front of
them asks for it. -/
theorem assignChannels_channelsOk_iff (hdrum : drum.role = bytes "drum")
    (hothers : ∀ i ∈ pre ++ post, i.role ≠ bytes "drum") (hlen : (pre ++ post).length ≤ 9) :
    ChannelsOk (assignChannels [] (pre ++ drum :: post)) ↔ ∀ i ∈ pre, i.channel ≠ 9 := by
  rw [List.length_append] at hlen
  have hpre : ∀ i ∈ pre, i.role ≠ bytes "drum" := fun i hi =>
    hothers i (List.mem_append_left _ hi)
  have hpost : ∀ i ∈ post, i.role ≠ bytes "drum" := fun i hi =>
    hothers i (List.mem_append_right _ hi)
  obtain ⟨hnodup, -, hpre9⟩ := assignChannels_others [] hpre
    (by simp [takenBelow]; omega)
  rw [assignChannels_append]
  constructor
  · -- An instrument in front that asks for channel 9 gets it.
    intro hok i hi h9
    obtain ⟨out, hout, hout9⟩ := List.mem_map.mp (hpre9.mpr ⟨List.not_mem_nil, i, hi, h9⟩)
    exact role_ne_drum hpre out hout
      ((hok.drum_iff out (List.mem_append_left _ hout)).mpr hout9)
  · intro hfree
    have hfree9 : 9 ∉ channels [] pre := fun hmem => by
      obtain ⟨-, i, hi, h9⟩ := hpre9.mp hmem
      exact hfree i hi h9
    have hdrum9 : (resolveChannel (channels [] pre) drum).channel = 9 :=
      resolveChannel_drum hdrum hfree9
    have htaken : (takenBelow (channels [] pre ++ [9])).length ≤ pre.length := by
      rw [takenBelow, List.filter_append, List.length_append, ← length_channels [] pre]
      exact List.length_filter_le _ _
    -- The drums hold channel 9, so nobody behind them gets it.
    obtain ⟨hnodup', hfresh', hpost9⟩ := assignChannels_others
      (channels [] pre ++ [9]) hpost (by omega)
    have hpost9' : 9 ∉ channels (channels [] pre ++ [9]) post := fun hmem =>
      (hpost9.mp hmem).1 (List.mem_append_right _ (List.mem_singleton_self 9))
    rw [List.nil_append]
    show ChannelsOk (assignChannels [] pre ++ resolveChannel (channels [] pre) drum ::
      assignChannels (channels [] pre ++ [(resolveChannel (channels [] pre) drum).channel]) post)
    rw [hdrum9]
    refine channelsOk_of_nodup ((resolveChannel_role _ drum).trans hdrum) hdrum9
      (fun out hout => ?_) ?_
    · rcases List.mem_append.mp hout with hmem | hmem
      · exact role_ne_drum hpre out hmem
      · exact role_ne_drum hpost out hmem
    · rw [List.map_append, List.map_cons, hdrum9]
      refine List.nodup_append.mpr ⟨hnodup, List.nodup_cons.mpr ⟨hpost9', hnodup'⟩, ?_⟩
      intro a ha b hb heq
      rcases List.mem_cons.mp hb with rfl | hmem
      · exact hfree9 (heq ▸ ha)
      · exact hfresh' b hmem (List.mem_append_left _ (heq ▸ ha))

/-- An accepted blueprint with one drum instrument and at most nine others: the output has the
drums alone on channel 9 and distinct channels exactly when no instrument in front of the drums
asks for channel 9. -/
theorem generate_channelsOk_iff {input : MusicBlueprint}
    (haccepted : isValid (fillDefaults input) = true)
    (hinsts : input.instruments = pre ++ drum :: post) (hdrum : drum.role = bytes "drum")
    (hothers : ∀ i ∈ pre ++ post, i.role ≠ bytes "drum") (hlen : (pre ++ post).length ≤ 9) :
    ChannelsOk (generate input).instruments ↔ ∀ i ∈ pre, i.channel ≠ 9 := by
  rw [generate_instruments haccepted (by rw [hinsts]; simp), hinsts]
  exact assignChannels_channelsOk_iff hdrum hothers hlen

/-- A lead on a channel of its choice. -/
def leadOn (channel : Int) : BlueprintInstrument := ⟨bytes "lead", bytes "lead", channel, 1⟩

/-- The lead, then drums and a bass. -/
def bandInput (channel : Int) : MusicBlueprint :=
  { sections := [⟨bytes "verse", 4, .mid, 1 / 2, 1 / 2⟩]
    instruments := [leadOn channel] ++ ⟨bytes "drums", bytes "drum", 0, 1⟩ ::
      [⟨bytes "bass", bytes "bass", 9, 34⟩] }

/-- The lead in front of the drums asks for channel 3. -/
theorem generate_channelsOk_iff_band :
    ChannelsOk (generate (bandInput 3)).instruments ↔ ∀ i ∈ [leadOn 3], i.channel ≠ 9 :=
  generate_channelsOk_iff (by decide) rfl rfl (by decide) (by decide)

/-- The lead in front of the drums asks for channel 9: it keeps it, and the drums end up on
channel 0. -/
theorem not_channelsOk :
    ¬ ∀ (input : MusicBlueprint) (pre post : List BlueprintInstrument)
      (drum : BlueprintInstrument), isValid (fillDefaults input) = true →
        input.instruments = pre ++ drum :: post → drum.role = bytes "drum" →
        (∀ i ∈ pre ++ post, i.role ≠ bytes "drum") → (pre ++ post).length ≤ 9 →
        (∀ i ∈ input.instruments, 0 ≤ i.channel ∧ i.channel ≤ 9) →
          ChannelsOk (generate input).instruments := by
  intro hall
  have hvalid : isValid (fillDefaults (bandInput 9)) = true := by decide
  have hok := hall (bandInput 9) [leadOn 9] _ _ hvalid rfl rfl (by decide) (by decide) (by decide)
  rw [generate_instruments hvalid (by decide)] at hok
  have hlead : bytes "lead" = bytes "drum" := (hok.drum_iff (leadOn 9) (by decide)).mpr rfl
  exact absurd hlead (by decide)

end AiMidi.Proofs.BlueprintChannels
