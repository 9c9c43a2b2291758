import AiMidi.Proofs.MteCli.Engines
import AiMidi.Tools.MteCli

/-!
# `AiMidi.Proofs.MteCli.Harmony`: the detected chords fill the bars

The harmony has its chords on the bar lines (`harmony_onGrid`). Detection groups the notes by
their ticks and gives every group the time until the next one, so the detected chords are whole
bars one after the other (`chordSpecs_fits`), whatever roots and qualities were detected.

Of the detection only the root matters here, and that it is a pitch class whether or not a chord was
found (`chordSpec_root`). The groups are in the order of their ticks, so the length of a chord is
the distance of two bar lines (`chordSpecs_fits`).
-/

set_option autoImplicit false

namespace AiMidi.Proofs.MteCli

open AiMidi.Lib AiMidi.Theory AiMidi.Tools

/-- The tick is the start of one of the bars. -/
def OnGrid (bars tick : Nat) : Prop := ∃ bar < bars, tick = bar * 1920

section

variable {bars : Nat}

/-! ### Harmony

The pattern gives each bar one chord. Its notes keep the start of the chord, so they begin on bar
lines. -/

/-- A bar has one chord, on its bar line and as long as it. -/
theorem chordOfBar_spec (hbars : bars ≤ 1000000) {bar : Nat} (hbar : bar < bars) :
    Sanitized.Safe (HarmonyEngine.chordOfBar bar) fun specs =>
      ∃ cs, specs = [cs] ∧ cs.startTick.toNat = bar * 1920 ∧ cs.durationTicks = 1920 := by
  unfold HarmonyEngine.chordOfBar
  simp only [HarmonyEngine.ticksPerBar]
  refine Sanitized.safe_bind (Sanitized.safe_u32 (by omega) (by omega)) fun start hstart => ?_
  refine Sanitized.safe_pure ⟨_, rfl, ?_, rfl⟩
  show start.toNat = bar * 1920
  omega

/-- The chords of the pattern begin on the bar lines and last a bar. -/
theorem chordsOfBars_onGrid (hbars : bars ≤ 1000000) :
    Sanitized.Safe (Sanitized.forEach HarmonyEngine.chordOfBar (List.range bars)) fun specs =>
      ∀ cs ∈ specs, OnGrid bars cs.startTick.toNat ∧ cs.durationTicks = 1920 := by
  refine Sanitized.safe_forEach fun bar hbar => ?_
  have hbar' : bar < bars := List.mem_range.mp hbar
  refine (chordOfBar_spec hbars hbar').mono fun specs hspecs cs hcs => ?_
  obtain ⟨chord, rfl, hstart, hduration⟩ := hspecs
  rw [List.mem_singleton.mp hcs]
  exact ⟨⟨bar, hbar', hstart⟩, hduration⟩

/-- A chord on the grid ends below the range of a tick. -/
theorem end_lt_of_onGrid (hbars : bars ≤ 1000000) {cs : ChordSpec}
    (h : OnGrid bars cs.startTick.toNat ∧ cs.durationTicks = 1920) :
    cs.startTick.toNat + cs.durationTicks.toNat < 2 ^ 32 := by
  obtain ⟨⟨bar, hbar, htick⟩, hduration⟩ := h
  have h1920 : (1920 : UInt32).toNat = 1920 := rfl
  rw [hduration, htick, h1920]
  omega

/-- The notes of a chord start with it. -/
theorem chordNote_tickOn {cs : ChordSpec}
    (hend : cs.startTick.toNat + cs.durationTicks.toNat < 2 ^ 32) (velocity : UInt8) (n : Int) :
    Sanitized.Safe (ChordEngine.chordNote cs velocity n) fun events =>
      ∀ ev ∈ events, ev.tickOn = cs.startTick := by
  unfold ChordEngine.chordNote
  split
  case isTrue => exact Sanitized.safe_pure fun ev hev => absurd hev (by simp)
  case isFalse =>
    refine Sanitized.safe_bind (Sanitized.safe_u32 (by omega) (by omega)) fun off _ => ?_
    refine Sanitized.safe_pure fun ev hev => ?_
    rw [List.mem_singleton.mp hev]

/-- All notes of a chord begin with it. -/
theorem voiceChord_tickOn {cs : ChordSpec}
    (hend : cs.startTick.toNat + cs.durationTicks.toNat < 2 ^ 32) :
    Seeded.Safe (ChordEngine.voiceChord cs) fun events =>
      ∀ ev ∈ events, ev.tickOn = cs.startTick := by
  refine Seeded.safe_bind (Seeded.safe_draw (by decide)) fun inv _ => ?_
  refine Seeded.safe_bind (Seeded.safe_draw (by decide)) fun vel _ => ?_
  exact Seeded.safe_lift (Sanitized.safe_forEach fun n _ => chordNote_tickOn hend _ n)

/-- The voiced notes of chords on the grid are on the grid. -/
theorem voicing_onGrid (hbars : bars ≤ 1000000) {specs : List ChordSpec}
    (hspecs : ∀ cs ∈ specs, OnGrid bars cs.startTick.toNat ∧ cs.durationTicks = 1920) :
    Seeded.Safe (Seeded.forEach ChordEngine.voiceChord specs) fun events =>
      ∀ ev ∈ events, OnGrid bars ev.tickOn.toNat := by
  refine Seeded.safe_forEach fun cs hcs => ?_
  refine (voiceChord_tickOn (end_lt_of_onGrid hbars (hspecs cs hcs))).mono ?_
  exact fun events h ev hev => (h ev hev) ▸ (hspecs cs hcs).1

/-- So all notes of the harmony begin on bar lines. -/
theorem harmony_onGrid (hbars : bars ≤ 1000000) (key scale : Bytes) (seed : Seed) :
    Sanitized.Safe (HarmonyEngine.generate ⟨key, scale, bars, seed⟩) fun events =>
      ∀ ev ∈ events, OnGrid bars ev.tickOn.toNat := by
  unfold HarmonyEngine.generate
  split
  case isTrue => exact Sanitized.safe_pure fun ev hev => absurd hev (by simp)
  case isFalse =>
    refine Sanitized.safe_bind (chordsOfBars_onGrid hbars) fun specs hspecs => ?_
    exact Seeded.safe_run (voicing_onGrid hbars hspecs) _

/-! ### Chord detection

Detection looks for the best root and may find none. The chord that is handed on has a root in both
cases. -/

/-- A candidate either keeps the root found so far or brings its own. -/
theorem tryRoot_root (pcs : List Int) (best : BestChord) (root : Int) :
    (tryRoot pcs best root).root = best.root ∨ (tryRoot pcs best root).root = root := by
  -- One template either wins with `root` or leaves the best reading as it is.
  have htry : ∀ tmpl : Bytes × List Int, ∀ b : BestChord,
      (tryTemplate root (intervalsAbove root pcs) b tmpl).root = b.root ∨
        (tryTemplate root (intervalsAbove root pcs) b tmpl).root = root := by
    intro tmpl b
    unfold tryTemplate
    split
    · exact .inr rfl
    · exact .inl rfl
  unfold tryRoot
  induction kTemplates generalizing best with
  | nil => exact .inl rfl
  | cons tmpl tmpls ih =>
    rw [List.foldl_cons]
    obtain h | h := ih (tryTemplate root (intervalsAbove root pcs) best tmpl)
    · rw [h]
      exact htry tmpl best
    · exact .inr h

/-- The best reading is on one of the roots that were tried. -/
theorem foldl_tryRoot_root (pcs roots : List Int) (best : BestChord) :
    (roots.foldl (tryRoot pcs) best).root = best.root ∨
      (roots.foldl (tryRoot pcs) best).root ∈ roots := by
  induction roots generalizing best with
  | nil => exact .inl rfl
  | cons root roots ih =>
    rw [List.foldl_cons]
    obtain h | h := ih (tryRoot pcs best root)
    · rw [h]
      obtain h' | h' := tryRoot_root pcs best root
      · exact .inl h'
      · rw [h']
        exact .inr List.mem_cons_self
    · exact .inr (List.mem_cons_of_mem _ h)

/-- A detected root is a pitch class. -/
theorem detectChord_root (events : List MidiEvent) :
    0 ≤ (detectChord events).rootPc ∧ (detectChord events).rootPc ≤ 11 := by
  -- The roots that are tried are the pitch classes of the notes.
  have hpcs : ∀ pc ∈ setOf (events.map fun e => (e.note.toNat % 12 : Int)),
      0 ≤ pc ∧ pc ≤ 11 := by
    intro pc hpc
    obtain ⟨e, _, rfl⟩ := List.mem_map.mp (mem_setOf.mp hpc)
    omega
  unfold detectChord
  split
  case h_1 => decide
  case h_2 pc pcs heq =>
    rw [heq] at hpcs
    dsimp only
    obtain h | h := foldl_tryRoot_root (pc :: pcs) (pc :: pcs) ⟨pc, bytes "maj", -1⟩
    · rw [h]
      exact hpcs pc List.mem_cons_self
    · exact hpcs _ h

/-- The root of a detected chord is a pitch class, also where nothing was detected. -/
theorem chordSpec_root (tick : Nat) (duration : UInt32) (events : List MidiEvent) :
    0 ≤ (chordSpec tick duration events).rootPc ∧
      (chordSpec tick duration events).rootPc ≤ 11 := by
  simp only [chordSpec]
  split
  · exact detectChord_root events
  · decide

/-- A chord read from a group of notes fits its bars, whatever the notes are. -/
theorem chordSpec_fits (tick : Nat) (duration : UInt32) (events : List MidiEvent)
    (hbars : bars ≤ 1000000) (hbar : 1920 ≤ duration.toNat)
    (hend : tick + duration.toNat ≤ bars * 1920) :
    (chordSpec tick duration events).startTick.toNat = tick ∧
      ChordFits (bars * 1920) (chordSpec tick duration events) := by
  have htick : (UInt32.ofNat tick).toNat = tick :=
    UInt32.toNat_ofNat_of_lt' (by simp [UInt32.size]; omega)
  have hroot := chordSpec_root tick duration events
  refine ⟨htick, hbar, ?_, hroot.1, hroot.2⟩
  show (UInt32.ofNat tick).toNat + duration.toNat ≤ bars * 1920
  rw [htick]
  exact hend

/-- The detected chords start with their groups and are whole bars inside the piece. -/
theorem chordSpecs_fits (hbars : bars ≤ 1000000) (groups : List (Nat × List MidiEvent))
    (hgrid : ∀ tick ∈ groups.map Prod.fst, OnGrid bars tick)
    (hsorted : (groups.map Prod.fst).Pairwise (· < ·)) :
    Sanitized.Safe (chordSpecs groups) fun specs =>
      specs.map (fun cs => cs.startTick.toNat) = groups.map Prod.fst ∧
        ∀ cs ∈ specs, ChordFits (bars * 1920) cs := by
  induction groups using chordSpecs.induct with
  | case1 => exact Sanitized.safe_pure ⟨rfl, fun cs hcs => absurd hcs (by simp)⟩
  | case2 tick events =>
    -- The last group lasts one bar, and it starts on one of the bar lines.
    obtain ⟨bar, hbar, rfl⟩ := hgrid tick (by simp)
    have hlast : (u32cast (kPpq * 4)).toNat = 1920 := by decide
    obtain ⟨hstart, hfits⟩ := chordSpec_fits (bar * 1920) (u32cast (kPpq * 4)) events
      hbars (by omega) (by omega)
    refine Sanitized.safe_pure ⟨by rw [List.map_singleton, hstart]; rfl, fun cs hcs => ?_⟩
    rw [List.mem_singleton.mp hcs]
    exact hfits
  | case3 tick events next events' rest ih =>
    obtain ⟨bar, hbar, htick⟩ := hgrid tick (by simp)
    obtain ⟨bar', hbar', hnext⟩ := hgrid next (by simp)
    rw [List.map_cons, List.pairwise_cons] at hsorted
    -- Two bar lines in ascending order: the group lasts a positive number of whole bars.
    have hlt : tick < next := hsorted.1 next (by simp)
    unfold chordSpecs
    refine Sanitized.safe_bind (Sanitized.safe_u32 (by omega) (by omega))
      fun duration hduration => ?_
    refine Sanitized.safe_bind (ih (fun t ht => hgrid t (List.mem_cons_of_mem _ ht)) hsorted.2)
      fun specs hspecs => ?_
    obtain ⟨hstart, hfits⟩ := chordSpec_fits tick duration events hbars (by omega)
      (by omega)
    refine Sanitized.safe_pure ⟨by rw [List.map_cons, hstart, hspecs.1]; rfl, fun cs hcs => ?_⟩
    obtain rfl | hcs := List.mem_cons.mp hcs
    · exact hfits
    · exact hspecs.2 cs hcs

/-- The engines receive one chord for each tick of the harmony, and the chords fill whole
bars. -/
theorem detected_fits (hbars : bars ≤ 1000000) {harmony : List MidiEvent}
    (hgrid : ∀ ev ∈ harmony, OnGrid bars ev.tickOn.toNat) :
    Sanitized.Safe (chordSpecs (groupBy (fun ev => ev.tickOn.toNat) harmony)) fun specs =>
      (∀ ev ∈ harmony, ∃ cs ∈ specs, cs.startTick = ev.tickOn) ∧
        ∀ cs ∈ specs, ChordFits (bars * 1920) cs := by
  refine (chordSpecs_fits hbars _ (fun tick htick => ?_) (sorted_groupBy _ _)).mono ?_
  · obtain ⟨ev, hev, rfl⟩ := mem_keys_groupBy.mp htick
    exact hgrid ev hev
  · rintro specs ⟨hstarts, hfits⟩
    refine ⟨fun ev hev => ?_, hfits⟩
    -- The tick of a note is a key of the map, so some chord starts there.
    have hkey : ev.tickOn.toNat ∈ (groupBy (fun ev => ev.tickOn.toNat) harmony).map Prod.fst :=
      mem_keys_groupBy.mpr ⟨ev, hev, rfl⟩
    rw [← hstarts] at hkey
    obtain ⟨cs, hcs, htick⟩ := List.mem_map.mp hkey
    exact ⟨cs, hcs, UInt32.toNat_inj.mp htick⟩

end

end AiMidi.Proofs.MteCli
