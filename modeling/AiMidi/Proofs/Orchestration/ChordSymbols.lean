import AiMidi.Proofs.ChordVoicing
import AiMidi.Proofs.Orchestration.Coverage
import Mathlib.Algebra.Order.BigOperators.Group.List

/-!
# `AiMidi.Proofs.Orchestration.ChordSymbols`: what a detected chord stands for

A pitch class scores at most 2 when it sounds and at most 0 when it does not, and it scores that
much exactly when sound and template agree on it. So a template has the highest possible score
exactly when it has the sounding pitch classes (`exactScore_le_iff`), and the search of
`detectChord` ends at such a template when there is one (`detectChord_exact`). Its symbol is one
of 96, which every parser reads as the root and the offsets of the template (`decodes`).

`build_chord_progression` compares 32-bit ticks. The bar with the number 2236962 is the first
whose end wraps. No tick is at its start or later and before its end, so it is read as silent. No
32-bit tick lies in a later bar. `chordsUnderstood_iff` is what follows for all bars.

The table is small, so `decodes` is decided symbol by symbol for all four parsers. What a bar sounds
is kept as a set of pitch classes from there on (`fits_iff_sounds`), and the two wrapped bars are
treated apart from the others (`barSymbol_wrapped`, `barNotes_behind`).
-/

set_option autoImplicit false

namespace AiMidi.Proofs.Orchestration

open AiMidi.Lib AiMidi.Theory AiMidi.Theory.OrchestrateWorkflow
open AiMidi.Proofs.ChordVoicing (SoundsTones)

/-! ### Scores

The score counts agreement and disagreement over the twelve pitch classes. It reaches its maximum
only where there is no disagreement at all. -/

/-- The score of a template that has the sounding pitch classes. -/
def exactScore (pcs : List Nat) : Int :=
  ((List.range 12).map fun i => scoreAt (i ∈ pcs) (i ∈ pcs)).sum

/-- A tone that is there and belongs to the chord scores best. -/
theorem scoreAt_le (p c : Bool) : scoreAt p c ≤ scoreAt p p := by
  revert p c
  decide

/-- A tone that is missing or foreign scores less. -/
theorem scoreAt_lt {p c : Bool} (h : p ≠ c) : scoreAt p c < scoreAt p p := by
  revert p c
  decide

/-- The best score is not negative. -/
theorem exactScore_nonneg (pcs : List Nat) : 0 ≤ exactScore pcs := by
  refine List.sum_nonneg fun x hx => ?_
  obtain ⟨i, -, rfl⟩ := List.mem_map.mp hx
  exact (show ∀ p, 0 ≤ scoreAt p p by decide) _

/-- The template has the sounding pitch classes. -/
def Fits (pcs : List Nat) (root : Nat) (intervals : List Nat) : Prop :=
  ∀ i < 12, i ∈ pcs ↔ inChord root intervals i = true

/-- A template reaches the best score exactly when it fits. -/
theorem exactScore_le_iff (pcs : List Nat) (root : Nat) (intervals : List Nat) :
    exactScore pcs ≤ score pcs root intervals ↔ Fits pcs root intervals := by
  constructor
  · intro h i hi
    by_contra hne
    have hlt : score pcs root intervals < exactScore pcs :=
      List.sum_lt_sum _ _ (fun j _ => scoreAt_le _ _)
        ⟨i, List.mem_range.mpr hi, scoreAt_lt fun heq => hne (decide_eq_true_iff.symm.trans
          (Bool.eq_iff_iff.mp heq))⟩
    omega
  · intro h
    refine List.sum_le_sum fun i hi => ?_
    have heq : decide (i ∈ pcs) = inChord root intervals i :=
      Bool.eq_iff_iff.mpr (decide_eq_true_iff.trans (h i (List.mem_range.mp hi)))
    rw [← heq]

/-! ### The search

The search keeps the best score and the first template that has it. A template that fits has the
best score there is. -/

/-- The candidates: every template on every root, with its score. -/
theorem mem_chordMatches {pcs : List Nat} {m : Match} : m ∈ chordMatches pcs ↔
    ∃ root < 12, ∃ tmpl ∈ kTemplates, m = ⟨score pcs root tmpl.2, root, tmpl.1⟩ := by
  simp only [chordMatches, List.mem_flatMap, List.mem_range, List.mem_map, eq_comm]

/-- When some template fits, the search ends at one that fits. -/
theorem detectChord_exact {pcs : List Nat} (hpcs : pcs ≠ []) {root : Nat} (hroot : root < 12)
    {tmpl : Bytes × List Nat} (htmpl : tmpl ∈ kTemplates) (h : Fits pcs root tmpl.2) :
    ∃ root' < 12, ∃ tmpl' ∈ kTemplates,
      detectChord pcs = symbolOf root' tmpl'.1 ∧ Fits pcs root' tmpl'.2 := by
  have hmatch : Match.mk (score pcs root tmpl.2) root tmpl.1 ∈ chordMatches pcs :=
    mem_chordMatches.mpr ⟨root, hroot, tmpl, htmpl, rfl⟩
  have hle := le_firstMax Match.score ⟨-999, 0, bytes "maj"⟩ hmatch
  have hexact := (exactScore_le_iff pcs root tmpl.2).mpr h
  have hmem := firstMax_mem Match.score ⟨-999, 0, bytes "maj"⟩ (chordMatches pcs)
  rw [detectChord, if_neg hpcs]
  generalize firstMax Match.score _ (chordMatches pcs) = best at hle hmem ⊢
  have hnonneg := exactScore_nonneg pcs
  obtain rfl | hmem := List.mem_cons.mp hmem
  · -- The start of the search is worse than the match.
    exact absurd (hexact.trans hle) (by dsimp only; omega)
  · obtain ⟨root', hroot', tmpl', htmpl', rfl⟩ := mem_chordMatches.mp hmem
    exact ⟨root', hroot', tmpl', htmpl', rfl,
      (exactScore_le_iff pcs root' tmpl'.2).mp (hexact.trans hle)⟩

/-! ### Sounding pitch classes

The notes of a bar are seen through their pitch classes only. Octaves and repetitions do not
count. -/

/-- The tones of a transposed template. -/
def tones (intervals : List Nat) : List Int := intervals.map Nat.cast

/-- The pitch classes of the events. -/
theorem mem_pitchClasses {events : List MidiEvent} {i : Nat} :
    i ∈ pitchClasses events ↔ ∃ ev ∈ events, ev.note.toNat % 12 = i := by
  rw [pitchClasses, mem_setOf, List.mem_map]

/-- A pitch class is in the chord when it is one of its tones. -/
theorem inChord_iff {root : Nat} {intervals : List Nat} {i : Nat} :
    inChord root intervals i = true ↔ ∃ o ∈ tones intervals, ((root : Int) + o) % 12 = i := by
  simp only [inChord, List.any_eq_true, decide_eq_true_iff, tones, List.mem_map,
    exists_exists_and_eq_and]
  refine exists_congr fun interv => and_congr_right fun _ => ?_
  omega

/-- A template fits exactly when its tones sound. -/
theorem fits_iff_sounds {events : List MidiEvent} {root : Nat} {intervals : List Nat} :
    Fits (pitchClasses events) root intervals ↔ SoundsTones root (tones intervals) events := by
  have hmem : ∀ i : Nat, i ∈ pitchClasses events ↔
      ∃ ev ∈ events, (ev.note.toNat : Int) % 12 = i := fun i =>
    mem_pitchClasses.trans (exists_congr fun ev => and_congr_right fun _ => by omega)
  constructor
  · intro h pc
    by_cases hpc : 0 ≤ pc ∧ pc < 12
    · obtain ⟨i, rfl⟩ := Int.eq_ofNat_of_zero_le hpc.1
      rw [← hmem, ← inChord_iff]
      exact h i (by omega)
    · -- Neither side has a number that is no pitch class.
      constructor
      · rintro ⟨ev, -, rfl⟩
        omega
      · rintro ⟨o, -, rfl⟩
        omega
  · intro h i _
    rw [hmem, inChord_iff]
    exact h i

/-! ### Parsers

The four parsers have tables and code of their own. That they agree on these symbols is a fact about
all of these at once. -/

/-- Each of the four parsers reads a symbol as the root and the offsets. -/
structure Decodes (sym : Bytes) (rootPc : Int) (offsets : List Int) : Prop where
  request : ∀ startTick, (chordSpec sym startTick).rootPc = rootPc ∧
    offsetsFor (chordSpec sym startTick).quality = offsets
  orchestration : (OrchestrationEngine.parseChord sym).rootPc = rootPc ∧
    OrchestrationEngine.offsetsFor (OrchestrationEngine.parseChord sym).quality = offsets
  strings : (StringsEngine.parseChord sym).rootPc = rootPc ∧
    StringsEngine.offsetsFor (StringsEngine.parseChord sym).quality = offsets
  guitar : (GuitarEngine.parseChord sym).rootPc = rootPc ∧
    GuitarEngine.offsetsFor (GuitarEngine.parseChord sym).quality = offsets

/-- The 96 symbols are read as what they were made from. -/
theorem decodes {root : Nat} (hroot : root < 12) {tmpl : Bytes × List Nat}
    (htmpl : tmpl ∈ kTemplates) : Decodes (symbolOf root tmpl.1) root (tones tmpl.2) := by
  have htable : ∀ root < 12, ∀ tmpl ∈ kTemplates,
      ((chordSpec (symbolOf root tmpl.1) 0).rootPc = root ∧
        offsetsFor (chordSpec (symbolOf root tmpl.1) 0).quality = tones tmpl.2) ∧
      ((GuitarEngine.parseChord (symbolOf root tmpl.1)).rootPc = root ∧
        offsetsFor (GuitarEngine.parseChord (symbolOf root tmpl.1)).quality = tones tmpl.2 ∧
        GuitarEngine.offsetsFor (GuitarEngine.parseChord (symbolOf root tmpl.1)).quality
          = tones tmpl.2) := by
    decide
  obtain ⟨hrequest, hrootPc, hoffsets, hguitar⟩ := htable root hroot tmpl htmpl
  exact ⟨fun startTick => hrequest, ⟨hrootPc, hoffsets⟩, ⟨hrootPc, hoffsets⟩, ⟨hrootPc, hguitar⟩⟩

/-! ### Bars

The bounds of a bar are 32-bit ticks. Where the end has wrapped, the comparison finds no note in the
bar. -/

/-- The events that start in a bar. -/
def barNotes (harmony : List MidiEvent) (bar : Nat) : List MidiEvent :=
  harmony.filter fun ev => bar * 1920 ≤ ev.tickOn.toNat ∧ ev.tickOn.toNat < (bar + 1) * 1920

/-- The events sound some transposition of a template, and nothing else. -/
def IsTemplate (events : List MidiEvent) : Prop :=
  ∃ root < 12, ∃ tmpl ∈ kTemplates, SoundsTones (root : Nat) (tones tmpl.2) events

/-- A chord of the templates has notes. -/
theorem IsTemplate.ne_nil {events : List MidiEvent} (h : IsTemplate events) : events ≠ [] := by
  rintro rfl
  obtain ⟨root, hroot, tmpl, htmpl, hsounds⟩ := h
  have hzero : ∀ tmpl ∈ kTemplates, (0 : Int) ∈ tones tmpl.2 := by decide
  obtain ⟨ev, hev, -⟩ := (hsounds _).mpr ⟨0, hzero tmpl htmpl, rfl⟩
  exact absurd hev List.not_mem_nil

/-- The start of a bar, as it wraps. -/
theorem barTick_toNat (bar : Nat) :
    (OrchestrationEngine.barTick bar).val.toNat = bar * 1920 % 2 ^ 32 := by
  show (u32cast (((u32cast bar).toNat : Int) * (1920 : Nat))).toNat = _
  rw [← Int.natCast_mul, u32cast_natCast, u32cast_natCast]
  omega

/-- The end of a bar, as it wraps. -/
theorem barEnd_toNat (bar : Nat) :
    (addTick (OrchestrationEngine.barTick bar).val 1920).val.toNat = (bar + 1) * 1920 % 2 ^ 32 := by
  show (u32cast (((OrchestrationEngine.barTick bar).val.toNat : Int) + (1920 : Nat))).toNat = _
  rw [← Int.natCast_add, u32cast_natCast, barTick_toNat]
  omega

/-- The notes of a bar are those that begin in it. -/
theorem barHarmony_toNat (harmony : List MidiEvent) (barStart barEnd : UInt32) :
    barHarmony harmony barStart barEnd = harmony.filter fun ev =>
      barStart.toNat ≤ ev.tickOn.toNat ∧ ev.tickOn.toNat < barEnd.toNat := by
  refine List.filter_congr fun ev _ => ?_
  rw [← Bool.decide_and]
  exact decide_eq_decide.mpr (and_congr UInt32.le_iff_toNat_le UInt32.lt_iff_toNat_lt)

/-- The bars in front of 2236962 are read in exact arithmetic. -/
theorem barSymbol_exact (harmony : List MidiEvent) {bar : Nat} (hbar : bar < 2236962) :
    barSymbol harmony bar = detectChord (pitchClasses (barNotes harmony bar)) := by
  unfold barSymbol
  dsimp only
  rw [barHarmony_toNat, barTick_toNat, barEnd_toNat, Nat.mod_eq_of_lt (by omega),
    Nat.mod_eq_of_lt (by omega)]
  rfl

/-- The end of bar 2236962 wraps, so no event lies in front of it. -/
theorem barSymbol_wrapped (harmony : List MidiEvent) :
    barSymbol harmony 2236962 = bytes "C" := by
  unfold barSymbol
  dsimp only
  have hnone : harmony.filter (fun ev => decide (2236962 * 1920 % 2 ^ 32 ≤ ev.tickOn.toNat ∧
      ev.tickOn.toNat < (2236962 + 1) * 1920 % 2 ^ 32)) = [] := by
    refine List.filter_eq_nil_iff.mpr fun ev _ => ?_
    rw [decide_eq_true_iff]
    omega
  rw [barHarmony_toNat, barTick_toNat, barEnd_toNat, hnone]
  rfl

/-- No 32-bit tick lies behind bar 2236962. -/
theorem barNotes_behind (harmony : List MidiEvent) {bar : Nat} (hbar : 2236962 < bar) :
    barNotes harmony bar = [] := by
  refine List.filter_eq_nil_iff.mpr fun ev _ => ?_
  have htick := ev.tickOn.toNat_lt
  rw [decide_eq_true_iff]
  omega

/-! ### Consumers

The engines repeat a progression that is too short. With a harmony it is as long as the piece, so
each bar gets its own symbol. -/

/-- The chord of a bar in the requests, and what the three other engines parse, are the sounding
pitch classes. -/
structure Understood (progression : List Bytes) (bar : Nat) (events : List MidiEvent) : Prop where
  request : ∀ seed, ∃ cs ∈ (buildChordRequest progression seed).val.chords[bar]?,
    SoundsTones cs.rootPc (offsetsFor cs.quality) events
  orchestration : SoundsTones (OrchestrationEngine.chordOf progression bar).rootPc
    (OrchestrationEngine.offsetsFor (OrchestrationEngine.chordOf progression bar).quality) events
  strings : SoundsTones (StringsEngine.chordOf progression bar).rootPc
    (StringsEngine.offsetsFor (StringsEngine.chordOf progression bar).quality) events
  guitar : SoundsTones (GuitarEngine.chordOf progression bar).rootPc
    (GuitarEngine.offsetsFor (GuitarEngine.chordOf progression bar).quality) events

/-- In each bar whose notes have the pitch classes of a template, every consumer understands the
symbol of the bar as these pitch classes. -/
def ChordsUnderstood (harmony : List MidiEvent) (bars : Int) : Prop :=
  ∀ bar < bars.toNat, IsTemplate (barNotes harmony bar) →
    Understood (buildChordProgression harmony bars).val bar (barNotes harmony bar)

section

variable {harmony : List MidiEvent} {bars : Int} {bar : Nat}

/-- The symbol of a bar is made of its notes. -/
theorem progression_getElem? (h : harmony ≠ []) (hbar : bar < bars.toNat) :
    (buildChordProgression harmony bars).val[bar]? = some (barSymbol harmony bar) := by
  rw [buildChordProgression_eq h (by omega), List.getElem?_map, List.getElem?_range hbar]
  rfl

/-- The engines that repeat the progression read the symbol of the bar. -/
theorem progression_getD (h : harmony ≠ []) (hbar : bar < bars.toNat) :
    (buildChordProgression harmony bars).val.getD
      (bar % (buildChordProgression harmony bars).val.length) [] = barSymbol harmony bar := by
  have hget := progression_getElem? h hbar
  obtain ⟨hlen, -⟩ := List.getElem?_eq_some_iff.mp hget
  rw [Nat.mod_eq_of_lt hlen, List.getD_eq_getElem?_getD, hget]
  rfl

/-- So do the requests. -/
theorem request_getElem? (h : harmony ≠ []) (hbar : bar < bars.toNat) (seed : Seed) :
    (buildChordRequest (buildChordProgression harmony bars).val seed).val.chords[bar]? =
      some (chordSpec (barSymbol harmony bar) (OrchestrationEngine.barTick bar).val) := by
  rw [buildChordRequest_chords, List.getElem?_map, List.getElem?_zipIdx,
    progression_getElem? h hbar, Nat.zero_add]
  rfl

/-- The consumers understand the symbol of a bar as its reading by the parsers. -/
theorem understood_iff (h : harmony ≠ []) (hbar : bar < bars.toNat) {rootPc : Int}
    {offsets : List Int} (hsym : Decodes (barSymbol harmony bar) rootPc offsets)
    (events : List MidiEvent) :
    Understood (buildChordProgression harmony bars).val bar events ↔
      SoundsTones rootPc offsets events := by
  have hgetD := progression_getD h hbar
  constructor
  · intro hunderstood
    have horchestration := hunderstood.orchestration
    rw [OrchestrationEngine.chordOf, hgetD, hsym.orchestration.1, hsym.orchestration.2]
      at horchestration
    exact horchestration
  · intro hsounds
    -- Each reader decodes the symbol to the same root and offsets.
    refine ⟨fun seed => ⟨_, Option.mem_def.mpr (request_getElem? h hbar seed), ?_⟩, ?_, ?_, ?_⟩
    · rwa [(hsym.request _).1, (hsym.request _).2]
    · rwa [OrchestrationEngine.chordOf, hgetD, hsym.orchestration.1, hsym.orchestration.2]
    · rwa [StringsEngine.chordOf, hgetD, hsym.strings.1, hsym.strings.2]
    · rwa [GuitarEngine.chordOf, hgetD, hsym.guitar.1, hsym.guitar.2]

end

/-- The notes of bar 2236962 are understood exactly when they are a C major chord. -/
theorem understood_wrapped_iff {harmony : List MidiEvent} {bars : Int} (h : harmony ≠ [])
    (hbars : 2236962 < bars) (events : List MidiEvent) :
    Understood (buildChordProgression harmony bars).val 2236962 events ↔
      SoundsTones 0 [0, 4, 7] events := by
  have hmaj : Decodes (symbolOf 0 (bytes "maj")) (0 : Nat) (tones [0, 4, 7]) :=
    decodes (by decide) (show (bytes "maj", [0, 4, 7]) ∈ kTemplates from List.mem_cons_self)
  exact understood_iff h (by omega) (barSymbol_wrapped harmony ▸ hmaj) events

/-- If a bar has notes there is a harmony. -/
theorem ne_nil_of_barNotes {harmony : List MidiEvent} {bar : Nat}
    (h : IsTemplate (barNotes harmony bar)) : harmony ≠ [] := by
  rintro rfl
  exact h.ne_nil rfl

/-- Every consumer understands the detected chords, except for those of bar 2236962 that are not
C major. -/
theorem chordsUnderstood_iff (harmony : List MidiEvent) (bars : Int) :
    ChordsUnderstood harmony bars ↔ bars ≤ 2236962 ∨
      (IsTemplate (barNotes harmony 2236962) →
        SoundsTones 0 [0, 4, 7] (barNotes harmony 2236962)) := by
  constructor
  · intro h
    by_cases hbars : bars ≤ 2236962
    · exact .inl hbars
    · exact .inr fun htmpl => (understood_wrapped_iff (ne_nil_of_barNotes htmpl) (by omega) _).mp
        (h 2236962 (by omega) htmpl)
  · intro h bar hbar htmpl
    have hne := ne_nil_of_barNotes htmpl
    -- Below the bar the spans are exact, behind it nothing is read, and at it the end of the span
    -- wraps.
    obtain hlt | rfl | hgt := Nat.lt_trichotomy bar 2236962
    · obtain ⟨ev, hev⟩ := List.exists_mem_of_ne_nil _ htmpl.ne_nil
      have hpcs := List.ne_nil_of_mem (mem_pitchClasses.mpr ⟨ev, hev, rfl⟩)
      obtain ⟨root, hroot, tmpl, hmem, hsounds⟩ := htmpl
      obtain ⟨root', hroot', tmpl', hmem', hsym, hfits⟩ :=
        detectChord_exact hpcs hroot hmem (fits_iff_sounds.mpr hsounds)
      rw [← barSymbol_exact harmony hlt] at hsym
      exact (understood_iff hne hbar (hsym ▸ decodes hroot' hmem') _).mpr
        (fits_iff_sounds.mp hfits)
    · obtain hbars | h := h
      · omega
      · exact (understood_wrapped_iff hne (by omega) _).mpr (h htmpl)
    · exact absurd (barNotes_behind harmony hgt) htmpl.ne_nil

/-- A D major chord in the last bar that has ticks. -/
def lateChord : List MidiEvent :=
  [⟨4294967040, 4294967290, 0, 62, 90, 0⟩, ⟨4294967040, 4294967290, 0, 66, 90, 0⟩,
   ⟨4294967040, 4294967290, 0, 69, 90, 0⟩]

/-- The late D major chord is taken for C major. -/
theorem lateChord_not_understood : ¬ ChordsUnderstood lateChord 2236963 := by
  have hnotes : barNotes lateChord 2236962 = lateChord := by decide
  have htmpl : IsTemplate lateChord := by
    refine ⟨2, by decide, (bytes "maj", [0, 4, 7]), by decide, ?_⟩
    rw [← fits_iff_sounds]
    unfold Fits
    decide
  intro h
  have hunderstood := h 2236962 (by decide) (hnotes.symm ▸ htmpl)
  rw [hnotes, understood_wrapped_iff (by decide) (by decide)] at hunderstood
  obtain ⟨o, ho, hpc⟩ := (hunderstood 2).mp ⟨_, List.mem_cons_self, rfl⟩
  revert o
  decide

end AiMidi.Proofs.Orchestration
