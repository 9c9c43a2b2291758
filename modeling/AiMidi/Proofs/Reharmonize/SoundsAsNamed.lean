import AiMidi.Proofs.ChordVoicing
import AiMidi.Proofs.Reharmonize.Jazz
import AiMidi.Proofs.Reharmonize.Styles

/-!
# `AiMidi.Proofs.Reharmonize.SoundsAsNamed`: the voicing sounds what the symbols say

Symbols are written from nine qualities, and the chord engine knows eight of them: `aug` falls
into its fallback, a major triad. So a progression sounds as it is named exactly when it has
no augmented chord (`soundsAsNamed_iff_symbols`), and a reharmonised one exactly when its style
never takes the branch that writes one (`soundsAsNamed_iff`).

The proof goes through the symbols. Whether the voicing of a symbol sounds what it denotes depends
on its quality only (`denoted_iff`), and which qualities a style prints is taken from `Styles` and
`Jazz` (`styleReharm_aug`). The condition speaks of the request and of the draws from its seed.
-/

set_option autoImplicit false

namespace AiMidi.Proofs.Reharmonize

open AiMidi.Lib AiMidi.Lib.Seeded AiMidi.Theory AiMidi.Theory.ReharmonizeEngine
open AiMidi.Proofs.ChordVoicing

/-! ### The property -/

/-- The chord has the pitch classes that its symbol denotes, with the guitar engine's table of
qualities, and no others. -/
def Denoted (symbol : Bytes) (chord : List MidiEvent) : Prop :=
  SoundsTones (GuitarEngine.parseChord symbol).rootPc
    (GuitarEngine.offsetsFor (GuitarEngine.parseChord symbol).quality) chord

/-- The voicing of a progression, chord by chord. -/
def voicedChords (symbols : List Bytes) (bars : Int) (seed : Seed) : List (List MidiEvent) :=
  value (forEach (grouped ChordEngine.voiceChord) (chordSpecs symbols bars).val) (.ofSeed seed)

/-- The voicing sounds, symbol by symbol, what the symbol denotes, and no symbol falls into the
fallback of the chord engine. -/
structure SoundsAsNamed (symbols : List Bytes) (bars : Int) (seed : Seed) : Prop where
  in_order : (voicedChords symbols bars seed).flatten = (generateVoicings symbols bars seed).val
  denoted : List.Forall₂ Denoted symbols (voicedChords symbols bars seed)
  known : ∀ symbol ∈ symbols, qualityOf symbol ∈ qualityTable.map Prod.fst

/-! ### Symbols

The symbol is parsed twice: by the chord engine for the sound, and by the table for what it denotes.
Only for one quality do the two differ. -/

/-- Each symbol is parsed into a chord of its root and quality. -/
theorem forall₂_chordSpecs (symbols : List Bytes) (bars : Int) :
    List.Forall₂ (fun symbol cs => cs.rootPc = rootOf symbol ∧ cs.quality = qualityOf symbol)
      symbols (chordSpecs symbols bars).val := by
  obtain ⟨ticks, hval⟩ : ∃ ticks, (chordSpecs symbols bars).val =
      symbols.zipIdx.flatMap fun p => [(chordSpec ticks p.1 p.2).val] := by
    unfold chordSpecs
    rw [Sanitized.val_bind, Sanitized.val_forEach]
    exact ⟨_, rfl⟩
  rw [hval]
  clear hval
  suffices h : ∀ k, List.Forall₂
      (fun symbol cs => cs.rootPc = rootOf symbol ∧ cs.quality = qualityOf symbol) symbols
      ((symbols.zipIdx k).flatMap fun p => [(chordSpec ticks p.1 p.2).val]) from h 0
  induction symbols with
  | nil => exact fun _ => .nil
  | cons symbol symbols ih => exact fun k => .cons ⟨rfl, rfl⟩ (ih (k + 1))

/-- The voicing is what the engine emits. -/
theorem flatten_voicedChords (symbols : List Bytes) (bars : Int) (seed : Seed) :
    (voicedChords symbols bars seed).flatten = (generateVoicings symbols bars seed).val := by
  rw [voicedChords, (run_grouped _ _ _).1, generateVoicings]
  split
  case isTrue hnil =>
    have hspecs := forall₂_chordSpecs symbols bars
    rw [hnil, List.forall₂_nil_left_iff] at hspecs
    rw [hnil, hspecs]
    rfl
  case isFalse =>
    rw [Sanitized.val_bind, ChordEngine.voicing, val_run]

/-- The chord engine voices each symbol with its own offsets for the quality. -/
theorem forall₂_voicedChords (symbols : List Bytes) (bars : Int) (seed : Seed) :
    List.Forall₂ (fun symbol => SoundsTones (rootOf symbol) (offsetsFor (qualityOf symbol))) symbols
      (voicedChords symbols bars seed) := by
  have hspecs := forall₂_chordSpecs symbols bars
  unfold voicedChords
  generalize (chordSpecs symbols bars).val = specs at hspecs
  generalize Mt19937_64.ofSeed seed = rng
  induction hspecs generalizing rng with
  | nil => exact .nil
  | @cons symbol cs symbols specs h _ ih =>
    refine .cons ?_ (ih _)
    have hsounds := voiceChord_sounds cs rng
    rwa [h.1, h.2] at hsounds

/-- Of the nine qualities the chord engine knows all but `aug`, as the guitar engine does. -/
theorem denoted_iff {symbol : Bytes} (h : Spelled symbol) {chord : List MidiEvent}
    (hsounds : SoundsTones (rootOf symbol) (offsetsFor (qualityOf symbol)) chord) :
    Denoted symbol chord ↔ ¬ IsAug symbol := by
  have htable : ∀ q ∈ qualities, q ≠ bytes "aug" → offsetsFor q = GuitarEngine.offsetsFor q := by
    decide
  obtain ⟨hroot, hquality⟩ := guitar_parseChord symbol
  rw [Denoted, hroot, hquality h]
  constructor
  · intro hdenoted haug
    -- The fallback has a perfect fifth, and the augmented triad has none.
    rw [haug] at hdenoted hsounds
    have hfifth := (hsounds ((rootOf symbol + 7) % 12)).mpr ⟨7, by decide, rfl⟩
    obtain ⟨o, ho, hpc⟩ := (hdenoted _).mp hfifth
    have htones : o = 0 ∨ o = 4 ∨ o = 8 := by
      rw [show GuitarEngine.offsetsFor (bytes "aug") = [0, 4, 8] from rfl] at ho
      simpa using ho
    omega
  · intro haug
    rwa [← htable _ h haug]

/-- A progression sounds as it is named exactly when none of its chords is augmented. -/
theorem soundsAsNamed_iff_symbols {symbols : List Bytes} (h : ∀ s ∈ symbols, Spelled s)
    (bars : Int) (seed : Seed) :
    SoundsAsNamed symbols bars seed ↔ ¬ ∃ s ∈ symbols, IsAug s := by
  have hvoiced := forall₂_voicedChords symbols bars seed
  -- Symbol and sounded chord are compared one by one.
  have hdenoted : List.Forall₂ Denoted symbols (voicedChords symbols bars seed) ↔
      ∀ s ∈ symbols, ¬ IsAug s := by
    generalize voicedChords symbols bars seed = chords at hvoiced
    induction hvoiced with
    | nil => simp
    | cons hsounds _ ih =>
      rw [List.forall_mem_cons] at h
      rw [List.forall₂_cons, List.forall_mem_cons, denoted_iff h.1 hsounds, ih h.2]
  -- Every quality but `aug` is in the table of the names.
  have hknown : ∀ q ∈ qualities, q ≠ bytes "aug" → q ∈ qualityTable.map Prod.fst := by decide
  constructor
  · rintro hsounds ⟨s, hs, haug⟩
    exact hdenoted.mp hsounds.denoted s hs haug
  · intro hnone
    have hall : ∀ s ∈ symbols, ¬ IsAug s := fun s hs haug => hnone ⟨s, hs, haug⟩
    exact ⟨flatten_voicedChords symbols bars seed, hdenoted.mpr hall,
      fun s hs => hknown _ (h s hs) (hall s hs)⟩

/-! ### Styles

The conditions of the styles are put side by side. Each speaks of the chords of the request and of
the generator that the style starts from. -/

/-- The style takes the branch that writes an augmented chord, with the generator `rng` at its
start. -/
def TakesAug (key scale : Bytes) (chords : List Bytes) (rng : Mt19937_64) : ReharmStyle → Prop
  | .simple => ∃ chord ∈ chords, KeepsAug key scale chord
  | .jazz => Splits (withNext chords) (JazzKeepsAug key scale rng)
  | .modal => ∃ chord ∈ chords, KeepsAug key scale chord
  | .chromatic => Splits chords.zipIdx fun pre p _ => DrawsAug key scale p.1 p.2
      (after (passingChord (rootOf p.1) p.2) (after (forEach (chromaticChord key scale) pre) rng))
  | .pedal => Splits chords fun pre _ _ =>
      DrawsThird scale (after (forEach (fun _ => pedalChord key scale) pre) rng)

section

variable {key scale : Bytes} {chords : List Bytes}

/-- Every style spells its symbols. -/
theorem styleReharm_spelled (style : ReharmStyle) (h : ∀ c ∈ chords, Spelled c) :
    Yields (styleReharm style chords key scale) fun out => ∀ s ∈ out, Spelled s := by
  cases style with
  | simple =>
    exact yields_forEach_forall fun c hc => (simpleChord_spec (h c hc)).mono fun _ h => h.1
  | jazz => exact jazzReharm_spelled h
  | modal =>
    refine yields_bind_any fun mode => yields_pure fun s hs => ?_
    obtain ⟨c, hc, rfl⟩ := List.mem_map.mp hs
    exact (modalChord_spec (h c hc)).1
  | chromatic => exact yields_forEach_forall fun p hp =>
      chromaticChord_spelled (h p.1 (List.fst_mem_of_mem_zipIdx hp))
  | pedal => exact yields_forEach_forall fun _ _ => pedalChord_spelled

/-- A style has an augmented chord exactly when the request and the draws lead to one. -/
theorem styleReharm_aug (style : ReharmStyle) (h : ∀ c ∈ chords, Spelled c) (rng : Mt19937_64) :
    (∃ s ∈ value (styleReharm style chords key scale) rng, IsAug s) ↔
      TakesAug key scale chords rng style := by
  cases style with
  | simple =>
    show (∃ s ∈ value (forEach (simpleChord key scale) chords) rng, IsAug s) ↔ _
    rw [exists_mem_forEach, TakesAug, ← splits_mem]
    refine splits_congr fun pre c post hsplit => ?_
    exact (simpleChord_spec (h c (by simp [hsplit])) _).2
  | jazz => exact jazzReharm_aug h rng
  | modal =>
    show (∃ s ∈ chords.map (modalChord key scale), IsAug s) ↔ _
    simp only [List.mem_map, exists_exists_and_eq_and]
    exact exists_congr fun c => and_congr_right fun hc => (modalChord_spec (h c hc)).2
  | chromatic =>
    show (∃ s ∈ value (forEach (chromaticChord key scale) chords.zipIdx) rng, IsAug s) ↔ _
    rw [exists_mem_forEach]
    refine splits_congr fun pre p post hsplit => ?_
    exact chromaticChord_aug (h p.1 (List.fst_mem_of_mem_zipIdx (by rw [hsplit]; simp))) p.2 _
  | pedal =>
    show (∃ s ∈ value (forEach (fun _ => pedalChord key scale) chords) rng, IsAug s) ↔ _
    rw [exists_mem_forEach]
    exact splits_congr fun pre c post _ => pedalChord_aug _

end

/-! ### The engine

The engine has guards in front of the style. Behind them it draws nothing before the style does, so
the condition is about the seed. -/

/-- Past its guards a reharmonization is the style from the generator of the seed. -/
theorem reharmonize_eq {req : ReharmonizeRequest} (hmelody : req.melody ≠ [])
    (hbars : 1 ≤ req.bars) : reharmonize req =
      value (styleReharm req.style req.originalChords req.key req.scale) (.ofSeed req.seed) := by
  rw [reharmonize, if_neg fun h => h.elim (fun h => absurd hbars (by omega)) hmelody]
  rfl

/-- When a reharmonised progression sounds as it is named: when its style never takes the branch
that writes an augmented chord. -/
theorem soundsAsNamed_iff {req : ReharmonizeRequest} (hmelody : req.melody ≠ [])
    (hbars : 1 ≤ req.bars) (hspelled : ∀ c ∈ req.originalChords, Spelled c) (bars : Int)
    (seed : Seed) :
    SoundsAsNamed (reharmonize req) bars seed ↔
      ¬ TakesAug req.key req.scale req.originalChords (.ofSeed req.seed) req.style := by
  rw [reharmonize_eq hmelody hbars,
    soundsAsNamed_iff_symbols (styleReharm_spelled req.style hspelled _) bars seed,
    styleReharm_aug req.style hspelled]

/-- Four bars of C major for the chromatic style: the V is altered, and no other chord is major. -/
def fourBars : ReharmonizeRequest where
  melody := [⟨0, 480, 0, 62, 100, 0⟩, ⟨1920, 2400, 0, 67, 100, 0⟩]
  key := bytes "C"
  scale := bytes "major"
  originalChords := [bytes "Dm", bytes "G", bytes "Am7", bytes "Bdim"]
  bars := 4
  bpm := 120
  style := .chromatic
  seed := 7

/-- Whatever is drawn for the four chords, the result sounds as it is named. -/
theorem soundsAsNamed_iff_fourBars : SoundsAsNamed (reharmonize fourBars) 4 42 := by
  have hspelled : ∀ c ∈ fourBars.originalChords, qualityOf c ∈ qualities := by decide
  have hplain : ∀ p ∈ fourBars.originalChords.zipIdx,
      (findDegree (rootOf p.1) fourBars.key fourBars.scale = some 4 ∧ p.2 > 0) ∨
        (qualityOf p.1 ≠ bytes "aug" ∧ qualityOf p.1 ≠ bytes "maj") := by decide
  refine (soundsAsNamed_iff (show fourBars.melody ≠ [] by decide) (by decide) hspelled 4 42).mpr ?_
  rintro ⟨pre, p, post, hsplit, hdegree, hdraws⟩
  obtain hfifth | ⟨haug, hmajor⟩ := hplain p (by rw [hsplit]; simp)
  · exact hdegree hfifth
  · exact hdraws.elim haug fun h => hmajor h.1

/-- One bar under one note of C major. -/
def oneBar (chord : Bytes) : ReharmonizeRequest where
  melody := [⟨0, 480, 0, 60, 100, 0⟩]
  key := bytes "C"
  scale := bytes "major"
  originalChords := [chord]
  bars := 1
  bpm := 120

/-- The simple style keeps an augmented chord on a root outside the scale, and the chord engine
plays it with a perfect fifth. -/
theorem not_soundsAsNamed :
    ¬ ∀ (req : ReharmonizeRequest) (bars : Int) (seed : Seed), req.melody ≠ [] → 1 ≤ req.bars →
      (∀ c ∈ req.originalChords, Spelled c) → SoundsAsNamed (reharmonize req) bars seed := by
  intro hall
  have hmelody : (oneBar (bytes "C#aug")).melody ≠ [] := by decide
  have hbars : 1 ≤ (oneBar (bytes "C#aug")).bars := by decide
  have hspelled : ∀ c ∈ [bytes "C#aug"], Spelled c :=
    List.forall_mem_singleton.mpr (show qualityOf (bytes "C#aug") ∈ qualities by decide)
  have hsounds := hall (oneBar (bytes "C#aug")) 1 42 hmelody hbars hspelled
  rw [reharmonize_eq hmelody hbars] at hsounds
  refine (soundsAsNamed_iff_symbols (styleReharm_spelled .simple hspelled _) 1 42).mp hsounds ?_
  refine (styleReharm_aug .simple hspelled _).mpr ⟨bytes "C#aug", List.mem_cons_self, ?_, ?_⟩
  · show qualityOf (bytes "C#aug") = bytes "aug"
    decide
  · decide

end AiMidi.Proofs.Reharmonize
