import AiMidi.Proofs.Orchestration.MelodySplit

/-!
# `AiMidi.Proofs.Orchestration.Coverage`: a chord for every bar

With some harmony, the progression has one symbol for each bar, and the requests of the bass and
the drums one chord at the tick of each bar. Without any, the progression is the one symbol `C`
whatever the number of bars. The chord engines repeat it, but the bass and the drums play one bar.

The harmony is what the split of the input leaves behind the highest note of each tick, so there
is none exactly when no two events start together (`harmony_eq_nil_iff`). `coversPiece_iff` is the
result.
-/

set_option autoImplicit false

namespace AiMidi.Proofs.Orchestration

open AiMidi.Lib AiMidi.Theory AiMidi.Theory.OrchestrateWorkflow

/-! ### Harmony

The split takes one event of each tick for the melody. Something is left for the harmony exactly
when some tick has two. -/

/-- One event of a tick is its melody note, the others are harmony. -/
theorem length_splitGroup (events : List MidiEvent) :
    (splitGroup events).2.length = events.length - 1 := by
  by_cases h : events = []
  · rw [h]
    rfl
  · obtain ⟨ev, rest, hsplit, hperm, -⟩ := splitGroup_cases h
    have hlen := hperm.length_eq
    rw [hsplit, ← hlen, List.length_cons, Nat.add_sub_cancel]

/-- The number of events that start at a tick. -/
theorem count_tickOn (piano : List MidiEvent) (tick : UInt32) :
    (piano.map MidiEvent.tickOn).count tick
      = (piano.filter fun ev => ev.tickOn.toNat = tick.toNat).length := by
  rw [List.count_eq_countP, List.countP_map, List.countP_eq_length_filter]
  congr 2
  funext ev
  show decide (ev.tickOn = tick) = _
  exact decide_eq_decide.mpr UInt32.toNat_inj.symm

/-- There is no harmony exactly when no two events start at one tick. -/
theorem harmony_eq_nil_iff (piano : List MidiEvent) :
    (separateMelodyHarmony piano).2 = [] ↔ (piano.map MidiEvent.tickOn).Nodup := by
  rw [List.nodup_iff_count_le_one]
  show (List.flatMap _ _ = []) ↔ _
  rw [List.flatMap_eq_nil_iff, List.forall_mem_map]
  constructor
  · intro h tick
    rw [count_tickOn]
    -- A tick without notes has count zero, and the group of any other has one note at most.
    by_cases hnone : piano.filter (fun ev => ev.tickOn.toNat = tick.toNat) = []
    · rw [hnone]
      decide
    · have hlen := congrArg List.length (h (tick.toNat, _) (mem_groupBy.mpr ⟨rfl, hnone⟩))
      rw [length_splitGroup, List.length_nil] at hlen
      exact Nat.sub_eq_zero_iff_le.mp hlen
  · rintro h ⟨tick, events⟩ hmem
    obtain ⟨rfl, hne⟩ := mem_groupBy.mp hmem
    obtain ⟨ev, hev⟩ := List.exists_mem_of_ne_nil _ hne
    rw [List.mem_filter, decide_eq_true_iff] at hev
    have hcount := h ev.tickOn
    rw [count_tickOn, hev.2] at hcount
    rw [← List.length_eq_zero_iff, length_splitGroup]
    exact Nat.sub_eq_zero_of_le hcount

/-! ### Progressions and requests

With a harmony the loop goes over all bars. Without one it is left early, with a single symbol. -/

/-- The symbol that a bar gets. -/
def barSymbol (harmony : List MidiEvent) (bar : Nat) : Bytes :=
  let barStart := (OrchestrationEngine.barTick bar).val
  detectChord (pitchClasses (barHarmony harmony barStart (addTick barStart 1920).val))

/-- The progression of a harmony has a symbol for each bar. -/
theorem buildChordProgression_eq {harmony : List MidiEvent} {bars : Int} (h : harmony ≠ [])
    (hbars : 1 ≤ bars) : (buildChordProgression harmony bars).val
      = (List.range bars.toNat).map (barSymbol harmony) := by
  rw [buildChordProgression, if_neg (not_or.mpr ⟨h, by omega⟩), Sanitized.val_forEach]
  exact List.map_eq_flatMap.symm

/-- The chords of the request begin where their bars do. -/
theorem buildChordRequest_chords (progression : List Bytes) (seed : Seed) :
    (buildChordRequest progression seed).val.chords = progression.zipIdx.map fun p =>
      chordSpec p.1 (OrchestrationEngine.barTick p.2).val := by
  show (Sanitized.forEach _ _).val = _
  rw [Sanitized.val_forEach]
  exact List.map_eq_flatMap.symm

/-- The chords of a request start at the first bars. -/
theorem buildChordRequest_startTicks (progression : List Bytes) (seed : Seed) :
    (buildChordRequest progression seed).val.chords.map ChordSpec.startTick
      = (List.range progression.length).map fun bar => (OrchestrationEngine.barTick bar).val := by
  rw [buildChordRequest_chords, List.map_map, List.range_eq_range', ← List.zipIdx_map_snd,
    List.map_map]
  rfl

/-- The progression has a symbol for each bar, and the requests that are built from it have a
chord at the start of each bar. -/
def CoversPiece (piano : List MidiEvent) (bars : Int) : Prop :=
  let progression := (buildChordProgression (separateMelodyHarmony piano).2 bars).val
  (progression.length : Int) = bars ∧ ∀ seed,
    (buildChordRequest progression seed).val.chords.map ChordSpec.startTick
      = (List.range bars.toNat).map fun bar => (OrchestrationEngine.barTick bar).val

/-- The piece is covered when there are as many symbols as bars. -/
theorem coversPiece_iff_length (piano : List MidiEvent) (bars : Int) : CoversPiece piano bars ↔
    ((buildChordProgression (separateMelodyHarmony piano).2 bars).val.length : Int) = bars := by
  constructor
  · exact And.left
  · intro hlen
    refine ⟨hlen, fun seed => ?_⟩
    rw [buildChordRequest_startTicks, ← Int.toNat_natCast (List.length _), hlen]

/-- Orchestration covers the whole piece exactly when the piece is one bar long or two events of
the input start together. -/
theorem coversPiece_iff (piano : List MidiEvent) {bars : Int} (hbars : 1 ≤ bars) :
    CoversPiece piano bars ↔ bars = 1 ∨ ¬ (piano.map MidiEvent.tickOn).Nodup := by
  rw [coversPiece_iff_length, ← harmony_eq_nil_iff]
  by_cases h : (separateMelodyHarmony piano).2 = []
  · rw [h, buildChordProgression, if_pos (.inl rfl)]
    simp [eq_comm]
  · rw [buildChordProgression_eq h hbars, List.length_map, List.length_range]
    simp only [h, not_false_eq_true, or_true, iff_true]
    exact Int.toNat_of_nonneg (by omega)

/-- A chord of two notes is harmony for two bars. -/
theorem coversPiece_iff_third :
    CoversPiece [⟨0, 480, 0, 60, 90, 0⟩, ⟨0, 480, 0, 64, 90, 0⟩] 2 ↔
      (2 : Int) = 1 ∨ ¬ ([⟨0, 480, 0, 60, 90, 0⟩, ⟨0, 480, 0, 64, 90, 0⟩].map
        MidiEvent.tickOn).Nodup :=
  coversPiece_iff _ (by decide)

/-- A melody of two bars gets one chord. -/
theorem melody_not_coversPiece :
    ¬ CoversPiece [⟨0, 480, 0, 60, 90, 0⟩, ⟨1920, 2400, 0, 62, 90, 0⟩] 2 := by
  intro h
  exact absurd h.1 (by decide)

end AiMidi.Proofs.Orchestration
