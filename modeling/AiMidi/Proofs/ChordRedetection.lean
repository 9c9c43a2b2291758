import AiMidi.Proofs.ChordVoicing
import AiMidi.Proofs.Reharmonize.Alignment
import AiMidi.Tools.MteCli

/-!
# `AiMidi.Proofs.ChordRedetection`: voiced chords are detected again

Detection sees the pitch classes of a group of notes only (`detectChord_congr`), and a voiced
chord sounds those of its quality in every inversion. So the five qualities that detection knows
are decided on the twelve roots (`detectChord_lowNotes`), and no other pitch class of such a
chord wins as its root.

`readBack_voicing` is the result for a whole progression: its notes, grouped by their ticks, are
read as the chords they were voiced from.
-/

set_option autoImplicit false

namespace AiMidi.Proofs.ChordRedetection

open AiMidi.Lib AiMidi.Lib.Seeded AiMidi.Theory AiMidi.Tools AiMidi.Proofs.ChordVoicing

/-- The qualities with a template. -/
def detectable : List Bytes := [bytes "maj", bytes "min", bytes "7", bytes "m7", bytes "maj7"]

/-- The groups of the events by their ticks, each as the chord that it spells. -/
def readBack (events : List MidiEvent) : List (Nat × ChordDetection) :=
  (groupBy (fun ev => ev.tickOn.toNat) events).map fun group => (group.1, detectChord group.2)

/-- A chord as it should be read back. -/
def asDetected (cs : ChordSpec) : Nat × ChordDetection :=
  (cs.startTick.toNat, ⟨true, cs.rootPc % 12, cs.quality⟩)

/-! ### One chord

Detection compares the pitch classes of the notes with the templates. Only finitely many sets of
classes come from voiced chords, and these are computed. -/

/-- Groups with the same pitch classes spell the same chord. -/
theorem detectChord_congr {events events' : List MidiEvent}
    (h : ∀ pc : Int, (∃ e ∈ events, (e.note.toNat : Int) % 12 = pc) ↔
      ∃ e ∈ events', (e.note.toNat : Int) % 12 = pc) :
    detectChord events = detectChord events' := by
  have hpcs : setOf (events.map fun e => (e.note.toNat % 12 : Int)) =
      setOf (events'.map fun e => (e.note.toNat % 12 : Int)) := by
    apply setOf_congr
    intro pc
    rw [List.mem_map, List.mem_map]
    exact h pc
  unfold detectChord
  rw [hpcs]

/-- The tones of a quality above a pitch class, as notes of the lowest octaves. -/
def lowNotes (pc : Nat) (quality : Bytes) : List MidiEvent :=
  (offsetsFor quality).map fun off => ⟨0, 0, 0, UInt8.ofNat (pc + off.toNat), 0, 0⟩

/-- Each root wins over the other tones of its chord. -/
theorem detectChord_lowNotes : ∀ pc < 12, ∀ quality ∈ detectable,
    detectChord (lowNotes pc quality) = ⟨true, pc, quality⟩ := by
  decide

/-- The lowest position of a chord sounds its tones. -/
theorem lowNotes_sounds {pc : Nat} (h : pc < 12) (quality : Bytes) :
    SoundsTones pc (offsetsFor quality) (lowNotes pc quality) := by
  intro x
  simp only [lowNotes, List.mem_map, exists_exists_and_eq_and]
  have hnote : ∀ off ∈ offsetsFor quality,
      ((UInt8.ofNat (pc + off.toNat)).toNat : Int) % 12 = (pc + off) % 12 := by
    intro off hoff
    obtain ⟨hlow, hhigh⟩ := (offsetsFor_range quality).2 off hoff
    rw [UInt8.toNat_ofNat_of_lt' (by simp [UInt8.size]; omega)]
    omega
  constructor
  · rintro ⟨off, hoff, hx⟩
    exact ⟨off, hoff, (hnote off hoff).symm.trans hx⟩
  · rintro ⟨off, hoff, hx⟩
    exact ⟨off, hoff, (hnote off hoff).trans hx⟩

/-- Notes that sound the tones of a known quality spell their chord, in whatever octaves they
are. -/
theorem detectChord_of_sounds {rootPc : Int} {quality : Bytes} {events : List MidiEvent}
    (hquality : quality ∈ detectable) (hsounds : SoundsTones rootPc (offsetsFor quality) events) :
    detectChord events = ⟨true, rootPc % 12, quality⟩ := by
  -- The root enters by its pitch class only.
  have hnonneg : 0 ≤ rootPc % 12 := Int.emod_nonneg rootPc (by decide)
  obtain ⟨pc, hpc⟩ := Int.eq_ofNat_of_zero_le hnonneg
  have hlt : pc < 12 := by omega
  have hsame : detectChord events = detectChord (lowNotes pc quality) := by
    apply detectChord_congr
    intro x
    rw [hsounds x, lowNotes_sounds hlt quality x]
    have hroot : ∀ off : Int, (rootPc + off) % 12 = (pc + off) % 12 := fun off => by omega
    simp only [hroot]
  rw [hsame, detectChord_lowNotes pc hlt quality hquality, hpc]

/-! ### Progressions

Chords with different ticks give different groups, so the groups are read back one by one in the
order of the progression. -/

/-- The notes of a progression start with its chords. -/
theorem exists_of_mem_voicing {chords : List ChordSpec} {rng : Mt19937_64} {e : MidiEvent}
    (he : e ∈ value (forEach ChordEngine.voiceChord chords) rng) :
    ∃ cs ∈ chords, e.tickOn = cs.startTick := by
  have hall : Yields (forEach ChordEngine.voiceChord chords) fun out =>
      ∀ e ∈ out, ∃ cs ∈ chords, e.tickOn = cs.startTick := by
    apply yields_forEach_forall
    intro cs hcs rng e he
    exact ⟨cs, hcs, ((Reharmonize.voiceChord_spans cs rng).2 e he).1⟩
  exact hall rng e he

/-- Chords of recognised types at rising ticks are read back from their voicings. -/
theorem readBack_forEach {chords : List ChordSpec}
    (hticks : (chords.map ChordSpec.startTick).Pairwise (· < ·))
    (hquality : ∀ cs ∈ chords, cs.quality ∈ detectable) (rng : Mt19937_64) :
    readBack (value (forEach ChordEngine.voiceChord chords) rng) = chords.map asDetected := by
  unfold readBack
  induction chords generalizing rng with
  | nil => rfl
  | cons cs chords ih =>
    rw [List.map_cons, List.pairwise_cons] at hticks
    obtain ⟨hne, hspans⟩ := Reharmonize.voiceChord_spans cs rng
    -- The first chord is a group of its own, as the other chords start behind it.
    have hgroup : ∀ e ∈ value (ChordEngine.voiceChord cs) rng,
        e.tickOn.toNat = cs.startTick.toNat := fun e he => by rw [(hspans e he).1]
    have hbehind : ∀ e ∈ value (forEach ChordEngine.voiceChord chords)
        (after (ChordEngine.voiceChord cs) rng), cs.startTick.toNat < e.tickOn.toNat := by
      intro e he
      obtain ⟨cs', hcs', htick⟩ := exists_of_mem_voicing he
      rw [htick]
      exact hticks.1 _ (List.mem_map_of_mem hcs')
    rw [value_forEach_cons, groupBy_append hne hgroup hbehind, List.map_cons,
      ih hticks.2 (fun cs' hcs' => hquality cs' (List.mem_cons_of_mem _ hcs')), List.map_cons,
      detectChord_of_sounds (hquality cs List.mem_cons_self) (voiceChord_sounds cs rng)]
    rfl

/-- Chords with ascending ticks and known qualities survive voicing and detection, for every
seed. -/
theorem readBack_voicing (req : ChordRequest)
    (hticks : (req.chords.map ChordSpec.startTick).Pairwise (· < ·))
    (hquality : ∀ cs ∈ req.chords, cs.quality ∈ detectable) :
    readBack (ChordEngine.voicing req).val = req.chords.map asDetected := by
  rw [ChordEngine.voicing, val_run]
  exact readBack_forEach hticks hquality _

/-- A minor seventh chord and a dominant on a root that is no pitch class. -/
theorem readBack_voicing_twoFive :
    readBack (ChordEngine.voicing
        ⟨[⟨0, 1920, 2, bytes "m7", 0⟩, ⟨1920, 1920, -5, bytes "7", 0⟩], 42, 480⟩).val =
      [(0, ⟨true, 2, bytes "m7"⟩), (1920, ⟨true, 7, bytes "7"⟩)] :=
  readBack_voicing _ (by decide) (by decide)

end AiMidi.Proofs.ChordRedetection
