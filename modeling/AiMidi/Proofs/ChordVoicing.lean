import AiMidi.Lib.Tables
import AiMidi.Theory.ChordEngine

/-!
# `AiMidi.Proofs.ChordVoicing`: what a voiced chord sounds

An inversion moves notes by octaves only and the notes stay between 36 and 70, so a voiced chord
sounds every tone of its quality and no other (`voiceChord_sounds`), for every draw.

Notes are bounded first, so that no cast to a byte changes one (`applyInversion_range`). The pitch
classes then go through the inversion unchanged, and an event has the class of its note.
-/

set_option autoImplicit false

namespace AiMidi.Proofs.ChordVoicing

open AiMidi.Lib AiMidi.Theory AiMidi.Theory.ChordEngine

/-! ### Notes

The bounds are needed in two places: no cast to a byte changes a note, and the test for the range of
MIDI drops none. -/

/-- A chord type has tones, all within the octave. -/
theorem offsetsFor_range (quality : Bytes) :
    offsetsFor quality ≠ [] ∧ ∀ off ∈ offsetsFor quality, 0 ≤ off ∧ off ≤ 11 := by
  have htable : ∀ entry ∈ qualityTable, entry.2 ≠ [] ∧ ∀ off ∈ entry.2, 0 ≤ off ∧ off ≤ 11 := by
    decide
  rw [offsetsFor]
  exact getD_lookup (P := fun offsets => offsets ≠ [] ∧ ∀ off ∈ offsets, 0 ≤ off ∧ off ≤ 11)
    htable (by decide) quality

/-- No tone comes twice. -/
theorem offsetsFor_nodup (quality : Bytes) : (offsetsFor quality).Nodup := by
  have htable : ∀ entry ∈ qualityTable, entry.2.Nodup := by decide
  rw [offsetsFor]
  exact getD_lookup htable (by decide) quality

/-- The root position lies around the middle of the register. -/
theorem rootPosition_range (cs : ChordSpec) :
    ∀ n ∈ rootPosition cs, 48 ≤ n ∧ n ≤ 70 := by
  intro n hn
  obtain ⟨off, hoff, rfl⟩ := List.mem_map.mp hn
  obtain ⟨hlow, hhigh⟩ := (offsetsFor_range cs.quality).2 off hoff
  -- `((root % 12) + 12) % 12` is a pitch class for every root, negative ones included.
  have hroot := Int.tmod_lt_of_pos cs.rootPc (show (0 : Int) < 12 by decide)
  have hroot' := Int.lt_tmod_of_pos cs.rootPc (show (0 : Int) < 12 by decide)
  have hpc : 0 ≤ Int.tmod (Int.tmod cs.rootPc 12 + 12) 12 := Int.tmod_nonneg 12 (by omega)
  have hpc' := Int.tmod_lt_of_pos (Int.tmod cs.rootPc 12 + 12) (show (0 : Int) < 12 by decide)
  rw [baseOctaveMidi]
  omega

/-- Inversion moves a note down an octave at most. -/
theorem mem_applyInversion {notes : List Int} {inv n : Int}
    (h : n ∈ applyInversion notes inv) : n ∈ notes ∨ n + 12 ∈ notes := by
  unfold applyInversion at h
  split at h
  · exact absurd h (by simp)
  · obtain h | h := List.mem_append.mp h
    · exact .inl (List.mem_of_mem_drop h)
    · obtain ⟨m, hm, rfl⟩ := List.mem_map.mp h
      exact .inr (by simpa using List.mem_of_mem_take hm)

/-- An inversion neither adds nor drops a note. -/
theorem length_applyInversion (notes : List Int) (inv : Int) :
    (applyInversion notes inv).length = notes.length := by
  unfold applyInversion
  split
  case isTrue h => rw [h]
  case isFalse =>
    rw [List.length_append, List.length_map, Nat.add_comm, ← List.length_append,
      List.take_append_drop]

/-- Between C2 and A#4. -/
theorem applyInversion_range (cs : ChordSpec) (inv : Int) {n : Int}
    (h : n ∈ applyInversion (rootPosition cs) inv) : 36 ≤ n ∧ n ≤ 70 := by
  obtain h | h := mem_applyInversion h
  · have := rootPosition_range cs n h
    omega
  · have := rootPosition_range cs _ h
    omega

/-- The voicing of a chord keeps a note. -/
theorem exists_note_of_voicing (cs : ChordSpec) (inv : Int) :
    ∃ n ∈ applyInversion (rootPosition cs) inv, 0 ≤ n ∧ n ≤ 127 := by
  -- An inversion keeps the number of notes, and every quality has some.
  have hne : applyInversion (rootPosition cs) inv ≠ [] := by
    rw [← List.length_pos_iff, length_applyInversion, rootPosition, List.length_map,
      List.length_pos_iff]
    exact (offsetsFor_range cs.quality).1
  obtain ⟨n, hn⟩ := List.exists_mem_of_ne_nil _ hne
  have := applyInversion_range cs inv hn
  exact ⟨n, hn, by omega, by omega⟩

/-! ### Events -/

/-- The event of a note of the chord. -/
def noteEvent (cs : ChordSpec) (velocity : UInt8) (n : Int) : MidiEvent :=
  ⟨cs.startTick, u32cast (cs.startTick.toNat + cs.durationTicks.toNat), cs.channel, u8cast n,
    velocity, 0⟩

/-- A voiced chord is an inversion, with one velocity for all its notes. No note is left out. -/
theorem voiceChord_eq (cs : ChordSpec) :
    Seeded.Yields (voiceChord cs) fun out => ∃ inv vel : Nat, vel < 51 ∧
      out = (applyInversion (rootPosition cs) inv).map (noteEvent cs (u8cast (50 + vel))) := by
  refine Seeded.yields_bind_any fun inv => Seeded.yields_bind (Seeded.yields_draw (by decide))
    fun vel hvel => Seeded.yields_lift ⟨inv, vel, hvel, ?_⟩
  rw [Sanitized.val_forEach, List.map_eq_flatMap]
  refine List.flatMap_congr fun n hn => ?_
  obtain ⟨hlow, hhigh⟩ := applyInversion_range cs inv hn
  rw [chordNote, if_neg (by omega)]
  rfl

/-! ### Pitch classes

Octaves do not count for a pitch class. What is left of a voicing are the offsets of the quality
above the root. -/

/-- The events sound these tones above the root, and no others. -/
def SoundsTones (rootPc : Int) (offsets : List Int) (out : List MidiEvent) : Prop :=
  ∀ pc : Int, (∃ e ∈ out, (e.note.toNat : Int) % 12 = pc) ↔ ∃ o ∈ offsets, (rootPc + o) % 12 = pc

/-- Inversion keeps the pitch classes. -/
theorem applyInversion_classes (notes : List Int) (inv : Int) :
    ((applyInversion notes inv).map (· % 12)).Perm (notes.map (· % 12)) := by
  unfold applyInversion
  split
  case isTrue h => rw [h]
  case isFalse =>
    dsimp only
    generalize (Int.tmod (Int.tmod inv notes.length + notes.length) notes.length).toNat = k
    have hdown : (fun n : Int => n % 12) ∘ (· - 12) = (· % 12) := by
      funext n
      show (n - 12) % 12 = n % 12
      omega
    rw [List.map_append, List.map_map, hdown, ← List.map_append]
    refine List.Perm.map _ (List.perm_append_comm.trans ?_)
    rw [List.take_append_drop]

/-- The notes in root position are the tones. -/
theorem rootPosition_classes (cs : ChordSpec) :
    (rootPosition cs).map (· % 12) =
      (offsetsFor cs.quality).map fun off => (cs.rootPc + off) % 12 := by
  have hroot := Int.tmod_def cs.rootPc 12
  have hroot' := Int.tmod_def (Int.tmod cs.rootPc 12 + 12) 12
  rw [rootPosition, List.map_map]
  refine List.map_congr_left fun off _ => ?_
  show (baseOctaveMidi + Int.tmod (Int.tmod cs.rootPc 12 + 12) 12 + off) % 12 = _
  rw [baseOctaveMidi]
  omega

/-- The pitch class of a note is that of its event. -/
theorem noteEvent_class (cs : ChordSpec) (inv : Int) (velocity : UInt8) {n : Int}
    (hn : n ∈ applyInversion (rootPosition cs) inv) :
    ((noteEvent cs velocity n).note.toNat : Int) % 12 = n % 12 := by
  obtain ⟨hlow, hhigh⟩ := applyInversion_range cs inv hn
  show ((u8cast n).toNat : Int) % 12 = n % 12
  rw [u8cast_toNat (by omega) (by omega)]
  omega

/-- The pitch classes of the events are those of the tones. -/
theorem noteEvents_classes (cs : ChordSpec) (inv : Int) (velocity : UInt8) :
    (((applyInversion (rootPosition cs) inv).map (noteEvent cs velocity)).map
        fun ev => (ev.note.toNat : Int) % 12).Perm
      ((offsetsFor cs.quality).map fun off => (cs.rootPc + off) % 12) := by
  have hclass : ((applyInversion (rootPosition cs) inv).map (noteEvent cs velocity)).map
      (fun ev => (ev.note.toNat : Int) % 12) =
        (applyInversion (rootPosition cs) inv).map (· % 12) := by
    rw [List.map_map]
    exact List.map_congr_left fun n hn => noteEvent_class cs inv velocity hn
  rw [hclass, ← rootPosition_classes]
  exact applyInversion_classes _ _

/-- A voiced chord sounds the tones of its quality. -/
theorem voiceChord_sounds (cs : ChordSpec) :
    Seeded.Yields (voiceChord cs) (SoundsTones cs.rootPc (offsetsFor cs.quality)) := by
  refine (voiceChord_eq cs).mono fun out hout pc => ?_
  obtain ⟨inv, vel, -, rfl⟩ := hout
  have hmem := (noteEvents_classes cs inv (u8cast (50 + vel))).mem_iff (a := pc)
  rw [List.mem_map, List.mem_map] at hmem
  exact hmem

/-- A voiced chord has notes. -/
theorem voiceChord_ne_nil (cs : ChordSpec) :
    Seeded.Yields (ChordEngine.voiceChord cs) (· ≠ []) := by
  intro rng hnil
  -- It sounds the first tone of its quality.
  obtain ⟨off, hoff⟩ := List.exists_mem_of_ne_nil _ (offsetsFor_range cs.quality).1
  obtain ⟨e, he, -⟩ := (voiceChord_sounds cs rng _).mpr ⟨off, hoff, rfl⟩
  rw [hnil] at he
  exact absurd he List.not_mem_nil

end AiMidi.Proofs.ChordVoicing
