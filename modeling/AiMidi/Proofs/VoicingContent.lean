import AiMidi.Proofs.ChordVoicing

/-!
# `AiMidi.Proofs.VoicingContent`: a voicing, chord by chord

`voicing_content` splits the output of `ChordEngine` into one group of events for each chord, in
the order of the chords, and says what a group contains (`VoicedAs`). Any integer is a root and
any string a quality: `offsetsFor` falls back to a major triad.
-/

set_option autoImplicit false

namespace AiMidi.Proofs.VoicingContent

open AiMidi.Lib AiMidi.Theory AiMidi.Theory.ChordEngine
open AiMidi.Proofs.ChordVoicing

/-- The events of one chord: one for each offset of its quality, all from the first tick of the
chord to its last, on its channel and in its register, with one velocity. Their pitch classes
are those of the offsets above the root. -/
structure VoicedAs (cs : ChordSpec) (out : List MidiEvent) : Prop where
  count : out.length = (offsetsFor cs.quality).length
  tickOn : ∀ ev ∈ out, ev.tickOn = cs.startTick
  tickOff : ∀ ev ∈ out,
    ev.tickOff.toNat = (cs.startTick.toNat + cs.durationTicks.toNat) % 2 ^ 32
  channel : ∀ ev ∈ out, ev.channel = cs.channel
  velocity : ∃ v : UInt8, 50 ≤ v.toNat ∧ v.toNat ≤ 100 ∧ ∀ ev ∈ out, ev.velocity = v
  register : ∀ ev ∈ out, 36 ≤ ev.note.toNat ∧ ev.note.toNat ≤ 70
  classes : (out.map fun ev => (ev.note.toNat : Int) % 12).Perm
    ((offsetsFor cs.quality).map fun off => (cs.rootPc + off) % 12)

/-- The events of an inverted chord voice it, at any of its velocities. -/
theorem noteEvents_voicedAs (cs : ChordSpec) (inv : Int) {vel : Nat} (hvel : vel < 51) :
    VoicedAs cs
      ((applyInversion (rootPosition cs) inv).map (noteEvent cs (u8cast (50 + vel)))) := by
  -- What holds of the event of every note of the inversion.
  have hevent : ∀ P : MidiEvent → Prop,
      (∀ n ∈ applyInversion (rootPosition cs) inv, P (noteEvent cs (u8cast (50 + vel)) n)) →
        ∀ ev ∈ (applyInversion (rootPosition cs) inv).map (noteEvent cs (u8cast (50 + vel))),
          P ev := fun P h => List.forall_mem_map.mpr h
  have hv : (u8cast (50 + vel)).toNat = 50 + vel := by
    rw [u8cast_toNat (by omega) (by omega)]
    omega
  constructor
  case count =>
    rw [List.length_map, length_applyInversion, rootPosition, List.length_map]
  case tickOn => exact hevent _ fun n _ => rfl
  case tickOff =>
    refine hevent _ fun n _ => ?_
    show (u32cast ((cs.startTick.toNat : Int) + cs.durationTicks.toNat)).toNat = _
    rw [← Int.natCast_add, u32cast_natCast]
  case channel => exact hevent _ fun n _ => rfl
  case velocity =>
    exact ⟨u8cast (50 + vel), by omega, by omega, hevent _ fun n _ => rfl⟩
  case register =>
    refine hevent _ fun n hn => ?_
    obtain ⟨hlow, hhigh⟩ := applyInversion_range cs inv hn
    show 36 ≤ (u8cast n).toNat ∧ (u8cast n).toNat ≤ 70
    rw [u8cast_toNat (by omega) (by omega)]
    omega
  case classes => exact noteEvents_classes cs inv _

/-- Every voiced chord is voiced as requested, whatever the generator draws. -/
theorem voiceChord_voicedAs (cs : ChordSpec) : Seeded.Yields (voiceChord cs) (VoicedAs cs) := by
  refine (voiceChord_eq cs).mono fun out hout => ?_
  obtain ⟨inv, vel, hvel, rfl⟩ := hout
  exact noteEvents_voicedAs cs inv hvel

/-- A voicing is the groups of its chords, one after the other. -/
theorem voicing_content (req : ChordRequest) :
    ∃ groups, List.Forall₂ VoicedAs req.chords groups ∧ (voicing req).val = groups.flatten := by
  refine ⟨Seeded.value (Seeded.forEach (Seeded.grouped voiceChord) req.chords) (.ofSeed req.seed),
    Seeded.forall₂_grouped voiceChord_voicedAs _ _, ?_⟩
  exact (Seeded.run_grouped voiceChord req.chords (.ofSeed req.seed)).1.symm

end AiMidi.Proofs.VoicingContent
