import AiMidi.Theory.BassEngine

/-!
# `AiMidi.Proofs.BassPatterns`: the patterns of the bass as lists of notes

A pattern draws at most two walking notes and plays three or four notes, each on a beat of its
own. `chordNotes_eq` has them as a list of beats, so that a property of the bass is a property of
the notes of that list. The notes of pattern A pass through an `int` on the way, and come back as
they were (`beatNote_val`).
-/

set_option autoImplicit false

namespace AiMidi.Proofs.BassPatterns

open AiMidi.Lib AiMidi.Lib.Seeded AiMidi.Theory AiMidi.Theory.BassEngine

/-- A tick is moved modulo `2 ^ 32`. -/
theorem addTick_emod (tick : UInt32) (d : Int) :
    ((addTick tick d).val.toNat : Int) = (tick.toNat + d) % 2 ^ 32 := by
  rw [addTick, Sanitized.val_u32, u32cast_emod, u32cast_emod, Int.add_emod_emod]

/-- A note that begins with a beat. -/
structure Beat where
  beat : Int
  dur : Int
  note : Int
  vel : UInt8

/-- The note under a chord. -/
def playBeat (cs : ChordSpec) (ppq : Int) (b : Beat) : List MidiEvent :=
  (noteAt cs ppq b.beat b.dur b.note b.vel).val

/-- The notes of a pattern. Pattern C walks to `c1` and `c3`. -/
def patternBeats (rootPc rootDur fifthDur : Int) (rootVel fifthVel : UInt8) (c1 c3 : Nat) :
    Pattern → List Beat
  | .A => [0, 1, 2, 3].map fun beat => ⟨beat, rootDur, rootMidi rootPc, rootVel⟩
  | .B =>
    [⟨0, rootDur, rootMidi rootPc, rootVel⟩, ⟨1, fifthDur, fifthMidi rootPc, fifthVel⟩,
      ⟨2, rootDur, rootMidi rootPc, rootVel⟩, ⟨3, rootDur, rootMidi rootPc, rootVel⟩]
  | .C =>
    [⟨0, rootDur, rootMidi rootPc, rootVel⟩, ⟨1, rootDur, walkingNote rootPc c1, rootVel⟩,
      ⟨2, rootDur, rootMidi rootPc, rootVel⟩, ⟨3, rootDur, walkingNote rootPc c3, rootVel⟩]
  | .D =>
    [⟨0, rootDur, rootMidi rootPc, rootVel⟩, ⟨1, fifthDur, fifthMidi rootPc, fifthVel⟩,
      ⟨2, rootDur, rootMidi rootPc, rootVel⟩]

section

variable {rootPc rootDur fifthDur : Int} {rootVel fifthVel : UInt8} {c1 c3 : Nat} {pat : Pattern}
  {b : Beat}

/-- No pattern goes beyond the fourth beat. -/
theorem patternBeats_beat
    (h : b ∈ patternBeats rootPc rootDur fifthDur rootVel fifthVel c1 c3 pat) :
    0 ≤ b.beat ∧ b.beat ≤ 3 := by
  revert b
  cases pat <;> simp [patternBeats]

/-- The notes of a pattern have one of its two lengths. -/
theorem patternBeats_dur
    (h : b ∈ patternBeats rootPc rootDur fifthDur rootVel fifthVel c1 c3 pat) :
    b.dur = rootDur ∨ b.dur = fifthDur := by
  revert b
  cases pat <;> simp [patternBeats]

/-- They are the root, the fifth or a walking note. -/
theorem patternBeats_note
    (h : b ∈ patternBeats rootPc rootDur fifthDur rootVel fifthVel c1 c3 pat) :
    b.note = rootMidi rootPc ∨ b.note = fifthMidi rootPc ∨
      ∃ c, b.note = walkingNote rootPc c := by
  revert b
  cases pat <;> simp [patternBeats]

/-- Every pattern has a note on the third beat. -/
theorem exists_thirdBeat (pat : Pattern) :
    ∃ b ∈ patternBeats rootPc rootDur fifthDur rootVel fifthVel c1 c3 pat, b.beat = 2 := by
  cases pat <;> simp [patternBeats]

end

/-- A note on a beat is the root at that beat. -/
theorem beatNote_val (cs : ChordSpec) (ppq dur : Int) (vel : UInt8) (beat : Int) :
    (beatNote cs ppq dur vel beat).val =
      (noteAt cs ppq beat dur (rootMidi cs.rootPc) vel).val := by
  simp only [beatNote, noteAt, Sanitized.val_bind, Sanitized.val_i32, Sanitized.val_u32,
    Sanitized.val_pure, Int.mul_comm beat ppq]
  generalize (addTick cs.startTick (i32cast (ppq * beat))).val = start
  have hon : u32cast (i32cast start.toNat) = start := by
    have hmod := u32cast_emod (i32cast start.toNat)
    rw [i32cast_emod] at hmod
    have hlt := start.toNat_lt
    exact UInt32.toNat_inj.mp (by omega)
  have hoff : u32cast (i32cast (i32cast start.toNat + dur)) = (addTick start dur).val := by
    have hmod := u32cast_emod (i32cast (i32cast start.toNat + dur))
    rw [i32cast_emod, Int.add_emod, i32cast_emod, ← Int.add_emod, ← addTick_emod] at hmod
    exact UInt32.toNat_inj.mp (Int.ofNat_inj.mp hmod)
  rw [hon, hoff]

/-- A pattern plays the notes of its list. -/
theorem patternNotes_eq (cs : ChordSpec) (ppq rootDur fifthDur : Int) (rootVel fifthVel : UInt8)
    (pat : Pattern) :
    Yields (patternNotes cs ppq rootDur fifthDur rootVel fifthVel pat) fun out => ∃ c1 c3,
      out = (patternBeats cs.rootPc rootDur fifthDur rootVel fifthVel c1 c3 pat).flatMap
        (playBeat cs ppq) := by
  cases pat with
  | A =>
    refine yields_lift ⟨0, 0, ?_⟩
    rw [Sanitized.val_forEach, patternBeats, List.flatMap_map]
    exact List.flatMap_congr fun beat _ => beatNote_val cs ppq rootDur rootVel beat
  | B => exact fun rng => ⟨0, 0, rfl⟩
  | C => exact yields_bind_any fun c1 => yields_bind_any fun c3 => fun rng => ⟨c1, c3, rfl⟩
  | D => exact fun rng => ⟨0, 0, rfl⟩

/-- The bass plays the notes of some pattern under a chord. -/
theorem chordNotes_eq (ppq : Int) (cs : ChordSpec) :
    Yields (chordNotes ppq cs) fun out => ∃ rootVel fifthVel c1 c3 pat,
      out = (patternBeats cs.rootPc (i32cast (ppq - 10)) (i32cast (Int.tdiv ppq 2 - 5)) rootVel
        fifthVel c1 c3 pat).flatMap (playBeat cs ppq) := by
  refine yields_bind_any fun pat => ?_
  refine yields_bind (P := (· = i32cast (ppq - 10))) (yields_lift (Sanitized.val_i32 _))
    fun rootDur hroot => ?_
  refine yields_bind (P := (· = i32cast (Int.tdiv ppq 2 - 5))) (yields_lift (Sanitized.val_i32 _))
    fun fifthDur hfifth => ?_
  refine yields_bind_any fun root => yields_bind_any fun fifth => ?_
  rw [hroot, hfifth]
  refine (patternNotes_eq cs ppq _ _ _ _ _).mono fun out hout => ?_
  obtain ⟨c1, c3, heq⟩ := hout
  exact ⟨_, _, c1, c3, _, heq⟩

end AiMidi.Proofs.BassPatterns
