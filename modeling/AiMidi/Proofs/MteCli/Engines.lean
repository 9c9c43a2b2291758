import AiMidi.Theory.BassEngine
import AiMidi.Theory.DrumEngine
import AiMidi.Theory.PianoEngine
import AiMidi.Theory.RhythmEngine

/-!
# `AiMidi.Proofs.MteCli.Engines`: the engines stay inside their chords

`mte_cli` runs the engines on chords that each last at least one bar and end by a limit below
`2^31` (`ChordFits`). On such chords every event of bass, drums and piano is valid MIDI and
ends by the limit (`ValidEvent`), and no tick computation wraps. Bass and piano notes last at
least four ticks, which leaves room for the jitter of the humanization.

The engines are treated alike: what they draw for a note, then a note or a hit, then the pattern of
a chord, and the part by the rule for loops (`bass_valid`, `rhythm_valid`, `drums_valid`,
`piano_valid`). The only facts about tick arithmetic are `safe_addTick` and `safe_subTick`.
-/

set_option autoImplicit false

namespace AiMidi.Proofs.MteCli

open AiMidi.Lib AiMidi.Theory

/-- The event is valid MIDI, lasts at least `length` ticks and ends by the limit. -/
structure ValidEvent (length limit : Nat) (ev : MidiEvent) : Prop where
  length_le : ev.tickOn.toNat + length ≤ ev.tickOff.toNat
  off_le : ev.tickOff.toNat ≤ limit
  note_le : ev.note.toNat ≤ 127
  velocity_pos : 1 ≤ ev.velocity.toNat
  velocity_le : ev.velocity.toNat ≤ 127
  channel_le : ev.channel.toNat ≤ 15

/-- All events of a list are valid. -/
def ValidEvents (length limit : Nat) (events : List MidiEvent) : Prop :=
  ∀ ev ∈ events, ValidEvent length limit ev

/-- The chord has a pitch class as its root, lasts at least a bar and ends by the limit. -/
structure ChordFits (limit : Nat) (cs : ChordSpec) : Prop where
  bar_le : 1920 ≤ cs.durationTicks.toNat
  end_le : cs.startTick.toNat + cs.durationTicks.toNat ≤ limit
  root_nonneg : 0 ≤ cs.rootPc
  root_le : cs.rootPc ≤ 11

section

variable {length limit : Nat}

/-- No events are valid. -/
theorem ValidEvents.nil : ValidEvents length limit [] := fun _ h => absurd h (by simp)

/-- One event is valid when its fields are. -/
theorem ValidEvents.singleton {ev : MidiEvent} (h : ValidEvent length limit ev) :
    ValidEvents length limit [ev] := fun _ hev => List.mem_singleton.mp hev ▸ h

/-- Valid events may be put together. -/
theorem ValidEvents.append {xs ys : List MidiEvent} (hx : ValidEvents length limit xs)
    (hy : ValidEvents length limit ys) : ValidEvents length limit (xs ++ ys) := fun ev hev =>
  (List.mem_append.mp hev).elim (hx ev) (hy ev)

/-- Weaker bounds. -/
theorem ValidEvents.mono {length' limit' : Nat} {xs : List MidiEvent}
    (h : ValidEvents length limit xs) (hlength : length' ≤ length) (hlimit : limit ≤ limit') :
    ValidEvents length' limit' xs := fun ev hev =>
  have hv := h ev hev
  ⟨by have := hv.length_le; omega, Nat.le_trans hv.off_le hlimit, hv.note_le, hv.velocity_pos,
    hv.velocity_le, hv.channel_le⟩

end

/-! ### Tick arithmetic

A sum is exact when it stays below `2 ^ 32`, and a difference when it is not negative. The chords
are short enough for both. -/

/-- A later tick that fits is exact. -/
theorem safe_addTick {tick : UInt32} {d : Int} (h0 : 0 ≤ d) (h1 : tick.toNat + d < 2 ^ 32) :
    Sanitized.Safe (addTick tick d) fun t => (t.toNat : Int) = tick.toNat + d := by
  have hd : ((u32cast d).toNat : Int) = d := by
    rw [u32cast_toNat h0 (by omega), Int.toNat_of_nonneg h0]
  rw [addTick, hd]
  exact Sanitized.safe_u32 (by omega) h1

/-- An earlier tick that is not before zero is exact. -/
theorem safe_subTick {tick : UInt32} {d : Int} (h0 : 0 ≤ d) (h1 : d ≤ tick.toNat) :
    Sanitized.Safe (subTick tick d) fun t => (t.toNat : Int) = tick.toNat - d := by
  have htick := tick.toNat_lt
  have hd : ((u32cast d).toNat : Int) = d := by
    rw [u32cast_toNat h0 (by omega), Int.toNat_of_nonneg h0]
  rw [subTick, hd]
  exact Sanitized.safe_u32 (by omega) (by omega)

/-- A velocity that MIDI takes for a sounding note. -/
def VelocityOk (v : UInt8) : Prop := 1 ≤ v.toNat ∧ v.toNat ≤ 127

/-- A velocity within MIDI is written as it is. -/
theorem velocityOk_u8cast {z : Int} (h0 : 1 ≤ z) (h1 : z ≤ 127) : VelocityOk (u8cast z) := by
  rw [VelocityOk, u8cast_toNat (by omega) (by omega)]
  omega

/-- The fields of a valid event, one by one. -/
theorem validEvent_mk {length limit : Nat} {on off : UInt32} {channel note vel art : UInt8}
    (hlength : on.toNat + length ≤ off.toNat) (hoff : off.toNat ≤ limit)
    (hnote : note.toNat ≤ 127) (hvel : VelocityOk vel) (hchannel : channel.toNat ≤ 15) :
    ValidEvent length limit ⟨on, off, channel, note, vel, art⟩ :=
  ⟨hlength, hoff, hnote, hvel.1, hvel.2, hchannel⟩

section

variable {limit : Nat} {cs : ChordSpec}

/-- The root of a chord is a pitch class. -/
def RootOk (cs : ChordSpec) : Prop := 0 ≤ cs.rootPc ∧ cs.rootPc ≤ 11

/-- The root of a chord that fits is a pitch class. -/
theorem ChordFits.rootOk (h : ChordFits limit cs) : RootOk cs := ⟨h.root_nonneg, h.root_le⟩

/-- Such a root is its own remainder. -/
theorem tmod_root (h : RootOk cs) : Int.tmod cs.rootPc 12 = cs.rootPc :=
  Int.tmod_eq_of_lt h.1 (Int.lt_of_le_of_lt h.2 (by decide))

/-! ### Bass

The notes of the bass are computed from the root and lie below C3. They last a beat at most and end
inside the chord. -/

/-- A note of the bass, below C3. -/
def BassNote (note : Int) : Prop := 0 ≤ note ∧ note ≤ 47

/-- The notes of the bass are notes of MIDI. -/
theorem BassNote.midi {note : Int} (h : BassNote note) : 0 ≤ note ∧ note ≤ 127 :=
  ⟨h.1, Int.le_trans h.2 (by decide)⟩

/-- The root in the register of the bass. -/
theorem bassNote_root (h : RootOk cs) : BassNote (BassEngine.rootMidi cs.rootPc) := by
  obtain ⟨hlow, hhigh⟩ := h
  rw [BassEngine.rootMidi, tmod_root ⟨hlow, hhigh⟩, BassEngine.kBassRootMidi, BassNote]
  omega

/-- The fifth in the register of the bass. -/
theorem bassNote_fifth (h : RootOk cs) : BassNote (BassEngine.fifthMidi cs.rootPc) := by
  obtain ⟨hlow, hhigh⟩ := h
  rw [BassEngine.fifthMidi, BassEngine.kBassRootMidi, BassEngine.kBassMaxMidi, BassNote]
  omega

/-- Every walking note is in the register of the bass. -/
theorem bassNote_walking (h : RootOk cs) (choice : Nat) :
    BassNote (BassEngine.walkingNote cs.rootPc choice) := by
  obtain ⟨hlow, hhigh⟩ := h
  unfold BassEngine.walkingNote BassNote
  rw [tmod_root ⟨hlow, hhigh⟩]
  simp only [BassEngine.kBassRootMidi, BassEngine.kBassMaxMidi]
  split <;> split <;> omega

/-- A note on a beat lasts less than the beat and ends within the chord. -/
theorem beatNote_valid (hcs : ChordFits limit cs) (hlimit : limit < 2 ^ 31) {vel : UInt8}
    (hvel : VelocityOk vel) {beat : Int} (hbeat : 0 ≤ beat ∧ beat ≤ 3) :
    Sanitized.Safe (BassEngine.beatNote cs 480 470 vel beat) (ValidEvents 4 limit) := by
  have hbar := hcs.bar_le
  have hend := hcs.end_le
  -- The chord lasts a bar, so beat 3 and its note end before it does.
  have hnote := (bassNote_root hcs.rootOk).midi
  unfold BassEngine.beatNote
  refine Sanitized.safe_bind (Sanitized.safe_i32 (by omega) (by omega)) fun offset ho => ?_
  refine Sanitized.safe_bind (safe_addTick (by omega) (by omega)) fun start hs => ?_
  -- The tick goes through `int` and back, which is exact below `2^31`.
  refine Sanitized.safe_bind (Sanitized.safe_i32 (by omega) (by omega)) fun tick ht => ?_
  refine Sanitized.safe_bind (Sanitized.safe_i32 (by omega) (by omega)) fun tickOff hto => ?_
  refine Sanitized.safe_bind (Sanitized.safe_u32 (by omega) (by omega)) fun on hon => ?_
  refine Sanitized.safe_bind (Sanitized.safe_u32 (by omega) (by omega)) fun off hoff => ?_
  exact Sanitized.safe_pure (.singleton (validEvent_mk (by omega) (by omega)
    (u8cast_le hnote.1 hnote.2) hvel (by decide)))

/-- A note of a pattern, with a length of one beat at most. -/
theorem noteAt_valid (hcs : ChordFits limit cs) (hlimit : limit < 2 ^ 31) {vel : UInt8}
    (hvel : VelocityOk vel) {beat dur note : Int} (hbeat : 0 ≤ beat ∧ beat ≤ 3)
    (hdur : 4 ≤ dur ∧ dur ≤ 480) (hnote : 0 ≤ note ∧ note ≤ 127) :
    Sanitized.Safe (BassEngine.noteAt cs 480 beat dur note vel) (ValidEvents 4 limit) := by
  have hbar := hcs.bar_le
  have hend := hcs.end_le
  unfold BassEngine.noteAt
  refine Sanitized.safe_bind (Sanitized.safe_i32 (by omega) (by omega)) fun offset ho => ?_
  refine Sanitized.safe_bind (safe_addTick (by omega) (by omega)) fun on hon => ?_
  refine Sanitized.safe_bind (safe_addTick (by omega) (by omega)) fun off hoff => ?_
  exact Sanitized.safe_pure (.singleton (validEvent_mk (by omega) (by omega)
    (u8cast_le hnote.1 hnote.2) hvel (by decide)))

/-- Every pattern stays inside its chord. -/
theorem patternNotes_valid (hcs : ChordFits limit cs) (hlimit : limit < 2 ^ 31)
    {rootVel fifthVel : UInt8} (hroot : VelocityOk rootVel) (hfifth : VelocityOk fifthVel)
    (pat : BassEngine.Pattern) :
    Seeded.Safe (BassEngine.patternNotes cs 480 470 235 rootVel fifthVel pat)
      (ValidEvents 4 limit) := by
  -- The patterns combine three kinds of notes, each valid on its own.
  have hrootNote : ∀ beat : Int, 0 ≤ beat ∧ beat ≤ 3 → Seeded.Safe
      (liftM (BassEngine.noteAt cs 480 beat 470 (BassEngine.rootMidi cs.rootPc) rootVel))
      (ValidEvents 4 limit) := fun beat hbeat =>
    Seeded.safe_lift (noteAt_valid hcs hlimit hroot hbeat (by decide)
      (bassNote_root hcs.rootOk).midi)
  have hfifthNote : Seeded.Safe
      (liftM (BassEngine.noteAt cs 480 1 235 (BassEngine.fifthMidi cs.rootPc) fifthVel))
      (ValidEvents 4 limit) :=
    Seeded.safe_lift (noteAt_valid hcs hlimit hfifth (by decide) (by decide)
      (bassNote_fifth hcs.rootOk).midi)
  have hwalk : ∀ choice : Nat, ∀ beat : Int, 0 ≤ beat ∧ beat ≤ 3 → Seeded.Safe
      (liftM (BassEngine.noteAt cs 480 beat 470 (BassEngine.walkingNote cs.rootPc choice)
        rootVel)) (ValidEvents 4 limit) := fun choice beat hbeat =>
    Seeded.safe_lift (noteAt_valid hcs hlimit hroot hbeat (by decide)
      (bassNote_walking hcs.rootOk choice).midi)
  cases pat with
  | A =>
    refine Seeded.safe_lift (Sanitized.safe_forEach fun beat hbeat => ?_)
    exact beatNote_valid hcs hlimit hroot (by revert beat; decide)
  | B =>
    refine Seeded.safe_bind (hrootNote 0 (by decide)) fun n0 h0 => ?_
    refine Seeded.safe_bind hfifthNote fun n1 h1 => ?_
    refine Seeded.safe_bind (hrootNote 2 (by decide)) fun n2 h2 => ?_
    refine Seeded.safe_bind (hrootNote 3 (by decide)) fun n3 h3 => ?_
    exact Seeded.safe_pure (((h0.append h1).append h2).append h3)
  | C =>
    -- The choices are drawn before the notes. Every choice gives a note in range.
    refine Seeded.safe_bind (Seeded.safe_draw (by decide)) fun c1 _ => ?_
    refine Seeded.safe_bind (Seeded.safe_draw (by decide)) fun c3 _ => ?_
    refine Seeded.safe_bind (hrootNote 0 (by decide)) fun n0 h0 => ?_
    refine Seeded.safe_bind (hwalk c1 1 (by decide)) fun n1 h1 => ?_
    refine Seeded.safe_bind (hrootNote 2 (by decide)) fun n2 h2 => ?_
    refine Seeded.safe_bind (hwalk c3 3 (by decide)) fun n3 h3 => ?_
    exact Seeded.safe_pure (((h0.append h1).append h2).append h3)
  | D =>
    refine Seeded.safe_bind (hrootNote 0 (by decide)) fun n0 h0 => ?_
    refine Seeded.safe_bind hfifthNote fun n1 h1 => ?_
    refine Seeded.safe_bind (hrootNote 2 (by decide)) fun n2 h2 => ?_
    exact Seeded.safe_pure ((h0.append h1).append h2)

/-- The bass of a chord, whatever pattern is drawn. -/
theorem bassChordNotes_valid (hcs : ChordFits limit cs) (hlimit : limit < 2 ^ 31) :
    Seeded.Safe (BassEngine.chordNotes 480 cs) (ValidEvents 4 limit) := by
  unfold BassEngine.chordNotes
  refine Seeded.safe_bind (Seeded.safe_draw (by decide)) fun pat _ => ?_
  refine Seeded.safe_bind (Seeded.safe_lift (Sanitized.safe_i32 (by decide) (by decide)))
    fun rootDur hrootDur => ?_
  refine Seeded.safe_bind (Seeded.safe_lift (Sanitized.safe_i32 (by decide) (by decide)))
    fun fifthDur hfifthDur => ?_
  refine Seeded.safe_bind (Seeded.safe_draw (by decide)) fun root hroot => ?_
  refine Seeded.safe_bind (Seeded.safe_draw (by decide)) fun fifth hfifth => ?_
  -- 480 - 10 and 480 / 2 - 5, from here on as numbers.
  rw [hrootDur, hfifthDur]
  have h51 : (51 : UInt64).toNat = 51 := rfl
  have h26 : (26 : UInt64).toNat = 26 := rfl
  exact patternNotes_valid hcs hlimit (velocityOk_u8cast (by omega) (by omega))
    (velocityOk_u8cast (by omega) (by omega)) _

end

/-- The bass line is valid. -/
theorem bass_valid {limit : Nat} {req : ChordRequest}
    (hchords : ∀ cs ∈ req.chords, ChordFits limit cs) (hppq : req.ppq = 480)
    (hlimit : limit < 2 ^ 31) :
    Sanitized.Safe (BassEngine.generate req) (ValidEvents 4 limit) := by
  have hppq' : i32cast req.ppq.toNat = 480 := by
    rw [hppq]
    decide
  unfold BassEngine.generate
  simp only [hppq']
  refine Sanitized.safe_forEach fun entry hentry => ?_
  have hcs := hchords entry.1 (List.fst_mem_of_mem_zipIdx hentry)
  exact Seeded.safe_run (bassChordNotes_valid hcs hlimit) _

/-! ### Rhythm

A pattern of eighths is laid over the bar that the chord starts in. Its hits end inside the bar,
since the last of them starts an eighth before its end. -/

section

variable {limit : Nat}

/-- A drawn velocity lies between its bounds. -/
theorem humanizedVelocity_ok {lo hi : Int} (h0 : 1 ≤ lo) (h1 : lo ≤ hi) (h2 : hi ≤ 127) :
    Seeded.Safe (RhythmEngine.humanizedVelocity lo hi) VelocityOk := by
  have hn : 0 < (u64cast (hi - lo + 1)).toNat := by
    rw [u64cast_toNat (by omega) (by omega)]
    omega
  refine Seeded.safe_bind (Seeded.safe_draw hn) fun k _ => ?_
  exact Seeded.safe_pure (velocityOk_u8cast (by omega) (by omega))

/-- A drum hit of the rhythm engine that has a tick left before the limit. -/
theorem drumEvent_valid {tick : UInt32} {note : UInt8} {lo hi : Int}
    (htick : tick.toNat + 1 ≤ limit) (hlimit : limit < 2 ^ 31) (hnote : note.toNat ≤ 127)
    (h0 : 1 ≤ lo) (h1 : lo ≤ hi) (h2 : hi ≤ 127) :
    Seeded.Safe (RhythmEngine.drumEvent tick note lo hi) (ValidEvents 1 limit) := by
  refine Seeded.safe_bind (Seeded.safe_lift (safe_addTick (by omega) (by omega)))
    fun off hoff => ?_
  refine Seeded.safe_bind (humanizedVelocity_ok h0 h1 h2) fun velocity hvel => ?_
  exact Seeded.safe_pure (.singleton (validEvent_mk (by omega) (by omega) hnote hvel
    (by decide)))

/-- The straight grid of a bar starts with the bar and leaves room for an eighth note. -/
theorem eighthBarTicksStraight_spec :
    Sanitized.Safe RhythmEngine.eighthBarTicksStraight fun ticks =>
      (∀ tick ∈ ticks, tick.toNat ≤ 1680) ∧ (0, 0) ∈ ticks.zipIdx := by
  -- The grid is a constant, so both facts are evaluations.
  have hall : (RhythmEngine.eighthBarTicksStraight.val.all fun tick => tick.toNat ≤ 1680) = true :=
    by decide
  refine ⟨by decide, fun tick htick => ?_, by decide⟩
  exact of_decide_eq_true (List.all_eq_true.mp hall tick htick)

/-- The hits of a grid position are valid and on it. -/
theorem gridHits_valid {barStart tick : UInt32} {beatNote : UInt8} (htick : tick.toNat ≤ 1680)
    (hbar : barStart.toNat + 1681 ≤ limit) (hlimit : limit < 2 ^ 31)
    (hnote : beatNote.toNat ≤ 127) :
    Seeded.Safe (RhythmEngine.gridHits barStart tick beatNote) (ValidEvents 1 limit) := by
  refine Seeded.safe_bind (Seeded.safe_lift (Sanitized.safe_u32 (by omega) (by omega)))
    fun t ht => ?_
  refine Seeded.safe_bind (drumEvent_valid (by omega) hlimit (by decide) (by decide)
    (by decide) (by decide)) fun hat hhat => ?_
  refine Seeded.safe_bind (drumEvent_valid (by omega) hlimit hnote (by decide)
    (by decide) (by decide)) fun beat hbeat => ?_
  exact Seeded.safe_pure (hhat.append hbeat)

/-- The eighths of a bar, each with its drawn velocity. -/
theorem fillEighthPattern_valid {barStart : UInt32} {ticks : List UInt32}
    (hticks : ∀ tick ∈ ticks, tick.toNat ≤ 1680) (hbar : barStart.toNat + 1681 ≤ limit)
    (hlimit : limit < 2 ^ 31) :
    Seeded.Safe (RhythmEngine.fillEighthPattern barStart ticks) (ValidEvents 1 limit) := by
  refine Seeded.safe_forEach fun entry hentry => ?_
  refine gridHits_valid (hticks _ (List.fst_mem_of_mem_zipIdx hentry)) hbar hlimit ?_
  split <;> decide

/-- The start of the bar that a chord starts in. -/
theorem safe_barStart {cs : ChordSpec} (hcs : ChordFits limit cs) (hlimit : limit < 2 ^ 31) :
    Sanitized.Safe (Sanitized.u32 ((cs.startTick.toNat / RhythmEngine.kBarTicks : Nat)
        * RhythmEngine.kBarTicks)) fun barStart =>
      barStart.toNat = cs.startTick.toNat / 1920 * 1920 ∧ barStart.toNat + 1681 ≤ limit := by
  have hbar := hcs.bar_le
  have hend := hcs.end_le
  have hdiv := Nat.div_mul_le_self cs.startTick.toNat 1920
  simp only [RhythmEngine.kBarTicks]
  exact (Sanitized.safe_u32 (by omega) (by omega)).mono fun barStart h => by omega

/-- The rhythm of a chord: the grid of eighths from its start. -/
theorem chordPattern_valid {cs : ChordSpec} (hcs : ChordFits limit cs) (hlimit : limit < 2 ^ 31)
    {ticks : List UInt32} (hticks : ∀ tick ∈ ticks, tick.toNat ≤ 1680) (seed seed' : Seed) :
    Sanitized.Safe (RhythmEngine.chordPattern seed ⟨.eighth, 0, seed'⟩ ⟨-1, 1⟩ ticks cs)
      (ValidEvents 1 limit) := by
  refine Sanitized.safe_bind (safe_barStart hcs hlimit) fun barStart hstart => ?_
  refine Seeded.safe_run (Seeded.safe_bind (fillEighthPattern_valid hticks hstart.2 hlimit)
    fun pattern hpattern => ?_) _
  -- no fill: its bar is -1
  dsimp only
  rw [if_neg fun h => absurd h.1 (by decide)]
  exact Seeded.safe_pure hpattern

/-- The drum pattern without swing and fill is valid. -/
theorem rhythm_valid {req : ChordRequest} (hchords : ∀ cs ∈ req.chords, ChordFits limit cs)
    (hlimit : limit < 2 ^ 31) (seed : Seed) :
    Sanitized.Safe (RhythmEngine.generate req ⟨.eighth, 0, seed⟩ ⟨-1, 1⟩)
      (ValidEvents 1 limit) := by
  refine Sanitized.safe_bind eighthBarTicksStraight_spec fun base hbase => ?_
  have hswing : Sanitized.Safe (RhythmEngine.applySwing base 0) fun ticks =>
      ∀ tick ∈ ticks, tick.toNat ≤ 1680 := Sanitized.safe_pure hbase.1
  refine Sanitized.safe_bind hswing fun ticks hticks => ?_
  exact Sanitized.safe_forEach fun cs hcs =>
    chordPattern_valid (hchords cs hcs) hlimit hticks req.seed seed

/-! ### Drums

The hits of a groove are a fixed table for each style. Their offsets and velocities are bounded in
the table. -/

/-- The offset of a hit in its bar. -/
def hitPos : DrumEngine.Hit → Int
  | .kick pos _ => pos
  | .hh pos _ => pos
  | .snare pos _ => pos
  | .ghostSnare pos => pos

/-- The hit ends in its bar and has a velocity that sounds. -/
def HitOk (hit : DrumEngine.Hit) : Prop :=
  0 ≤ hitPos hit ∧ hitPos hit ≤ 1860 ∧
    match hit with
    | .kick _ vel => VelocityOk vel
    | .snare _ vel => VelocityOk vel
    | _ => True

/-- The bounds of a velocity are decided. -/
instance : DecidablePred VelocityOk := fun _ => inferInstanceAs (Decidable (_ ∧ _))

/-- So are those of a hit, kind by kind. -/
instance : DecidablePred HitOk
  | .kick _ vel => inferInstanceAs (Decidable (_ ∧ _ ∧ VelocityOk vel))
  | .hh _ _ => inferInstanceAs (Decidable (_ ∧ _ ∧ True))
  | .snare _ vel => inferInstanceAs (Decidable (_ ∧ _ ∧ VelocityOk vel))
  | .ghostSnare _ => inferInstanceAs (Decidable (_ ∧ _ ∧ True))

/-- The hits of the fill are in bounds. -/
theorem fillHits_ok : ∀ hit ∈ DrumEngine.fillHits, HitOk hit := by decide

/-- The hits of every variation are in bounds. -/
theorem variationHits_ok (style : DrumStyle) (n : Nat) :
    ∀ hit ∈ DrumEngine.variationHits style n, HitOk hit := by
  -- Only variation 3 looks at the style, and only at the open hi-hat.
  obtain ⟨seed, ghosts, openHh⟩ := style
  match n with
  | 0 => exact (by decide : ∀ hit ∈ DrumEngine.variationHits ⟨0, false, false⟩ 0, HitOk hit)
  | 1 => exact (by decide : ∀ hit ∈ DrumEngine.variationHits ⟨0, false, false⟩ 1, HitOk hit)
  | 2 => exact (by decide : ∀ hit ∈ DrumEngine.variationHits ⟨0, false, false⟩ 2, HitOk hit)
  | n + 3 =>
    cases openHh with
    | false =>
      exact (by decide : ∀ hit ∈ DrumEngine.variationHits ⟨0, false, false⟩ 3, HitOk hit)
    | true =>
      exact (by decide : ∀ hit ∈ DrumEngine.variationHits ⟨0, false, true⟩ 3, HitOk hit)

/-- A drum note of 60 ticks. -/
theorem makeDrum_valid {tick : UInt32} {note vel : UInt8} (htick : tick.toNat + 60 ≤ limit)
    (hlimit : limit < 2 ^ 31) (hnote : note.toNat ≤ 127) (hvel : VelocityOk vel) :
    Sanitized.Safe (DrumEngine.makeDrum tick note vel) (ValidEvents 1 limit) := by
  refine Sanitized.safe_bind (safe_addTick (by decide) ?_) fun off hoff => ?_
  all_goals simp only [DrumEngine.kNoteDuration] at *
  · omega
  · exact Sanitized.safe_pure (.singleton (validEvent_mk (by omega) (by omega) hnote hvel
      (by decide)))

/-- A hit of a pattern, with its drawn velocity. -/
theorem playHit_valid {cs : ChordSpec} (hcs : ChordFits limit cs) (hlimit : limit < 2 ^ 31)
    (style : DrumStyle) {hit : DrumEngine.Hit} (hhit : HitOk hit) :
    Seeded.Safe (DrumEngine.playHit style cs.startTick hit) (ValidEvents 1 limit) := by
  have hbar := hcs.bar_le
  have hend := hcs.end_le
  obtain ⟨hpos, hpos', hvel⟩ := hhit
  -- All four kinds of hits compute the tick first.
  have htick : Seeded.Safe (liftM (addTick cs.startTick (hitPos hit))) fun t =>
      (t.toNat : Int) = cs.startTick.toNat + hitPos hit :=
    Seeded.safe_lift (safe_addTick hpos (by omega))
  cases hit with
  | kick pos vel =>
    refine Seeded.safe_bind htick fun tick ht => ?_
    exact Seeded.safe_lift (makeDrum_valid (by omega) hlimit (by decide) hvel)
  | hh pos isOpen =>
    refine Seeded.safe_bind htick fun tick ht => ?_
    refine Seeded.safe_bind (Seeded.safe_draw (by decide)) fun vel hv => ?_
    have h20 : (20 : UInt64).toNat = 20 := rfl
    refine Seeded.safe_lift (makeDrum_valid (by omega) hlimit ?_
      (velocityOk_u8cast (by omega) (by omega)))
    cases isOpen <;> decide
  | snare pos vel =>
    refine Seeded.safe_bind htick fun tick ht => ?_
    exact Seeded.safe_lift (makeDrum_valid (by omega) hlimit (by decide) hvel)
  | ghostSnare pos =>
    refine Seeded.safe_bind htick fun tick ht => ?_
    split
    · refine Seeded.safe_bind (Seeded.safe_draw (by decide)) fun coin _ => ?_
      split
      · refine Seeded.safe_bind (Seeded.safe_draw (by decide)) fun vel hv => ?_
        have h11 : (11 : UInt64).toNat = 11 := rfl
        exact Seeded.safe_lift (makeDrum_valid (by omega) hlimit (by decide)
          (velocityOk_u8cast (by omega) (by omega)))
      · exact Seeded.safe_pure .nil
    · exact Seeded.safe_pure .nil

/-- The drum part is valid. -/
theorem drums_valid {req : ChordRequest} (hchords : ∀ cs ∈ req.chords, ChordFits limit cs)
    (hlimit : limit < 2 ^ 31) (style : DrumStyle) :
    Sanitized.Safe (DrumEngine.generate req style) (ValidEvents 1 limit) := by
  refine Sanitized.safe_forEach fun entry hentry => ?_
  have hcs := hchords entry.1 (List.fst_mem_of_mem_zipIdx hentry)
  refine Seeded.safe_run (Seeded.safe_bind (Seeded.safe_draw (by decide))
    fun variation _ => ?_) _
  refine Seeded.safe_forEach fun hit hhit => playHit_valid hcs hlimit style ?_
  -- The last bar of four plays the fill.
  split at hhit
  · exact fillHits_ok hit hhit
  · exact variationHits_ok style _ hit hhit

/-! ### Piano

The piano plays block chords here, from the start of the chord to shortly before its end. A tone
outside of the piano is left out. -/

/-- A note of a block chord sounds until ten ticks before the chord ends. A note that is kept
is one of a piano, hence a MIDI note. -/
theorem blockNote_valid {cs : ChordSpec} (hcs : ChordFits limit cs) {chordOff : UInt32}
    (hoff : (chordOff.toNat : Int) = cs.startTick.toNat + cs.durationTicks.toNat)
    {velocity : UInt8} (hvel : VelocityOk velocity) (note : Int) :
    Sanitized.Safe (PianoEngine.pianoNote (pure cs.startTick) (subTick chordOff 10) note velocity)
      (ValidEvents 4 limit) := by
  have hbar := hcs.bar_le
  have hend := hcs.end_le
  unfold PianoEngine.pianoNote
  split
  case isTrue hrange =>
    -- Notes outside the range of a piano are dropped, whatever octave was asked for.
    obtain ⟨hlow, hhigh⟩ : 21 ≤ note ∧ note ≤ 108 := by
      simpa [PianoEngine.inPianoRange] using hrange
    refine Sanitized.safe_bind (Sanitized.safe_pure (P := (· = cs.startTick)) rfl)
      fun on hon => ?_
    refine Sanitized.safe_bind (safe_subTick (by omega) (by omega)) fun off hoff => ?_
    subst hon
    exact Sanitized.safe_pure (.singleton (validEvent_mk (by omega) (by omega)
      (u8cast_le (by omega) (by omega)) hvel (by decide)))
  case isFalse => exact Sanitized.safe_pure .nil

/-- The velocity of the left hand. -/
theorem drawLeft_ok : Seeded.Safe PianoEngine.drawLeft VelocityOk := by
  refine Seeded.safe_bind (Seeded.safe_draw (by decide)) fun k hk => ?_
  have h21 : (21 : UInt64).toNat = 21 := rfl
  exact Seeded.safe_pure (velocityOk_u8cast (by omega) (by omega))

/-- The velocity of the right hand. -/
theorem drawRight_ok : Seeded.Safe PianoEngine.drawRight VelocityOk := by
  refine Seeded.safe_bind (Seeded.safe_draw (by decide)) fun k hk => ?_
  have h26 : (26 : UInt64).toNat = 26 := rfl
  exact Seeded.safe_pure (velocityOk_u8cast (by omega) (by omega))

/-- A block chord, from its start to its end. -/
theorem blockChord_valid {cs : ChordSpec} (hcs : ChordFits limit cs) {chordOff : UInt32}
    (hoff : (chordOff.toNat : Int) = cs.startTick.toNat + cs.durationTicks.toNat)
    (bassBase trebleBase : Int) :
    Seeded.Safe (PianoEngine.blockChord bassBase trebleBase cs chordOff)
      (ValidEvents 4 limit) := by
  refine Seeded.safe_bind drawLeft_ok fun lv hlv => ?_
  refine Seeded.safe_bind (Seeded.safe_lift (blockNote_valid hcs hoff hlv _))
    fun n0 h0 => ?_
  refine Seeded.safe_bind (Seeded.safe_lift (blockNote_valid hcs hoff hlv _))
    fun n1 h1 => ?_
  refine Seeded.safe_bind drawRight_ok fun rv hrv => ?_
  refine Seeded.safe_bind (Seeded.safe_lift (Sanitized.safe_forEach fun off _ =>
    blockNote_valid hcs hoff hrv _)) fun right hright => ?_
  exact Seeded.safe_pure ((h0.append h1).append hright)

/-- The piano part in block chords is valid. -/
theorem piano_valid {req : ChordRequest} (hchords : ∀ cs ∈ req.chords, ChordFits limit cs)
    (hlimit : limit < 2 ^ 31) (bassOctave trebleOctave : Int) :
    Sanitized.Safe (PianoEngine.generate ⟨req, .blockChords, bassOctave, trebleOctave⟩)
      (ValidEvents 4 limit) := by
  refine Sanitized.safe_forEach fun entry hentry => Seeded.safe_run ?_ _
  have hcs := hchords entry.1 (List.fst_mem_of_mem_zipIdx hentry)
  have hend := hcs.end_le
  refine Seeded.safe_bind (Seeded.safe_lift (Sanitized.safe_u32 (by omega) (by omega)))
    fun chordOff hoff => ?_
  refine Seeded.safe_bind (Seeded.safe_lift (Sanitized.safe_i32 (by omega) (by omega)))
    fun _ _ => ?_
  exact blockChord_valid hcs hoff _ _

end

end AiMidi.Proofs.MteCli
