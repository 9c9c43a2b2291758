import AiMidi.Lib.Ordered
import AiMidi.Plugin.PianoRoll
import AiMidi.Proofs.MidiRenderer.RoundTrip
import Mathlib.Data.List.Pairwise
import Mathlib.Order.Bounds.Defs

/-!
# `AiMidi.Proofs.PianoRoll`: the piano roll of a rendered composition

The file has the notes of a track in the order of their ticks, and at one tick what ends before
what begins. So the note off that closes a note on is the earliest one of its number behind it
(`closingTick_wire`), on whatever channel. The piano roll shows the notes of the composition
exactly when no note of another channel ends on the same pitch inside a note (`shown_iff`).

When one end is wrong it is too early, and no other note makes up for it: the sums of the ends
differ (`AiMidi.Lib.eq_of_perm_of_le`).

The reader is followed at one note on (`closingTick_wire`), then along a track (`notesOf_wire`, by
induction on the rest, with what stands in front as a parameter), and then over the file
(`parse_render`). From there on only the ends matter: `rolled_tickOff` bounds the shown end by the
note's own, and says when it is that.
-/

set_option autoImplicit false

namespace AiMidi.Proofs.PianoRoll

open AiMidi.Lib AiMidi.Lib.Smf AiMidi.Theory AiMidi.Plugin AiMidi.Plugin.PianoRoll
open AiMidi.Proofs.MidiRenderer

variable {std : StdSort wireEventLt} {beyond : BeyondInt} {ppq : Int}

/-! ### Time stamps

The component casts the time stamps of the reader to `int`. What a cast gives beyond `int` is a
parameter, of which only the upper bound is known. That is enough to see that the stamp is wrong. -/

/-- A time stamp is never later than the tick. -/
theorem stampOf_le (beyond : BeyondInt) (tick : Nat) : stampOf beyond tick ≤ tick := by
  unfold stampOf
  split
  · exact Int.le_refl _
  · have := beyond.value_lt tick
    omega

/-- A time stamp comes out as it is within `int` only. -/
theorem stampOf_eq_iff (tick : Nat) : stampOf beyond tick = tick ↔ tick < 2 ^ 31 := by
  unfold stampOf
  split
  · rename_i hlt
    exact iff_of_true rfl hlt
  · rename_i hge
    have := beyond.value_lt tick
    exact iff_of_false (by omega) hge

/-! ### The closing note off

The reader pairs by number and not by channel. What it finds is therefore described by the note
numbers behind the note on, in the order that the renderer writes. -/

/-- The note off that closes a note of the number `note` which begins at the tick `tickOn`. -/
def closingOff (wires : List WireEvent) (note : UInt8) (tickOn : UInt32) : Option WireEvent :=
  wires.find? fun off => off.isNoteOff && off.data1 == note && decide (tickOn < off.tick)

/-- The end that the piano roll gives to a note of a track. -/
def shownEnd (beyond : BeyondInt) (ppq : Int) (wires : List WireEvent) (note : UInt8)
    (tickOn : UInt32) : Int :=
  match closingOff wires note tickOn with
  | some off => stampOf beyond off.tick.toNat
  | none     => stampOf beyond tickOn.toNat + ppq

/-- What the piano roll makes of a wire event. -/
def wireNote (beyond : BeyondInt) (ppq : Int) (name : Bytes) (wires : List WireEvent)
    (we : WireEvent) : List PianoRollNote :=
  if we.isNoteOff then []
  else [⟨stampOf beyond we.tick.toNat, shownEnd beyond ppq wires we.data1 we.tick,
    we.data1.toNat, we.data2.toNat, (we.status &&& 0x0F).toNat + 1, name⟩]

/-- A message closes a note when it is a note off of its number. -/
theorem noteOffNumber_wire {we : WireEvent} (hvel : we.data2 ≠ 0) (note : UInt8) :
    (noteOffNumber (wireTrackEvent we).event == some note)
      = (we.isNoteOff && we.data1 == note) := by
  unfold wireTrackEvent wireMessage
  cases we.isNoteOff with
  | true => rfl
  | false =>
    show (noteOffNumber (.noteOn _ _ _) == some note) = false
    rw [noteOffNumber, if_neg hvel]
    rfl

/-- The closing note off of a note on is the first one of its number behind it. -/
theorem closingOff_behind {before after : List WireEvent} {we : WireEvent}
    (hsorted : (before ++ we :: after).Pairwise fun a b => wireEventLt b a = false)
    (hon : we.isNoteOff = false) :
    closingOff (before ++ we :: after) we.data1 we.tick
      = after.find? fun off => off.isNoteOff && off.data1 == we.data1 := by
  obtain ⟨-, hbehind, hacross⟩ := List.pairwise_append.mp hsorted
  have hafter := (List.pairwise_cons.mp hbehind).1
  refine find?_behind ?_ ?_ ?_
  · -- What stands in front is not later.
    intro off hoff
    have hle : off.tick ≤ we.tick := by
      obtain hlt | ⟨heq, -⟩ :=
        wireEventLt_eq_false_iff.mp (hacross off hoff we List.mem_cons_self)
      · exact UInt32.le_of_lt hlt
      · exact heq ▸ UInt32.le_refl _
    rw [decide_eq_false (UInt32.not_lt.mpr hle), Bool.and_false]
  · rw [hon]
    rfl
  · -- A note off behind a note on is at a later tick.
    intro off hoff
    cases hkind : off.isNoteOff with
    | false => rfl
    | true =>
      have hlt : we.tick < off.tick := by
        obtain hlt | ⟨-, hoffs⟩ := wireEventLt_eq_false_iff.mp (hafter off hoff)
        · exact hlt
        · exact absurd ((hoffs hkind).symm.trans hon) (by decide)
      rw [decide_eq_true hlt, Bool.and_true]

/-- The reader of a track with an end of its own finds this note off. -/
theorem closingTick_wire {before after : List WireEvent} {we : WireEvent} {last : TrackEvent}
    (hsorted : (before ++ we :: after).Pairwise fun a b => wireEventLt b a = false)
    (hvel : ∀ off ∈ after, off.data2 ≠ 0) (hon : we.isNoteOff = false)
    (hlast : noteOffNumber last.event = none) :
    closingTick beyond ppq (stampOf beyond we.tick.toNat) we.data1
        (after.map wireTrackEvent ++ [last])
      = shownEnd beyond ppq (before ++ we :: after) we.data1 we.tick := by
  -- The End of Track closes no note.
  have hstop : ([last].find? fun off => noteOffNumber off.event == some we.data1) = none := by
    rw [List.find?_cons, hlast]
    rfl
  -- The search runs behind the note in the file, and by the order it finds the event of the whole
  -- track.
  have hsearch : ((after.map wireTrackEvent ++ [last]).find? fun off =>
        noteOffNumber off.event == some we.data1)
      = (closingOff (before ++ we :: after) we.data1 we.tick).map wireTrackEvent := by
    rw [List.find?_append, hstop, Option.or_none, List.find?_map, closingOff_behind hsorted hon]
    exact congrArg (Option.map wireTrackEvent)
      (find?_agree fun off hoff => noteOffNumber_wire (hvel off hoff) we.data1)
  unfold closingTick shownEnd
  rw [hsearch]
  cases closingOff (before ++ we :: after) we.data1 we.tick with
  | none => rfl
  | some off => rfl

/-! ### The notes of a track

The events of a track alternate between on and off in no particular way. Each note on is looked at
with all that stands behind it, and each note off gives nothing. -/

/-- A note on of the track becomes a note of the roll, and a note off none. -/
theorem noteAt_wire {we : WireEvent} (hvel : we.data2 ≠ 0) (name : Bytes)
    (later : List TrackEvent) :
    noteAt beyond ppq name (wireTrackEvent we) later
      = if we.isNoteOff then []
        else [⟨stampOf beyond we.tick.toNat,
          closingTick beyond ppq (stampOf beyond we.tick.toNat) we.data1 later,
          we.data1.toNat, we.data2.toNat, (we.status &&& 0x0F).toNat + 1, name⟩] := by
  unfold noteAt wireTrackEvent wireMessage
  cases we.isNoteOff with
  | true => rfl
  | false => exact if_neg hvel

/-- The notes of the rest of a track. Induction on the rest, which carries the part of the track
in front of it. -/
theorem notesOf_wire (before : List WireEvent) {wires : List WireEvent} {name : Bytes}
    {endTick : Nat}
    (hsorted : (before ++ wires).Pairwise fun a b => wireEventLt b a = false)
    (hvel : ∀ we ∈ wires, we.data2 ≠ 0) :
    notesOf beyond ppq name (wires.map wireTrackEvent ++ [⟨endTick, eot⟩])
      = wires.flatMap (wireNote beyond ppq name (before ++ wires)) := by
  induction wires generalizing before with
  | nil => rfl
  | cons we wires ih =>
    -- The events that are passed go to the ones before, so the whole order stays the same.
    have hsplit : before ++ we :: wires = (before ++ [we]) ++ wires := by
      rw [List.append_assoc, List.singleton_append]
    have hvel' : ∀ off ∈ wires, off.data2 ≠ 0 := fun off hoff =>
      hvel off (List.mem_cons_of_mem we hoff)
    rw [List.map_cons, List.cons_append, notesOf, noteAt_wire (hvel we List.mem_cons_self),
      ih (before ++ [we]) (hsplit ▸ hsorted) hvel', List.flatMap_cons, ← hsplit]
    congr 1
    unfold wireNote
    cases hon : we.isNoteOff with
    | true => rfl
    | false =>
      show [PianoRollNote.mk _ _ _ _ _ _] = [PianoRollNote.mk _ _ _ _ _ _]
      rw [closingTick_wire hsorted hvel' hon rfl]

/-- The name of an instrument track is the one that its first event carries. -/
theorem nameOf_trackChunk (track : MidiTrack) : nameOf (trackChunk std track) = track.name := by
  -- Channel messages have no name, so the name event alone counts.
  have hwire : ∀ (wires : List WireEvent) (name : Bytes),
      (wires.map wireTrackEvent).foldl (fun name ev => (trackNameText ev.event).getD name) name
        = name := by
    intro wires
    induction wires with
    | nil => exact fun _ => rfl
    | cons we wires ih =>
      intro name
      have hnone : trackNameText (wireTrackEvent we).event = none := by
        unfold wireTrackEvent wireMessage
        cases we.isNoteOff with
        | true => rfl
        | false => rfl
      rw [List.map_cons, List.foldl_cons, hnone]
      exact ih name
  unfold nameOf trackChunk
  rw [List.foldl_cons, List.foldl_append, hwire]
  rfl

/-- What the piano roll makes of an event of a track. -/
def rolledNote (std : StdSort wireEventLt) (beyond : BeyondInt) (ppq : Int)
    (entry : MidiTrack × MidiEvent) : PianoRollNote :=
  ⟨stampOf beyond entry.2.tickOn.toNat,
    shownEnd beyond ppq (wireOrder std entry.1) entry.2.note entry.2.tickOn,
    entry.2.note.toNat, entry.2.velocity.toNat, (entry.2.channel &&& 0x0F).toNat + 1,
    entry.1.name⟩

/-- Both wire events of a note have its velocity. -/
theorem velocity_of_mem_wirePair {ev : MidiEvent} {we : WireEvent} (h : we ∈ wirePair ev) :
    we.data2 = ev.velocity := by
  unfold wirePair at h
  split at h
  · exact absurd h List.not_mem_nil
  · rw [List.mem_cons, List.mem_singleton] at h
    obtain rfl | rfl := h
    · rfl
    · rfl

/-- The note on of an event gives its note, the note off none. Events above 127 have neither. -/
theorem flatMap_wireNote (track : MidiTrack) (events : List MidiEvent) :
    (events.flatMap fun ev =>
        (wirePair ev).flatMap (wireNote beyond ppq track.name (wireOrder std track)))
      = (events.filter fun ev => decide (ev.note ≤ 127)).map fun ev =>
          rolledNote std beyond ppq (track, ev) := by
  induction events with
  | nil => rfl
  | cons ev events ih =>
    rw [List.flatMap_cons, ih, List.filter_cons]
    unfold wirePair
    -- A note above 127 is not written, so nothing is read for it.
    by_cases hnote : ev.note ≤ 127
    · rw [if_neg (UInt8.not_lt.mpr hnote), if_pos (decide_eq_true hnote), List.map_cons]
      show [PianoRollNote.mk _ _ _ _ _ _] ++ ([] ++ []) ++ _ = _
      rw [noteOn_channel]
      rfl
    · rw [if_pos (UInt8.not_le.mp hnote), if_neg (by simpa using hnote)]
      rfl

/-- The piano roll has one note for each event of a track that is written. -/
theorem notesOf_trackChunk {track : MidiTrack} (hvel : ∀ ev ∈ track.events, ev.velocity ≠ 0) :
    (notesOf beyond ppq (nameOf (trackChunk std track)) (trackChunk std track)).Perm
      ((track.events.filter fun ev => decide (ev.note ≤ 127)).map fun ev =>
        rolledNote std beyond ppq (track, ev)) := by
  have hwire : ∀ we ∈ wireOrder std track, we.data2 ≠ 0 := by
    intro we hwe
    obtain ⟨ev, hev, hmem⟩ := (mem_wireOrder std track).mp hwe
    exact velocity_of_mem_wirePair hmem ▸ hvel ev hev
  have hnotes : notesOf beyond ppq (nameOf (trackChunk std track)) (trackChunk std track)
      = (wireOrder std track).flatMap (wireNote beyond ppq track.name (wireOrder std track)) := by
    rw [nameOf_trackChunk]
    exact notesOf_wire [] (std.sorted _) hwire
  rw [hnotes, ← flatMap_wireNote, ← List.flatMap_assoc]
  exact (std.perm (wireEvents track.events)).flatMap_right _

/-! ### The notes of a composition

The tracks are read one by one and collected. The collection is described up to its order, since the
component sorts nothing and the file puts the tempo track in front. -/

/-- The events of a composition, each with its track. -/
def entriesOf (comp : SmfComposition) : List (MidiTrack × MidiEvent) :=
  comp.tracks.flatMap fun track => track.events.map (Prod.mk track)

/-- The note that an event stands for. -/
def shownNote (entry : MidiTrack × MidiEvent) : PianoRollNote :=
  ⟨entry.2.tickOn.toNat, entry.2.tickOff.toNat, entry.2.note.toNat, entry.2.velocity.toNat,
    entry.2.channel.toNat + 1, entry.1.name⟩

/-- The entries are the events of the tracks. -/
theorem mem_entriesOf {comp : SmfComposition} {entry : MidiTrack × MidiEvent} :
    entry ∈ entriesOf comp ↔ entry.1 ∈ comp.tracks ∧ entry.2 ∈ entry.1.events := by
  unfold entriesOf
  rw [List.mem_flatMap]
  constructor
  · rintro ⟨track, htrack, hmem⟩
    obtain ⟨ev, hev, rfl⟩ := List.mem_map.mp hmem
    exact ⟨htrack, hev⟩
  · rintro ⟨htrack, hev⟩
    exact ⟨entry.1, htrack, List.mem_map.mpr ⟨entry.2, hev, rfl⟩⟩

/-- The reader yields the events of every track in the order of the file at their absolute ticks:
the tempo track, then the tracks of the composition. -/
def YieldsTracks (std : StdSort wireEventLt) (midiFile : MidiFileReader)
    (comp : SmfComposition) : Prop :=
  midiFile (render std comp) = some (tempoChunk comp :: comp.tracks.map (trackChunk std))

/-- The notes of a rendered composition, up to their order: one for each event that is written. -/
theorem parse_render (beyond : BeyondInt) (ppq : Int) {midiFile : MidiFileReader}
    {comp : SmfComposition}
    (hyields : YieldsTracks std midiFile comp)
    (hvel : ∀ track ∈ comp.tracks, ∀ ev ∈ track.events, ev.velocity ≠ 0) :
    (parseSmfToNotes beyond midiFile (render std comp) ppq).Perm
      (((entriesOf comp).filter fun entry => decide (entry.2.note ≤ 127)).map
        (rolledNote std beyond ppq)) := by
  -- The tempo track shows no note and has no name.
  have htempo : notesOf beyond ppq (nameOf (tempoChunk comp)) (tempoChunk comp) = [] := rfl
  have hentries : ((entriesOf comp).filter fun entry => decide (entry.2.note ≤ 127)).map
        (rolledNote std beyond ppq)
      = comp.tracks.flatMap fun track =>
          (track.events.filter fun ev => decide (ev.note ≤ 127)).map fun ev =>
            rolledNote std beyond ppq (track, ev) := by
    unfold entriesOf
    rw [List.filter_flatMap, List.map_flatMap]
    refine List.flatMap_congr fun track _ => ?_
    rw [List.filter_map, List.map_map]
    rfl
  unfold parseSmfToNotes
  rw [hyields, hentries]
  show (List.flatMap _ (tempoChunk comp :: _)).Perm _
  rw [List.flatMap_cons, htempo, List.nil_append, List.flatMap_map]
  exact List.Perm.flatMap_left _ fun track htrack => notesOf_trackChunk (hvel track htrack)

/-! ### The ends

From here on the file is gone. A shown note differs from the event that it stands for in its end
alone, as far as the event fits the format. -/

/-- Two notes of one channel and pitch do not overlap. -/
def Apart (a b : MidiEvent) : Prop :=
  a.channel = b.channel → a.note = b.note → a.tickOff ≤ b.tickOn ∨ b.tickOff ≤ a.tickOn

/-- Being apart does not depend on the order. -/
instance : Std.Symm Apart :=
  ⟨fun _ _ hapart hchannel hpitch => (hapart hchannel.symm hpitch.symm).symm⟩

/-- The compositions of the piano roll: in each track the notes end behind their start and sound,
and those of one channel and pitch are apart. -/
structure Playable (comp : SmfComposition) : Prop where
  ends : ∀ track ∈ comp.tracks, ∀ ev ∈ track.events, ev.tickOn < ev.tickOff
  sounds : ∀ track ∈ comp.tracks, ∀ ev ∈ track.events, ev.velocity ≠ 0
  apart : ∀ track ∈ comp.tracks, track.events.Pairwise Apart

/-- The ends of the notes of a pitch behind the start of a note. -/
def endsBehind (track : MidiTrack) (ev : MidiEvent) : Set UInt32 :=
  {tick | ∃ other ∈ track.events, other.note = ev.note ∧ other.tickOff = tick ∧ ev.tickOn < tick}

/-- The closing note off is at the first of these ends. -/
theorem closingOff_isLeast (std : StdSort wireEventLt) {track : MidiTrack} {ev : MidiEvent}
    (hev : ev ∈ track.events) (hnote : ev.note ≤ 127) (hends : ev.tickOn < ev.tickOff) :
    ∃ off, closingOff (wireOrder std track) ev.note ev.tickOn = some off ∧
      IsLeast (endsBehind track ev) off.tick := by
  -- Every end behind the start is the tick of a note off that the search could find.
  have hcould : ∀ tick ∈ endsBehind track ev, ∃ off ∈ wireOrder std track,
      (off.isNoteOff && off.data1 == ev.note && decide (ev.tickOn < off.tick)) = true ∧
        off.tick = tick := by
    rintro tick ⟨other, hother, hpitch, rfl, hbehind⟩
    obtain ⟨off, hmem, hkind⟩ := exists_mem_wirePair (hpitch ▸ hnote) true
    obtain ⟨-, hkey, htick⟩ := mem_wirePair hmem
    have hdata : off.data1 = ev.note := (Prod.ext_iff.mp hkey).2.trans hpitch
    rw [hkind, if_pos rfl] at htick
    refine ⟨off, (mem_wireOrder std track).mpr ⟨other, hother, hmem⟩, ?_, htick⟩
    rw [hkind, hdata, htick, beq_self_eq_true, decide_eq_true hbehind]
    rfl
  obtain ⟨own, hown, hfits, -⟩ := hcould ev.tickOff ⟨ev, hev, rfl, rfl, hends⟩
  obtain ⟨off, hfind⟩ : ∃ off, closingOff (wireOrder std track) ev.note ev.tickOn = some off :=
    Option.isSome_iff_exists.mp (List.find?_isSome.mpr ⟨own, hown, hfits⟩)
  refine ⟨off, hfind, ?_, ?_⟩
  · -- It is the note off of some note of the pitch.
    have hfound := List.find?_some hfind
    rw [Bool.and_eq_true, Bool.and_eq_true, beq_iff_eq, decide_eq_true_iff] at hfound
    obtain ⟨⟨hkind, hdata⟩, hbehind⟩ := hfound
    obtain ⟨other, hother, hmem⟩ := (mem_wireOrder std track).mp (List.mem_of_find?_eq_some hfind)
    obtain ⟨-, hkey, htick⟩ := mem_wirePair hmem
    rw [hkind, if_pos rfl] at htick
    exact ⟨other, hother, (Prod.ext_iff.mp hkey).2.symm.trans hdata, htick.symm, hbehind⟩
  · intro tick htick
    obtain ⟨could, hmem, hfits, rfl⟩ := hcould tick htick
    exact UInt32.le_iff_toNat_le.mpr (find?_le
      ((pairwise_tick_wireOrder std track).imp UInt32.le_iff_toNat_le.mp) hfind hmem hfits)

/-- No note of a pitch ends inside a note. -/
def EndsFirst (track : MidiTrack) (ev : MidiEvent) : Prop :=
  ∀ other ∈ track.events, other.note = ev.note → ev.tickOn < other.tickOff →
    ev.tickOff ≤ other.tickOff

/-- The end that is shown is not behind the note's own, and it is that one exactly when the tick
fits and no note of the pitch ends before it. -/
theorem rolled_tickOff (std : StdSort wireEventLt) (beyond : BeyondInt) (ppq : Int)
    {track : MidiTrack} {ev : MidiEvent} (hev : ev ∈ track.events)
    (hnote : ev.note ≤ 127) (hends : ev.tickOn < ev.tickOff) :
    (rolledNote std beyond ppq (track, ev)).tickOff ≤ ev.tickOff.toNat ∧
      ((rolledNote std beyond ppq (track, ev)).tickOff = ev.tickOff.toNat ↔
        ev.tickOff.toNat < 2 ^ 31 ∧ EndsFirst track ev) := by
  obtain ⟨off, hfind, ⟨other, hother, hpitch, htick, hbehind⟩, hleast⟩ :=
    closingOff_isLeast std hev hnote hends
  -- The closing note off is the first behind the start, so it comes no later than the note's own.
  have hle : off.tick.toNat ≤ ev.tickOff.toNat :=
    UInt32.le_iff_toNat_le.mp (hleast ⟨ev, hev, rfl, rfl, hends⟩)
  have hshown : (rolledNote std beyond ppq (track, ev)).tickOff
      = stampOf beyond off.tick.toNat := by
    show shownEnd _ _ _ _ _ = _
    unfold shownEnd
    rw [hfind]
  have hstamp := stampOf_le beyond off.tick.toNat
  rw [hshown]
  refine ⟨by omega, fun heq => ?_, fun ⟨hint, hfirst⟩ => ?_⟩
  · have hsame : off.tick = ev.tickOff := UInt32.toNat_inj.mp (by omega)
    rw [hsame] at heq
    refine ⟨(stampOf_eq_iff _).mp heq, fun another hanother hpitch' hbehind' => ?_⟩
    exact hsame ▸ hleast ⟨another, hanother, hpitch', rfl, hbehind'⟩
  · have hge : ev.tickOff ≤ off.tick := htick ▸ hfirst other hother hpitch (htick ▸ hbehind)
    have hsame : off.tick = ev.tickOff := UInt32.le_antisymm
      (UInt32.le_iff_toNat_le.mpr hle) hge
    rw [hsame]
    exact (stampOf_eq_iff _).mpr hint

/-! ### What is shown

In one direction every event comes out as it is. In the other the shown notes are a permutation of
the events although none of them is later than its own, and this leaves no room for a wrong one. -/

/-- The compositions that the piano roll shows: the notes and channels are those of MIDI, the ticks
are in `int`, and no note of another channel ends on the same pitch inside a note. -/
structure Showable (comp : SmfComposition) : Prop where
  note_le : ∀ track ∈ comp.tracks, ∀ ev ∈ track.events, ev.note ≤ 127
  channel_le : ∀ track ∈ comp.tracks, ∀ ev ∈ track.events, ev.channel ≤ 15
  tickOff_lt : ∀ track ∈ comp.tracks, ∀ ev ∈ track.events, ev.tickOff.toNat < 2 ^ 31
  ends_first : ∀ track ∈ comp.tracks, ∀ ev ∈ track.events, ∀ other ∈ track.events,
    other.channel ≠ ev.channel → other.note = ev.note → ev.tickOn < other.tickOff →
      ev.tickOff ≤ other.tickOff

/-- A note of the same channel and pitch does not end inside a note either. -/
theorem Showable.endsFirst {comp : SmfComposition} (h : Showable comp) (hplay : Playable comp)
    {track : MidiTrack} (htrack : track ∈ comp.tracks) {ev : MidiEvent} (hev : ev ∈ track.events) :
    EndsFirst track ev := by
  intro other hother hpitch hbehind
  by_cases hchannel : other.channel = ev.channel
  · by_cases hself : other = ev
    · exact hself ▸ UInt32.le_refl _
    · have hapart : Apart other ev := (hplay.apart track htrack).forall hother hev hself
      obtain hbefore | hafter := hapart hchannel hpitch
      · exact absurd hbehind (UInt32.not_lt.mpr hbefore)
      · exact UInt32.le_of_lt (UInt32.lt_of_le_of_lt hafter (hplay.ends track htrack other hother))
  · exact h.ends_first track htrack ev hev other hother hchannel hpitch hbehind

/-- The mask keeps channels up to 15 and makes all others smaller. -/
theorem masked_channel_le (channel : UInt8) : (channel &&& 0x0F).toNat ≤ channel.toNat ∧
    ((channel &&& 0x0F).toNat = channel.toNat ↔ channel ≤ 15) :=
  forall_byte (P := fun c => (c &&& 0x0F).toNat ≤ c.toNat ∧
    ((c &&& 0x0F).toNat = c.toNat ↔ c ≤ 15)) (by decide +kernel) channel

/-- A showable event comes out as it is. -/
theorem rolledNote_eq (std : StdSort wireEventLt) (beyond : BeyondInt) (ppq : Int)
    {comp : SmfComposition} (h : Showable comp) (hplay : Playable comp)
    {entry : MidiTrack × MidiEvent} (hentry : entry ∈ entriesOf comp) :
    rolledNote std beyond ppq entry = shownNote entry := by
  obtain ⟨htrack, hev⟩ := mem_entriesOf.mp hentry
  have hends := hplay.ends entry.1 htrack entry.2 hev
  have hint := h.tickOff_lt entry.1 htrack entry.2 hev
  -- A tick in `int` is read as it is.
  have htickOn : stampOf beyond entry.2.tickOn.toNat = entry.2.tickOn.toNat :=
    (stampOf_eq_iff _).mpr (Nat.lt_trans (UInt32.lt_iff_toNat_lt.mp hends) hint)
  have htickOff : (rolledNote std beyond ppq entry).tickOff = entry.2.tickOff.toNat :=
    (rolled_tickOff std beyond ppq hev (h.note_le entry.1 htrack entry.2 hev) hends).2.mpr
      ⟨hint, h.endsFirst hplay htrack hev⟩
  have hchannel := (masked_channel_le entry.2.channel).2.mpr
    (h.channel_le entry.1 htrack entry.2 hev)
  show PianoRollNote.mk _ (rolledNote std beyond ppq entry).tickOff _ _ _ _ = _
  rw [htickOn, htickOff, hchannel]
  rfl

/-- A composition whose events all come out as they are is showable. Events above 127 are lost,
and channels and ends come out too small or as they are. -/
theorem showable_of_perm {std : StdSort wireEventLt} {beyond : BeyondInt} {ppq : Int}
    {comp : SmfComposition} (hplay : Playable comp)
    (h : (((entriesOf comp).filter fun entry => decide (entry.2.note ≤ 127)).map
      (rolledNote std beyond ppq)).Perm ((entriesOf comp).map shownNote)) : Showable comp := by
  -- Nothing is dropped, as the lists are equally long.
  have hkept : ∀ entry ∈ entriesOf comp, decide (entry.2.note ≤ 127) = true := by
    have hlength := h.length_eq
    rw [List.length_map, List.length_map] at hlength
    exact List.length_filter_eq_length_iff.mp hlength
  rw [List.filter_eq_self.mpr hkept] at h
  have hentry : ∀ track ∈ comp.tracks, ∀ ev ∈ track.events, (track, ev) ∈ entriesOf comp :=
    fun track htrack ev hev => mem_entriesOf.mpr ⟨htrack, hev⟩
  have hnote : ∀ track ∈ comp.tracks, ∀ ev ∈ track.events, ev.note ≤ 127 :=
    fun track htrack ev hev => of_decide_eq_true (hkept (track, ev) (hentry track htrack ev hev))
  have hrolled : ∀ track ∈ comp.tracks, ∀ ev ∈ track.events, _ := fun track htrack ev hev =>
    rolled_tickOff std beyond ppq hev (hnote track htrack ev hev) (hplay.ends track htrack ev hev)
  have hchannels := h.map PianoRollNote.channel
  have hends := h.map PianoRollNote.tickOff
  rw [List.map_map, List.map_map] at hchannels hends
  -- No shown channel and no shown end is above its own, so in a permutation all are equal.
  have hchannel := eq_of_perm_of_le (fun entry _ => by
    have := (masked_channel_le entry.2.channel).1
    show ((entry.2.channel &&& 0x0F).toNat : Int) + 1 ≤ entry.2.channel.toNat + 1
    omega) hchannels
  have hend := eq_of_perm_of_le (fun entry hmem =>
    (hrolled entry.1 (mem_entriesOf.mp hmem).1 entry.2 (mem_entriesOf.mp hmem).2).1) hends
  have hfirst : ∀ track ∈ comp.tracks, ∀ ev ∈ track.events,
      ev.tickOff.toNat < 2 ^ 31 ∧ EndsFirst track ev := fun track htrack ev hev =>
    (hrolled track htrack ev hev).2.mp (hend (track, ev) (hentry track htrack ev hev))
  constructor
  case note_le => exact hnote
  case channel_le =>
    intro track htrack ev hev
    have heq : ((ev.channel &&& 0x0F).toNat : Int) + 1 = ev.channel.toNat + 1 :=
      hchannel (track, ev) (hentry track htrack ev hev)
    exact (masked_channel_le ev.channel).2.mp (by omega)
  case tickOff_lt => exact fun track htrack ev hev => (hfirst track htrack ev hev).1
  case ends_first =>
    intro track htrack ev hev other hother _
    exact (hfirst track htrack ev hev).2 other hother

/-- The piano roll of the rendered composition has one note for each event, with the event's own
ticks, pitch, velocity, channel and track name, exactly for the showable compositions. -/
theorem shown_iff (std : StdSort wireEventLt) (midiFile : MidiFileReader) (beyond : BeyondInt)
    (ppq : Int) (comp : SmfComposition) (hyields : YieldsTracks std midiFile comp)
    (hplay : Playable comp) :
    (parseSmfToNotes beyond midiFile (render std comp) ppq).Perm
      ((entriesOf comp).map shownNote) ↔ Showable comp := by
  have hparse := parse_render beyond ppq hyields hplay.sounds
  constructor
  · intro hshown
    exact showable_of_perm hplay (hparse.symm.trans hshown)
  · intro h
    -- Every note is one that is written, so nothing is filtered.
    have hkept : ∀ entry ∈ entriesOf comp, decide (entry.2.note ≤ 127) = true := by
      intro entry hentry
      obtain ⟨htrack, hev⟩ := mem_entriesOf.mp hentry
      exact decide_eq_true (h.note_le entry.1 htrack entry.2 hev)
    rw [List.filter_eq_self.mpr hkept,
      List.map_congr_left fun entry hentry => rolledNote_eq std beyond ppq h hplay hentry] at hparse
    exact hparse

/-! ### Readers of the format

The reader is a parameter of the results above. The tracks that the format has in a file are one
such reader, and the two examples are about it. -/

/-- The tracks that the format has in a file. -/
def smfReader : MidiFileReader := fun bs => (decode bs).map fun p => p.1.tracks

/-- A reader of the format yields the tracks of every composition that fits it. -/
theorem yieldsTracks_of_reads {midiFile : MidiFileReader} {comp : SmfComposition}
    (hreads : ∀ bs, (decode bs).isSome → midiFile bs = smfReader bs)
    (h : RoundTripInput std comp) (hfits : FitsLength std comp) :
    YieldsTracks std midiFile comp := by
  have hdecode := decode_render_tracks std comp h.tracks_le h.name_le h.velocity_le h.delta_lt
    hfits
  have hsome : (decode (render std comp)).isSome := by
    rw [hdecode]
    rfl
  unfold YieldsTracks
  rw [hreads _ hsome, smfReader, hdecode]
  rfl

/-- The conversion of most processors: `INT_MIN` for everything beyond `int`. -/
def intMin : BeyondInt := ⟨fun _ => -2 ^ 31, fun _ => by decide⟩

/-- A pitch three times on two channels of a track, with another pitch across them. Two of the
notes end together, and the third begins there. -/
def layeredNotes : SmfComposition :=
  { tracks := [⟨bytes "Strings", [⟨0, 100, 0, 60, 64, 0⟩, ⟨50, 100, 1, 60, 72, 0⟩,
      ⟨50, 150, 1, 67, 80, 0⟩, ⟨100, 200, 0, 60, 64, 0⟩]⟩] }

/-- The reader of the format yields the tracks of the piece. -/
theorem yieldsTracks_layeredNotes : YieldsTracks wireSort smfReader layeredNotes :=
  yieldsTracks_of_reads (fun _ _ => rfl)
    { ppq_pos := by decide
      ppq_le := by decide
      bpm_ge := by decide
      tracks_le := by decide
      name_le := by decide
      velocity_le := by decide
      delta_lt := by decide }
    (fitsLength_of_events_lt wireSort layeredNotes (by decide) (by decide))

/-- Both notes that end at tick 100 are closed there, and the one that begins there is not. -/
theorem shown_layeredNotes :
    (parseSmfToNotes intMin smfReader (render wireSort layeredNotes) 480).Perm
      [⟨0, 100, 60, 64, 1, bytes "Strings"⟩, ⟨50, 100, 60, 72, 2, bytes "Strings"⟩,
        ⟨50, 150, 67, 80, 2, bytes "Strings"⟩, ⟨100, 200, 60, 64, 1, bytes "Strings"⟩] :=
  (shown_iff wireSort smfReader intMin 480 layeredNotes yieldsTracks_layeredNotes
    { ends := by decide
      sounds := by decide
      apart := by simp [layeredNotes, Apart] }).mpr
    { note_le := by decide
      channel_le := by decide
      tickOff_lt := by decide
      ends_first := by decide }

/-- One pitch on two channels of a track: the second note begins inside the first one. -/
def crossingNotes : SmfComposition :=
  { tracks := [⟨bytes "Strings", [⟨0, 100, 0, 60, 64, 0⟩, ⟨50, 150, 1, 60, 64, 0⟩]⟩] }

/-- The second note of `crossingNotes` ends with the first one in the piano roll. -/
theorem not_shown : ¬ ∀ (std : StdSort wireEventLt) (midiFile : MidiFileReader)
    (beyond : BeyondInt) (ppq : Int) (comp : SmfComposition), YieldsTracks std midiFile comp →
    Playable comp → (parseSmfToNotes beyond midiFile (render std comp) ppq).Perm
      ((entriesOf comp).map shownNote) := by
  intro h
  have hplay : Playable crossingNotes :=
    { ends := by decide
      sounds := by decide
      apart := by simp [crossingNotes, Apart] }
  have hyields : YieldsTracks wireSort smfReader crossingNotes :=
    yieldsTracks_of_reads (fun _ _ => rfl)
      { ppq_pos := by decide
        ppq_le := by decide
        bpm_ge := by decide
        tracks_le := by decide
        name_le := by decide
        velocity_le := by decide
        delta_lt := by decide }
      (fitsLength_of_events_lt wireSort crossingNotes (by decide) (by decide))
  have hperm := (parse_render intMin 480 hyields hplay.sounds).symm.trans
    (h wireSort smfReader intMin 480 crossingNotes hyields hplay)
  exact absurd hperm (by decide)

end AiMidi.Proofs.PianoRoll
