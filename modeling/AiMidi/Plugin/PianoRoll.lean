import AiMidi.Lib.Smf

/-!
# `AiMidi.Plugin.PianoRoll`: the notes of a file

`parseSmfToNotes` reads the notes of a MIDI file for the piano roll. Each note on is closed by the
first later note off of its track with the same note number. The channel is not compared.

The file is read by `juce::MidiFile`, which is a parameter. It leaves the events of each track at
absolute time stamps. A time stamp is converted to `int`, which C++ defines for the values of `int`
only. What comes out beyond them is a parameter too (`BeyondInt`).
-/

set_option autoImplicit false

namespace AiMidi.Plugin

open AiMidi.Lib AiMidi.Lib.Smf

/-- A note of the piano roll. The channels count from 1. -/
structure PianoRollNote where
  tickOn : Int
  tickOff : Int
  note : Int
  velocity : Int
  channel : Int
  trackName : Bytes
  deriving DecidableEq, Repr

/-- `juce::MidiFile::readFrom`: the tracks of the file, `none` when it is refused. -/
abbrev MidiFileReader := Bytes → Option (List (List TrackEvent))

/-- What the conversion to `int` makes of a time stamp beyond `int`: any `int`. -/
structure BeyondInt where
  value : Nat → Int
  value_lt : ∀ tick, value tick < 2 ^ 31

namespace PianoRoll

/-! ### Messages -/

/-- `isNoteOff`, with the note number. A note on of velocity 0 counts. -/
def noteOffNumber : Event → Option UInt8
  | .noteOff _ key _        => some key
  | .noteOn _ key velocity => if velocity = 0 then some key else none
  | _                       => none

/-- `isTrackNameEvent`, with the text. -/
def trackNameText : Event → Option Bytes
  | .metaEvent type text => if type = 0x03 then some text else none
  | _                    => none

/-! ### The parser -/

/-- The last track name of the track, empty without one. -/
def nameOf (track : List TrackEvent) : Bytes :=
  track.foldl (fun name ev => (trackNameText ev.event).getD name) []

variable (beyond : BeyondInt)

/-- A time stamp as an `int`. -/
def stampOf (tick : Nat) : Int := if tick < 2 ^ 31 then tick else beyond.value tick

/-- The end of a note: the first later note off of its number, else a quarter after its
start. -/
def closingTick (ppq tickOn : Int) (note : UInt8) (later : List TrackEvent) : Int :=
  match later.find? fun off => noteOffNumber off.event == some note with
  | some off => stampOf beyond off.tick
  | none     => tickOn + ppq

/-- The note of an event, with the events behind it. -/
def noteAt (ppq : Int) (name : Bytes) (ev : TrackEvent) (later : List TrackEvent) :
    List PianoRollNote :=
  match ev.event with
  | .noteOn channel note velocity =>
    if velocity = 0 then []
    else
      let tickOn := stampOf beyond ev.tick
      [⟨tickOn, closingTick beyond ppq tickOn note later, note.toNat, velocity.toNat,
        channel.toNat + 1, name⟩]
  | _ => []

/-- The loop over the events of a track. -/
def notesOf (ppq : Int) (name : Bytes) : List TrackEvent → List PianoRollNote
  | []          => []
  | ev :: later => noteAt beyond ppq name ev later ++ notesOf ppq name later

/-- The notes of all tracks, none when the file is refused. -/
def parseSmfToNotes (midiFile : MidiFileReader) (smfData : Bytes) (ppq : Int) :
    List PianoRollNote :=
  match midiFile smfData with
  | none        => []
  | some tracks => tracks.flatMap fun track => notesOf beyond ppq (nameOf track) track

end PianoRoll

end AiMidi.Plugin
