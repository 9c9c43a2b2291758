import AiMidi.Lib.StdSort
import AiMidi.Theory.Types

/-!
# `AiMidi.Theory.MidiRenderer`: SMF Type 1 output

`render` converts tick-based `MidiEvent`s into a complete `.mid` byte stream: big-endian
fields, VLQ-encoded delta times, tempo track first. Each `build*` function of the source
appends to an output vector; here it returns the bytes that it appends.

`std::sort` is not stable, so the order of wire events that compare equal is open. `render`
takes the sort as a `StdSort wireEventLt`.
-/

set_option autoImplicit false

namespace AiMidi.Theory

open AiMidi.Lib

/-- A single track in the SMF output. -/
structure MidiTrack where
  name : Bytes
  events : List MidiEvent
  deriving DecidableEq, Repr

/-- Complete SMF composition metadata + tracks. -/
structure SmfComposition where
  ppq : Int := 480
  bpm : Int := 120
  key : Bytes := bytes "C"
  scale : Bytes := bytes "major"
  timeSigNum : Int := 4
  timeSigDen : Int := 4
  tracks : List MidiTrack := []
  deriving DecidableEq, Repr

/-! ### Big-endian helpers -/

/-- The two bytes of a 16-bit number, the high byte first. -/
def writeBe16 (v : UInt16) : Bytes :=
  [((v >>> 8) &&& 0xFF).toUInt8, (v &&& 0xFF).toUInt8]

/-- The four bytes of a 32-bit number, the high byte first. -/
def writeBe32 (v : UInt32) : Bytes :=
  [((v >>> 24) &&& 0xFF).toUInt8, ((v >>> 16) &&& 0xFF).toUInt8,
    ((v >>> 8) &&& 0xFF).toUInt8, (v &&& 0xFF).toUInt8]

/-! ### Variable Length Quantity -/

/-- A positive value gets smaller with each group of seven bits, so the encoding ends. -/
theorem shiftRight_seven_lt {value : UInt32} (h : value > 0) :
    (value >>> 7).toNat < value.toNat := by
  have hpos : 0 < value.toNat := by simpa [UInt32.lt_iff_toNat_lt] using h
  simp only [UInt32.toNat_shiftRight, UInt32.reduceToNat, Nat.reduceMod,
    Nat.shiftRight_eq_div_pow]
  omega

/-- The `while (value > 0)` loop of `encode_vlq`: the bytes it pushes, in push order. -/
def encodeVlqLoop (value : UInt32) : Bytes :=
  if _h : value > 0 then
    ((value &&& 0x7F) ||| 0x80).toUInt8 :: encodeVlqLoop (value >>> 7)
  else []
termination_by value.toNat
decreasing_by exact shiftRight_seven_lt _h

/-- Variable Length Quantity of a delta time. -/
def encodeVlq (value : UInt32) : Bytes :=
  ((value &&& 0x7F).toUInt8 :: encodeVlqLoop (value >>> 7)).reverse

/-! ### Key signature -/

/-- Key signature table: key name to sharps (positive) or flats (negative). -/
def kKeyMap : List (Bytes × Int) :=
  [(bytes "Cb", -7), (bytes "Gb", -6), (bytes "Db", -5), (bytes "Ab", -4), (bytes "Eb", -3),
    (bytes "Bb", -2), (bytes "F", -1), (bytes "C", 0), (bytes "G", 1), (bytes "D", 2),
    (bytes "A", 3), (bytes "E", 4), (bytes "B", 5), (bytes "F#", 6), (bytes "C#", 7)]

/-- The sharps of a key signature, negative for flats and zero for an unknown key. -/
def keySharps (key : Bytes) : Int := (kKeyMap.lookup key).getD 0

/-! ### Wire events -/

/-- Internal wire-format event for sorting. -/
structure WireEvent where
  tick : UInt32
  isNoteOff : Bool
  status : UInt8
  data1 : UInt8
  data2 : UInt8
  deriving DecidableEq, Repr

/-- The comparator of the wire-event sort: by tick, note off before note on at the same
tick. -/
def wireEventLt (a b : WireEvent) : Bool :=
  if a.tick ≠ b.tick then a.tick < b.tick else a.isNoteOff && !b.isNoteOff

/-- The note-on and note-off pair of one event. Notes above 127 are skipped. -/
def wirePair (ev : MidiEvent) : List WireEvent :=
  if ev.note > 127 then []
  else
    [{ tick := ev.tickOn, isNoteOff := false, status := 0x90 ||| (ev.channel &&& 0x0F),
       data1 := ev.note, data2 := ev.velocity },
     { tick := ev.tickOff, isNoteOff := true, status := 0x80 ||| (ev.channel &&& 0x0F),
       data1 := ev.note, data2 := ev.velocity }]

/-- The `wire` vector before the sort. -/
def wireEvents (events : List MidiEvent) : List WireEvent := events.flatMap wirePair

/-- The delta-time loop of `build_instrument_track`, with its two variables `last_tick` and
`last_status`. -/
def writeWireEvents (lastTick : UInt32) (lastStatus : UInt8) : List WireEvent → Bytes
  | []       => []
  | we :: ws =>
      let delta := we.tick - lastTick
      -- Running status: if same status byte, omit it.
      let statusBytes := if we.status ≠ lastStatus ∨ lastStatus = 0 then [we.status] else []
      let lastStatus' :=
        if we.status ≠ lastStatus ∨ lastStatus = 0 then we.status else lastStatus
      encodeVlq delta ++ statusBytes ++ [we.data1, we.data2]
        ++ writeWireEvents we.tick lastStatus' ws

/-- End of track: delta 0, `FF 2F 00`. -/
def endOfTrack : Bytes := encodeVlq 0 ++ [0xFF, 0x2F, 0x00]

/-- Track name meta event at delta 0. The length is a single byte. -/
def nameBytes (name : Bytes) : Bytes :=
  encodeVlq 0 ++ [0xFF, 0x03, u8cast name.length] ++ name

/-- The event order of an instrument track. -/
def wireOrder (std : StdSort wireEventLt) (track : MidiTrack) : List WireEvent :=
  std.sort (wireEvents track.events)

/-- The event bytes of an instrument track. -/
def trackEvents (std : StdSort wireEventLt) (track : MidiTrack) : Bytes :=
  nameBytes track.name ++ writeWireEvents 0 0 (wireOrder std track) ++ endOfTrack

/-- An MTrk chunk around its event bytes. -/
def writeMTrk (events : Bytes) : Bytes :=
  bytes "MTrk" ++ writeBe32 (u32cast events.length) ++ events

/-- The track chunk of one instrument. -/
def buildInstrumentTrack (std : StdSort wireEventLt) (track : MidiTrack) : Bytes :=
  writeMTrk (trackEvents std track)

/-! ### Tempo track -/

/-- The loop `while (den > 1) { den >>= 1; ++dd; }`: the denominator as a power of 2. -/
def denominatorPower (den : Nat) : Nat :=
  if _h : den > 1 then denominatorPower (den / 2) + 1 else 0

/-- Tempo meta event: `FF 51 03 tt tt tt`, at delta 0. -/
def tempoEvent (bpm : Int) : Bytes :=
  -- Only the low three bytes are written.
  let tempoUs : UInt32 := 60000000 / u32cast bpm
  [0x00, 0xFF, 0x51, 0x03, ((tempoUs >>> 16) &&& 0xFF).toUInt8,
    ((tempoUs >>> 8) &&& 0xFF).toUInt8, (tempoUs &&& 0xFF).toUInt8]

/-- Time signature meta event: `FF 58 04 nn dd cc bb`, at delta 0. -/
def timeSignatureEvent (num den : Int) : Bytes :=
  [0x00, 0xFF, 0x58, 0x04, u8cast num, u8cast (denominatorPower den.toNat), 24, 8]

/-- Key signature meta event: `FF 59 02 sf mi`, at delta 0. -/
def keySignatureEvent (key scale : Bytes) : Bytes :=
  [0x00, 0xFF, 0x59, 0x02, u8cast (keySharps key),
    -- Other minor scales count as major.
    if scale = bytes "minor" ∨ scale = bytes "min" then 1 else 0]

/-- The event bytes of the tempo track. -/
def tempoEvents (comp : SmfComposition) : Bytes :=
  tempoEvent comp.bpm ++ timeSignatureEvent comp.timeSigNum comp.timeSigDen
    ++ keySignatureEvent comp.key comp.scale ++ [0x00, 0xFF, 0x2F, 0x00]

/-- The first track chunk, with the tempo, the time signature and the key. -/
def buildTempoTrack (comp : SmfComposition) : Bytes := writeMTrk (tempoEvents comp)

/-! ### The renderer -/

/-- The MThd chunk: length 6, format 1, the track count with the tempo track, the
division. -/
def writeMThd (comp : SmfComposition) : Bytes :=
  bytes "MThd" ++ writeBe32 6 ++ writeBe16 1
    ++ writeBe16 (u16cast (i32cast comp.tracks.length + 1)) ++ writeBe16 (u16cast comp.ppq)

/-- The complete Standard MIDI File of a composition. -/
def render (std : StdSort wireEventLt) (comp : SmfComposition) : Bytes :=
  writeMThd comp ++ buildTempoTrack comp ++ comp.tracks.flatMap (buildInstrumentTrack std)

end AiMidi.Theory
