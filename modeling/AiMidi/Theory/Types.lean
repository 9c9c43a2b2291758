import AiMidi.Lib.Sanitized

/-!
# `AiMidi.Theory.Types`: the common types of the music theory engine

`MidiEvent` is the note record every engine produces, with the field widths of the source.
`kPpq` is the tick resolution used everywhere in the project. `addTick` and `subTick` are tick
arithmetic with an `int`, which C++ converts to 32 bits first.
-/

set_option autoImplicit false

namespace AiMidi.Theory

open AiMidi.Lib AiMidi.Lib.Sanitized

/-- PPQ (pulses per quarter note) used everywhere in the project. -/
def kPpq : Int := 480

/-- Musical event in PPQ 480 ticks. -/
structure MidiEvent where
  tickOn : UInt32
  tickOff : UInt32
  channel : UInt8
  note : UInt8
  velocity : UInt8
  articulation : UInt8
  deriving DecidableEq, Repr

/-- Reproducible seed type. -/
abbrev Seed := UInt64

/-- `tick + d` in unsigned arithmetic. -/
def addTick (tick : UInt32) (d : Int) : Sanitized UInt32 :=
  u32 (tick.toNat + (u32cast d).toNat)

/-- `tick - d` in unsigned arithmetic. -/
def subTick (tick : UInt32) (d : Int) : Sanitized UInt32 :=
  u32 (tick.toNat - (u32cast d).toNat)

end AiMidi.Theory
