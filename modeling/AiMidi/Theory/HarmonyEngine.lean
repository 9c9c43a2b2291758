import AiMidi.Theory.ChordEngine

/-!
# `AiMidi.Theory.HarmonyEngine`: the chord progression of a piece

One chord a bar, following II-V-I-I in C. Key and scale of the request do not enter the
chords: the source looks the scale up and then uses the C-rooted pattern regardless.
-/

set_option autoImplicit false

namespace AiMidi.Theory

open AiMidi.Lib AiMidi.Lib.Sanitized

/-- A request for a chord progression in a key. -/
structure HarmonyRequest where
  rootKey : Bytes
  scale : Bytes
  bars : Int := 4
  seed : Seed := 0

namespace HarmonyEngine

/-- The pitch class and the quality of the chords of four bars. -/
def kIIVIPattern : List (Int × Bytes) :=
  [(2, bytes "m7"), (7, bytes "7"), (0, bytes "maj7"), (0, bytes "maj7")]

/-- Ticks of a 4/4 bar. -/
def ticksPerBar : Nat := 1920

/-- The chord of a bar. -/
def chordOfBar (bar : Nat) : Sanitized (List ChordSpec) := do
  let startTick ← u32 (bar * ticksPerBar)
  let (pc, quality) := kIIVIPattern.getD (bar % 4) (0, bytes "maj7")
  pure [⟨startTick, UInt32.ofNat ticksPerBar, pc, quality, 0⟩]

/-- The voiced chords of a request. -/
def generate (req : HarmonyRequest) : Sanitized (List MidiEvent) :=
  -- Nothing is drawn for an empty piece.
  if req.bars < 1 then pure []
  else do
    let specs ← Sanitized.forEach chordOfBar (List.range req.bars.toNat)
    ChordEngine.voicing ⟨specs, req.seed, UInt32.ofNat kPpq.toNat⟩

end HarmonyEngine

end AiMidi.Theory
