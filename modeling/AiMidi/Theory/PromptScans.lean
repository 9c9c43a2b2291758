import AiMidi.Lib.TextIndex
import AiMidi.Theory.PromptInterpreter

/-!
# `AiMidi.Theory.PromptScans`: the number scans of the interpreter, by index

`detect_bpm` and `extract_total_bars` with the index variables of the source: `p` is where the
unit begins, `start` and `end` bound the digits in front of it, and `after` and `n_end` those
behind. `AiMidi.Theory.PromptInterpreter` has the same functions in terms of the text in front of
the unit and behind it.
-/

set_option autoImplicit false

namespace AiMidi.Theory.PromptScans

open AiMidi.Lib
open AiMidi.Theory.PromptInterpreter (numberIn)

/-- The number in front of the index `p`: digits, then spaces. -/
def numberBefore (lo hi : Int) (lower : Bytes) (p : Nat) : Option Int :=
  let start := backWhile (· == 0x20) lower 0 p
  let start := backWhile isDigit lower 0 start
  if start < p then
    let stop := backWhile (· == 0x20) lower start p
    if start < stop then numberIn lo hi (slice lower start stop) else none
  else none

/-- The number behind the index `after`: spaces, then digits. -/
def numberAfter (lo hi : Int) (lower : Bytes) (after : Nat) : Option Int :=
  let after := forwardWhile (· == 0x20) lower after
  let nEnd := forwardWhile isDigit lower after
  if after < nEnd then numberIn lo hi (slice lower after nEnd) else none

/-- The first tempo next to `bpm`, 120 on failure. -/
def detectBpm (lower : Bytes) : Int :=
  (scanFrom (bytes "bpm") (by decide) (fun p =>
    (numberBefore 20 300 lower p).or (numberAfter 20 300 lower (p + 3))) lower 0).getD 120

/-- The total bar count of a `N bar(s)` pattern, -1 when absent. -/
def extractTotalBars (lower : Bytes) : Int :=
  (scanFrom (bytes " bar") (by decide) (numberBefore 1 256 lower) lower 0).getD (-1)

end AiMidi.Theory.PromptScans
