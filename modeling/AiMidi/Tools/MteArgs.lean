import AiMidi.Lib.Cstdlib

/-!
# `AiMidi.Tools.MteArgs`: the command line of `mte_cli`

`parseArgs` reads the argument vector, the program name left out. An option with a value
takes the next argument. An unknown option, a missing value and a refused value all make it
return `none`, which is the `false` of the source. `keyToRootPc` is the table of key names.
-/

set_option autoImplicit false

namespace AiMidi.Tools

open AiMidi.Lib

/-- What the command line asks for, with the defaults of the source. -/
structure Args where
  seed : UInt64 := 0
  key : Bytes := []
  scale : Bytes := []
  bpm : Int := 120
  bars : Int := 4
  output : Bytes := []
  prompt : Bytes := []
  verbose : Bool := false
  deriving DecidableEq, Repr

/-- The options that take the next argument as their value. -/
def valueFlags : List Bytes :=
  [bytes "--seed", bytes "--key", bytes "--scale", bytes "--bpm", bytes "--bars",
   bytes "--output", bytes "--prompt"]

/-- The store of an option with its value, `none` when the value is refused. -/
def setOption (flag v : Bytes) (args : Args) : Option Args :=
  if flag = bytes "--seed" then
    -- Nothing may stand behind the number. An empty value reads as 0.
    let (seed, tail) := strtoull v
    if tail ≠ [] then none else some { args with seed := seed }
  else if flag = bytes "--key" then some { args with key := v }
  else if flag = bytes "--scale" then some { args with scale := v }
  else if flag = bytes "--bpm" then
    if atoi v ≤ 0 then none else some { args with bpm := atoi v }
  else if flag = bytes "--bars" then
    if atoi v ≤ 0 then none else some { args with bars := atoi v }
  else if flag = bytes "--output" then some { args with output := v }
  else if flag = bytes "--prompt" then some { args with prompt := v }
  else none

/-- The loop over the arguments. -/
def parseFlags : List Bytes → Args → Option Args
  | [], args => some args
  | flag :: rest, args =>
    if valueFlags.contains flag then
      match rest with
      -- The value is missing.
      | []        => none
      | v :: rest =>
        match setOption flag v args with
        | none      => none
        | some args => parseFlags rest args
    else if flag = bytes "--verbose" then parseFlags rest { args with verbose := true }
    else none

/-- An output file is required, and so are a key and a scale without a prompt. -/
def parseArgs (argv : List Bytes) : Option Args :=
  match parseFlags argv {} with
  | none => none
  | some args =>
    if args.output = [] then none
    else if args.prompt = [] ∧ (args.key = [] ∨ args.scale = []) then none
    else some args

/-- The key names with their root pitch class. -/
def keyTable : List (Bytes × Int) :=
  [(bytes "C", 0), (bytes "C#", 1), (bytes "Db", 1),
   (bytes "D", 2), (bytes "D#", 3), (bytes "Eb", 3),
   (bytes "E", 4),
   (bytes "F", 5), (bytes "F#", 6), (bytes "Gb", 6),
   (bytes "G", 7), (bytes "G#", 8), (bytes "Ab", 8),
   (bytes "A", 9), (bytes "A#", 10), (bytes "Bb", 10),
   (bytes "B", 11)]

/-- Key name to root pitch class, `-1` for an unknown name. -/
def keyToRootPc (key : Bytes) : Int := (keyTable.lookup key).getD (-1)

/-! ### The loop, option by option -/

section

variable {v : Bytes} {args : Args}

/-- The seed option keeps the parsed value if nothing follows the number. -/
theorem setOption_seed (h : (strtoull v).2 = []) :
    setOption (bytes "--seed") v args = some { args with seed := (strtoull v).1 } := by
  rw [setOption, if_pos rfl]
  exact if_neg (fun hne => hne h)

/-- The key option keeps its text. -/
theorem setOption_key : setOption (bytes "--key") v args = some { args with key := v } := rfl

/-- The scale option keeps its text. -/
theorem setOption_scale : setOption (bytes "--scale") v args = some { args with scale := v } :=
  rfl

/-- The tempo option keeps a positive value. -/
theorem setOption_bpm (h : 0 < atoi v) :
    setOption (bytes "--bpm") v args = some { args with bpm := atoi v } :=
  if_neg (Int.not_le.mpr h)

/-- The option for the bars keeps a positive value. -/
theorem setOption_bars (h : 0 < atoi v) :
    setOption (bytes "--bars") v args = some { args with bars := atoi v } :=
  if_neg (Int.not_le.mpr h)

/-- The output option keeps its text. -/
theorem setOption_output :
    setOption (bytes "--output") v args = some { args with output := v } := rfl

/-- One accepted option. -/
theorem parseFlags_option {flag : Bytes} {args' : Args} (hflag : valueFlags.contains flag = true)
    (h : setOption flag v args = some args') (rest : List Bytes) :
    parseFlags (flag :: v :: rest) args = parseFlags rest args' := by
  rw [parseFlags, if_pos hflag]
  simp only [h]

/-- An unknown option stops the loop. -/
theorem parseFlags_unknown {flag : Bytes} (hflag : valueFlags.contains flag = false)
    (hverbose : flag ≠ bytes "--verbose") (rest : List Bytes) :
    parseFlags (flag :: rest) args = none := by
  cases rest with
  | nil => simp only [parseFlags, hflag, hverbose, Bool.false_eq_true, if_false]
  | cons v rest => simp only [parseFlags, hflag, hverbose, Bool.false_eq_true, if_false]

end

end AiMidi.Tools
