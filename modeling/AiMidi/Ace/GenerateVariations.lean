import AiMidi.Ace.Workflow

/-!
# `AiMidi.Ace.GenerateVariations`: workflow W6 on the file system

`generateVariations` runs `mte_cli` once for each variation. A run that fails leaves an entry
without a path, and the loop goes on. A run that succeeds defers the removal of its file to
the exit of the function. The deferred calls run after the response is complete, the newest
first.

How the runs end is a parameter (`MteExit`), with the random numbers of the file names and the
measured times. `os.Remove` removes a file that is there. Log lines are left out.
-/

set_option autoImplicit false

namespace AiMidi.Ace

open AiMidi.Lib

/-- The contents of each file. -/
abbrev FileSystem := Bytes → Option Bytes

/-- What a run of the subprocess did. -/
structure MteExit where
  /-- What it wrote to its output file. -/
  written : Option Bytes
  /-- The error of `CombinedOutput`, such as an exit status that is not zero. -/
  err : Option Bytes
  /-- The combined output. -/
  output : Bytes
  deriving Repr

/-- The errors of `runMTE`. -/
inductive MteError where
  | mteFailed (err output : Bytes)
  | notFound (outputFile : Bytes)
  deriving DecidableEq, Repr

/-- The file system after a run with the given output file. -/
def MteExit.write (exit : MteExit) (outputFile : Bytes) (files : FileSystem) : FileSystem :=
  match exit.written with
  | some smf => Function.update files outputFile (some smf)
  | none     => files

/-- `runMTE` on the files that its subprocess leaves. -/
def runMTE (exit : MteExit) (outputFile : Bytes) (files : FileSystem) : Except MteError Bytes :=
  match exit.err with
  | some err => .error (.mteFailed err exit.output)
  | none     =>
      -- os.Stat, on whatever the path holds
      if (files outputFile).isNone then .error (.notFound outputFile) else .ok outputFile

/-- What the runs of a request depend on, for each variation. -/
structure VariationEnv where
  tmpDir : Bytes
  random : Nat → UInt64
  exit : Nat → MteExit
  elapsed : Nat → Int64

/-- The result of a single variation. -/
structure VariationResult where
  index : Nat
  seed : Int64
  smfPath : Bytes
  durationMs : Int64
  deriving DecidableEq, Repr

/-- The call of variation `i`. Seeds wrap in 64 bits. -/
def GenerateVariationsRequest.call (req : GenerateVariationsRequest) (i : Nat) : MteCall :=
  ⟨[bytes "--blueprint-json", req.blueprintJSON], req.baseSeed + Int64.ofNat i * req.delta⟩

/-- The output file of variation `i`. -/
def VariationEnv.outputFile (env : VariationEnv) (req : GenerateVariationsRequest) (i : Nat) :
    Bytes :=
  Ace.outputFile env.tmpDir (env.random i) (req.call i).seed

/-- The state of the function: the files, the results so far and the deferred removals, the
newest first. -/
structure VariationState where
  files : FileSystem
  variations : List VariationResult
  deferred : List Bytes

/-- One iteration of the loop. -/
def generateVariation (env : VariationEnv) (req : GenerateVariationsRequest)
    (s : VariationState) (i : Nat) : VariationState :=
  let files := (env.exit i).write (env.outputFile req i) s.files
  match runMTE (env.exit i) (env.outputFile req i) files with
  | .error _ =>
      -- Keep going: partial results are still useful.
      { s with files, variations := s.variations ++ [⟨i, (req.call i).seed, [], 0⟩] }
  | .ok smfPath =>
      { files, variations := s.variations ++ [⟨i, (req.call i).seed, smfPath, env.elapsed i⟩]
        deferred := smfPath :: s.deferred }

/-- The loop, for `n` variations. -/
def generateVariationsLoop (env : VariationEnv) (req : GenerateVariationsRequest)
    (files : FileSystem) (n : Nat) : VariationState :=
  (List.range n).foldl (generateVariation env req) ⟨files, [], []⟩

/-- The deferred calls of `os.Remove`. -/
def removeAll (files : FileSystem) (paths : List Bytes) : FileSystem :=
  paths.foldl (fun files path => Function.update files path none) files

/-- The response, or the text of the error, and the files when the function has returned. -/
def generateVariations (env : VariationEnv) (req : GenerateVariationsRequest)
    (files : FileSystem) : Except Bytes (List VariationResult) × FileSystem :=
  match req.validate with
  | .error err => (.error err, files)
  | .ok ()     =>
      let s := generateVariationsLoop env req files req.variationCount.toInt.toNat
      (.ok s.variations, removeAll s.files s.deferred)

end AiMidi.Ace
