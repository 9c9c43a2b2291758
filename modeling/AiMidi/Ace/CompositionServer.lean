import AiMidi.Ace.Composition
import AiMidi.Lib.Transition
import AiMidi.Tools.MteCli

/-!
# `AiMidi.Ace.CompositionServer`: concurrent `NewComposition` requests

The gRPC server runs one handler for each request, and all handlers of a `CompositionServer`
share its temporary directory. A handler takes three steps on the file system: it removes the
output file, runs `mte_cli`, which writes it, and reads it back. `compositionServer` interleaves
the steps of any number of handlers. The file system starts in any state.

The subprocess is a parameter: what it does with an argument vector, the file and the contents
that it writes, or its error. Log lines are left out, and of an error text the part that the
subprocess and the file system supply.
-/

set_option autoImplicit false

namespace AiMidi.Ace

open AiMidi.Lib AiMidi.Tools

/-- A request, with the random number that stands for seed 0. -/
structure NewCompositionCall where
  req : NewCompositionRequest
  random : UInt64

namespace NewCompositionCall

/-- The seed of the call: that of the request, or the random number where it is 0. -/
def seed (call : NewCompositionCall) : Int64 := call.req.effectiveSeed call.random

/-- The path that the handler removes, hands to `mte_cli` and reads. -/
def outputFile (tmpDir : Bytes) (call : NewCompositionCall) : Bytes :=
  Filepath.join [tmpDir, outputName call.seed]

/-- The argument vector of the subprocess. -/
def args (table : Char → Char) (tmpDir : Bytes) (call : NewCompositionCall) : List Bytes :=
  newCompositionArgs tmpDir call.seed (call.req.params table)

end NewCompositionCall

/-- Why a response reports no success. -/
inductive CompositionError where
  | mteCli (err : CliError)
  | readSmf
  deriving DecidableEq, Repr

/-- `CompositionResponse`: the SMF of a success, or the error. -/
abbrev CompositionResponse : Type := Except CompositionError Bytes

/-- How far a handler has come. -/
inductive Handler where
  | received
  | removed
  | generated
  | responded (response : CompositionResponse)

/-- The shared files and the handlers. -/
structure ServerState (ι : Type) where
  files : Bytes → Option Bytes
  handlers : ι → Handler

/-- A step of the handler of a request. -/
inductive ServerAction (ι : Type) where
  | remove (i : ι)
  | generate (i : ι)
  | read (i : ι)

section

variable {ι : Type}

/-- A file is written or, with `none`, removed. -/
def ServerState.setFile (s : ServerState ι) (path : Bytes) (contents : Option Bytes) :
    ServerState ι :=
  { s with files := Function.update s.files path contents }

/-- Writing a file leaves every handler where it is. -/
@[simp] theorem handlers_setFile (s : ServerState ι) (path : Bytes) (contents : Option Bytes) :
    (s.setFile path contents).handlers = s.handlers := rfl

/-- A file that was written has the new contents. -/
@[simp] theorem files_setFile_self (s : ServerState ι) (path : Bytes) (contents : Option Bytes) :
    (s.setFile path contents).files path = contents := Function.update_self ..

/-- No other file is touched. -/
theorem files_setFile_of_ne (s : ServerState ι) {path path' : Bytes} (h : path' ≠ path)
    (contents : Option Bytes) : (s.setFile path contents).files path' = s.files path' :=
  Function.update_of_ne h ..

variable [DecidableEq ι]

/-- One handler moves on. -/
def ServerState.setHandler (s : ServerState ι) (i : ι) (handler : Handler) : ServerState ι :=
  { s with handlers := Function.update s.handlers i handler }

/-- A handler moves on without touching the files. -/
@[simp] theorem files_setHandler (s : ServerState ι) (i : ι) (handler : Handler) :
    (s.setHandler i handler).files = s.files := rfl

/-- The handler that moved on is in its new place. -/
@[simp] theorem handlers_setHandler_self (s : ServerState ι) (i : ι) (handler : Handler) :
    (s.setHandler i handler).handlers i = handler := Function.update_self ..

/-- The other handlers stay in theirs. -/
theorem handlers_setHandler_of_ne (s : ServerState ι) {i j : ι} (h : j ≠ i)
    (handler : Handler) : (s.setHandler i handler).handlers j = s.handlers j :=
  Function.update_of_ne h ..

/-- What the handlers of the calls do. -/
inductive ServerStep (mte : List Bytes → Except CliError (Bytes × Bytes)) (table : Char → Char)
    (tmpDir : Bytes) (calls : ι → NewCompositionCall) :
    ServerState ι → ServerAction ι → ServerState ι → Prop where
  -- os.Remove, which may find no file
  | remove {s : ServerState ι} {i : ι} (h : s.handlers i = .received) :
      ServerStep mte table tmpDir calls s (.remove i)
        ((s.setFile ((calls i).outputFile tmpDir) none).setHandler i .removed)
  -- exec of mte_cli, as one step that ends with the write of the file
  | generate {s : ServerState ι} {i : ι} {path smf : Bytes} (h : s.handlers i = .removed)
      (hmte : mte ((calls i).args table tmpDir) = .ok (path, smf)) :
      ServerStep mte table tmpDir calls s (.generate i)
        ((s.setFile path (some smf)).setHandler i .generated)
  | generateFails {s : ServerState ι} {i : ι} {err : CliError} (h : s.handlers i = .removed)
      (hmte : mte ((calls i).args table tmpDir) = .error err) :
      ServerStep mte table tmpDir calls s (.generate i)
        (s.setHandler i (.responded (.error (.mteCli err))))
  -- os.ReadFile of whatever the path holds now
  | read {s : ServerState ι} {i : ι} {smf : Bytes} (h : s.handlers i = .generated)
      (hfile : s.files ((calls i).outputFile tmpDir) = some smf) :
      ServerStep mte table tmpDir calls s (.read i) (s.setHandler i (.responded (.ok smf)))
  | readFails {s : ServerState ι} {i : ι} (h : s.handlers i = .generated)
      (hfile : s.files ((calls i).outputFile tmpDir) = none) :
      ServerStep mte table tmpDir calls s (.read i)
        (s.setHandler i (.responded (.error .readSmf)))

/-- The server with the handlers of all calls. -/
def compositionServer (mte : List Bytes → Except CliError (Bytes × Bytes))
    (table : Char → Char) (tmpDir : Bytes) (calls : ι → NewCompositionCall) :
    System (ServerState ι) (ServerAction ι) where
  init s := ∀ i, s.handlers i = .received
  step := ServerStep mte table tmpDir calls

end

end AiMidi.Ace
