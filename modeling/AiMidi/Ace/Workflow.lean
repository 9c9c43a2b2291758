import AiMidi.Lib.Decimal
import AiMidi.Lib.Filepath

/-!
# `AiMidi.Ace.Workflow`: the composition workflows and the arguments they pass on

Four workflows of the `WorkflowManager` compose by calling `runMTE`. Each first checks its
request (`validate`, with the text of the error it returns) and then hands `runMTE` its extra
arguments and a seed, once or, in `GenerateVariations`, once for each variation
(`mteCalls`). `runMTEArgs` is the argument vector of the subprocess: the seed and the output
file, then the extra arguments.

A Go string is its bytes, `int64` and `int` are `Int64`. The random number in the name of the
output file is a parameter.
-/

set_option autoImplicit false

namespace AiMidi.Ace

open AiMidi.Lib

/-- `fmt.Sprintf("%d", n)`. -/
def sprintD (n : Int64) : Bytes := formatInt n.toInt

/-- `fmt.Sprintf("%x", n)`. -/
def sprintX (n : UInt64) : Bytes := (Nat.toDigits 16 n.toNat).map fun c => c.toNat.toUInt8

/-- The arguments of one call of `runMTE`. -/
structure MteCall where
  extraArgs : List Bytes
  seed : Int64
  deriving DecidableEq, Repr

/-- The output file of a call. -/
def outputFile (tmpDir : Bytes) (random : UInt64) (seed : Int64) : Bytes :=
  Filepath.join [tmpDir, bytes "out_" ++ sprintD seed ++ bytes "_" ++ sprintX random
    ++ bytes ".mid"]

/-- The argument vector of the `mte_cli` subprocess. -/
def runMTEArgs (tmpDir : Bytes) (random : UInt64) (call : MteCall) : List Bytes :=
  [bytes "--seed", sprintD call.seed, bytes "--output", outputFile tmpDir random call.seed]
    ++ call.extraArgs

/-! ### W2: instrument composer -/

/-- W2 input. -/
structure InstrumentComposerRequest where
  blueprintJSON : Bytes
  seed : Int64
  instrument : Bytes

/-- The instrument must be named. The blueprint is not looked at. -/
def InstrumentComposerRequest.validate (req : InstrumentComposerRequest) : Except Bytes Unit :=
  if req.instrument = [] then .error (bytes "instrument must not be empty") else .ok ()

/-- One call, for the one instrument. -/
def InstrumentComposerRequest.mteCalls (req : InstrumentComposerRequest) : List MteCall :=
  [⟨[bytes "--blueprint-json", req.blueprintJSON, bytes "--instrument", req.instrument],
    req.seed⟩]

/-! ### W5: smart regeneration -/

/-- A locked musical region. -/
structure Lock where
  type : Bytes
  barStart : Int64
  barEnd : Int64
  instrument : Bytes

/-- W5 input. -/
structure SmartRegenerationRequest where
  blueprintJSON : Bytes
  seed : Int64
  regionStart : Int64
  regionEnd : Int64
  locks : List Lock
  smfPath : Bytes

/-- The existing file must be named, and the region must have at least one bar. -/
def SmartRegenerationRequest.validate (req : SmartRegenerationRequest) : Except Bytes Unit :=
  if req.smfPath = [] then .error (bytes "existing SMF path must not be empty")
  else if req.regionEnd ≤ req.regionStart then
    .error (bytes "region_end (" ++ sprintD req.regionEnd ++ bytes ") must be > region_start ("
      ++ sprintD req.regionStart ++ bytes ")")
  else .ok ()

/-- The options of a lock: only an instrument lock is passed on. -/
def Lock.args (l : Lock) : List Bytes :=
  -- No option carries the bars of a lock.
  if l.type = bytes "instrument" ∧ l.instrument ≠ [] then
    [bytes "--lock-instrument", l.instrument]
  else []

/-- One call, with the bounds of the region and the arguments of every lock. -/
def SmartRegenerationRequest.mteCalls (req : SmartRegenerationRequest) : List MteCall :=
  [⟨[bytes "--blueprint-json", req.blueprintJSON,
      bytes "--region-start", sprintD req.regionStart,
      bytes "--region-end", sprintD req.regionEnd] ++ req.locks.flatMap Lock.args,
    req.seed⟩]

/-! ### W6: generate variations -/

/-- W6 input. -/
structure GenerateVariationsRequest where
  blueprintJSON : Bytes
  baseSeed : Int64
  variationCount : Int64
  deltaPerVariation : Int64

/-- At least one variation must be asked for. -/
def GenerateVariationsRequest.validate (req : GenerateVariationsRequest) : Except Bytes Unit :=
  if req.variationCount ≤ 0 then
    .error (bytes "variation_count must be > 0, got " ++ sprintD req.variationCount)
  else .ok ()

/-- The step between two seeds, 1 when none was given. -/
def GenerateVariationsRequest.delta (req : GenerateVariationsRequest) : Int64 :=
  if req.deltaPerVariation = 0 then 1 else req.deltaPerVariation

/-- A call for each variation. The seeds are `delta` apart. -/
def GenerateVariationsRequest.mteCalls (req : GenerateVariationsRequest) : List MteCall :=
  (List.range req.variationCount.toInt.toNat).map fun i =>
    -- Seeds of variations wrap in 64 bits.
    ⟨[bytes "--blueprint-json", req.blueprintJSON], req.baseSeed + Int64.ofNat i * req.delta⟩

/-! ### W10: arrange -/

/-- W10 input. -/
structure ArrangeRequest where
  blueprintJSON : Bytes
  seed : Int64
  style : Bytes

/-- There must be a blueprint. -/
def ArrangeRequest.validate (req : ArrangeRequest) : Except Bytes Unit :=
  if req.blueprintJSON = [] then .error (bytes "blueprint_json must not be empty") else .ok ()

/-- The target style, `pop` when none was given. -/
def ArrangeRequest.targetStyle (req : ArrangeRequest) : Bytes :=
  if req.style = [] then bytes "pop" else req.style

/-- One call, with the target style. -/
def ArrangeRequest.mteCalls (req : ArrangeRequest) : List MteCall :=
  [⟨[bytes "--blueprint-json", req.blueprintJSON, bytes "--arrange", req.targetStyle],
    req.seed⟩]

/-! ### Any of the four -/

/-- A request for one of the workflows that call `runMTE`. -/
inductive WorkflowRequest where
  | instrumentComposer (req : InstrumentComposerRequest)
  | smartRegeneration (req : SmartRegenerationRequest)
  | generateVariations (req : GenerateVariationsRequest)
  | arrange (req : ArrangeRequest)

/-- The check of a workflow is that of its request. -/
def WorkflowRequest.validate : WorkflowRequest → Except Bytes Unit
  | .instrumentComposer req => req.validate
  | .smartRegeneration req  => req.validate
  | .generateVariations req => req.validate
  | .arrange req            => req.validate

/-- The calls of a workflow, in the order in which it makes them. -/
def WorkflowRequest.mteCalls : WorkflowRequest → List MteCall
  | .instrumentComposer req => req.mteCalls
  | .smartRegeneration req  => req.mteCalls
  | .generateVariations req => req.mteCalls
  | .arrange req            => req.mteCalls

end AiMidi.Ace
