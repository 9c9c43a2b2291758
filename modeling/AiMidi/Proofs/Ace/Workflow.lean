import AiMidi.Ace.Workflow
import AiMidi.Tools.MteArgs

/-!
# `AiMidi.Proofs.Ace.Workflow`: the workflows against the command line of `mte_cli`

The fixed part of a call goes through: `parseFlags_runMTEArgs` shows that `mte_cli` recovers
the 64-bit pattern of every seed, negative ones included, and the output path. The extra
arguments do not. Every workflow begins them with `--blueprint-json`, an option that the
parser does not know, so `mte_cli` refuses every call of every valid request
(`mteCalls_refused`).
-/

set_option autoImplicit false

namespace AiMidi.Proofs.Ace

open AiMidi.Lib AiMidi.Tools AiMidi.Ace

/-! ### The fixed part

The seed is printed as a signed number, and `strtoull` wraps a negative one. The bit pattern is the
same behind both conversions. -/

/-- Conversion to unsigned keeps the bit pattern. -/
theorem u64cast_toInt (n : Int64) : u64cast n.toInt = n.toUInt64 := by
  have hbits : (u64cast n.toInt).toBitVec = BitVec.ofInt 64 n.toInt := by
    refine BitVec.eq_of_toNat_eq ?_
    rw [BitVec.toNat_ofInt, UInt64.toNat_toBitVec, u64cast, UInt64.ofInt,
      UInt64.toNat_ofNat_of_lt' (by rw [UInt64.size]; omega)]
    rfl
  rw [← UInt64.toBitVec_inj, hbits, BitVec.ofInt_int64ToInt, Int64.toBitVec_toUInt64]

/-- `strtoull` reads a printed seed to its end and recovers its bit pattern. -/
theorem strtoull_sprintD (n : Int64) : strtoull (sprintD n) = (n.toUInt64, []) := by
  have hlo := n.le_toInt
  have hhi := n.toInt_lt
  rw [sprintD, strtoull_formatInt (by omega), u64cast_toInt]

/-- The parser takes the seed and the output path, whatever follows. -/
theorem parseFlags_runMTEArgs (tmpDir : Bytes) (random : UInt64) (call : MteCall) :
    parseFlags (runMTEArgs tmpDir random call) {}
      = parseFlags call.extraArgs
          { seed := call.seed.toUInt64, output := outputFile tmpDir random call.seed } := by
  have hseed : setOption (bytes "--seed") (sprintD call.seed) {}
      = some { seed := call.seed.toUInt64 } := by
    rw [setOption_seed (by rw [strtoull_sprintD]), strtoull_sprintD]
  rw [runMTEArgs, List.cons_append, List.cons_append,
    parseFlags_option (by decide) hseed, List.cons_append, List.cons_append,
    parseFlags_option (by decide) setOption_output, List.nil_append]

/-! ### The extra arguments

The parser goes through the options from the front and stops at the first one that it does not know.
That is the option with which all calls of all workflows begin. -/

/-- `mte_cli` accepts a call: the parser returns true, with the seed and the output path that
were passed. -/
def Accepted (tmpDir : Bytes) (random : UInt64) (call : MteCall) : Prop :=
  ∃ args, parseArgs (runMTEArgs tmpDir random call) = some args ∧
    args.seed = call.seed.toUInt64 ∧ args.output = outputFile tmpDir random call.seed

/-- Every call of every workflow passes a blueprint. -/
theorem blueprintJson_of_mem_mteCalls {req : WorkflowRequest} {call : MteCall}
    (h : call ∈ req.mteCalls) :
    ∃ json rest, call.extraArgs = bytes "--blueprint-json" :: json :: rest := by
  cases req with
  | instrumentComposer req =>
    obtain rfl := List.mem_singleton.mp h
    exact ⟨_, _, rfl⟩
  | smartRegeneration req =>
    obtain rfl := List.mem_singleton.mp h
    exact ⟨_, _, rfl⟩
  | generateVariations req =>
    obtain ⟨i, -, rfl⟩ := List.mem_map.mp h
    exact ⟨_, _, rfl⟩
  | arrange req =>
    obtain rfl := List.mem_singleton.mp h
    exact ⟨_, _, rfl⟩

/-- The parser stops at the blueprint. -/
theorem parseArgs_blueprintJson {tmpDir : Bytes} {random : UInt64} {call : MteCall}
    (h : ∃ json rest, call.extraArgs = bytes "--blueprint-json" :: json :: rest) :
    parseArgs (runMTEArgs tmpDir random call) = none := by
  obtain ⟨json, rest, hextra⟩ := h
  -- Seed and output path are taken. The next argument is an unknown option.
  have hflags : parseFlags (runMTEArgs tmpDir random call) {} = none := by
    rw [parseFlags_runMTEArgs, hextra]
    exact parseFlags_unknown (by decide) (by decide) _
  rw [parseArgs, hflags]

/-- A valid request makes at least one call. -/
theorem mteCalls_ne_nil {req : WorkflowRequest} (h : req.validate = .ok ()) :
    req.mteCalls ≠ [] := by
  cases req with
  | instrumentComposer req => exact List.cons_ne_nil _ _
  | smartRegeneration req => exact List.cons_ne_nil _ _
  | arrange req => exact List.cons_ne_nil _ _
  | generateVariations req =>
    -- Validation excludes a count that would make no call.
    have hpos : ¬ req.variationCount ≤ 0 := by
      intro hle
      rw [WorkflowRequest.validate, GenerateVariationsRequest.validate, if_pos hle] at h
      exact absurd h (by simp)
    rw [Int64.le_iff_toInt_le, Int64.toInt_zero] at hpos
    rw [WorkflowRequest.mteCalls, GenerateVariationsRequest.mteCalls, ne_eq, List.map_eq_nil_iff,
      List.range_eq_nil]
    omega

/-- `mte_cli` accepts no call of any valid request. -/
theorem mteCalls_refused {req : WorkflowRequest} (h : req.validate = .ok ()) :
    req.mteCalls ≠ [] ∧ ∀ call ∈ req.mteCalls, ∀ tmpDir random,
      ¬ Accepted tmpDir random call := by
  refine ⟨mteCalls_ne_nil h, fun call hcall tmpDir random ⟨args, hargs, _⟩ => ?_⟩
  rw [parseArgs_blueprintJson (blueprintJson_of_mem_mteCalls hcall)] at hargs
  exact absurd hargs (by simp)

/-- A request for the piano part of a blueprint. -/
def pianoRequest : WorkflowRequest :=
  .instrumentComposer ⟨bytes "\x7b\x7d", -1, bytes "piano"⟩

/-- The call for the piano is refused, whatever directory and number the name of its file is made
of. -/
theorem mteCalls_refused_piano :
    pianoRequest.mteCalls ≠ [] ∧ ∀ call ∈ pianoRequest.mteCalls, ∀ tmpDir random,
      ¬ Accepted tmpDir random call :=
  mteCalls_refused (show pianoRequest.validate = .ok () from rfl)

/-- A valid request, and the call it makes is refused. -/
theorem pianoRequest_refused :
    pianoRequest.validate = .ok () ∧ ∃ call ∈ pianoRequest.mteCalls,
      ¬ Accepted (bytes "/tmp") 0 call := by
  refine ⟨rfl, _, List.mem_cons_self, fun ⟨args, hargs, _⟩ => ?_⟩
  rw [parseArgs_blueprintJson ⟨_, _, rfl⟩] at hargs
  exact absurd hargs (by simp)

end AiMidi.Proofs.Ace
