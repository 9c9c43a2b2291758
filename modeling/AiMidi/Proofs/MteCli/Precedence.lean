import AiMidi.Proofs.RequestedLength
import AiMidi.Tools.MteCli

/-!
# `AiMidi.Proofs.MteCli.Precedence`: options against the prompt

`main` takes an option for given when its value differs from the default. So a given tempo or
number of bars is used unless it repeats the default and the prompt leads to another one:
`resolve_iff` says for every accepted argument vector when the last value given with `--bpm`, and
with `--bars`, is used.

The parser is a loop over the arguments, and in a field it leaves the last value of the option that
stores it (`NumberOption.parseFlags`). Of what the prompt leads to only two facts matter, which
`prompt_cases` reads off its text: whether the tempo is 120 and whether the bars are four. The test
of `main` is the same for both numbers (`override_iff`).
-/

set_option autoImplicit false

namespace AiMidi.Proofs.MteCli

open AiMidi.Lib AiMidi.Theory AiMidi.Tools
open AiMidi.Theory.PromptInterpreter AiMidi.Theory.BlueprintGenerator
open AiMidi.Proofs.PromptPipeline AiMidi.Proofs.RequestedLength

/-! ### The command line

An option that is given twice is stored twice, and the second value replaces the first. Options for
other fields leave it alone. -/

/-- The last value that is given with an option. -/
def lastValue (flag : Bytes) : List Bytes → Option Bytes
  | [] => none
  | f :: rest =>
    if valueFlags.contains f then
      match rest with
      | []        => none
      | v :: rest => (lastValue flag rest).or (if f = flag then some v else none)
    else lastValue flag rest

/-- An option with a number: a field that one flag stores and no other flag changes. -/
structure NumberOption (flag : Bytes) (field : Args → Int) : Prop where
  option : ∀ {f v args args'}, setOption f v args = some args' →
    field args' = if f = flag then atoi v else field args
  verbose : ∀ args, field { args with verbose := true } = field args

/-- What an accepted option stores. -/
theorem setOption_cases {f v : Bytes} {args args' : Args} (h : setOption f v args = some args') :
    (f = bytes "--bpm" ∧ 0 < atoi v ∧ args' = { args with bpm := atoi v }) ∨
    (f = bytes "--bars" ∧ 0 < atoi v ∧ args' = { args with bars := atoi v }) ∨
    (f ≠ bytes "--bpm" ∧ f ≠ bytes "--bars" ∧ args'.bpm = args.bpm ∧ args'.bars = args.bars) := by
  by_cases hbpm : f = bytes "--bpm"
  · subst hbpm
    by_cases hpos : atoi v ≤ 0
    · rw [show setOption (bytes "--bpm") v args = none from if_pos hpos] at h
      exact absurd h (by simp)
    · rw [setOption_bpm (Int.not_le.mp hpos)] at h
      exact .inl ⟨rfl, Int.not_le.mp hpos, (Option.some.inj h).symm⟩
  · by_cases hbars : f = bytes "--bars"
    · subst hbars
      by_cases hpos : atoi v ≤ 0
      · rw [show setOption (bytes "--bars") v args = none from if_pos hpos] at h
        exact absurd h (by simp)
      · rw [setOption_bars (Int.not_le.mp hpos)] at h
        exact .inr (.inl ⟨rfl, Int.not_le.mp hpos, (Option.some.inj h).symm⟩)
    · refine .inr (.inr ⟨hbpm, hbars, ?_⟩)
      -- Every other option stores another field.
      have hkept : ∀ a : Args, some a = some args' → a.bpm = args.bpm → a.bars = args.bars →
          args'.bpm = args.bpm ∧ args'.bars = args.bars := by
        intro a ha hb hn
        obtain rfl := Option.some.inj ha
        exact ⟨hb, hn⟩
      unfold setOption at h
      rw [if_neg hbpm, if_neg hbars] at h
      dsimp only at h
      split at h
      · split at h
        · exact absurd h (by simp)
        · exact hkept _ h rfl rfl
      · split at h
        · exact hkept _ h rfl rfl
        · split at h
          · exact hkept _ h rfl rfl
          · split at h
            · exact hkept _ h rfl rfl
            · split at h
              · exact hkept _ h rfl rfl
              · exact absurd h (by simp)

/-- `--bpm` is an option with a number. -/
theorem numberOption_bpm : NumberOption (bytes "--bpm") Args.bpm where
  option h := by
    rcases setOption_cases h with ⟨rfl, -, rfl⟩ | ⟨rfl, -, rfl⟩ | ⟨hbpm, -, hkept, -⟩
    · rfl
    · rfl
    · rwa [if_neg hbpm]
  verbose _ := rfl

/-- `--bars` is an option with a number. -/
theorem numberOption_bars : NumberOption (bytes "--bars") Args.bars where
  option h := by
    rcases setOption_cases h with ⟨rfl, -, rfl⟩ | ⟨rfl, -, rfl⟩ | ⟨-, hbars, -, hkept⟩
    · rfl
    · rfl
    · rwa [if_neg hbars]
  verbose _ := rfl

/-- An option with its value: the later one of the same name counts. -/
theorem lastValue_option {flag f : Bytes} (hf : valueFlags.contains f = true) (v : Bytes)
    (rest : List Bytes) : lastValue flag (f :: v :: rest) =
      (lastValue flag rest).or (if f = flag then some v else none) := by
  rw [lastValue, if_pos hf]

/-- Any other argument is passed over. -/
theorem lastValue_other {flag f : Bytes} (hf : ¬ valueFlags.contains f = true)
    (rest : List Bytes) : lastValue flag (f :: rest) = lastValue flag rest := by
  cases rest with
  | nil => simp only [lastValue, if_neg hf]
  | cons v rest => simp only [lastValue, if_neg hf]

/-- The loop leaves the last value in the field. -/
theorem NumberOption.parseFlags {flag : Bytes} {field : Args → Int} (hopt : NumberOption flag field)
    {argv : List Bytes} {args args' : Args} (h : parseFlags argv args = some args') :
    field args' = ((lastValue flag argv).map atoi).getD (field args) := by
  fun_induction AiMidi.Tools.parseFlags argv args with
  | case1 args =>
    obtain rfl := Option.some.inj h
    rfl
  | case2 => exact absurd h (by simp)
  | case3 => exact absurd h (by simp)
  | case4 f args hf v rest args'' hset ih =>
    rw [lastValue_option hf, ih h, hopt.option hset]
    -- A value further right wins over this one.
    cases lastValue flag rest with
    | none => by_cases hflag : f = flag <;> simp [hflag]
    | some w => rfl
  | case5 rest args hf ih => rw [lastValue_other hf, ih h, hopt.verbose]
  | case6 => exact absurd h (by simp)

/-! ### The prompt

The prompt sets the tempo and the sections of the piece. What matters of these is whether they come
to the defaults of the command line. -/

/-- The generator accepts what the interpreter reads in the prompt. -/
structure ComposedPrompt (prompt : Bytes) : Prop where
  not_literal : ¬ hasLiteralNotes (toLowerBytes prompt) = true
  not_slow : ¬ SlowTempo (toLowerBytes prompt)
  not_eSharp : ¬ ReadsESharp (toLowerBytes prompt)

/-- The prompt is composed at another tempo than 120. -/
def OtherTempo (prompt : Bytes) : Prop :=
  ComposedPrompt prompt ∧
    ∃ n, FirstAt (bytes "bpm") tempoAt (toLowerBytes prompt) n ∧ n ≠ 120

/-- The prompt is composed with sections that fill four bars. -/
def FourBars (prompt : Bytes) : Prop :=
  ComposedPrompt prompt ∧ totalOf (detectEnergy (toLowerBytes prompt))
    (buildSections (toLowerBytes prompt) (detectEnergy (toLowerBytes prompt))) = 4

/-- A prompt without literal notes is composed exactly when its blueprint is valid. -/
theorem composedPrompt_iff {prompt : Bytes} (seed : Seed)
    (h : ¬ hasLiteralNotes (toLowerBytes prompt) = true) :
    ComposedPrompt prompt ↔ isValid (fillDefaults (interpret prompt seed)) = true := by
  rw [isValid_interpret_iff h, detectKeyAndScale_valid_iff, le_detectBpm_iff]
  exact ⟨fun hc => ⟨hc.not_eSharp, hc.not_slow⟩, fun ⟨hkey, hslow⟩ => ⟨h, hslow, hkey⟩⟩

/-- Without a tempo next to `bpm` the interpreter takes 120. -/
theorem detectBpm_eq_iff {lower : Bytes} :
    detectBpm lower = 120 ↔ ¬ ∃ n, FirstAt (bytes "bpm") tempoAt lower n ∧ n ≠ 120 := by
  rw [detectBpm]
  cases hscan : scan (bytes "bpm") tempoAt 0 [] lower with
  | none =>
    -- Nothing is found, so there is no tempo other than the default.
    refine iff_of_true rfl ?_
    rintro ⟨n, hn, -⟩
    rw [scan_bpm.mpr hn] at hscan
    exact absurd hscan (by simp)
  | some n =>
    constructor
    · rintro h120 ⟨m, hm, hne⟩
      rw [scan_bpm.mpr hm] at hscan
      exact hne (Option.some.inj hscan ▸ h120)
    · intro hnone
      by_contra hne
      exact hnone ⟨n, scan_bpm.mp hscan, hne⟩

/-- What a prompt leads to: a rejected one is composed with the defaults, and one that the
generator does not accept has no sections. -/
theorem prompt_cases (prompt : Bytes) (seed : Seed) :
    ((generate (interpret prompt seed)).bpm = 120 ↔ ¬ OtherTempo prompt) ∧
      ((TimelinePlanner.plan (generate (interpret prompt seed))).totalBars = 4 ↔
        FourBars prompt) := by
  -- A prompt with literal notes is rejected and gets the default composition.
  by_cases hliteral : hasLiteralNotes (toLowerBytes prompt) = true
  · obtain ⟨seed', hreject⟩ := interpret_rejected hliteral seed
    rw [hreject, plan_default, (generate_default seed').2.2.2.2]
    exact ⟨iff_of_true rfl fun h => h.1.not_literal hliteral,
      iff_of_false (by decide) fun h => h.1.not_literal hliteral⟩
  -- Any other prompt is composed when it passes the validator, and otherwise it is rejected too.
  · by_cases haccepted : isValid (fillDefaults (interpret prompt seed)) = true
    · have hcomposed := (composedPrompt_iff seed hliteral).mpr haccepted
      have hbpm : (generate (interpret prompt seed)).bpm = detectBpm (toLowerBytes prompt) := by
        rw [generate, if_pos haccepted]
        show (interpret prompt seed).bpm = _
        rw [interpret, if_neg hliteral]
      rw [hbpm, totalBars_composed hliteral haccepted, detectBpm_eq_iff]
      exact ⟨not_congr (and_iff_right hcomposed).symm, (and_iff_right hcomposed).symm⟩
    · have hnot : ¬ ComposedPrompt prompt := fun h =>
        haccepted ((composedPrompt_iff seed hliteral).mp h)
      have hempty : generate (interpret prompt seed) = {} := by rw [generate, if_neg haccepted]
      rw [hempty]
      exact ⟨iff_of_true rfl fun h => hnot h.1, iff_of_false (by decide) fun h => hnot h.1⟩

/-! ### The override

A value that repeats the default cannot be told from one that was not given. In that case the prompt
decides, and it may lead to the same value. -/

/-- The fields behind an accepted argument vector. -/
theorem fields_of_parseArgs {argv : List Bytes} {args : Args} (h : parseArgs argv = some args) :
    parseFlags argv {} = some args := by
  unfold parseArgs at h
  split at h
  · exact absurd h (by simp)
  · rename_i args' hflags
    split at h
    · exact absurd h (by simp)
    · split at h
      · exact absurd h (by simp)
      · rwa [← Option.some.inj h]

/-- The tempo and the number of bars stay positive. -/
theorem numbers_pos_of_parseFlags {argv : List Bytes} {args args' : Args}
    (hpos : 0 < args.bpm ∧ 0 < args.bars) (h : parseFlags argv args = some args') :
    0 < args'.bpm ∧ 0 < args'.bars := by
  fun_induction parseFlags argv args with
  | case1 args =>
    obtain rfl := Option.some.inj h
    exact hpos
  | case2 => exact absurd h (by simp)
  | case3 => exact absurd h (by simp)
  | case4 args flag hflag v rest args'' hset ih =>
    apply ih _ h
    -- The option was one of the two numbers, or it left both as they were.
    obtain ⟨-, hbpm, rfl⟩ | ⟨-, hbars, rfl⟩ | ⟨-, -, hbpm, hbars⟩ := setOption_cases hset
    · exact ⟨hbpm, hpos.2⟩
    · exact ⟨hpos.1, hbars⟩
    · rwa [hbpm, hbars]
  | case5 rest args hflag ih => exact ih hpos h
  | case6 => exact absurd h (by simp)

/-- Both numbers are positive in an accepted command line. -/
theorem numbers_pos_of_parseArgs {argv : List Bytes} {args : Args}
    (h : parseArgs argv = some args) : 0 < args.bpm ∧ 0 < args.bars :=
  numbers_pos_of_parseFlags
    (show 0 < ({} : Args).bpm ∧ 0 < ({} : Args).bars by decide) (fields_of_parseArgs h)

/-- A value that differs from the default overrides the prompt. -/
theorem override_iff {n fallback prompted : Int} :
    (if n ≠ fallback then n else prompted) = n ↔ n ≠ fallback ∨ prompted = fallback := by
  by_cases h : n = fallback
  · rw [if_neg (not_not.mpr h), h]
    simp
  · rw [if_pos h]
    simp [h]

/-- When a given tempo and a given number of bars are used: with a prompt, when they differ from
the defaults 120 and 4 or the prompt leads to the default as well. -/
theorem resolve_iff {argv : List Bytes} {args : Args} (h : parseArgs argv = some args) :
    (∀ v, lastValue (bytes "--bpm") argv = some v → ((resolve args).bpm = atoi v ↔
      args.prompt = [] ∨ atoi v ≠ 120 ∨ ¬ OtherTempo args.prompt)) ∧
    (∀ v, lastValue (bytes "--bars") argv = some v → ((resolve args).bars = atoi v ↔
      args.prompt = [] ∨ atoi v ≠ 4 ∨ FourBars args.prompt)) := by
  have hflags := fields_of_parseArgs h
  obtain ⟨htempo, hlength⟩ := prompt_cases args.prompt args.seed
  refine ⟨fun v hv => ?_, fun v hv => ?_⟩
  -- The last value on the command line is the one in the record.
  · have hbpm : args.bpm = atoi v := by
      have hfield := numberOption_bpm.parseFlags hflags
      rwa [hv] at hfield
    rw [← hbpm, ← htempo, resolve]
    split
    case isTrue hprompt => rw [or_iff_right hprompt]; exact override_iff
    case isFalse hprompt => exact iff_of_true rfl (.inl (not_not.mp hprompt))
  · have hbars : args.bars = atoi v := by
      have hfield := numberOption_bars.parseFlags hflags
      rwa [hv] at hfield
    rw [← hbars, ← hlength, resolve]
    split
    case isTrue hprompt => rw [or_iff_right hprompt]; exact override_iff
    case isFalse hprompt => exact iff_of_true rfl (.inl (not_not.mp hprompt))

/-- A prompt with a tempo of its own, and a tempo on the command line. -/
def bothTempos (bpm : Bytes) : List Bytes :=
  [bytes "--prompt", bytes "pop at 90 bpm", bytes "--bpm", bpm, bytes "--output", bytes "a.mid"]

/-- The option and the prompt with a tempo each. -/
theorem resolve_iff_both :
    (∀ v, lastValue (bytes "--bpm") (bothTempos (bytes "100")) = some v →
      ((resolve { bpm := 100, output := bytes "a.mid", prompt := bytes "pop at 90 bpm" }).bpm =
        atoi v ↔
          bytes "pop at 90 bpm" = [] ∨ atoi v ≠ 120 ∨ ¬ OtherTempo (bytes "pop at 90 bpm"))) ∧
    (∀ v, lastValue (bytes "--bars") (bothTempos (bytes "100")) = some v →
      ((resolve { bpm := 100, output := bytes "a.mid", prompt := bytes "pop at 90 bpm" }).bars =
        atoi v ↔ bytes "pop at 90 bpm" = [] ∨ atoi v ≠ 4 ∨ FourBars (bytes "pop at 90 bpm"))) :=
  resolve_iff (show parseArgs (bothTempos (bytes "100")) =
    some { bpm := 100, output := bytes "a.mid", prompt := bytes "pop at 90 bpm" } by decide)

/-- The tempo 120 is given, and the piece is played at 90. -/
theorem not_precedence :
    ¬ ∀ (argv : List Bytes) (args : Args) (v : Bytes), parseArgs argv = some args →
      lastValue (bytes "--bpm") argv = some v → (resolve args).bpm = atoi v := by
  intro hall
  have hbpm := hall (bothTempos (bytes "120"))
    { output := bytes "a.mid", prompt := bytes "pop at 90 bpm" } (bytes "120") (by decide)
    (by decide)
  exact absurd hbpm (by decide)

end AiMidi.Proofs.MteCli
