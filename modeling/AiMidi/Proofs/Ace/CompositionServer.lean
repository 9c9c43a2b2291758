import AiMidi.Ace.CompositionServer
import AiMidi.Proofs.Ace.Composition
import AiMidi.Proofs.MteCli.SameFile

/-!
# `AiMidi.Proofs.Ace.CompositionServer`: when concurrent requests interfere

The name of an output file is the seed, so handlers of requests with one effective seed share
it. A handler that reads after the other one has written returns the file of the other one
(`exists_foreignResponse`). It does no harm exactly when both files are the same.

`ownResponses_iff` puts this in terms of the requests. In every run every successful response
carries the file of its own request, iff any two accepted requests of one seed agree in tempo,
length, key signature and mode. The invariant (`ServerInv`) says that behind its first step a
handler finds at its path nothing or the file of some request with this path.

The converse is a run: two calls are interleaved so that the second one writes between the write and
the read of the first (`exists_foreignResponse`). Whether that does harm is a question about the
bytes of two files, and `smfOf_eq_iff` answers it by the parameters that a file shows.
-/

set_option autoImplicit false

namespace AiMidi.Proofs.Ace

open AiMidi.Lib AiMidi.Tools AiMidi.Ace AiMidi.Theory
open AiMidi.Proofs.MidiRenderer AiMidi.Proofs.MteCli

/-- The subprocess writes the contents to the output file of the call. -/
def Generates (mte : List Bytes → Except CliError (Bytes × Bytes)) (table : Char → Char)
    (tmpDir : Bytes) (call : NewCompositionCall) (smf : Bytes) : Prop :=
  mte (call.args table tmpDir) = .ok (call.outputFile tmpDir, smf)

/-! ### Runs of the server

A handler works on one path. What it finds there can come from another handler with the same path,
and from nobody else, since every write goes to the path of its own call. -/

section

variable {ι : Type} [DecidableEq ι] {mte : List Bytes → Except CliError (Bytes × Bytes)}
  {table : Char → Char} {tmpDir : Bytes} {calls : ι → NewCompositionCall}

/-- The contents are those that some call with this output file generates. -/
def FileOfSome (mte : List Bytes → Except CliError (Bytes × Bytes)) (table : Char → Char)
    (tmpDir : Bytes) (calls : ι → NewCompositionCall) (path smf : Bytes) : Prop :=
  ∃ j, (calls j).outputFile tmpDir = path ∧ Generates mte table tmpDir (calls j) smf

/-- Behind its first step a handler finds at its path nothing or the file of some call with
this path. Behind its second step its own generation has succeeded, and a successful response
carries what the handler found. -/
structure ServerInv (mte : List Bytes → Except CliError (Bytes × Bytes)) (table : Char → Char)
    (tmpDir : Bytes) (calls : ι → NewCompositionCall) (s : ServerState ι) : Prop where
  files : ∀ i, s.handlers i ≠ .received → ∀ smf, s.files ((calls i).outputFile tmpDir) = some smf →
    FileOfSome mte table tmpDir calls ((calls i).outputFile tmpDir) smf
  generated : ∀ i, s.handlers i = .generated → ∃ smf, Generates mte table tmpDir (calls i) smf
  responded : ∀ i smf, s.handlers i = .responded (.ok smf) →
    (∃ own, Generates mte table tmpDir (calls i) own) ∧
      FileOfSome mte table tmpDir calls ((calls i).outputFile tmpDir) smf

/-- One handler moves on, and the files change in a way that its path and the paths of the
handlers behind their first step allow. -/
theorem ServerInv.step {s s' : ServerState ι} (h : ServerInv mte table tmpDir calls s)
    (hhandlers : s'.handlers = s.handlers) {i : ι} {handler : Handler}
    (hfiles : ∀ k, k = i ∨ s.handlers k ≠ .received → ∀ smf,
      s'.files ((calls k).outputFile tmpDir) = some smf →
        FileOfSome mte table tmpDir calls ((calls k).outputFile tmpDir) smf)
    (hgenerated : handler = .generated → ∃ smf, Generates mte table tmpDir (calls i) smf)
    (hresponded : ∀ smf, handler = .responded (.ok smf) →
      (∃ own, Generates mte table tmpDir (calls i) own) ∧
        FileOfSome mte table tmpDir calls ((calls i).outputFile tmpDir) smf) :
    ServerInv mte table tmpDir calls (s'.setHandler i handler) where
  files k hk smf hfile := by
    -- Only handler `i` moves. For the others, state and path are as before.
    by_cases hki : k = i
    · exact hfiles k (.inl hki) smf hfile
    · rw [handlers_setHandler_of_ne s' hki, hhandlers] at hk
      exact hfiles k (.inr hk) smf hfile
  generated k hk := by
    by_cases hki : k = i
    · subst hki
      exact hgenerated (by simpa using hk)
    · rw [handlers_setHandler_of_ne s' hki, hhandlers] at hk
      exact h.generated k hk
  responded k smf hk := by
    by_cases hki : k = i
    · subst hki
      exact hresponded smf (by simpa using hk)
    · rw [handlers_setHandler_of_ne s' hki, hhandlers] at hk
      exact h.responded k smf hk

/-- A handler removes its file or writes what it generates. -/
theorem ServerInv.write {s : ServerState ι} (h : ServerInv mte table tmpDir calls s) {i : ι}
    {contents : Option Bytes} {handler : Handler}
    (hcontents : ∀ smf, contents = some smf → Generates mte table tmpDir (calls i) smf)
    (hgenerated : handler = .generated → contents ≠ none)
    (hresponded : ∀ response, handler ≠ .responded response) :
    ServerInv mte table tmpDir calls
      ((s.setFile ((calls i).outputFile tmpDir) contents).setHandler i handler) := by
  refine h.step (handlers_setFile s _ _) (fun k hk smf hfile => ?_) (fun hhandler => ?_)
    fun smf hhandler => absurd hhandler (hresponded _)
  -- Handlers with the same path now find the new file. Other paths are untouched.
  · by_cases hpath : (calls k).outputFile tmpDir = (calls i).outputFile tmpDir
    · rw [hpath, files_setFile_self] at hfile
      exact ⟨i, hpath.symm, hcontents smf hfile⟩
    · rw [files_setFile_of_ne s hpath] at hfile
      obtain rfl | hk := hk
      · exact absurd rfl hpath
      · exact h.files k hk smf hfile
  · obtain ⟨smf, hsmf⟩ := Option.ne_none_iff_exists'.mp (hgenerated hhandler)
    exact ⟨smf, hcontents smf hsmf⟩

/-- A handler responds with an error or with what it found behind its own generation. -/
theorem ServerInv.respond {s : ServerState ι} (h : ServerInv mte table tmpDir calls s) {i : ι}
    (hi : s.handlers i ≠ .received) {response : CompositionResponse}
    (hresponse : ∀ smf, response = .ok smf → s.handlers i = .generated ∧
      s.files ((calls i).outputFile tmpDir) = some smf) :
    ServerInv mte table tmpDir calls (s.setHandler i (.responded response)) := by
  refine h.step rfl (fun k hk smf hfile => ?_) (fun hhandler => absurd hhandler (by simp))
    fun smf hhandler => ?_
  · obtain rfl | hk := hk
    · exact h.files k hi smf hfile
    · exact h.files k hk smf hfile
  · obtain ⟨hgenerated, hfile⟩ := hresponse smf (by simpa using hhandler)
    exact ⟨h.generated i hgenerated, h.files i hi smf hfile⟩

/-- Every run keeps the invariant, when the subprocess writes to the output file that it is
given. -/
theorem serverInv_run
    (hout : ∀ i path smf, mte ((calls i).args table tmpDir) = .ok (path, smf) →
      path = (calls i).outputFile tmpDir)
    {past : List (ServerAction ι × ServerState ι)} {s : ServerState ι}
    (hrun : System.Run (compositionServer mte table tmpDir calls) past s) :
    ServerInv mte table tmpDir calls s := by
  refine hrun.state_invariant (fun s hinit => ?_) fun s a s' hinv hstep => ?_
  · have hreceived : ∀ i, s.handlers i = .received := hinit
    exact ⟨fun i hi => absurd (hreceived i) hi, fun i hi => by simp [hreceived i] at hi,
      fun i smf hi => by simp [hreceived i] at hi⟩
  · cases hstep with
    -- A removed file satisfies the invariant, whatever stood there before the first step.
    | remove _ => exact hinv.write (by simp) (by simp) (by simp)
    | generate _ hmte =>
      obtain rfl := hout _ _ _ hmte
      exact hinv.write (fun smf hsmf => Option.some.inj hsmf ▸ hmte) (by simp) (by simp)
    | generateFails hi _ => exact hinv.respond (by simp [hi]) (by simp)
    | read hi hfile =>
      -- Nothing ties the file that is read to the handler that reads it.
      refine hinv.respond (by simp [hi]) fun smf hsmf => ⟨hi, ?_⟩
      rw [hfile, Except.ok.inj hsmf]
    | readFails hi _ => exact hinv.respond (by simp [hi]) (by simp)

/-- Two calls with one output file: the first one responds with the file of the second one. -/
theorem exists_foreignResponse {i j : ι} (hij : i ≠ j)
    (hpath : (calls i).outputFile tmpDir = (calls j).outputFile tmpDir) {own foreign : Bytes}
    (hown : Generates mte table tmpDir (calls i) own)
    (hforeign : Generates mte table tmpDir (calls j) foreign) :
    ∃ past s, System.Run (compositionServer mte table tmpDir calls) past s ∧
      s.handlers i = .responded (.ok foreign) := by
  have hji : j ≠ i := hij.symm
  have h0 : System.Run (compositionServer mte table tmpDir calls) []
      ⟨fun _ => none, fun _ => .received⟩ := .start fun _ => rfl
  -- Both remove the file, both generate, `j` after `i`, and then `i` reads.
  have h1 := h0.snoc (ServerStep.remove (i := i) rfl)
  have h2 := h1.snoc (ServerStep.remove (i := j) (by
    rw [handlers_setHandler_of_ne _ hji]
    rfl))
  have h3 := h2.snoc (ServerStep.generate (i := i) (by
    rw [handlers_setHandler_of_ne _ hij, handlers_setFile, handlers_setHandler_self]) hown)
  have h4 := h3.snoc (ServerStep.generate (i := j) (by
    rw [handlers_setHandler_of_ne _ hji, handlers_setFile, handlers_setHandler_self]) hforeign)
  have h5 := h4.snoc (ServerStep.read (i := i) (by
    rw [handlers_setHandler_of_ne _ hij, handlers_setFile, handlers_setHandler_self]) (by
    rw [files_setHandler, hpath, files_setFile_self]))
  exact ⟨_, _, h5, handlers_setHandler_self _ _ _⟩

end

/-! ### What `mte_cli` generates

The bytes that are generated depend on the parameters and the seed. Which parameters the file shows
is decided by its meta events: the tempo, the length and the key. -/

/-- Key and scale are those that `mte_cli` accepts. -/
def AcceptedParams (params : PromptParams) : Prop :=
  0 ≤ keyToRootPc params.key ∧ knows params.scale = true

/-- The parameters agree in what the file shows of them. -/
structure SameMusic (params params' : PromptParams) : Prop where
  bpm : params.bpm = params'.bpm
  bars : params.bars = params'.bars
  keySignature : keySharps params.key = keySharps params'.key
  mode : MinorMode params.scale ↔ MinorMode params'.scale

/-- The style hint changes neither tempo nor length. -/
theorem params_range (table : Char → Char) (req : NewCompositionRequest) :
    (40 ≤ (req.params table).bpm ∧ (req.params table).bpm ≤ 300) ∧
      1 ≤ (req.params table).bars ∧ (req.params table).bars ≤ 64 := by
  have h := And.intro (parsePrompt_bpm table req.prompt) (parsePrompt_bars table req.prompt)
  unfold NewCompositionRequest.params
  dsimp only
  split
  · exact h
  · exact h
  · exact h

section

variable {std : StdSort drumEventLt} {wire : StdSort wireEventLt} {table : Char → Char}
  {tmpDir : Bytes}

/-- What `mte_cli` writes for a call. -/
def smfOf (std : StdSort drumEventLt) (wire : StdSort wireEventLt) (table : Char → Char)
    (call : NewCompositionCall) : Bytes :=
  let params := call.req.params table
  render wire
    (compose std ⟨params.key, params.scale, params.bpm, params.bars, call.seed.toUInt64, none⟩).val

/-- A run with accepted parameters writes the output file. -/
theorem mteCli_of_accepted {call : NewCompositionCall}
    (h : AcceptedParams (call.req.params table)) :
    mteCli std wire (call.args table tmpDir)
      = .ok (call.outputFile tmpDir, smfOf std wire table call) := by
  obtain ⟨hkey, hscale⟩ := h
  obtain ⟨hbpm, hbars⟩ := params_range table call.req
  -- The tables have no empty name, so neither option is left out.
  have hkey' : (call.req.params table).key ≠ [] := fun h => by
    rw [h] at hkey
    exact absurd hkey (by decide)
  have hscale' : (call.req.params table).scale ≠ [] := fun h => by
    rw [h] at hscale
    exact absurd hscale (by decide)
  have hparse := parseArgs_newCompositionArgs tmpDir call.seed (call.req.params table) hkey'
    hscale' (by omega) (by omega)
  unfold mteCli composition NewCompositionCall.args
  simp only [hparse, resolve_of_no_prompt]
  rw [if_neg (by omega), if_neg (by simp [hscale])]
  rfl

/-- A run with other parameters writes nothing. -/
theorem mteCli_of_not_accepted {call : NewCompositionCall}
    (h : ¬ AcceptedParams (call.req.params table)) :
    ∃ err, mteCli std wire (call.args table tmpDir) = .error err := by
  obtain ⟨hbpm, hbars⟩ := params_range table call.req
  unfold mteCli composition NewCompositionCall.args
  -- Without a key or a scale the parser refuses, and otherwise the composition does.
  by_cases hempty : (call.req.params table).key = [] ∨ (call.req.params table).scale = []
  · have hparse := parseArgs_newCompositionArgs_none tmpDir call.seed (call.req.params table)
      hempty (by omega) (by omega)
    exact ⟨.usage, by simp only [hparse]⟩
  · obtain ⟨hkey, hscale⟩ := not_or.mp hempty
    have hparse := parseArgs_newCompositionArgs tmpDir call.seed (call.req.params table) hkey
      hscale (by omega) (by omega)
    simp only [hparse, resolve_of_no_prompt]
    by_cases hpc : keyToRootPc (call.req.params table).key < 0
    · exact ⟨_, by rw [if_pos hpc]; rfl⟩
    · have hknows : knows (call.req.params table).scale = false :=
        Bool.eq_false_iff.mpr fun hknows => h ⟨Int.not_lt.mp hpc, hknows⟩
      exact ⟨_, by rw [if_neg hpc, if_pos hknows]; rfl⟩

/-- Of a request a composition is generated exactly when its parameters are accepted, and then it is
theirs. -/
theorem generates_iff {call : NewCompositionCall} {smf : Bytes} :
    Generates (mteCli std wire) table tmpDir call smf ↔
      AcceptedParams (call.req.params table) ∧ smf = smfOf std wire table call := by
  by_cases h : AcceptedParams (call.req.params table)
  · rw [Generates, mteCli_of_accepted h]
    simp [h, eq_comm]
  · have herror : ∃ err, mteCli std wire (call.args table tmpDir) = .error err :=
      mteCli_of_not_accepted h
    obtain ⟨err, herr⟩ := herror
    rw [Generates, herr]
    simp [h]

/-- Calls of one seed generate one file exactly when they agree in what it shows. -/
theorem smfOf_eq_iff {call call' : NewCompositionCall} (hseed : call.seed = call'.seed) :
    smfOf std wire table call = smfOf std wire table call' ↔
      SameMusic (call.req.params table) (call'.req.params table) := by
  obtain ⟨hbpm, hbars⟩ := params_range table call.req
  obtain ⟨hbpm', hbars'⟩ := params_range table call'.req
  obtain ⟨n, hn⟩ := Int.eq_ofNat_of_zero_le (show 0 ≤ (call.req.params table).bars by omega)
  obtain ⟨n', hn'⟩ := Int.eq_ofNat_of_zero_le (show 0 ≤ (call'.req.params table).bars by omega)
  simp only [smfOf, hseed, hn, hn']
  rw [render_compose_eq_iff std wire _ hbpm hbpm' (by omega) (by omega)]
  constructor
  · rintro ⟨htempo, hlength, hkey, hmode⟩
    exact ⟨htempo, by rw [hn, hn', hlength], hkey, hmode⟩
  · rintro ⟨htempo, hlength, hkey, hmode⟩
    exact ⟨htempo, by omega, hkey, hmode⟩

/-- The output file determines the seed. -/
theorem outputFile_eq_iff {call call' : NewCompositionCall} :
    call.outputFile tmpDir = call'.outputFile tmpDir ↔ call.seed = call'.seed := by
  constructor
  · intro h
    -- The directory is the same, so the names agree, and the numeral in them is the seed.
    have hname := Filepath.join_injective (isFileName_outputName _) (isFileName_outputName _) h
    have hdigits := List.append_cancel_left (List.append_cancel_right hname)
    exact Int64.toInt_inj.mp (formatInt_injective hdigits)
  · intro h
    rw [NewCompositionCall.outputFile, NewCompositionCall.outputFile, h]

/-! ### The result

Each direction has one half above. Where two calls have different files a run mixes them up, and
where all files of a seed agree there is nothing to mix up. -/

variable {ι : Type} [DecidableEq ι]

/-- The calls do not get in each other's way: in every run, every successful response carries
the file that `mte_cli` generates for its own call. -/
def OwnResponses (std : StdSort drumEventLt) (wire : StdSort wireEventLt) (table : Char → Char)
    (tmpDir : Bytes) (calls : ι → NewCompositionCall) : Prop :=
  ∀ past s, System.Run (compositionServer (mteCli std wire) table tmpDir calls) past s →
    ∀ i smf, s.handlers i = .responded (.ok smf) →
      Generates (mteCli std wire) table tmpDir (calls i) smf

/-- Two accepted calls of one seed with different files: one of them responds with the file of
the other one in some run. -/
theorem not_ownResponses {calls : ι → NewCompositionCall} {i j : ι}
    (hi : AcceptedParams ((calls i).req.params table))
    (hj : AcceptedParams ((calls j).req.params table)) (hseed : (calls i).seed = (calls j).seed)
    (hne : smfOf std wire table (calls i) ≠ smfOf std wire table (calls j)) :
    ¬ OwnResponses std wire table tmpDir calls := by
  intro hown
  have hij : i ≠ j := fun heq => hne (heq ▸ rfl)
  obtain ⟨past, s, hrun, hresponse⟩ := exists_foreignResponse hij
    (outputFile_eq_iff.mpr hseed) (generates_iff.mpr ⟨hi, rfl⟩) (generates_iff.mpr ⟨hj, rfl⟩)
  exact hne (generates_iff.mp (hown past s hrun i _ hresponse)).2.symm

end

/-- Concurrent calls get their own files exactly when any two accepted calls of one seed agree
in tempo, length, key signature and mode. -/
theorem ownResponses_iff {ι : Type} [DecidableEq ι] (std : StdSort drumEventLt)
    (wire : StdSort wireEventLt) (table : Char → Char) (tmpDir : Bytes)
    (calls : ι → NewCompositionCall) :
    OwnResponses std wire table tmpDir calls ↔
      ∀ i j, AcceptedParams ((calls i).req.params table) →
        AcceptedParams ((calls j).req.params table) → (calls i).seed = (calls j).seed →
          SameMusic ((calls i).req.params table) ((calls j).req.params table) := by
  constructor
  · intro hown i j hi hj hseed
    by_contra hdiffer
    exact not_ownResponses hi hj hseed (fun heq => hdiffer ((smfOf_eq_iff hseed).mp heq)) hown
  · intro hsame past s hrun i smf hresponse
    -- `mte_cli` writes to no other file than the one it is given.
    have hout : ∀ k path smf, mteCli std wire ((calls k).args table tmpDir) = .ok (path, smf) →
        path = (calls k).outputFile tmpDir := by
      intro k path smf hmte
      by_cases hk : AcceptedParams ((calls k).req.params table)
      · rw [mteCli_of_accepted hk] at hmte
        exact (Prod.mk.inj (Except.ok.inj hmte)).1.symm
      · obtain ⟨err, herr⟩ := mteCli_of_not_accepted hk
        rw [herr] at hmte
        exact absurd hmte (by simp)
    -- The response is the file of some call `j` with this path, hence with this seed.
    obtain ⟨⟨own, hown⟩, j, hpath, hj⟩ := (serverInv_run hout hrun).responded i smf hresponse
    obtain ⟨hacceptedi, rfl⟩ := generates_iff.mp hown
    obtain ⟨hacceptedj, rfl⟩ := generates_iff.mp hj
    have hseed := outputFile_eq_iff.mp hpath
    rw [(smfOf_eq_iff hseed).mpr (hsame j i hacceptedj hacceptedi hseed)]
    exact hown

/-- Two requests that only differ in their tempo. -/
def twoTempos : Bool → NewCompositionCall
  | false => ⟨⟨"c major at 90 bpm".toList, [], 7⟩, 0⟩
  | true => ⟨⟨"c major at 120 bpm".toList, [], 7⟩, 0⟩

/-- Their files have one path but not the same bytes, so one of them can get the file of the
other. -/
theorem twoTempos_not_ownResponses :
    ¬ OwnResponses drumSort wireSort id (bytes "/tmp") twoTempos := by
  refine not_ownResponses (i := false) (j := true) ⟨by decide, by decide⟩
    ⟨by decide, by decide⟩ (by decide) ?_
  rw [ne_eq, smfOf_eq_iff (by decide)]
  exact fun h => absurd h.bpm (by decide)

end AiMidi.Proofs.Ace
