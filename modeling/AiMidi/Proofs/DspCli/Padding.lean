import AiMidi.Proofs.DspCli.ReadWav

/-!
# `AiMidi.Proofs.DspCli.Padding`: chunks of odd size

A RIFF chunk of odd size is followed by a pad byte. The walker does not skip it, so it takes the pad
byte and the next seven bytes for a header (`walkChunks_odd`). It finds its way to the `data` chunk
when no chunk in front of it is odd, or when the bytes from the pad byte on lead there by accident
(`readsWave_iff`).

The chunks in front of the data are passed one by one (`walkChunks_body`), which is the induction
behind `walkChunks_even` and `walkChunks_odd`. At the first odd chunk the walk goes on inside the
file with other boundaries. `Recovers` describes on the bytes when it still comes to the data.
-/

set_option autoImplicit false

namespace AiMidi.Proofs.DspCli

open AiMidi.Lib AiMidi.Lib.Riff AiMidi.Tools.DspCli

/-- A RIFF/WAVE file in 16-bit PCM: the `fmt ` chunk, the `data` chunk, and other chunks in front of
them, between them and behind them. -/
structure WaveFile where
  before : List Chunk
  fmt : Chunk
  between : List Chunk
  data : Chunk
  after : List Chunk
  fmt_id : fmt.id = bytes "fmt "
  data_id : data.id = bytes "data"
  others : ∀ c ∈ before ++ between, c.id ≠ bytes "fmt " ∧ c.id ≠ bytes "data"
  fmt_size : 16 ≤ fmt.body.length
  pcm : Pcm16 (fmtFields fmt.body) data.body.length
  channels : (fmtFields fmt.body).numChannels ≠ 0
  size_lt : 4 + (encodeAll (before ++ fmt :: between ++ data :: after)).length < 2 ^ 32

namespace WaveFile

variable (w : WaveFile)

/-- The chunks in front of the `data` chunk. -/
def front : List Chunk := w.before ++ w.fmt :: w.between

/-- The fields of the `fmt ` chunk. -/
def fields : FmtFields := fmtFields w.fmt.body

/-- The bytes behind the header of the `data` chunk. -/
def rest : Bytes := w.data.body ++ (pad w.data.body.length ++ encodeAll w.after)

/-- The chunks of the file. -/
def body : Bytes := encodeAll (w.front ++ w.data :: w.after)

/-- The bytes of the file. -/
def encode : Bytes :=
  bytes "RIFF" ++ (leBytes 4 (4 + w.body.length) ++ (bytes "WAVE" ++ w.body))

/-- The frames in the `data` chunk. -/
def frames : List Float32 :=
  (List.range (w.data.body.length / (2 * w.fields.numChannels))).map fun i =>
    mixFrame (frameSamples w.fields.numChannels w.data.body i)

end WaveFile

/-- The reader finds both chunks, and returns exactly the frames of the `data` chunk. -/
structure ReadsWave (u : Unspecified) (w : WaveFile) : Prop where
  finds : walkChunks {} w.body
    = ({ stateOf (some w.fields) with dataSize := w.data.body.length }, w.rest)
  returns : readWAV u (some w.encode)
    = .audio (i32cast w.fields.sampleRate) w.fields.numChannels (w.frames.map some)

/-! ### From chunk to chunk

The walk passes a chunk in one round. It ends up behind the declared bytes of the chunk, which is
where an even chunk ends and where an odd one has its pad byte. -/

/-- What has been found behind a chunk. -/
def foundBehind (found : Option FmtFields) (c : Chunk) : Option FmtFields :=
  match found with
  | some f => some f
  | none   => if c.id = bytes "fmt " then some (fmtFields c.body) else none

/-- A chunk that the walk passes. -/
structure Passed (c : Chunk) : Prop where
  notData : c.id ≠ bytes "data"
  fmt_size : c.id = bytes "fmt " → 16 ≤ c.body.length

/-- The fields are in the first 16 bytes. -/
theorem fmtFields_append {fields : Bytes} (h : fields.length = 16) (gap : Bytes) :
    fmtFields (fields ++ gap) = fmtFields fields := by
  match fields, h with
  | [_, _, _, _, _, _, _, _, _, _, _, _, _, _, _, _], _ => rfl

/-- The walk is behind the body of a chunk, wherever the chunk really ends. -/
theorem walkChunks_body {c : Chunk} (hc : Passed c) (found : Option FmtFields) (tail : Bytes) :
    walkChunks (stateOf found) (header c.id c.body.length ++ (c.body ++ tail))
      = walkChunks (stateOf (foundBehind found c)) tail := by
  have hround := walkRound_header (stateOf found) c.id c.id_length c.size_lt (c.body ++ tail)
  have hskip : walkRound (stateOf found) (header c.id c.body.length ++ (c.body ++ tail))
      = .next (stateOf (foundBehind found c)) tail := by
    -- Only the first format chunk is read; every other chunk is skipped by its size.
    by_cases hfmt : found = none ∧ c.id = bytes "fmt "
    · obtain ⟨rfl, hid⟩ := hfmt
      obtain ⟨fields, gap, hbody, hfields⟩ := exists_append_of_le c.body (hc.fmt_size hid)
      have hgap : gap.length = (c.body.length + 2 ^ 32 - 16) % 2 ^ 32 := by
        have hlt := c.size_lt
        rw [hbody, List.length_append, hfields] at hlt ⊢
        omega
      have hfound : foundBehind none c = some (fmtFields fields) := by
        rw [← fmtFields_append hfields gap, ← hbody]
        exact if_pos hid
      have hread : readFmt c.body.length (stateOf none) (c.body ++ tail)
          = (stateOf (some (fmtFields fields)), tail) := by
        have hsplit : c.body ++ tail = fields ++ (gap ++ tail) := by
          rw [hbody, List.append_assoc]
        rw [hsplit]
        exact readFmt_fields hfields hgap tail
      rw [hround, hread, hfound, if_pos (by rw [hid]; rfl)]
    · have hsame : foundBehind found c = found := by
        cases found with
        | none => exact if_neg fun hid => hfmt ⟨rfl, hid⟩
        | some f => rfl
      have hnotFmt : (!(stateOf found).foundFmt && c.id == bytes "fmt ") = false := by
        cases found with
        | none => exact beq_false_of_ne fun hid => hfmt ⟨rfl, hid⟩
        | some f => rfl
      rw [hround, hnotFmt, if_neg (by decide), beq_false_of_ne hc.notData, if_neg (by decide),
        List.drop_left' rfl, hsame]
  exact walkChunks_next hskip

/-- Chunks of even size are passed as they are. -/
theorem walkChunks_even {cs : List Chunk} (hcs : ∀ c ∈ cs, Passed c)
    (heven : ∀ c ∈ cs, c.body.length % 2 = 0) (found : Option FmtFields) (tail : Bytes) :
    walkChunks (stateOf found) (encodeAll cs ++ tail)
      = walkChunks (stateOf (cs.foldl foundBehind found)) tail := by
  induction cs generalizing found with
  | nil => rfl
  | cons c cs ih =>
    have hbytes : encodeAll (c :: cs) ++ tail
        = header c.id c.body.length ++ (c.body ++ (encodeAll cs ++ tail)) := by
      rw [encodeAll_cons, Chunk.encode, pad, if_pos (heven c List.mem_cons_self), List.append_nil,
        List.append_assoc, List.append_assoc]
    rw [hbytes, walkChunks_body (hcs c List.mem_cons_self)]
    exact ih (fun d hd => hcs d (List.mem_cons_of_mem _ hd))
      (fun d hd => heven d (List.mem_cons_of_mem _ hd)) _

/-- Behind the first chunk of odd size the walk goes on at the pad byte. -/
theorem walkChunks_odd {pre post : List Chunk} {odd : Chunk}
    (hcs : ∀ c ∈ pre ++ odd :: post, Passed c) (heven : ∀ c ∈ pre, c.body.length % 2 = 0)
    (hodd : odd.body.length % 2 = 1) (found : Option FmtFields) (tail : Bytes) :
    walkChunks (stateOf found) (encodeAll (pre ++ odd :: post) ++ tail)
      = walkChunks (stateOf ((pre ++ [odd]).foldl foundBehind found))
          (0 :: (encodeAll post ++ tail)) := by
  have hbytes : encodeAll (pre ++ odd :: post) ++ tail
      = encodeAll pre ++ (header odd.id odd.body.length
        ++ (odd.body ++ (0 :: (encodeAll post ++ tail)))) := by
    have hpad : pad odd.body.length = [0] := by
      rw [pad, if_neg (by omega)]
    rw [encodeAll_append, encodeAll_cons, Chunk.encode, hpad]
    simp only [List.append_assoc, List.cons_append, List.nil_append]
  rw [hbytes, walkChunks_even (fun c hc => hcs c (List.mem_append_left _ hc)) heven,
    walkChunks_body (hcs odd (List.mem_append_right _ List.mem_cons_self)), List.foldl_append]
  rfl

/-! ### To the `data` chunk

The chunks in front of the data are passed while they are even. The first odd one decides, and what
the bytes behind it say is no longer up to the chunks. -/

/-- A chunk in front of the data is one that the walk passes. -/
theorem passed_front {w : WaveFile} {c : Chunk} (hc : c ∈ w.front) : Passed c := by
  have hother : ∀ d ∈ w.before ++ w.between, Passed d := fun d hd =>
    ⟨(w.others d hd).2, fun hid => absurd hid (w.others d hd).1⟩
  obtain hmem | hmem := List.mem_append.mp hc
  · exact hother c (List.mem_append_left _ hmem)
  · obtain rfl | hmem := List.mem_cons.mp hmem
    · exact ⟨by rw [w.fmt_id]; decide, fun _ => w.fmt_size⟩
    · exact hother c (List.mem_append_right _ hmem)

/-- In front of the `data` chunk the fields of the `fmt ` chunk have been found. -/
theorem foldl_foundBehind_front (w : WaveFile) :
    w.front.foldl foundBehind none = some w.fields := by
  -- In front of the `fmt ` chunk nothing is found, and behind it nothing is changed.
  have hnone : ∀ cs : List Chunk, (∀ c ∈ cs, c.id ≠ bytes "fmt ") →
      cs.foldl foundBehind none = none := by
    intro cs hcs
    induction cs with
    | nil => rfl
    | cons c cs ih =>
      have hhead : foundBehind none c = none := if_neg (hcs c List.mem_cons_self)
      rw [List.foldl_cons, hhead]
      exact ih fun d hd => hcs d (List.mem_cons_of_mem _ hd)
  have hsome : ∀ (cs : List Chunk) (f : FmtFields), cs.foldl foundBehind (some f) = some f := by
    intro cs f
    induction cs with
    | nil => rfl
    | cons c cs ih => exact ih
  have hfmt : foundBehind none w.fmt = some w.fields := if_pos w.fmt_id
  rw [WaveFile.front, List.foldl_append,
    hnone w.before fun c hc => (w.others c (List.mem_append_left _ hc)).1, List.foldl_cons, hfmt,
    hsome]

/-- The body up to the header of the `data` chunk, and the rest. -/
theorem body_eq (w : WaveFile) :
    w.body = encodeAll w.front ++ (header (bytes "data") w.data.body.length ++ w.rest) := by
  rw [WaveFile.body, encodeAll_append, encodeAll_cons, Chunk.encode, w.data_id, WaveFile.rest,
    List.append_assoc, List.append_assoc]

/-- Once the reader finds both chunks it returns the frames. -/
theorem readsWave_of_walk (u : Unspecified) {w : WaveFile}
    (hwalk : walkChunks {} w.body
      = ({ stateOf (some w.fields) with dataSize := w.data.body.length }, w.rest)) :
    ReadsWave u w := by
  refine ⟨hwalk, ?_⟩
  have hleads : Leads none w.body w.fields w.data.body.length w.rest :=
    (leads_iff w.pcm.nonempty).mpr hwalk
  have hwav : IsWav w.encode w.fields w.data.body.length w.rest :=
    ⟨leBytes 4 (4 + w.body.length), w.body, length_leBytes _ _, rfl, hleads⟩
  have hframes : readFrames w.fields.numChannels
        (w.data.body.length / (2 * w.fields.numChannels)) w.rest = w.frames.map some := by
    rw [readFrames_eq, WaveFile.frames, List.map_map]
    refine List.map_congr_left fun i hi => ?_
    -- The frame lies in the data chunk, whose bytes come first.
    have hframe : 2 * w.fields.numChannels * (i + 1) ≤ w.data.body.length :=
      Nat.le_trans (Nat.mul_le_mul_left _ (List.mem_range.mp hi)) (Nat.mul_div_le _ _)
    have hrest : 2 * w.fields.numChannels * (i + 1) ≤ w.rest.length := by
      rw [WaveFile.rest, List.length_append]
      exact Nat.le_trans hframe (Nat.le_add_right _ _)
    have htake : w.rest.take w.data.body.length = w.data.body := List.take_left
    rw [frameValue_of_le hrest, ← frameSamples_take w.rest hframe, htake]
    rfl
  have hchannels : w.fields.numChannels ≠ 0 := w.channels
  rw [readWAV_pcm u hwav w.pcm, if_neg hchannels, hframes]

/-- Where the walk goes on behind the first chunk of odd size, the bytes lead to the `data` chunk
by accident: read as headers and bodies of the declared sizes from the pad byte on. -/
def Recovers (w : WaveFile) : Prop :=
  ∃ pre odd post, w.front = pre ++ odd :: post ∧ (∀ c ∈ pre, c.body.length % 2 = 0) ∧
    odd.body.length % 2 = 1 ∧
    Leads ((pre ++ [odd]).foldl foundBehind none)
      (0 :: (encodeAll post ++ (header (bytes "data") w.data.body.length ++ w.rest)))
      w.fields w.data.body.length w.rest

/-- The reader reads a RIFF/WAVE file right exactly when no chunk in front of the `data` chunk has
an odd size, apart from accidents. -/
theorem readsWave_iff (u : Unspecified) (w : WaveFile) :
    ReadsWave u w ↔ (∀ c ∈ w.front, c.body.length % 2 = 0) ∨ Recovers w := by
  have hpassed : ∀ c ∈ w.front, Passed c := fun c hc => passed_front hc
  -- The walk over a front that is split at its first odd chunk.
  have hsplit : ∀ pre odd post, w.front = pre ++ odd :: post →
      (∀ c ∈ pre, c.body.length % 2 = 0) → odd.body.length % 2 = 1 →
      walkChunks {} w.body = walkChunks (stateOf ((pre ++ [odd]).foldl foundBehind none))
        (0 :: (encodeAll post ++ (header (bytes "data") w.data.body.length ++ w.rest))) := by
    intro pre odd post hfront heven hodd
    rw [body_eq, hfront]
    exact walkChunks_odd (hfront ▸ hpassed) heven hodd none _
  constructor
  · intro h
    by_cases heven : ∀ c ∈ w.front, c.body.length % 2 = 0
    · exact .inl heven
    · right
      obtain ⟨odd, hfind⟩ : ∃ odd, w.front.find? (fun c => c.body.length % 2 == 1) = some odd := by
        refine Option.isSome_iff_exists.mp (List.find?_isSome.mpr ?_)
        obtain ⟨c, hmem⟩ := not_forall.mp heven
        obtain ⟨hmem, hodd⟩ := Classical.not_imp.mp hmem
        exact ⟨c, hmem, beq_iff_eq.mpr (by omega)⟩
      obtain ⟨hodd, pre, post, hfront, hpre⟩ := List.find?_eq_some_iff_append.mp hfind
      have hpre' : ∀ c ∈ pre, c.body.length % 2 = 0 := by
        intro c hc
        have hnot := hpre c hc
        rw [Bool.not_eq_true', beq_eq_false_iff_ne] at hnot
        omega
      refine ⟨pre, odd, post, hfront, hpre', beq_iff_eq.mp hodd, ?_⟩
      rw [leads_iff w.pcm.nonempty, ← hsplit pre odd post hfront hpre' (beq_iff_eq.mp hodd)]
      exact h.finds
  · rintro (heven | ⟨pre, odd, post, hfront, heven, hodd, hleads⟩)
    · apply readsWave_of_walk
      have hwalk := walkChunks_even hpassed heven none
        (header (bytes "data") w.data.body.length ++ w.rest)
      rw [body_eq]
      refine hwalk.trans ?_
      rw [foldl_foundBehind_front]
      exact walkChunks_of_leads (.data w.data.size_lt)
    · apply readsWave_of_walk
      rw [hsplit pre odd post hfront heven hodd]
      exact walkChunks_of_leads hleads

/-- A mono file of one frame, with a `LIST` chunk of one byte in front of the `data` chunk. -/
def oddList : WaveFile where
  before := []
  fmt := ⟨bytes "fmt ", [1, 0, 1, 0, 0x44, 0xAC, 0, 0, 0x88, 0x58, 1, 0, 2, 0, 16, 0], rfl,
    by decide⟩
  between := [⟨bytes "LIST", [0], rfl, by decide⟩]
  data := ⟨bytes "data", [0, 0], rfl, by decide⟩
  after := []
  fmt_id := rfl
  data_id := rfl
  others c hc := by
    rw [List.nil_append, List.mem_singleton] at hc
    subst hc
    exact ⟨by decide, by decide⟩
  fmt_size := by decide
  pcm := ⟨rfl, rfl, by decide⟩
  channels := by decide
  size_lt := by decide

/-- The reader passes the `data` chunk of `oddList`. -/
theorem not_readsWave : ¬ ∀ (u : Unspecified) (w : WaveFile), ReadsWave u w := by
  intro h
  have hfinds := (h ⟨false, false, false⟩ oddList).finds
  -- The pad byte and the identifier of the data chunk are read as a header.
  have hwalk : walkChunks {} oddList.body = (stateOf (some oddList.fields), []) := by
    have hfmt : walkRound {} oddList.body = .next (stateOf (some oddList.fields))
        (oddList.body.drop 24) := by decide
    have hlist : walkRound (stateOf (some oddList.fields)) (oddList.body.drop 24)
        = .next (stateOf (some oddList.fields)) (oddList.body.drop 33) := by decide
    have hlost : walkRound (stateOf (some oddList.fields)) (oddList.body.drop 33)
        = .next (stateOf (some oddList.fields)) [] := by decide
    have hend : walkRound (stateOf (some oddList.fields)) []
        = .done (stateOf (some oddList.fields)) [] := by decide
    rw [walkChunks_next hfmt, walkChunks_next hlist, walkChunks_next hlost, walkChunks_done hend]
  rw [hwalk] at hfinds
  exact absurd (congrArg (fun p => p.1.dataSize) hfinds) (by decide)

end AiMidi.Proofs.DspCli
