import AiMidi.Tools.DspCli

/-!
# `AiMidi.Proofs.DspCli.ChunkWalk`: where the chunk walk leads

The walker cuts the file at the declared sizes: a header of eight bytes, then as many bytes as it
says. `Leads` is this cut as a relation on byte strings, from a place in the file to the bytes
behind the `data` header, with the fields of the `fmt ` chunk on the way.

`walkChunks_of_leads` and `leads_of_walkChunks` are the principal results: the walk ends with a
`data` chunk exactly where `Leads` says so.

Both directions are inductions, the first on the cut and the second on the number of bytes that are
left, since a round of the walk may skip any number of them. The size of a chunk is never beyond the
file on a walk that finds data (`seek_inside`).
-/

set_option autoImplicit false

namespace AiMidi.Proofs.DspCli

open AiMidi.Lib AiMidi.Lib.Riff AiMidi.Tools.DspCli

/-- The fields of a `fmt ` chunk that the reader keeps. -/
structure FmtFields where
  audioFormat : Nat
  numChannels : Nat
  sampleRate : Nat
  bitsPerSample : Nat
  deriving DecidableEq, Repr

/-- The fields in the first 16 bytes of the body. Behind the sample rate stand the byte rate and the
block alignment. -/
def fmtFields (body : Bytes) : FmtFields :=
  ⟨leNat (body.take 2), leNat ((body.drop 2).take 2), leNat ((body.drop 4).take 4),
    leNat ((body.drop 14).take 2)⟩

/-- The cut at the declared sizes leads from `bs` to a `data` chunk of the size `n` and the bytes
`rest` behind its header. The fields are those found so far, or those of the first `fmt ` chunk on
the way. -/
inductive Leads : Option FmtFields → Bytes → FmtFields → Nat → Bytes → Prop where
  | data {f : FmtFields} {n : Nat} {rest : Bytes} (hn : n < 2 ^ 32) :
      Leads (some f) (header (bytes "data") n ++ rest) f n rest
  | fmt {size n : Nat} {fields gap tail rest : Bytes} {f : FmtFields} (hsize : size < 2 ^ 32)
      (hfields : fields.length = 16) (hgap : gap.length = (size + 2 ^ 32 - 16) % 2 ^ 32)
      (h : Leads (some (fmtFields fields)) tail f n rest) :
      Leads none (header (bytes "fmt ") size ++ (fields ++ (gap ++ tail))) f n rest
  | skip {found : Option FmtFields} {id body tail rest : Bytes} {f : FmtFields} {n : Nat}
      (hid : id.length = 4) (hfmt : found = none → id ≠ bytes "fmt ") (hdata : id ≠ bytes "data")
      (hbody : body.length < 2 ^ 32) (h : Leads found tail f n rest) :
      Leads found (header id body.length ++ (body ++ tail)) f n rest

/-- The variables of the walk when these fields have been found. -/
def stateOf : Option FmtFields → WavState
  | none   => {}
  | some f =>
    { audioFormat := some f.audioFormat
      numChannelsTemp := f.numChannels
      sampleRateTemp := f.sampleRate
      bitsPerSample := f.bitsPerSample
      foundFmt := true }

/-- The variables at the end of the walk determine what has been found. -/
theorem eq_of_stateOf {f f' : FmtFields} {n n' : Nat}
    (h : { stateOf (some f) with dataSize := n } = { stateOf (some f') with dataSize := n' }) :
    f = f' ∧ n = n' := by
  obtain ⟨_, _, _, _⟩ := f
  obtain ⟨_, _, _, _⟩ := f'
  simp only [stateOf, WavState.mk.injEq, Option.some.injEq] at h
  obtain ⟨rfl, rfl, rfl, rfl, rfl, -⟩ := h
  exact ⟨rfl, rfl⟩

/-! ### One round

A round reads a header and then skips as many bytes as it declares. What it does is decided by the
four bytes of the name, and by whether a `fmt ` chunk has been seen. -/

/-- A round of the walk at a header: the `fmt ` chunk is read once, a `data` chunk ends the walk,
and any other one is skipped. -/
theorem walkRound_header (st : WavState) (id : Bytes) (hid : id.length = 4) {size : Nat}
    (hsize : size < 2 ^ 32) (rest : Bytes) :
    walkRound st (header id size ++ rest)
      = if !st.foundFmt && id == bytes "fmt " then
          .next (readFmt size st rest).1 (readFmt size st rest).2
        else if id == bytes "data" then .done { st with dataSize := size } rest
        else .next st (rest.drop size) := by
  have hvalue : leNat (leBytes 4 size) = size := leNat_leBytes (by omega)
  have hsplit : header id size ++ rest = id ++ (leBytes 4 size ++ rest) := List.append_assoc ..
  unfold walkRound ifstreamRead ifstreamSeekg
  rw [hsplit]
  dsimp only
  rw [List.take_left' hid, List.drop_left' hid, List.take_left' (length_leBytes 4 size),
    List.drop_left' (length_leBytes 4 size), hid, length_leBytes, hvalue, if_neg (by decide)]

/-- Without a whole header the loop ends. -/
theorem walkRound_short (st : WavState) (file : Bytes) (h : file.length < 8) :
    ∃ file', walkRound st file = .done st file' := by
  refine ⟨(file.drop 4).drop 4, ?_⟩
  unfold walkRound ifstreamRead
  dsimp only
  rw [if_pos]
  rw [List.length_take, List.length_take, List.length_drop]
  omega

/-- The walk goes on behind a chunk. -/
theorem walkChunks_next {st st' : WavState} {file file' : Bytes}
    (h : walkRound st file = .next st' file') : walkChunks st file = walkChunks st' file' := by
  rw [walkChunks]
  split
  · rename_i heq
    rw [h] at heq
    cases heq
    rfl
  · rename_i heq
    rw [h] at heq
    cases heq

/-- It ends at the `data` chunk. -/
theorem walkChunks_done {st st' : WavState} {file file' : Bytes}
    (h : walkRound st file = .done st' file') : walkChunks st file = (st', file') := by
  rw [walkChunks]
  split
  · rename_i heq
    rw [h] at heq
    cases heq
  · rename_i heq
    rw [h] at heq
    cases heq
    rfl

/-- At the end of the file nothing more is found. -/
theorem walkChunks_nil (st : WavState) : (walkChunks st []).1 = st := by
  obtain ⟨file', hround⟩ := walkRound_short st [] (by decide)
  rw [walkChunks_done hround]

/-- A seek behind which the walk finds data stays in the file. -/
theorem seek_inside {st : WavState} {rest : Bytes} {n : Nat} (hempty : st.dataSize = 0)
    (hsize : (walkChunks st (rest.drop n)).1.dataSize ≠ 0) : n ≤ rest.length := by
  by_contra hbeyond
  rw [List.drop_eq_nil_of_le (Nat.le_of_not_le hbeyond), walkChunks_nil] at hsize
  exact hsize hempty

/-! ### The `fmt ` chunk

The chunk has sixteen bytes that are read and possibly more that are skipped. With a declared size
below sixteen the number of bytes to skip wraps. -/

/-- The fields are read, and the bytes behind them up to the size of the chunk are skipped. -/
theorem readFmt_fields {size : Nat} {fields gap : Bytes} (hfields : fields.length = 16)
    (hgap : gap.length = (size + 2 ^ 32 - 16) % 2 ^ 32) (tail : Bytes) :
    readFmt size (stateOf none) (fields ++ (gap ++ tail))
      = (stateOf (some (fmtFields fields)), tail) := by
  have hseek : ifstreamSeekg ((size + 2 ^ 32 - 16) % 2 ^ 32) (gap ++ tail) = tail :=
    List.drop_left' hgap
  match fields, hfields with
  | [f0, f1, c0, c1, r0, r1, r2, r3, _, _, _, _, _, _, b0, b1], _ =>
    show (_, ifstreamSeekg _ (gap ++ tail)) = _
    rw [hseek]
    rfl

/-- What is left behind a `fmt ` chunk. A size below 16 wraps, and skips to the end of the file. -/
theorem readFmt_left (size : Nat) (st : WavState) (file : Bytes) :
    (readFmt size st file).2 = file.drop (16 + (size + 2 ^ 32 - 16) % 2 ^ 32) := by
  simp only [readFmt, ifstreamRead, ifstreamSeekg, List.drop_drop]

/-! ### The walk

The relation has one constructor for each kind of round. A walk that ends without a `data` chunk
corresponds to no cut at all. -/

/-- The walk goes where the cut leads. -/
theorem walkChunks_of_leads {found : Option FmtFields} {bs rest : Bytes} {f : FmtFields} {n : Nat}
    (h : Leads found bs f n rest) :
    walkChunks (stateOf found) bs = ({ stateOf (some f) with dataSize := n }, rest) := by
  -- One round for each constructor.
  induction h with
  | data hn =>
    apply walkChunks_done
    rw [walkRound_header _ _ rfl hn]
    rfl
  | @fmt size n fields gap tail rest f hsize hfields hgap h ih =>
    have hround := walkRound_header (stateOf none) (bytes "fmt ") rfl hsize
      (fields ++ (gap ++ tail))
    rw [readFmt_fields hfields hgap tail] at hround
    exact (walkChunks_next hround).trans ih
  | @skip found id body tail rest f n hid hfmt hdata hbody h ih =>
    have hround := walkRound_header (stateOf found) id hid hbody (body ++ tail)
    -- Before the `fmt ` chunk is found the name is another one, and behind it no name is asked for.
    have hnotFmt : (!(stateOf found).foundFmt && id == bytes "fmt ") = false := by
      cases found with
      | none => exact beq_false_of_ne (hfmt rfl)
      | some f => rfl
    rw [hnotFmt, if_neg (by decide), beq_false_of_ne hdata, if_neg (by decide),
      List.drop_left' rfl] at hround
    exact (walkChunks_next hround).trans ih

/-- The first bytes of a text and the others. -/
theorem exists_append_of_le (bs : Bytes) {n : Nat} (h : n ≤ bs.length) :
    ∃ front tail, bs = front ++ tail ∧ front.length = n :=
  ⟨bs.take n, bs.drop n, (List.take_append_drop n bs).symm, List.length_take_of_le h⟩

/-- Eight bytes are some header. -/
theorem exists_header {bs : Bytes} (h : 8 ≤ bs.length) :
    ∃ (id : Bytes) (size : Nat) (rest : Bytes), id.length = 4 ∧ size < 2 ^ 32 ∧
      bs = header id size ++ rest := by
  obtain ⟨id, tail, rfl, hid⟩ := exists_append_of_le bs (n := 4) (Nat.le_trans (by decide) h)
  rw [List.length_append, hid] at h
  obtain ⟨field, rest, rfl, hfield⟩ := exists_append_of_le tail (n := 4) (by omega)
  have hlt := leNat_lt field
  have hsame := leBytes_leNat field
  rw [hfield] at hlt hsame
  refine ⟨id, leNat field, rest, hid, hlt, ?_⟩
  rw [header, hsame, List.append_assoc]

/-- A walk that ends with a `data` chunk has gone along a cut. Induction on the length of what is
left; where the declared size is beyond the end, nothing is left to find. -/
theorem leads_of_walkChunks {found : Option FmtFields} {bs : Bytes}
    (hfmt : (walkChunks (stateOf found) bs).1.foundFmt = true)
    (hsize : (walkChunks (stateOf found) bs).1.dataSize ≠ 0) :
    ∃ f, Leads found bs f (walkChunks (stateOf found) bs).1.dataSize
      (walkChunks (stateOf found) bs).2 := by
  induction hlen : bs.length using Nat.strongRecOn generalizing found bs with
  | ind k ih =>
    have hempty : (stateOf found).dataSize = 0 := by
      cases found with
      | none => rfl
      | some f => rfl
    -- No header fits into the rest, so the walk ends without data.
    obtain hshort | hlong := Nat.lt_or_ge bs.length 8
    · obtain ⟨file', hround⟩ := walkRound_short (stateOf found) bs hshort
      rw [walkChunks_done hround] at hsize
      exact absurd hempty hsize
    · obtain ⟨id, size, rest, hid, hlt, rfl⟩ := exists_header hlong
      rw [List.length_append, length_header hid] at hlen
      have hround := walkRound_header (stateOf found) id hid hlt rest
      by_cases hisFmt : (!(stateOf found).foundFmt && id == bytes "fmt ") = true
      · -- The first `fmt ` chunk.
        rw [if_pos hisFmt] at hround
        rw [Bool.and_eq_true, beq_iff_eq] at hisFmt
        obtain ⟨hnew, rfl⟩ := hisFmt
        cases found with
        | some f => exact absurd hnew Bool.false_ne_true
        | none =>
          rw [walkChunks_next hround] at hfmt hsize ⊢
          have hinside : 16 + (size + 2 ^ 32 - 16) % 2 ^ 32 ≤ rest.length := by
            rw [readFmt_left] at hsize
            exact seek_inside rfl hsize
          obtain ⟨fields, more, rfl, hfields⟩ :=
            exists_append_of_le rest (n := 16) (Nat.le_trans (Nat.le_add_right _ _) hinside)
          rw [List.length_append, hfields] at hinside
          obtain ⟨gap, tail, rfl, hgap⟩ :=
            exists_append_of_le more (Nat.le_of_add_le_add_left hinside)
          rw [readFmt_fields hfields hgap tail] at hfmt hsize ⊢
          dsimp only at hfmt hsize ⊢
          rw [List.length_append, List.length_append] at hlen
          obtain ⟨f, hleads⟩ := ih tail.length (by omega) hfmt hsize rfl
          exact ⟨f, .fmt hlt hfields hgap hleads⟩
      · rw [if_neg hisFmt] at hround
        by_cases hdata : id = bytes "data"
        · subst hdata
          rw [beq_self_eq_true, if_pos rfl] at hround
          rw [walkChunks_done hround] at hfmt ⊢
          cases found with
          | none => exact absurd hfmt Bool.false_ne_true
          | some f => exact ⟨f, .data hlt⟩
        · -- Another chunk, which is skipped.
          rw [beq_false_of_ne hdata, if_neg (by decide)] at hround
          rw [walkChunks_next hround] at hfmt hsize ⊢
          have hinside := seek_inside hempty hsize
          obtain ⟨body, tail, rfl, rfl⟩ := exists_append_of_le rest hinside
          rw [List.drop_left' rfl] at hfmt hsize ⊢
          rw [List.length_append] at hlen
          obtain ⟨f, hleads⟩ := ih tail.length (by omega) hfmt hsize rfl
          refine ⟨f, .skip hid ?_ hdata hlt hleads⟩
          rintro rfl rfl
          exact hisFmt rfl

/-- The chunks of the file lead to these fields and this `data` chunk exactly when the walk finds
them. -/
theorem leads_iff {found : Option FmtFields} {bs rest : Bytes} {f : FmtFields} {n : Nat}
    (hn : n ≠ 0) :
    Leads found bs f n rest ↔
      walkChunks (stateOf found) bs = ({ stateOf (some f) with dataSize := n }, rest) := by
  refine ⟨walkChunks_of_leads, fun hwalk => ?_⟩
  have hfmt : (walkChunks (stateOf found) bs).1.foundFmt = true := by
    rw [hwalk]
    rfl
  have hsize : (walkChunks (stateOf found) bs).1.dataSize ≠ 0 := by
    rw [hwalk]
    exact hn
  obtain ⟨f', hleads⟩ := leads_of_walkChunks hfmt hsize
  rw [hwalk] at hleads
  have hstate := congrArg Prod.fst ((walkChunks_of_leads hleads).symm.trans hwalk)
  exact (eq_of_stateOf hstate).1 ▸ hleads

end AiMidi.Proofs.DspCli
