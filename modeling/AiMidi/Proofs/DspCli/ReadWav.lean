import AiMidi.Proofs.DspCli.ChunkWalk

/-!
# `AiMidi.Proofs.DspCli.ReadWav`: what `readWAV` returns

`readWAV_pcm` and `readWAV_error` say what the reader returns for every file: the frames behind the
`data` header where the chunks lead to one, an error elsewhere. A frame has a value when all its
bytes are there (`frameValue_of_le`, `frameValue_short`).

The number of frames is computed from the header alone. So the reader is safe exactly when there is
a channel to divide by, and the file has the bytes of all frames (`safe_iff`).

The chunk walk is taken from `AiMidi.Proofs.DspCli.ChunkWalk`. Of a file it says which bytes stand
behind the `data` header, and `IsWav.unique` that there is one way only to read them. What is left
is to follow the loop over the frames (`readFrames_eq`).
-/

set_option autoImplicit false

namespace AiMidi.Proofs.DspCli

open AiMidi.Lib AiMidi.Lib.Riff AiMidi.Tools.DspCli

/-! ### Frames

A frame takes one sample of two bytes from each channel. The loop consumes these bytes, so the frame
with a number is read at a multiple of the size of a frame. -/

/-- The samples of the frame `i` in the bytes of a `data` chunk. -/
def frameSamples (numChannels : Nat) (data : Bytes) (i : Nat) : List Int :=
  (List.range numChannels).map fun c =>
    toInt16 ((data.drop (2 * numChannels * i + 2 * c)).take 2)

/-- With enough bytes every sample is there. -/
theorem readSamples_of_le {n : Nat} {file : Bytes} (h : 2 * n ≤ file.length) :
    (readSamples n file).1
      = ((List.range n).map fun c => toInt16 ((file.drop (2 * c)).take 2)).map some := by
  induction n generalizing file with
  | zero => rfl
  | succ n ih =>
    have hgot : (file.take 2).length = 2 := List.length_take_of_le (by omega)
    have hinside : 2 * n ≤ (file.drop 2).length := by
      rw [List.length_drop]
      omega
    have hrest := ih hinside
    -- The first two bytes are the first sample, and the others are shifted by them.
    show (if (file.take 2).length = 2 then _ else _) :: (readSamples n (file.drop 2)).1 = _
    rw [if_pos hgot, hrest, List.range_succ_eq_map, List.map_cons, List.map_cons, List.map_map,
      List.map_map, List.map_map]
    refine congrArg (List.cons (some (toInt16 (file.take 2)))) ?_
    refine List.map_congr_left fun c _ => ?_
    show some (toInt16 (((file.drop 2).drop (2 * c)).take 2))
      = some (toInt16 ((file.drop (2 * (c + 1))).take 2))
    rw [List.drop_drop, Nat.mul_succ, Nat.add_comm 2]

/-- With fewer the last one is not. -/
theorem readSamples_short {n : Nat} {file : Bytes} (h : file.length < 2 * n) :
    none ∈ (readSamples n file).1 := by
  induction n generalizing file with
  | zero => exact absurd h (Nat.not_lt_zero _)
  | succ n ih =>
    show none ∈ (if (file.take 2).length = 2 then _ else _) :: (readSamples n (file.drop 2)).1
    by_cases hgot : (file.take 2).length = 2
    · refine List.mem_cons_of_mem _ (ih ?_)
      rw [List.length_take] at hgot
      rw [List.length_drop]
      omega
    · rw [if_neg hgot]
      exact List.mem_cons_self

/-- The bytes of the samples are consumed. -/
theorem readSamples_left (n : Nat) (file : Bytes) : (readSamples n file).2 = file.drop (2 * n) := by
  induction n generalizing file with
  | zero => rfl
  | succ n ih =>
    show (readSamples n (file.drop 2)).2 = _
    rw [ih, List.drop_drop]
    congr 1
    omega

/-- The value of the next frame. -/
def frameValue (numChannels : Nat) (file : Bytes) : Option Float32 :=
  ((readSamples numChannels file).1.mapM id).map mixFrame

/-- Each frame is read behind those in front of it. -/
theorem readFrames_eq (numChannels n : Nat) (file : Bytes) :
    readFrames numChannels n file
      = (List.range n).map fun i => frameValue numChannels (file.drop (2 * numChannels * i)) := by
  induction n generalizing file with
  | zero => rfl
  | succ n ih =>
    show frameValue numChannels file
      :: readFrames numChannels n (readSamples numChannels file).2 = _
    rw [ih, readSamples_left, List.range_succ_eq_map, List.map_cons, List.map_map]
    refine congrArg (List.cons (frameValue numChannels file)) ?_
    refine List.map_congr_left fun i _ => ?_
    show _ = frameValue numChannels (file.drop (2 * numChannels * (i + 1)))
    rw [List.drop_drop, Nat.mul_succ, Nat.add_comm (2 * numChannels)]

/-- A frame with all its bytes. -/
theorem frameValue_of_le {numChannels i : Nat} {data : Bytes}
    (h : 2 * numChannels * (i + 1) ≤ data.length) :
    frameValue numChannels (data.drop (2 * numChannels * i))
      = some (mixFrame (frameSamples numChannels data i)) := by
  have hinside : 2 * numChannels ≤ (data.drop (2 * numChannels * i)).length := by
    rw [Nat.mul_succ] at h
    rw [List.length_drop]
    omega
  -- The samples of the frame lie behind those of the frames in front.
  have hsamples : ((List.range numChannels).map fun c =>
        toInt16 (((data.drop (2 * numChannels * i)).drop (2 * c)).take 2))
      = frameSamples numChannels data i := by
    unfold frameSamples
    refine List.map_congr_left fun c _ => ?_
    rw [List.drop_drop]
  have hall : ((frameSamples numChannels data i).map some).mapM id
      = some (frameSamples numChannels data i) := by
    rw [List.mapM_map]
    exact (List.mapM_pure (m := Option)).trans (congrArg some (List.map_id _))
  unfold frameValue
  rw [readSamples_of_le hinside, hsamples, hall]
  rfl

/-- A frame that the file does not have to its end. -/
theorem frameValue_short {numChannels : Nat} {file : Bytes} (h : file.length < 2 * numChannels) :
    frameValue numChannels file = none := by
  -- One sample that is missing leaves the frame without a value.
  have hnone : ∀ samples : List (Option Int), none ∈ samples → samples.mapM id = none := by
    intro samples hmem
    induction samples with
    | nil => exact absurd hmem List.not_mem_nil
    | cons sample samples ih =>
      rw [List.mapM_cons]
      cases sample with
      | none => rfl
      | some sample =>
        obtain hhead | htail := List.mem_cons.mp hmem
        · cases hhead
        · rw [ih htail]
          rfl
  unfold frameValue
  rw [hnone _ (readSamples_short h)]
  rfl

/-- A frame that lies in the first `n` bytes. -/
theorem frameSamples_take {numChannels i n : Nat} (data : Bytes)
    (h : 2 * numChannels * (i + 1) ≤ n) :
    frameSamples numChannels (data.take n) i = frameSamples numChannels data i := by
  unfold frameSamples
  refine List.map_congr_left fun c hc => ?_
  have hlt := List.mem_range.mp hc
  rw [Nat.mul_succ] at h
  rw [List.drop_take, List.take_take, Nat.min_eq_left (by omega)]

/-! ### Files

The header of the file and the chunks have been read, and the format is tested before any data is.
What is left over is the data behind its header. -/

/-- A RIFF/WAVE file whose chunks lead to a `fmt ` chunk with the fields `f` and a `data` chunk of
the size `n`, with `rest` behind its header. -/
def IsWav (file : Bytes) (f : FmtFields) (n : Nat) (rest : Bytes) : Prop :=
  ∃ size body : Bytes, size.length = 4 ∧
    file = bytes "RIFF" ++ (size ++ (bytes "WAVE" ++ body)) ∧ Leads none body f n rest

/-- A format that the reader supports, and a `data` chunk that is not empty. -/
structure Pcm16 (f : FmtFields) (n : Nat) : Prop where
  pcm : f.audioFormat = 1
  bits : f.bitsPerSample = 16
  nonempty : n ≠ 0

/-- The reader gets behind a header of the format. -/
theorem behindHeader_wave (u : Unspecified) {size : Bytes} (hsize : size.length = 4)
    (body : Bytes) :
    behindHeader u (bytes "RIFF" ++ (size ++ (bytes "WAVE" ++ body))) = some body := by
  have hriff : (bytes "RIFF").length = 4 := rfl
  have hwave : (bytes "WAVE").length = 4 := rfl
  unfold behindHeader ifstreamRead
  dsimp only
  rw [List.take_left' hriff, List.drop_left' hriff, List.drop_left' hsize, List.take_left' hwave,
    List.drop_left' hwave]
  rfl

/-- Behind a RIFF header that the reader accepts stands the body, or nothing when the file ends
inside the header. -/
theorem file_of_behindHeader {u : Unspecified} {file body : Bytes}
    (h : behindHeader u file = some body) :
    body = [] ∨ ∃ size : Bytes, size.length = 4 ∧
      file = bytes "RIFF" ++ (size ++ (bytes "WAVE" ++ body)) := by
  -- A file of less than twelve bytes has no body behind the header.
  obtain hshort | hlong := Nat.lt_or_ge file.length 12
  · left
    unfold behindHeader ifstreamRead at h
    dsimp only at h
    split at h
    · cases h
    · cases h
      rw [List.drop_drop, List.drop_drop]
      exact List.drop_eq_nil_of_le (by omega)
  · right
    -- The header is the tag, a size that nothing checks and the second tag.
    obtain ⟨riff, more, rfl, hriff⟩ := 
      exists_append_of_le file (n := 4) (Nat.le_trans (by decide) hlong)
    rw [List.length_append, hriff] at hlong
    obtain ⟨size, more, rfl, hsize⟩ := exists_append_of_le more (n := 4) (by omega)
    rw [List.length_append, hsize] at hlong
    obtain ⟨wave, rest, rfl, hwave⟩ := exists_append_of_le more (n := 4) (by omega)
    unfold behindHeader ifstreamRead sameTag at h
    dsimp only at h
    rw [List.take_left' hriff, List.drop_left' hriff, List.drop_left' hsize,
      List.take_left' hwave, List.drop_left' hwave, if_pos hriff, if_pos hwave] at h
    split at h
    · cases h
    · rename_i htags
      cases h
      rw [Bool.or_eq_true, Bool.not_eq_true', Bool.not_eq_true', beq_eq_false_iff_ne,
        beq_eq_false_iff_ne, not_or, not_not, not_not] at htags
      obtain ⟨rfl, rfl⟩ := htags
      exact ⟨size, hsize, rfl⟩

/-- The walk goes one way, so a file is a WAVE file in one way. -/
theorem IsWav.unique {file rest rest' : Bytes} {f f' : FmtFields} {n n' : Nat}
    (h : IsWav file f n rest) (h' : IsWav file f' n' rest') : f = f' ∧ n = n' ∧ rest = rest' := by
  obtain ⟨size, body, hsize, rfl, hleads⟩ := h
  obtain ⟨size', body', hsize', hfile, hleads'⟩ := h'
  have hbody : some body = some body' := by
    have u : Unspecified := ⟨false, false, false⟩
    rw [← behindHeader_wave u hsize body, hfile, behindHeader_wave u hsize' body']
  obtain rfl := Option.some.inj hbody
  have hwalk := (walkChunks_of_leads hleads).symm.trans (walkChunks_of_leads hleads')
  obtain ⟨hstate, rfl⟩ := Prod.ext_iff.mp hwalk
  obtain ⟨rfl, rfl⟩ := eq_of_stateOf hstate
  exact ⟨rfl, rfl, rfl⟩

/-- The data of a supported format are read as frames, unless the file claims to have no channel. -/
theorem readData_pcm (u : Unspecified) {f : FmtFields} {n : Nat} (hpcm : Pcm16 f n)
    (rest : Bytes) :
    readData u { stateOf (some f) with dataSize := n } rest
      = if f.numChannels = 0 then .divisionByZero
        else .audio (i32cast f.sampleRate) f.numChannels
          (readFrames f.numChannels (n / (2 * f.numChannels)) rest) := by
  obtain ⟨format, channels, rate, bits⟩ := f
  obtain ⟨rfl, rfl, hn⟩ := hpcm
  rw [← Nat.div_div_eq_div_mul]
  have hformat : isPcm u (some 1) = true := rfl
  unfold readData stateOf
  dsimp only
  rw [if_neg (by decide), hformat, if_neg (by decide), if_neg (not_not.mpr rfl), if_neg hn]

/-- A format that is not supported, or an empty `data` chunk, is an error. -/
theorem readData_error (u : Unspecified) {st : WavState} (rest : Bytes)
    (h : st.foundFmt = true → isPcm u st.audioFormat = true → st.bitsPerSample = 16 →
      st.dataSize = 0) :
    ∃ e, readData u st rest = .error e := by
  unfold readData
  by_cases hfmt : st.foundFmt = true
  · by_cases hpcm : isPcm u st.audioFormat = true
    · by_cases hbits : st.bitsPerSample = 16
      · rw [hfmt, hpcm, hbits, h hfmt hpcm hbits]
        exact ⟨_, rfl⟩
      · rw [hfmt, hpcm, if_pos hbits]
        exact ⟨_, rfl⟩
    · rw [hfmt, Bool.eq_false_iff.mpr hpcm]
      exact ⟨_, rfl⟩
  · rw [Bool.eq_false_iff.mpr hfmt]
    exact ⟨_, rfl⟩

/-- What the reader returns for a file in a supported format. -/
theorem readWAV_pcm (u : Unspecified) {file rest : Bytes} {f : FmtFields} {n : Nat}
    (h : IsWav file f n rest) (hpcm : Pcm16 f n) :
    readWAV u (some file)
      = if f.numChannels = 0 then .divisionByZero
        else .audio (i32cast f.sampleRate) f.numChannels
          (readFrames f.numChannels (n / (2 * f.numChannels)) rest) := by
  obtain ⟨size, body, hsize, rfl, hleads⟩ := h
  have hwalk : walkChunks {} body = ({ stateOf (some f) with dataSize := n }, rest) :=
    walkChunks_of_leads hleads
  unfold readWAV
  dsimp only
  rw [behindHeader_wave u hsize]
  dsimp only
  rw [hwalk, ← readData_pcm u hpcm]

/-- All other files are refused. -/
theorem readWAV_error (u : Unspecified) {file : Bytes}
    (h : ∀ f n rest, IsWav file f n rest → ¬ Pcm16 f n) :
    ∃ e, readWAV u (some file) = .error e := by
  unfold readWAV
  dsimp only
  cases hheader : behindHeader u file with
  | none => exact ⟨_, rfl⟩
  | some body =>
    refine readData_error u _ fun hfmt hpcm hbits => ?_
    by_contra hsize
    -- The walk has found both chunks, so the file is one of those excluded.
    obtain ⟨f, hleads⟩ : ∃ f, Leads none body f (walkChunks {} body).1.dataSize
        (walkChunks {} body).2 := leads_of_walkChunks hfmt hsize
    obtain rfl | ⟨size, hlength, rfl⟩ := file_of_behindHeader hheader
    · exact hsize (congrArg WavState.dataSize (walkChunks_nil {}))
    · have hstate := congrArg Prod.fst (walkChunks_of_leads hleads)
      have hformat : (walkChunks {} body).1.audioFormat = some f.audioFormat :=
        congrArg WavState.audioFormat hstate
      rw [hformat] at hpcm
      refine h f _ _ ⟨size, body, hlength, rfl, hleads⟩ ⟨beq_iff_eq.mp hpcm, ?_, hsize⟩
      exact (congrArg WavState.bitsPerSample hstate).symm.trans hbits

/-! ### Safety

The caller relies on the number of frames that the reader reports. The bytes for them have to be
there, and a division by zero channels must not happen. -/

/-- What a caller may expect of the reader on any file: an error, or as many frames as the header of
the `data` chunk says, each with the value of its samples in this chunk. A frame that misses a byte
has no value. -/
def SafeRead (file : Bytes) : WavResult → Prop
  | .error _                    => True
  | .divisionByZero             => False
  | .audio _ numChannels frames =>
    ∃ f n rest, IsWav file f n rest ∧ f.numChannels = numChannels ∧
      frames.length = n / (2 * numChannels) ∧
      ∀ i < n / (2 * numChannels),
        frames[i]? = some (some (mixFrame (frameSamples numChannels (rest.take n) i)))

/-- There are as many frames as were asked for. -/
theorem length_readFrames (numChannels n : Nat) (file : Bytes) :
    (readFrames numChannels n file).length = n := by
  rw [readFrames_eq, List.length_map, List.length_range]

/-- The frames are read one behind the other. -/
theorem getElem?_readFrames {numChannels n i : Nat} (file : Bytes) (hi : i < n) :
    (readFrames numChannels n file)[i]?
      = some (frameValue numChannels (file.drop (2 * numChannels * i))) := by
  rw [readFrames_eq, List.getElem?_map, List.getElem?_range hi]
  rfl

/-- The reader is safe on a file exactly when the file is refused, or it has a channel and the bytes
of all the frames that the header announces. -/
theorem safe_iff (u : Unspecified) (file : Bytes) :
    SafeRead file (readWAV u (some file)) ↔ ∀ f n rest, IsWav file f n rest → Pcm16 f n →
      f.numChannels ≠ 0 ∧ 2 * f.numChannels * (n / (2 * f.numChannels)) ≤ rest.length := by
  constructor
  · intro hsafe f n rest hwav hpcm
    rw [readWAV_pcm u hwav hpcm] at hsafe
    by_cases hchannels : f.numChannels = 0
    · rw [if_pos hchannels] at hsafe
      exact hsafe.elim
    · rw [if_neg hchannels] at hsafe
      refine ⟨hchannels, ?_⟩
      obtain ⟨f', n', rest', hwav', -, -, hframes⟩ := hsafe
      obtain ⟨rfl, rfl, rfl⟩ := hwav.unique hwav'
      cases hcount : n / (2 * f.numChannels) with
      | zero => exact Nat.zero_le _
      | succ last =>
        -- The last frame has a value, so it is there to its end.
        have hlt : last < n / (2 * f.numChannels) := by omega
        have hlast := hframes last hlt
        rw [getElem?_readFrames rest hlt] at hlast
        by_contra hbeyond
        rw [Nat.mul_succ] at hbeyond
        have hshort : (rest.drop (2 * f.numChannels * last)).length < 2 * f.numChannels := by
          have hpos : 0 < 2 * f.numChannels := by omega
          rw [List.length_drop]
          omega
        rw [frameValue_short hshort] at hlast
        exact Option.some_ne_none _ (Option.some.inj hlast).symm
  · intro h
    by_cases hex : ∃ f n rest, IsWav file f n rest ∧ Pcm16 f n
    · obtain ⟨f, n, rest, hwav, hpcm⟩ := hex
      obtain ⟨hchannels, hrest⟩ := h f n rest hwav hpcm
      rw [readWAV_pcm u hwav hpcm, if_neg hchannels]
      refine ⟨f, n, rest, hwav, rfl, length_readFrames _ _ _, fun i hi => ?_⟩
      -- The bytes of a frame are among those of the last one, and the data chunk has them.
      have hframe : 2 * f.numChannels * (i + 1) ≤ 2 * f.numChannels * (n / (2 * f.numChannels)) :=
        Nat.mul_le_mul_left _ hi
      have hdata : 2 * f.numChannels * (n / (2 * f.numChannels)) ≤ n := Nat.mul_div_le _ _
      rw [getElem?_readFrames rest hi, frameValue_of_le (Nat.le_trans hframe hrest),
        frameSamples_take rest (Nat.le_trans hframe hdata)]
    · obtain ⟨e, herror⟩ := readWAV_error u fun f n rest hwav hpcm => hex ⟨f, n, rest, hwav, hpcm⟩
      rw [herror]
      trivial

/-- A file whose `fmt ` chunk has no channels. -/
def noChannels : Bytes :=
  bytes "RIFF" ++ (leBytes 4 38 ++ (bytes "WAVE" ++ (header (bytes "fmt ") 16
    ++ ([1, 0, 0, 0, 0x44, 0xAC, 0, 0, 0, 0, 0, 0, 0, 0, 16, 0]
      ++ ([] ++ (header (bytes "data") 2 ++ [0, 0]))))))

/-- The file claims two bytes of data and no channel. -/
theorem isWav_noChannels : IsWav noChannels ⟨1, 0, 44100, 16⟩ 2 [0, 0] :=
  ⟨leBytes 4 38, _, rfl, rfl, .fmt (by decide) rfl rfl (.data (by decide))⟩

/-- The reader divides by zero channels. -/
theorem not_safe : ¬ ∀ (u : Unspecified) (file : Bytes), SafeRead file (readWAV u (some file)) := by
  intro h
  have hsafe := h ⟨false, false, false⟩ noChannels
  rw [readWAV_pcm _ isWav_noChannels ⟨rfl, rfl, by decide⟩, if_pos rfl] at hsafe
  exact hsafe

end AiMidi.Proofs.DspCli
