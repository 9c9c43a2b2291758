import AiMidi.Proofs.Scales
import AiMidi.Proofs.Strings.Pads
import Mathlib.Data.List.Chain
import Mathlib.Data.List.GetD
import Mathlib.Data.List.Perm.Subperm

/-!
# `AiMidi.Proofs.Strings.Countermelody`: stepwise in the scale

The pool has each note of the scale in the upper part of the range once (`mem_pool`). Each of these
parts has a whole octave, so the pool is never empty. The walk keeps its note in the pool
and finds it there, and the next place is cut off at the ends of the pool (`nextIdx_bounds`). So
two consecutive notes are the same or neighbours (`adjacent_nextNote`).

`generateCountermelody_stepwise` is the result.

The scale names come from a table, so what is needed of them is decided row by row
(`scaleOrMajor_row`). The walk itself uses only that its note is in the list: `yields_walk` holds
for any list of bytes, and the pool is put in at the end.
-/

set_option autoImplicit false

namespace AiMidi.Proofs.Strings

open AiMidi.Lib AiMidi.Lib.Seeded AiMidi.Theory AiMidi.Theory.StringsEngine

/-! ### The scale

A name that is not in the table gives the major scale. The facts that are needed hold for all rows,
so the name does not matter from here on. -/

/-- The intervals of a scale, those of major when the name is unknown. -/
def scaleOrMajor (scaleName : Bytes) : List Int :=
  if knows scaleName then intervalsOf scaleName else kMajor

/-- They begin with the root and stay within an octave. -/
theorem scaleOrMajor_row (scaleName : Bytes) : (scaleOrMajor scaleName).head? = some 0 ∧
    ∀ interval ∈ scaleOrMajor scaleName, 0 ≤ interval ∧ interval < 12 := by
  rw [scaleOrMajor]
  obtain ⟨hunknown, -⟩ | ⟨hknown, hrow⟩ := Scales.intervalsOf_cases scaleName
  · rw [hunknown]
    exact (Scales.kScales_rows (bytes "major", kMajor) List.mem_cons_self).2.2
  · rw [hknown]
    exact (Scales.kScales_rows (scaleName, intervalsOf scaleName) hrow).2.2

/-- The pitch classes of a scale are the intervals above its key. -/
theorem scalePcs_eq (scaleName : Bytes) {keyPc : Int} (h0 : 0 ≤ keyPc) (h1 : keyPc < 12) :
    scalePcs scaleName keyPc
      = (scaleOrMajor scaleName).map fun interval => (keyPc + interval) % 12 := by
  have hmod : Int.tmod (Int.tmod keyPc 12 + 12) 12 = keyPc := by
    rw [Int.tmod_eq_of_lt h0 h1, Int.tmod_eq_emod_of_nonneg (by omega)]
    omega
  obtain ⟨-, hrange⟩ := scaleOrMajor_row scaleName
  have hfor : intervalsFor scaleName keyPc
      = (intervalsOf scaleName).map fun interval => Int.tmod (interval + keyPc) 12 := by
    rw [intervalsFor, hmod]
  rw [scalePcs, hfor]
  -- An unknown scale falls back to the major intervals, a known one has its own.
  obtain ⟨hunknown, hnil⟩ | ⟨hknown, hrow⟩ := Scales.intervalsOf_cases scaleName
  · rw [hnil, scaleOrMajor, hunknown]
    rw [scaleOrMajor, hunknown] at hrange
    refine List.map_congr_left fun interval hmem => ?_
    obtain ⟨hlow, -⟩ := hrange interval hmem
    exact Int.tmod_eq_emod_of_nonneg (by omega)
  · rw [scaleOrMajor, hknown] at hrange ⊢
    have hne : intervalsOf scaleName ≠ [] := by
      obtain ⟨-, -, hhead, -⟩ := Scales.kScales_rows (scaleName, intervalsOf scaleName) hrow
      intro hnil
      rw [hnil] at hhead
      exact absurd hhead (by simp)
    rw [if_neg (by simpa using hne)]
    refine List.map_congr_left fun interval hmem => ?_
    obtain ⟨hlow, -⟩ := hrange interval hmem
    rw [Int.tmod_eq_emod_of_nonneg (by omega), Int.add_comm]

/-! ### The pool

The pool is filled octave by octave and sorted, with duplicates left out. Its notes are those of the
scale in the upper part of the range. -/

section

variable {pcs : List Int} {range : SectionRange}

/-- The notes that the octaves of a range have for the pitch classes. -/
theorem mem_octaves (hrange : Wide range) (hpcs : ∀ pc ∈ pcs, 0 ≤ pc ∧ pc < 12) {n : Int}
    (hlow : range.min + 6 ≤ n) (hhigh : n ≤ range.max) :
    n ∈ ((List.range (Int.tdiv range.max 12 + 1 - Int.tdiv range.min 12 + 1).toNat).map
      fun i : Nat => Int.tdiv range.min 12 + i).flatMap
        (fun oct => pcs.map fun pc => oct * 12 + Int.tmod pc 12) ↔ n % 12 ∈ pcs := by
  have hmin := hrange.min
  -- The octaves are counted from zero, so truncated and floored division agree.
  rw [Int.tdiv_eq_ediv_of_nonneg hmin, Int.tdiv_eq_ediv_of_nonneg (by omega), List.mem_flatMap]
  constructor
  · rintro ⟨oct, -, hn⟩
    obtain ⟨pc, hpc, rfl⟩ := List.mem_map.mp hn
    obtain ⟨h0, h1⟩ := hpcs pc hpc
    rw [Int.tmod_eq_of_lt h0 h1]
    have hmod : (oct * 12 + pc) % 12 = pc := by omega
    rwa [hmod]
  · intro hn
    -- The octave of the note is among those listed, and its class is in the pool.
    refine ⟨n / 12, List.mem_map.mpr ⟨(n / 12 - range.min / 12).toNat, ?_, by omega⟩,
      List.mem_map.mpr ⟨n % 12, hn, ?_⟩⟩
    · rw [List.mem_range]
      omega
    · rw [Int.tmod_eq_of_lt (by omega) (by omega)]
      omega

/-- The notes of the pitch classes in the upper part of the range. An octave of it has each of
them, so there is no need for other notes. -/
theorem mem_scaleNotes (hrange : Wide range) (hpcs : ∀ pc ∈ pcs, 0 ≤ pc ∧ pc < 12) (hne : pcs ≠ [])
    {n : Int} :
    n ∈ scaleNotes pcs range ↔ range.min + 6 ≤ n ∧ n ≤ range.max ∧ n % 12 ∈ pcs := by
  -- All octaves of the range are gone through, and only notes of the range are kept.
  have hpushed : ∀ m, m ∈ pushNew (fun n => n ≥ range.min + 6 && n ≤ range.max)
      (((List.range (Int.tdiv range.max 12 + 1 - Int.tdiv range.min 12 + 1).toNat).map
        fun i : Nat => Int.tdiv range.min 12 + i).flatMap
          fun oct => pcs.map fun pc => oct * 12 + Int.tmod pc 12) ↔
      range.min + 6 ≤ m ∧ m ≤ range.max ∧ m % 12 ∈ pcs := by
    intro m
    rw [mem_pushNew, Bool.and_eq_true, decide_eq_true_iff, decide_eq_true_iff]
    constructor
    · rintro ⟨hmem, hlow, hhigh⟩
      exact ⟨hlow, hhigh, (mem_octaves hrange hpcs hlow hhigh).mp hmem⟩
    · rintro ⟨hlow, hhigh, hmem⟩
      exact ⟨(mem_octaves hrange hpcs hlow hhigh).mpr hmem, hlow, hhigh⟩
  -- The octave above the narrowed minimum has a note of each class, so nothing falls back.
  obtain ⟨pc, hpc⟩ := List.exists_mem_of_ne_nil pcs hne
  obtain ⟨h0, h1⟩ := hpcs pc hpc
  have hroom := hrange.room
  have hsome : pushNew (fun n => n ≥ range.min + 6 && n ≤ range.max) _ ≠ [] :=
    List.ne_nil_of_mem ((hpushed (range.min + 6 + (pc - (range.min + 6)) % 12)).mpr
      ⟨by omega, by omega, by
        have hmod : (range.min + 6 + (pc - (range.min + 6)) % 12) % 12 = pc := by omega
        rwa [hmod]⟩)
  rw [scaleNotes, if_neg hsome, List.mem_insertionSort, hpushed]

/-- Whatever the notes are, they ascend. -/
theorem scaleNotes_ascending (pcs : List Int) (range : SectionRange) :
    (scaleNotes pcs range).Pairwise (· < ·) := by
  have hsorted : ∀ notes : List Int, notes.Nodup →
      (notes.insertionSort (· ≤ ·)).Pairwise (· < ·) := by
    intro notes hnodup
    have hle := List.pairwise_insertionSort (· ≤ ·) notes
    have hne := (List.perm_insertionSort (· ≤ ·) notes).nodup_iff.mpr hnodup
    exact (hle.and hne).imp fun h => lt_of_le_of_ne h.1 h.2
  rw [scaleNotes]
  apply hsorted
  split
  · decide
  · exact nodup_pushNew _ _

end

/-- The notes of a countermelody. -/
def pool (key scaleName : Bytes) (stringsSection : StringsSection) : List Int :=
  scaleNotes (scalePcs scaleName (parseRootPc key)) (rangeFor stringsSection)

section

variable {key scaleName : Bytes} {stringsSection : StringsSection}

/-- The pool holds exactly the notes of the scale within the narrowed range. -/
theorem mem_pool {n : Int} : n ∈ pool key scaleName stringsSection ↔
    (rangeFor stringsSection).min + 6 ≤ n ∧ n ≤ (rangeFor stringsSection).max ∧
      ∃ interval ∈ scaleOrMajor scaleName, n % 12 = (parseRootPc key + interval) % 12 := by
  obtain ⟨h0, h1⟩ := GuitarChords.keyTable_range key
  have hhead := (scaleOrMajor_row scaleName).1
  have hpcs := scalePcs_eq scaleName h0 h1
  -- The pitch classes of the scale are below twelve, and there is one at least.
  have hrange : ∀ pc ∈ scalePcs scaleName (parseRootPc key), 0 ≤ pc ∧ pc < 12 := by
    intro pc hpc
    rw [parseRootPc, hpcs] at hpc
    obtain ⟨interval, -, rfl⟩ := List.mem_map.mp hpc
    omega
  have hne : scalePcs scaleName (parseRootPc key) ≠ [] := by
    rw [parseRootPc, hpcs, Ne, List.map_eq_nil_iff]
    intro hnil
    rw [hnil] at hhead
    exact absurd hhead (by simp)
  rw [pool, mem_scaleNotes (wide_rangeFor stringsSection) hrange hne, parseRootPc, hpcs,
    List.mem_map]
  simp only [eq_comm]

/-- The pool is never empty, whatever the key, the scale and the section. -/
theorem pool_ne_nil : pool key scaleName stringsSection ≠ [] := by
  have hroot : (0 : Int) ∈ scaleOrMajor scaleName :=
    List.mem_of_mem_head? (scaleOrMajor_row scaleName).1
  have hroom := (wide_rangeFor stringsSection).room
  have hmem : (rangeFor stringsSection).min + 6
      + (parseRootPc key - ((rangeFor stringsSection).min + 6)) % 12
        ∈ pool key scaleName stringsSection :=
    mem_pool.mpr ⟨by omega, by omega, 0, hroot, by omega⟩
  exact List.ne_nil_of_mem hmem

variable (key scaleName stringsSection) in
/-- The pool is small, and its notes are bytes. -/
theorem pool_bounds : (pool key scaleName stringsSection).length < 2 ^ 64 ∧
    ∀ n ∈ pool key scaleName stringsSection, 0 ≤ n ∧ n < 256 := by
  have hmin := (wide_rangeFor stringsSection).min
  have hmax := (wide_rangeFor stringsSection).max
  have hrange : ∀ n ∈ pool key scaleName stringsSection, 0 ≤ n ∧ n < 128 := by
    intro n hn
    obtain ⟨hlow, hhigh, -⟩ := mem_pool.mp hn
    omega
  -- The pool has no note twice and lies below 128, so it has 128 notes at most.
  have hsub : pool key scaleName stringsSection ⊆
      (List.range 128).map fun i : Nat => (i : Int) := by
    intro n hn
    obtain ⟨h0, hlt⟩ := hrange n hn
    exact List.mem_map.mpr ⟨n.toNat, List.mem_range.mpr (by omega), by omega⟩
  have hnodup : (pool key scaleName stringsSection).Nodup :=
    (scaleNotes_ascending _ _).imp fun h => ne_of_lt h
  have hlen := (List.subperm_of_subset hnodup hsub).length_le
  rw [List.length_map, List.length_range] at hlen
  refine ⟨by omega, fun n hn => ?_⟩
  obtain ⟨h0, hlt⟩ := hrange n hn
  exact ⟨h0, by omega⟩

end

/-! ### The walk

The walk goes one place up or down in the pool, and stays where it is at an end. The place of a note
is found by its value, which is unique there. -/

/-- Two notes of a list in the same place or next to each other. -/
def Adjacent (notes : List Int) (a b : Int) : Prop :=
  ∃ i j : Nat, notes[i]? = some a ∧ notes[j]? = some b ∧ (i = j ∨ i + 1 = j ∨ j + 1 = i)

section

variable {notes : List Int}

/-- The place of the next note is a place of the pool. -/
theorem nextIdx_bounds (hne : notes ≠ []) (current direction : Int) :
    0 ≤ nextIdx notes current direction ∧ nextIdx notes current direction < notes.length := by
  have hpos := List.length_pos_iff.mpr hne
  rw [nextIdx]
  omega

/-- The next note of the walk is a neighbour of the current one in the pool. -/
theorem adjacent_nextNote {current direction : Int} (hmem : current ∈ notes)
    (hdir : direction = 1 ∨ direction = -1) :
    Adjacent notes current (nextNote notes current direction) := by
  obtain ⟨h0, hlt⟩ := nextIdx_bounds (List.ne_nil_of_mem hmem) current direction
  cases hfound : notes.idxOf? current with
  | none => exact absurd hmem (List.idxOf?_eq_none_iff.mp hfound)
  | some i =>
    obtain ⟨hi, hget, -⟩ := List.idxOf?_eq_some_iff.mp hfound
    have hlast : (nextIdx notes current direction).toNat < notes.length := by omega
    have hplace : nextIdx notes current direction
        = max 0 (min ((notes.length : Int) - 1) (i + direction)) := by
      rw [nextIdx, hfound]
    refine ⟨i, (nextIdx notes current direction).toNat, ?_, ?_, by omega⟩
    · rw [List.getElem?_eq_getElem hi, hget]
    · rw [nextNote, List.getD_eq_getElem _ _ hlast, List.getElem?_eq_getElem hlast]

/-- Neighbours in the pool are notes of the pool. -/
theorem Adjacent.mem {a b : Int} (h : Adjacent notes a b) : a ∈ notes ∧ b ∈ notes := by
  obtain ⟨i, j, ha, hb, -⟩ := h
  exact ⟨List.mem_of_getElem? ha, List.mem_of_getElem? hb⟩

/-- The pitches of a line. -/
def pitches (out : List MidiEvent) : List Int := out.map fun e => (e.note.toNat : Int)

/-- The line stays in the list, and from each note to the next in its place or moves to a
neighbour. -/
structure Walks (notes : List Int) (out : List MidiEvent) : Prop where
  mem : ∀ n ∈ pitches out, n ∈ notes
  steps : (pitches out).IsChain (Adjacent notes)

/-- No note is a walk. -/
theorem walks_nil : Walks notes [] := ⟨fun _ hn => absurd hn List.not_mem_nil, .nil⟩

/-- The rest of a walk that is at the note `current`. -/
structure WalksFrom (notes : List Int) (current : Int) (out : List MidiEvent) : Prop
    extends Walks notes out where
  head : ∀ n ∈ (pitches out).head?, n = current

/-- The walk over the beats goes by neighbours of the pool from where it starts. -/
theorem yields_walk (hbyte : ∀ n ∈ notes, 0 ≤ n ∧ n < 256) (channel : UInt8) {current : Int}
    (hmem : current ∈ notes) (beats : List (Nat × Nat)) :
    Yields (walk notes channel current beats) (WalksFrom notes current) := by
  induction beats generalizing current with
  | nil => exact yields_pure ⟨walks_nil, fun n hn => by simp [pitches] at hn⟩
  | cons place beats ih =>
    refine yields_bind_any fun barStart => yields_bind_any fun beatTick => ?_
    refine yields_bind_any fun k => yields_bind_any fun tickOff => ?_
    refine yields_bind_any fun up => yields_bind_any fun turn => ?_
    -- Twice one or the other way.
    have hstep : Adjacent notes current (nextNote notes current
        (if turn = 0 then -(if up = 0 then 1 else -1) else if up = 0 then 1 else -1)) := by
      apply adjacent_nextNote hmem
      split <;> split <;> simp
    refine yields_bind (ih hstep.mem.2) fun rest hrest => yields_pure ?_
    have hnote : ((u8cast current).toNat : Int) = current := by
      obtain ⟨h0, hlt⟩ := hbyte current hmem
      rw [u8cast_toNat h0 hlt]
      omega
    have hpitches : pitches (makeNote beatTick tickOff (u8cast current) (u8cast (65 + k)) channel
        :: rest) = current :: pitches rest := congrArg (· :: pitches rest) hnote
    refine ⟨⟨?_, ?_⟩, ?_⟩
    · rw [hpitches, List.forall_mem_cons]
      exact ⟨hmem, hrest.mem⟩
    · rw [hpitches]
      refine hrest.steps.cons fun n hn => ?_
      rw [hrest.head n hn]
      exact hstep
    · rw [hpitches]
      exact fun n hn => (Option.some.inj hn).symm

/-- The walk from any note of the list. -/
theorem yields_start (hlen : notes.length < 2 ^ 64) (hbyte : ∀ n ∈ notes, 0 ≤ n ∧ n < 256)
    (hne : notes ≠ []) (channel : UInt8) (beats : List (Nat × Nat)) :
    Yields (do
      let k ← draw (UInt64.ofNat notes.length)
      walk notes channel (notes.getD k 0) beats) (Walks notes) := by
  have hsize : (UInt64.ofNat notes.length).toNat = notes.length := UInt64.toNat_ofNat_of_lt' hlen
  have hpos := List.length_pos_iff.mpr hne
  refine yields_bind (yields_draw (by omega)) fun k hk => ?_
  rw [hsize] at hk
  have hstart : notes.getD k 0 ∈ notes := by
    rw [List.getD_eq_getElem _ _ hk]
    exact List.getElem_mem hk
  exact (yields_walk hbyte channel hstart beats).mono fun out hout => hout.toWalks

end

/-! ### The result -/

/-- Every generated countermelody is a walk by neighbours of its pool. -/
theorem generateCountermelody_walks {key scaleName : Bytes} {progression : List Bytes} {bars : Int}
    {stringsSection : StringsSection} {seed : Seed} : Walks (pool key scaleName stringsSection)
      (generateCountermelody key scaleName progression bars stringsSection seed).val := by
  rw [generateCountermelody]
  split
  · exact walks_nil
  · obtain ⟨hlen, hbyte⟩ := pool_bounds key scaleName stringsSection
    exact yields_run (yields_start hlen hbyte pool_ne_nil _ _) seed

/-- A walk over ascending notes. No place that it looks up is outside of the list. -/
structure Stepwise (notes : List Int) (out : List MidiEvent) : Prop extends Walks notes out where
  ascending : notes.Pairwise (· < ·)
  nonempty : notes ≠ []
  valid : ∀ current direction,
    0 ≤ nextIdx notes current direction ∧ nextIdx notes current direction < notes.length

/-- A countermelody moves stepwise in the pool, which has the notes of the scale in the upper part
of the range. -/
theorem generateCountermelody_stepwise (key scaleName : Bytes) (progression : List Bytes)
    (bars : Int) (stringsSection : StringsSection) (seed : Seed) :
    Stepwise (pool key scaleName stringsSection)
        (generateCountermelody key scaleName progression bars stringsSection seed).val ∧
      ∀ n, n ∈ pool key scaleName stringsSection ↔
        (rangeFor stringsSection).min + 6 ≤ n ∧ n ≤ (rangeFor stringsSection).max ∧
          ∃ interval ∈ scaleOrMajor scaleName, n % 12 = (parseRootPc key + interval) % 12 := by
  constructor
  · exact ⟨generateCountermelody_walks, scaleNotes_ascending _ _, pool_ne_nil,
      nextIdx_bounds pool_ne_nil⟩
  · exact fun n => mem_pool

end AiMidi.Proofs.Strings
