import AiMidi.Proofs.Counterpoint.Consonance
import AiMidi.Theory.StringsEngine

/-!
# `AiMidi.Proofs.SingleVoice`: lines of one voice

A counterpoint gives each bass note a slot, and each note of the line the slot, or half of it, less
five ticks. So the notes are behind each other when there are six ticks for each of them, and with
fewer ticks the first note already ends where it begins, or before (`counterpoint_iff`).

A countermelody has a note on each beat, and the ones on the even beats last for almost two beats.
They overlap the notes behind them (`generateCountermelody_overlaps`).

`Within` keeps the notes of a part of the line in the ticks of its slots, so parts are put together
without looking into them (`Within.append`). The other direction looks at the first note alone: with
less than six ticks its end is not behind its start, or the cast of it wraps (`room_of_line`).
-/

set_option autoImplicit false

namespace AiMidi.Proofs.SingleVoice

open AiMidi.Lib AiMidi.Lib.Seeded AiMidi.Theory

/-! ### Lines

A line is one voice when each note ends at or before the start of the next. Notes must also have a
length, so an end that has wrapped is no line. -/

/-- One event behind the other, up to the tick `last`. -/
structure Line (last : Int) (out : List MidiEvent) : Prop where
  positive : ∀ e ∈ out, e.tickOn.toNat < e.tickOff.toNat
  ordered : out.IsChain fun e e' => e.tickOff.toNat ≤ e'.tickOn.toNat
  ends : ∀ e ∈ out.getLast?, (e.tickOff.toNat : Int) ≤ last

/-- No note is a line up to any tick. -/
theorem line_nil (last : Int) : Line last [] :=
  ⟨fun _ he => absurd he List.not_mem_nil, .nil, fun _ he => by simp at he⟩

/-- Each event takes a tick, so a long line ends late. -/
theorem Line.length_le {last : Int} {e : MidiEvent} {out : List MidiEvent}
    (h : Line last (e :: out)) : (e.tickOff.toNat : Int) + out.length ≤ last := by
  induction out generalizing e with
  | nil =>
    have hend := h.ends e rfl
    simpa using hend
  | cons e' out ih =>
    obtain ⟨hbehind, hordered⟩ := List.isChain_cons_cons.mp h.ordered
    have hrest : Line last (e' :: out) := ⟨fun a ha => h.positive a (List.mem_cons_of_mem e ha),
      hordered, fun a ha => h.ends a (by rwa [List.getLast?_cons_cons])⟩
    have hle := ih hrest
    have hpos := h.positive e' (by simp)
    rw [List.length_cons]
    omega

/-- The events are behind each other in the ticks from `first` to `last`. -/
structure Within (first last : Int) (out : List MidiEvent) : Prop where
  bounds : ∀ e ∈ out, first ≤ e.tickOn.toNat ∧ e.tickOn.toNat < e.tickOff.toNat ∧
    (e.tickOff.toNat : Int) ≤ last
  ordered : out.Pairwise fun e e' => e.tickOff.toNat ≤ e'.tickOn.toNat

/-- Notes within one stretch of ticks and notes within the next one lie in the two together. -/
theorem Within.append {first middle last : Int} {out rest : List MidiEvent}
    (h : Within first middle out) (h' : Within middle last rest) (hfirst : first ≤ middle)
    (hlast : middle ≤ last) : Within first last (out ++ rest) := by
  constructor
  · intro e he
    obtain he | he := List.mem_append.mp he
    · have := h.bounds e he
      omega
    · have := h'.bounds e he
      omega
  · refine List.pairwise_append.mpr ⟨h.ordered, h'.ordered, fun e he e' he' => ?_⟩
    have := h.bounds e he
    have := h'.bounds e' he'
    omega

/-- Notes that follow one another within bounds are one voice. -/
theorem Within.line {first last : Int} {out : List MidiEvent} (h : Within first last out) :
    Line last out :=
  ⟨fun e he => (h.bounds e he).2.1, h.ordered.isChain,
    fun e he => (h.bounds e (List.mem_of_mem_getLast? he)).2.2⟩

/-! ### Counterpoint

A round emits the notes over one bass note inside the slot of that note. The notes are drawn, their
ticks are not. -/

section

open CounterpointEngine Counterpoint

/-- The choice among candidate notes meets no signed overflow. -/
theorem safe_choose (notes : List Int) (bassPc : Int) :
    Safe (choose notes bassPc) fun _ => True := by
  rw [choose]
  split
  · exact safe_pure trivial
  · exact safe_bind (safe_draw_any _) fun k _ => safe_pure trivial

/-- The choice of a passing note meets no signed overflow. -/
theorem safe_choosePassing (prevNote bassPc : Int) :
    Safe (choosePassing prevNote bassPc) fun _ => True := by
  refine safe_bind (safe_draw_any 2) fun k _ => ?_
  dsimp only
  generalize (if k = 0 then (1 : Int) else -1) = direction
  split
  · exact safe_choose _ bassPc
  · exact safe_choose _ bassPc

/-- The choice of a velocity meets no signed overflow. -/
theorem safe_chooseVelocity : Safe chooseVelocity fun _ => True :=
  safe_bind (safe_draw_any 41) fun _ _ => safe_pure trivial

/-- A note within 31 bits is emitted at its own ticks. -/
theorem safe_emit {tick dur : Int} (chosen : Int) (h0 : 0 ≤ tick) (h1 : 0 ≤ tick + dur)
    (h2 : tick < 2 ^ 31) (h3 : tick + dur < 2 ^ 31) : Safe (emit tick dur chosen) fun e =>
      (e.tickOn.toNat : Int) = tick ∧ (e.tickOff.toNat : Int) = tick + dur := by
  refine safe_bind (safe_lift (Sanitized.safe_u32 h0 (by omega))) fun tickOn hon => ?_
  refine safe_bind (safe_lift (Sanitized.safe_i32 (by omega) h3)) fun last hlast => ?_
  subst hlast
  refine safe_bind (safe_lift (Sanitized.safe_u32 h1 (by omega))) fun tickOff hoff => ?_
  exact safe_bind safe_chooseVelocity fun velocity _ => safe_pure ⟨hon, hoff⟩

section

variable (cf : List Int) (n : Nat) {slot : Int} {i : Nat} (prev : Previous) (bassPc : Int)

/-- Slots of six ticks or more are fewer than there are ticks. -/
theorem slot_bounds (hslot : 6 ≤ slot) (hend : (i + 1) * slot < 2 ^ 31) :
    (i : Int) < 2 ^ 31 ∧ 0 ≤ i * slot ∧ (i + 1 : Int) * slot = i * slot + slot := by
  have hone : (i : Int) * 1 ≤ i * slot := Int.mul_le_mul_of_nonneg_left (by omega) (by omega)
  rw [Int.add_mul] at hend ⊢
  omega

/-- A round of the first species emits notes within its slot. -/
theorem safe_firstRound (hslot : 6 ≤ slot) (hend : (i + 1) * slot < 2 ^ 31) :
    Safe (firstRound cf n slot i prev bassPc) fun r => Within (i * slot) ((i + 1) * slot) r.1 := by
  obtain ⟨hi, hstart, hnext⟩ := slot_bounds hslot hend
  rw [hnext] at hend ⊢
  have hcast : i32cast i = i := i32cast_of_range (by omega) hi
  refine safe_bind (safe_lift (Sanitized.safe_i32 (by rw [hcast]; omega) (by rw [hcast]; omega)))
    fun tick htick => ?_
  rw [hcast] at htick
  refine safe_bind (safe_lift (Sanitized.safe_i32 (by omega) (by omega))) fun dur hdur => ?_
  refine safe_bind (safe_choose _ bassPc) fun chosen _ => ?_
  refine safe_bind (safe_emit chosen (by omega) (by omega) (by omega) (by omega))
    fun e ⟨hon, hoff⟩ => safe_pure ⟨?_, List.pairwise_singleton _ _⟩
  rw [List.forall_mem_singleton]
  omega

/-- A round of the second species emits notes within its slot. -/
theorem safe_secondRound (hslot : 12 ≤ slot) (hend : (i + 1) * slot < 2 ^ 31) :
    Safe (secondRound cf n slot i prev bassPc) fun r => Within (i * slot) ((i + 1) * slot) r.1 := by
  obtain ⟨hi, hstart, hnext⟩ := slot_bounds (by omega) hend
  rw [hnext] at hend ⊢
  -- The products stay within `int`, so nothing wraps and nothing overflows.
  have hcast : i32cast i = i := i32cast_of_range (by omega) hi
  have hhalf : Int.tdiv slot 2 = slot / 2 := Int.tdiv_eq_ediv_of_nonneg (by omega)
  rw [secondRound, hhalf]
  refine safe_bind (safe_lift (Sanitized.safe_i32 (by omega) (by omega))) fun dur hdur => ?_
  refine safe_bind (safe_lift (Sanitized.safe_i32 (by rw [hcast]; omega) (by rw [hcast]; omega)))
    fun baseTick hbase => ?_
  rw [hcast] at hbase
  refine safe_bind (safe_choose _ bassPc) fun chosen _ => ?_
  refine safe_bind (safe_emit chosen (by omega) (by omega) (by omega) (by omega))
    fun down ⟨hon, hoff⟩ => ?_
  refine safe_bind (safe_lift (Sanitized.safe_i32 (by omega) (by omega))) fun tick htick => ?_
  refine safe_bind (safe_choosePassing chosen bassPc) fun passing _ => ?_
  refine safe_bind (safe_emit passing (by omega) (by omega) (by omega) (by omega))
    fun up ⟨hon', hoff'⟩ => safe_pure ⟨?_, ?_⟩
  -- Both notes lie in the slot, and the second does not begin before the first ends.
  · rw [List.forall_mem_cons, List.forall_mem_singleton]
    omega
  · rw [List.pairwise_pair]
    omega

end

/-- The rule for the loop over at most `n` bass notes. -/
theorem safe_overBass {round : Nat → Previous → Int → Seeded (List MidiEvent × Previous)}
    {Q : Nat → Previous → Int → List MidiEvent → Previous → Prop} {n : Nat}
    (h : ∀ i < n, ∀ prev bassPc, Safe (round i prev bassPc) fun r => Q i prev bassPc r.1 r.2)
    {i : Nat} (prev : Previous) {bass : List Int} (hlen : i + bass.length ≤ n) :
    Safe (overBass round i prev bass) (Rounds Q i prev bass) := by
  induction bass generalizing i prev with
  | nil => exact safe_pure (.nil i prev)
  | cons bassPc bass ih =>
    rw [List.length_cons] at hlen
    refine safe_bind (h i (by omega) prev bassPc) fun r hr => ?_
    exact safe_bind (ih r.2 (by omega)) fun rest hrest => safe_pure (.cons hr hrest)

/-- Slots behind each other. -/
theorem Rounds.within {slot : Int} (hslot : 0 ≤ slot) {i : Nat} {prev : Previous} {bass : List Int}
    {out : List MidiEvent}
    (h : Rounds (fun i _ _ out _ => Within (i * slot) ((i + 1) * slot) out) i prev bass out) :
    Within (i * slot) ((i + bass.length) * slot) out := by
  induction h with
  | nil => exact ⟨fun e he => absurd he List.not_mem_nil, .nil⟩
  | @cons i prev next bassPc bass out rest hround hrest ih =>
    have hlen : (i : Int) + (bassPc :: bass).length = ((i + 1 : Nat) : Int) + bass.length := by
      rw [List.length_cons]
      omega
    have hnext : ((i + 1 : Nat) : Int) = i + 1 := Int.natCast_succ i
    rw [hlen]
    rw [hnext] at ih ⊢
    refine hround.append ih ?_ ?_
    · exact Int.mul_le_mul_of_nonneg_right (by omega) hslot
    · exact Int.mul_le_mul_of_nonneg_right (by omega) hslot

/-! ### Requests

The slots divide the length of the bass among its notes. The products of the division may overflow,
and the condition asks that the total does not. -/

/-- The loop of the species. -/
def roundOf : CounterpointSpecies → List Int → Nat → Int → Nat → Previous → Int →
    Seeded (List MidiEvent × Previous)
  | .first  => firstRound
  | .second => secondRound

/-- The ticks that a bass note takes: six for each note over it. -/
def neededTicks : CounterpointSpecies → Int
  | .first  => 6
  | .second => 12

/-- A round of either species emits notes within its slot, if the slot has the needed ticks. -/
theorem safe_roundOf (species : CounterpointSpecies) (cf : List Int) (n : Nat) {slot : Int}
    {i : Nat} (prev : Previous) (bassPc : Int) (hslot : neededTicks species ≤ slot)
    (hend : (i + 1) * slot < 2 ^ 31) : Safe (roundOf species cf n slot i prev bassPc) fun r =>
      Within (i * slot) ((i + 1) * slot) r.1 := by
  cases species with
  | first => exact safe_firstRound cf n prev bassPc hslot hend
  | second => exact safe_secondRound cf n prev bassPc hslot hend

section

variable {req : CounterpointRequest}

/-- A request with both voices runs the rounds of its species over the bass notes. -/
theorem generate_eq (hbass : req.bassNotes ≠ []) (hcf : req.cantusFirmus ≠ []) :
    generate req = (do
      let slot ← slotTicks req
      run req.seed (overBass (roundOf req.species req.cantusFirmus req.bassNotes.length slot) 0 {}
        req.bassNotes)) := by
  rw [generate, if_neg (not_or.mpr ⟨hbass, hcf⟩)]
  cases req.species <;> rfl

/-- When nothing wraps, the total of the ticks fits an `int`. -/
theorem total_fits {bars ppq n : Int} (h : (Sanitized.i32 (bars * ppq) >>= fun beats =>
    Sanitized.i32 (beats * 4) >>= fun total => divide total n).wrapped = false) :
    bars * ppq * 4 < 2 ^ 31 := by
  obtain ⟨-, htotal⟩ := Sanitized.wrapped_bind_i32.mp h
  obtain ⟨⟨-, hfits⟩, -⟩ := Sanitized.wrapped_bind_i32.mp htotal
  exact hfits

/-- If the length in ticks is computed without overflow, it fits in 31 bits. -/
theorem slotTicks_fits (hppq : req.ppq = 480) (h : (slotTicks req).wrapped = false) :
    req.bars * 1920 < 2 ^ 31 := by
  have hfits := total_fits h
  rw [hppq] at hfits
  omega

/-- The ticks of a slot are an equal share of the length, rounded down. -/
theorem safe_slotTicks (hbars : 1 ≤ req.bars) (hppq : req.ppq = 480)
    (hfits : req.bars * 1920 < 2 ^ 31) (hbass : req.bassNotes ≠ [])
    (hlen : (req.bassNotes.length : Int) < 2 ^ 31) : Sanitized.Safe (slotTicks req) fun slot =>
      slot = req.bars * 1920 / req.bassNotes.length := by
  have hpos := List.length_pos_iff.mpr hbass
  have hle : req.bars * 1920 / req.bassNotes.length ≤ req.bars * 1920 :=
    Int.ediv_le_self _ (by omega)
  have hnonneg : 0 ≤ req.bars * 1920 / req.bassNotes.length :=
    Int.ediv_nonneg (by omega) (by omega)
  rw [slotTicks, hppq]
  refine Sanitized.safe_bind (Sanitized.safe_i32 (by omega) (by omega)) fun beats hbeats => ?_
  refine Sanitized.safe_bind (Sanitized.safe_i32 (by omega) (by omega)) fun total htotal => ?_
  have hsum : total = req.bars * 1920 := by omega
  rw [divide, i32cast_of_range (by omega) hlen, if_neg (by omega), hsum,
    Int.tdiv_eq_ediv_of_nonneg (by omega)]
  exact Sanitized.safe_i32 (by omega) (by omega)

/-- With room for every note the line is one of a single voice. -/
theorem safe_generate (hbars : 1 ≤ req.bars) (hppq : req.ppq = 480)
    (hfits : req.bars * 1920 < 2 ^ 31) (hbass : req.bassNotes ≠ []) (hcf : req.cantusFirmus ≠ [])
    (hroom : neededTicks req.species * req.bassNotes.length ≤ req.bars * 1920) :
    Sanitized.Safe (generate req) (Line (req.bars * 1920)) := by
  have hpos := List.length_pos_iff.mpr hbass
  have hsix : 6 ≤ neededTicks req.species := by cases req.species <;> decide
  have hlen : (req.bassNotes.length : Int) < 2 ^ 31 := by
    have hmul := Int.mul_le_mul_of_nonneg_right hsix (Int.natCast_nonneg req.bassNotes.length)
    omega
  rw [generate_eq hbass hcf]
  refine Sanitized.safe_bind (safe_slotTicks hbars hppq hfits hbass hlen) fun slot hslot => ?_
  have hneeded : neededTicks req.species ≤ slot := by
    rw [hslot]
    exact (Int.le_ediv_iff_mul_le (by omega)).mpr hroom
  have htotal : req.bassNotes.length * slot ≤ req.bars * 1920 := by
    rw [hslot]
    exact Int.mul_ediv_self_le (by omega)
  refine safe_run ((safe_overBass (n := req.bassNotes.length)
    (Q := fun i _ _ out _ => Within (i * slot) ((i + 1) * slot) out) ?_ {} (by omega)).mono
      fun out hout => ?_) req.seed
  -- A round stays in its slot, and the slots end with the bars.
  · intro i hi prev bassPc
    have hend : (i + 1 : Int) * slot ≤ req.bassNotes.length * slot :=
      Int.mul_le_mul_of_nonneg_right (by omega) (by omega)
    exact safe_roundOf req.species _ _ prev bassPc hneeded (by omega)
  -- The rounds follow one another, so their notes are one voice.
  · have hline := (Rounds.within (by omega) hout).line
    rw [Int.natCast_zero, Int.zero_add] at hline
    exact ⟨hline.positive, hline.ordered, fun e he => Int.le_trans (hline.ends e he) htotal⟩

/-! ### The first note

Where the condition fails, the first note already ends at or before its start. Only its ticks have
to be computed for this, whatever is drawn. -/

/-- The ticks from a note to the next one. -/
def noteTicks (species : CounterpointSpecies) (slot : Int) : Int :=
  match species with
  | .first  => slot
  | .second => Int.tdiv slot 2

/-- The length of a note lies within its slot, and it is long enough exactly for the needed
ticks. -/
theorem noteTicks_bounds (species : CounterpointSpecies) {slot : Int} (h0 : 0 ≤ slot) :
    0 ≤ noteTicks species slot ∧ noteTicks species slot ≤ slot ∧
      (6 ≤ noteTicks species slot ↔ neededTicks species ≤ slot) := by
  have hhalf : Int.tdiv slot 2 = slot / 2 := Int.tdiv_eq_ediv_of_nonneg h0
  cases species with
  | first => exact ⟨h0, Int.le_refl slot, Iff.rfl⟩
  | second =>
    rw [noteTicks, neededTicks, hhalf]
    omega

/-- Where a note ends. -/
theorem yields_emit_off (tick dur chosen : Int) :
    Yields (emit tick dur chosen) fun e => e.tickOff = u32cast (i32cast (tick + dur)) := by
  refine yields_bind_any fun tickOn => ?_
  refine yields_bind (yields_lift (P := fun last => last = i32cast (tick + dur)) rfl)
    fun last hlast => ?_
  refine yields_bind (yields_lift (P := fun tickOff => tickOff = u32cast last) rfl)
    fun tickOff hoff => yields_bind_any fun velocity => yields_pure ?_
  rw [← hlast, ← hoff]
  rfl

/-- The first round starts with a note that ends five ticks before the next one, as the casts see
it. -/
theorem yields_roundOf_zero (species : CounterpointSpecies) (cf : List Int) (n : Nat) {slot : Int}
    (prev : Previous) (bassPc : Int) (h0 : 0 ≤ slot) (h1 : slot < 2 ^ 31) :
    Yields (roundOf species cf n slot 0 prev bassPc) fun r =>
      ∃ e, r.1.head? = some e ∧ e.tickOff = u32cast (noteTicks species slot - 5) := by
  -- The first round starts at tick 0, so only the length of its note matters.
  have hzero : i32cast (i32cast (0 : Nat) * slot) = 0 := by
    have hcast : i32cast 0 = 0 := i32cast_of_range (by decide) (by decide)
    rw [Int.natCast_zero, hcast, Int.zero_mul, hcast]
  have hdur : ∀ ticks : Int, 0 ≤ ticks → ticks < 2 ^ 31 →
      i32cast (0 + i32cast (ticks - 5)) = ticks - 5 := by
    intro ticks hlow hhigh
    have hcast : i32cast (ticks - 5) = ticks - 5 := i32cast_of_range (by omega) (by omega)
    rw [Int.zero_add, hcast, hcast]
  obtain ⟨hlow, hhigh, -⟩ := noteTicks_bounds species h0
  have hend := hdur (noteTicks species slot) hlow (by omega)
  cases species with
  | first =>
    refine yields_bind (yields_lift (P := fun tick => tick = 0) hzero) fun tick htick => ?_
    refine yields_bind (yields_lift (P := fun dur => dur = i32cast (slot - 5)) rfl)
      fun dur hdur => yields_bind_any fun chosen => ?_
    refine yields_bind (yields_emit_off tick dur chosen) fun e he => yields_pure ⟨e, rfl, ?_⟩
    rw [he, htick, hdur]
    exact congrArg u32cast hend
  | second =>
    refine yields_bind (yields_lift (P := fun dur => dur = i32cast (Int.tdiv slot 2 - 5)) rfl)
      fun dur hdur => ?_
    refine yields_bind (yields_lift (P := fun tick => tick = 0) hzero) fun baseTick hbase => ?_
    refine yields_bind_any fun chosen => ?_
    refine yields_bind (yields_emit_off baseTick dur chosen) fun down hdown => ?_
    refine yields_bind_any fun tick => yields_bind_any fun passing => yields_bind_any fun up =>
      yields_pure ⟨down, rfl, ?_⟩
    rw [hdown, hbase, hdur]
    exact congrArg u32cast hend

/-- The whole line starts with the first note of its first round. -/
theorem yields_first (cf : List Int) (n : Nat) {slot : Int} {bass : List Int} (h0 : 0 ≤ slot)
    (h1 : slot < 2 ^ 31) (hbass : bass ≠ []) (species : CounterpointSpecies) :
    Yields (overBass (roundOf species cf n slot) 0 {} bass) fun out =>
      ∃ e rest, out = e :: rest ∧ e.tickOff = u32cast (noteTicks species slot - 5) := by
  obtain ⟨bassPc, bass, rfl⟩ := List.exists_cons_of_ne_nil hbass
  refine yields_bind (yields_roundOf_zero species cf n {} bassPc h0 h1) fun r hr => ?_
  refine yields_bind_any fun rest => yields_pure ?_
  obtain ⟨e, hhead, hoff⟩ := hr
  obtain ⟨more, hmore⟩ := List.head?_eq_some_iff.mp hhead
  exact ⟨e, more ++ rest, by rw [hmore, List.cons_append], hoff⟩

/-- A line of a single voice has no more notes than ticks. -/
theorem length_bassNotes_le (hbass : req.bassNotes ≠ []) (hcf : req.cantusFirmus ≠ [])
    (hline : Line (req.bars * 1920) (generate req).val) :
    (req.bassNotes.length : Int) ≤ req.bars * 1920 := by
  have hlength := (generate_line hbass hcf).length
  -- Each bass note gives one note of the line at least.
  have hnotes : req.bassNotes.length ≤ notesPerBass req.species * req.bassNotes.length := by
    cases req.species
    · exact Nat.le_mul_of_pos_left _ (by decide)
    · exact Nat.le_mul_of_pos_left _ (by decide)
  generalize (generate req).val = out at hline hlength
  -- Notes that follow each other take a tick each, so a line has no more notes than ticks.
  cases out with
  | nil =>
    have hpos := List.length_pos_iff.mpr hbass
    rw [List.length_nil] at hlength
    omega
  | cons e rest =>
    have hle := hline.length_le
    have hpos := hline.positive e List.mem_cons_self
    rw [List.length_cons] at hlength
    omega

/-- A line of a single voice has room for every note. -/
theorem room_of_line (hbars : 1 ≤ req.bars) (hppq : req.ppq = 480) (hbass : req.bassNotes ≠ [])
    (hcf : req.cantusFirmus ≠ []) (h : Sanitized.Safe (generate req) (Line (req.bars * 1920))) :
    req.bars * 1920 < 2 ^ 31 ∧
      neededTicks req.species * req.bassNotes.length ≤ req.bars * 1920 := by
  obtain ⟨hwrapped, hline⟩ := h
  have hlen := length_bassNotes_le hbass hcf hline
  rw [generate_eq hbass hcf] at hwrapped hline
  rw [Sanitized.wrapped_bind, Bool.or_eq_false_iff] at hwrapped
  have hfits := slotTicks_fits hppq hwrapped.1
  have hslot := (safe_slotTicks hbars hppq hfits hbass (by omega)).2
  rw [Sanitized.val_bind, hslot] at hline
  have hpos := List.length_pos_iff.mpr hbass
  have hnonneg : 0 ≤ req.bars * 1920 / req.bassNotes.length :=
    Int.ediv_nonneg (by omega) (by omega)
  have hle : req.bars * 1920 / req.bassNotes.length ≤ req.bars * 1920 :=
    Int.ediv_le_self _ (by omega)
  obtain ⟨e, rest, hout, hoff⟩ := yields_run (yields_first req.cantusFirmus req.bassNotes.length
    hnonneg (by omega) hbass req.species) req.seed
  rw [hout] at hline
  have hends := hline.length_le
  have hpositive := hline.positive e List.mem_cons_self
  have hmod := u32cast_emod (noteTicks req.species (req.bars * 1920 / req.bassNotes.length) - 5)
  rw [← hoff] at hmod
  obtain ⟨hlow, -, hneeded⟩ := noteTicks_bounds req.species hnonneg
  -- With less than six ticks the note ends where it begins, or its end wraps.
  have hsix : 6 ≤ noteTicks req.species (req.bars * 1920 / req.bassNotes.length) := by omega
  exact ⟨hfits, (Int.le_ediv_iff_mul_le (by omega)).mp (hneeded.mp hsix)⟩

/-- There is nothing to do, or the total fits an `int` and has six ticks for each note. -/
def HasRoom (req : CounterpointRequest) : Prop :=
  req.bassNotes = [] ∨ req.cantusFirmus = [] ∨ (req.bars * 1920 < 2 ^ 31 ∧
    neededTicks req.species * req.bassNotes.length ≤ req.bars * 1920)

/-- A counterpoint is a single voice exactly when its slots have room for its notes. -/
theorem counterpoint_iff (hbars : 1 ≤ req.bars) (hppq : req.ppq = 480) :
    Sanitized.Safe (generate req) (Line (req.bars * 1920)) ↔ HasRoom req := by
  by_cases hsome : req.bassNotes ≠ [] ∧ req.cantusFirmus ≠ []
  · obtain ⟨hbass, hcf⟩ := hsome
    constructor
    · exact fun h => .inr (.inr (room_of_line hbars hppq hbass hcf h))
    · rintro (hnil | hnil | ⟨hfits, hroom⟩)
      · exact absurd hnil hbass
      · exact absurd hnil hcf
      · exact safe_generate hbars hppq hfits hbass hcf hroom
  · have hnone : req.bassNotes = [] ∨ req.cantusFirmus = [] := by tauto
    rw [generate, if_pos hnone]
    exact iff_of_true (Sanitized.safe_pure (line_nil _)) (hnone.elim .inl fun h => .inr (.inl h))

end

end

/-! ### Countermelodies

A countermelody walks from beat to beat. Its first note is a half note, so it reaches beyond the
second beat, where the next note starts. -/

section

open StringsEngine

variable {progression : List Bytes} {bars : Int}

/-- The tick of a beat. -/
def beatTick (bar beat : Nat) : UInt32 :=
  (addTick (u32cast ((u32cast bar).toNat * 1920)) (beat * kPpq)).val

/-- A note on the beat, then the rest. -/
theorem yields_walk_cons {P : List MidiEvent → Prop} (pool : List Int) (channel : UInt8)
    {beats : List (Nat × Nat)} (h : ∀ current, Yields (walk pool channel current beats) P)
    (bar beat : Nat) (current : Int) :
    Yields (walk pool channel current ((bar, beat) :: beats)) fun out =>
      ∃ e rest, out = e :: rest ∧ P rest ∧ e.tickOn = beatTick bar beat ∧ e.tickOff =
        (addTick (beatTick bar beat) (if beat % 2 = 0 then kPpq * 2 - 10 else kPpq - 10)).val := by
  -- The computed ticks are kept by equations, and the draws may be any.
  refine yields_bind (yields_lift (P := fun barStart =>
    barStart = u32cast ((u32cast bar).toNat * 1920)) rfl) fun barStart hbar => ?_
  subst hbar
  refine yields_bind (yields_lift (P := fun tick => tick = beatTick bar beat) rfl)
    fun tick htick => ?_
  subst htick
  refine yields_bind_any fun k => ?_
  refine yields_bind (yields_lift (P := fun tickOff => tickOff = (addTick (beatTick bar beat)
    (if beat % 2 = 0 then kPpq * 2 - 10 else kPpq - 10)).val) rfl) fun tickOff hoff => ?_
  refine yields_bind_any fun up => yields_bind_any fun turn => ?_
  exact yields_bind (h _) fun rest hrest => yields_pure ⟨_, rest, rfl, hrest, rfl, hoff⟩

/-- The first note is a half note, and the second one begins a beat behind it. -/
theorem yields_walk_overlap (pool : List Int) (channel : UInt8) (current : Int)
    (beats : List (Nat × Nat)) :
    Yields (walk pool channel current ((0, 0) :: (0, 1) :: beats)) fun out =>
      ∃ e e' rest, out = e :: e' :: rest ∧ e.tickOff.toNat = 950 ∧ e'.tickOn.toNat = 480 := by
  have hrest : ∀ current, Yields (walk pool channel current beats) fun _ => True :=
    fun _ _ => trivial
  have hsecond := yields_walk_cons pool channel hrest 0 1
  refine (yields_walk_cons pool channel hsecond 0 0 current).mono fun out hout => ?_
  obtain ⟨e, rest, rfl, ⟨e', rest', rfl, -, hon, -⟩, -, hoff⟩ := hout
  refine ⟨e, e', rest', rfl, ?_, ?_⟩
  · rw [hoff]
    decide
  · rw [hon]
    decide

/-- The first two notes of a countermelody overlap: one ends after the next begins. -/
theorem generateCountermelody_overlaps (key scaleName : Bytes) (stringsSection : StringsSection)
    (seed : Seed) (hbars : 1 ≤ bars) (hprogression : progression ≠ []) :
    ∃ e e' rest, (generateCountermelody key scaleName progression bars stringsSection seed).val
      = e :: e' :: rest ∧ e.tickOff.toNat = 950 ∧ e'.tickOn.toNat = 480 := by
  have hsome : ¬ (bars < 1 ∨ progression = []) := not_or.mpr ⟨by omega, hprogression⟩
  obtain ⟨beats, hbeats⟩ : ∃ beats, (List.range bars.toNat).flatMap
      (fun bar => (List.range 4).map fun beat => (bar, beat)) = (0, 0) :: (0, 1) :: beats := by
    obtain ⟨m, hm⟩ : ∃ m, bars.toNat = m + 1 := ⟨bars.toNat - 1, by omega⟩
    rw [hm, List.range_succ_eq_map (n := m)]
    exact ⟨_, rfl⟩
  rw [generateCountermelody, if_neg hsome, hbeats]
  exact yields_run (yields_bind_any fun k => yields_walk_overlap _ _ _ beats) seed

/-- A countermelody with any chord is no single voice. -/
theorem not_line_countermelody (key scaleName : Bytes) (stringsSection : StringsSection)
    (seed : Seed) (hbars : 1 ≤ bars) (hprogression : progression ≠ []) (last : Int) :
    ¬ Line last
      (generateCountermelody key scaleName progression bars stringsSection seed).val := by
  intro hline
  obtain ⟨e, e', rest, hout, hoff, hon⟩ :=
    generateCountermelody_overlaps key scaleName stringsSection seed hbars hprogression
  rw [hout] at hline
  have hbehind := (List.isChain_cons_cons.mp hline.ordered).1
  omega

/-- A countermelody is a single voice exactly when it is empty. -/
theorem countermelody_iff (key scaleName : Bytes) (stringsSection : StringsSection)
    (seed : Seed) (hbars : 1 ≤ bars) :
    Sanitized.Safe (generateCountermelody key scaleName progression bars stringsSection seed)
      (Line (bars * 1920)) ↔ progression = [] := by
  constructor
  · intro h
    by_contra hprogression
    exact not_line_countermelody key scaleName stringsSection seed hbars hprogression _ h.2
  · intro hnil
    rw [generateCountermelody, if_pos (.inr hnil)]
    exact Sanitized.safe_pure (line_nil _)

end

/-! ### Both engines -/

/-- A counterpoint is a line of a single voice when it has room for its notes, and a countermelody
only when it has none. -/
theorem singleVoice_iff (req : CounterpointRequest) (key scaleName : Bytes)
    (progression : List Bytes) (bars : Int) (stringsSection : StringsSection) (seed : Seed)
    (hreq : 1 ≤ req.bars) (hppq : req.ppq = 480) (hbars : 1 ≤ bars) :
    (Sanitized.Safe (CounterpointEngine.generate req) (Line (req.bars * 1920)) ↔ HasRoom req) ∧
      (Sanitized.Safe (StringsEngine.generateCountermelody key scaleName progression bars
        stringsSection seed) (Line (bars * 1920)) ↔ progression = []) :=
  ⟨counterpoint_iff hreq hppq, countermelody_iff key scaleName stringsSection seed hbars⟩

/-- Two bass notes in a bar have room. -/
theorem singleVoice_iff_two :
    Sanitized.Safe (CounterpointEngine.generate ⟨[0, 2], [-7, 0], 1, 7, .first, 480⟩)
      (Line (1 * 1920)) :=
  (singleVoice_iff ⟨[0, 2], [-7, 0], 1, 7, .first, 480⟩ [] [] [] 1 .violin 7 (by decide) rfl
    (by decide)).1.mpr (.inr (.inr ⟨by decide, by decide⟩))

/-- Three hundred and twenty-one bass notes in a bar have slots of five ticks. -/
def denseBass : CounterpointRequest :=
  ⟨[0, 2], List.replicate 321 0, 1, 7, .first, 480⟩

/-- Both generators overlap: the counterpoint over a dense bass, the countermelody on one bar. -/
theorem denseBass_overlaps :
    ¬ Sanitized.Safe (CounterpointEngine.generate denseBass) (Line (denseBass.bars * 1920)) ∧
      ¬ Sanitized.Safe (StringsEngine.generateCountermelody (bytes "C") (bytes "major")
        [bytes "C"] 1 .violin 7) (Line (1 * 1920)) := by
  constructor
  · have hlength : denseBass.bassNotes.length = 321 := List.length_replicate
    rw [counterpoint_iff (by decide) rfl]
    rintro (hnil | hnil | ⟨-, hroom⟩)
    · rw [hnil] at hlength
      exact absurd hlength (by decide)
    · exact List.cons_ne_nil _ _ hnil
    · rw [hlength] at hroom
      exact absurd hroom (by decide)
  · intro h
    exact not_line_countermelody (bytes "C") (bytes "major") .violin 7 (by decide)
      (List.cons_ne_nil _ _) _ h.2

end AiMidi.Proofs.SingleVoice
