import AiMidi.Proofs.Reharmonize.SoundsAsNamed

/-!
# `AiMidi.Proofs.Reharmonize.Alignment`: where the voiced chords lie in the piece

All chords of a voicing get the same number of whole bars. So they tile the piece, one behind
the other from its first tick to its last, exactly when their number divides its bars and the
piece has less than `2 ^ 32` ticks (`aligned_iff`). The jazz style puts a chord in front of each
V that resolves, and its list is then too long for the bars it was made for
(`jazz_not_aligned`).

A tiling determines its length (`tiles_length`), so one direction is arithmetic: so many chords of
so many ticks are as long as the piece only without a remainder (`length_mul_ticksPerChord_iff`).
For the other one the starts are multiples of the chord length, and none of them wraps
(`tiles_of_starts`).
-/

set_option autoImplicit false

namespace AiMidi.Proofs.Reharmonize

open AiMidi.Lib AiMidi.Lib.Seeded AiMidi.Theory AiMidi.Theory.ReharmonizeEngine
open AiMidi.Proofs.ChordVoicing

/-! ### Tilings

A tiling says of each chord where it starts and ends. The notes of a chord share both ticks, so the
chord is taken as a span. -/

/-- The chords lie one behind the other, from the tick `lo` to the tick `hi`. Each sounds, and
all its notes begin where the chord in front ends. -/
inductive Tiles : Nat → List (List MidiEvent) → Nat → Prop where
  | nil (lo : Nat) : Tiles lo [] lo
  | cons {lo mid hi : Nat} {chord : List MidiEvent} {chords : List (List MidiEvent)}
      (le : lo ≤ mid) (sounds : chord ≠ [])
      (span : ∀ e ∈ chord, e.tickOn.toNat = lo ∧ e.tickOff.toNat = mid)
      (rest : Tiles mid chords hi) : Tiles lo (chord :: chords) hi

/-- A voiced piece fills its bars, of 1920 ticks each. -/
structure Aligned (symbols : List Bytes) (bars : Int) (seed : Seed) : Prop where
  in_order : (voicedChords symbols bars seed).flatten = (generateVoicings symbols bars seed).val
  tiles : Tiles 0 (voicedChords symbols bars seed) (bars * 1920).toNat

/-- A chord as it is specified: every note of it has these ticks. -/
def Spans (cs : ChordSpec) (chord : List MidiEvent) : Prop :=
  chord ≠ [] ∧ ∀ e ∈ chord, e.tickOn = cs.startTick
    ∧ e.tickOff = u32cast (cs.startTick.toNat + cs.durationTicks.toNat)

/-- A chord is voiced over the ticks of its specification. -/
theorem voiceChord_spans (cs : ChordSpec) : Yields (ChordEngine.voiceChord cs) (Spans cs) := by
  intro rng
  obtain ⟨inv, vel, -, hchord⟩ := voiceChord_eq cs rng
  refine ⟨voiceChord_ne_nil cs rng, ?_⟩
  rw [hchord, List.forall_mem_map]
  exact fun n _ => ⟨rfl, rfl⟩

/-- The chords of a voicing are over the ticks of their specifications. -/
theorem forall₂_spans (symbols : List Bytes) (bars : Int) (seed : Seed) :
    List.Forall₂ Spans (chordSpecs symbols bars).val (voicedChords symbols bars seed) := by
  exact forall₂_grouped voiceChord_spans _ _

/-! ### The length of a voicing

The bars of the piece are divided by the number of chords, and the remainder is dropped. So the
chords together may be shorter than the piece. Each gets at least one bar, so more chords than bars
are longer than it. -/

/-- The ticks of each chord. -/
def ticksPerChord (symbols : List Bytes) (bars : Int) : UInt32 :=
  u32cast (1920 * (u32cast (barsPerChord (i32cast symbols.length) bars)).toNat)

/-- All specifications have the same duration. -/
theorem durationTicks_chordSpecs {symbols : List Bytes} {bars : Int} {cs : ChordSpec}
    (h : cs ∈ (chordSpecs symbols bars).val) : cs.durationTicks = ticksPerChord symbols bars := by
  unfold chordSpecs at h
  rw [Sanitized.val_bind, Sanitized.val_forEach] at h
  obtain ⟨p, -, hp⟩ := List.mem_flatMap.mp h
  rw [List.mem_singleton.mp hp]
  rfl

/-- There is a chord for each symbol. -/
theorem length_chordSpecs (symbols : List Bytes) (bars : Int) :
    (chordSpecs symbols bars).val.length = symbols.length :=
  (forall₂_chordSpecs symbols bars).length_eq.symm

/-- A tiling is as long as its chords are together. A chord of a tiling ends behind its start, so
its last tick has not wrapped. -/
theorem tiles_length {specs : List ChordSpec} {chords : List (List MidiEvent)} {ticks : UInt32}
    {lo hi : Nat} (hspans : List.Forall₂ Spans specs chords)
    (hticks : ∀ cs ∈ specs, cs.durationTicks = ticks) (htiles : Tiles lo chords hi) :
    hi = lo + specs.length * ticks.toNat ∧ (specs = [] ∨ hi < 2 ^ 32) := by
  induction hspans generalizing lo with
  | nil =>
    cases htiles
    exact ⟨by simp, Or.inl rfl⟩
  | @cons cs chord specs chords hspan _ ih =>
    cases htiles with
    | @cons _ mid _ _ _ hle _ hchord hrest =>
      obtain ⟨hhi, hlt⟩ := ih (fun cs' h => hticks cs' (List.mem_cons_of_mem cs h)) hrest
      obtain ⟨e, he⟩ := List.exists_mem_of_ne_nil chord hspan.1
      obtain ⟨hon, hoff⟩ := hspan.2 e he
      obtain ⟨hlo, hmid⟩ := hchord e he
      rw [hon] at hlo
      rw [hoff, hticks cs List.mem_cons_self, ← Int.natCast_add, u32cast_natCast, hlo] at hmid
      have hstart := cs.startTick.toNat_lt
      have hdur := ticks.toNat_lt
      -- The last tick is the sum modulo `2 ^ 32`, and it is not below the first one.
      have hsum : mid = lo + ticks.toNat := by omega
      refine ⟨?_, Or.inr ?_⟩
      · rw [hhi, hsum, List.length_cons, Nat.add_mul]
        omega
      · obtain rfl | hlt := hlt
        · rw [hhi, List.length_nil]
          omega
        · exact hlt

/-- A piece of fewer than `2 ^ 32` ticks leaves the ticks of a chord as they are. -/
theorem ticksPerChord_toNat (symbols : List Bytes) {bars : Int} (h1 : 1 ≤ bars)
    (hfits : bars * 1920 < 2 ^ 32) :
    ((ticksPerChord symbols bars).toNat : Int)
      = 1920 * barsPerChord (i32cast symbols.length) bars := by
  -- The bars of a chord lie between one and all of them, so no product wraps.
  have hrange : 1 ≤ barsPerChord (i32cast symbols.length) bars
      ∧ barsPerChord (i32cast symbols.length) bars ≤ bars := by
    unfold barsPerChord
    split
    case isTrue hpos =>
      have hdiv := Int.tdiv_le_self (i32cast symbols.length) (show 0 ≤ bars by omega)
      omega
    case isFalse => omega
  have hbars : (u32cast (barsPerChord (i32cast symbols.length) bars)).toNat
      = (barsPerChord (i32cast symbols.length) bars).toNat :=
    u32cast_toNat (by omega) (by omega)
  rw [ticksPerChord, hbars, u32cast_toNat (by omega) (by omega)]
  omega

/-- The chords are as long as the piece exactly when their number divides its bars. -/
theorem length_mul_barsPerChord_iff {n : Nat} {bars : Int} (hn : 0 < n) (h1 : 1 ≤ bars)
    (h2 : bars < 2 ^ 31) :
    n * barsPerChord (i32cast n) bars = bars ↔ (n : Int) ∣ bars := by
  have hone : 1 ≤ barsPerChord (i32cast n) bars := by
    unfold barsPerChord
    split <;> omega
  constructor
  · intro h
    exact ⟨_, h.symm⟩
  · intro hdvd
    -- A divisor is not above the number of bars, so its cast keeps it.
    have hle : (n : Int) ≤ bars := Int.le_of_dvd (by omega) hdvd
    obtain ⟨k, rfl⟩ := hdvd
    have hk : 1 ≤ k := by
      by_contra hlt
      have : (n : Int) * k ≤ 0 := Int.mul_nonpos_of_nonneg_of_nonpos (by omega) (by omega)
      omega
    rw [i32cast_of_range (by omega) (by omega), barsPerChord, if_pos (by omega),
      Int.mul_tdiv_cancel_left k (by omega), Int.max_eq_right hk]

/-- The total length of the chords, in ticks, is that of the piece exactly when their number
divides its bars. -/
theorem length_mul_ticksPerChord_iff {symbols : List Bytes} {bars : Int} (hne : symbols ≠ [])
    (h1 : 1 ≤ bars) (hfits : bars * 1920 < 2 ^ 32) :
    symbols.length * (ticksPerChord symbols bars).toNat = (bars * 1920).toNat
      ↔ (symbols.length : Int) ∣ bars := by
  have hticks := ticksPerChord_toNat symbols h1 hfits
  rw [← length_mul_barsPerChord_iff (List.length_pos_iff.mpr hne) h1 (by omega),
    ← Int.natCast_inj, Int.natCast_mul, hticks, Int.toNat_of_nonneg (by omega)]
  generalize barsPerChord (i32cast symbols.length) bars = k
  have hassoc : (symbols.length : Int) * (1920 * k) = 1920 * (symbols.length * k) :=
    Int.mul_left_comm _ _ _
  rw [hassoc]
  omega

/-! ### The chords of a voicing

The starts are products modulo `2 ^ 32`. Below that bound they are the products themselves, and the
chords follow one another. -/

/-- The chord `i` starts after `i` chords, modulo `2 ^ 32`. -/
theorem startTick_chordSpecs {symbols : List Bytes} {bars : Int} {cs : ChordSpec} {i : Nat}
    (h : (cs, i) ∈ (chordSpecs symbols bars).val.zipIdx) :
    cs.startTick.toNat = i % 2 ^ 32 * (ticksPerChord symbols bars).toNat % 2 ^ 32 := by
  -- Each chord is built from its symbol and its own index.
  have hval : (chordSpecs symbols bars).val = symbols.zipIdx.map fun p =>
      (chordSpec (ticksPerChord symbols bars) p.1 p.2).val := by
    unfold chordSpecs
    rw [Sanitized.val_bind, Sanitized.val_forEach, List.map_eq_flatMap]
    rfl
  rw [List.mk_mem_zipIdx_iff_getElem?, hval, List.getElem?_map, Option.map_eq_some_iff] at h
  obtain ⟨p, hp, rfl⟩ := h
  obtain ⟨-, hindex⟩ : symbols[i]? = some p.1 ∧ i = p.2 := by
    rw [List.getElem?_zipIdx, Option.map_eq_some_iff] at hp
    obtain ⟨symbol, hsymbol, rfl⟩ := hp
    exact ⟨hsymbol, (Nat.zero_add i).symm⟩
  have hstart : (chordSpec (ticksPerChord symbols bars) p.1 p.2).val.startTick
      = u32cast ((u32cast p.2).toNat * (ticksPerChord symbols bars).toNat) := rfl
  rw [hstart, ← Int.natCast_mul, u32cast_natCast, u32cast_natCast, hindex]

/-- Chords of one length that start one behind the other tile their time, as long as no tick
wraps. -/
theorem tiles_of_starts {specs : List ChordSpec} {chords : List (List MidiEvent)}
    {ticks : UInt32} (k : Nat) (hspans : List.Forall₂ Spans specs chords)
    (hticks : ∀ cs ∈ specs, cs.durationTicks = ticks)
    (hstarts : ∀ p ∈ specs.zipIdx k, p.1.startTick.toNat = p.2 * ticks.toNat)
    (hfits : (k + specs.length) * ticks.toNat < 2 ^ 32) :
    Tiles (k * ticks.toNat) chords ((k + specs.length) * ticks.toNat) := by
  -- Each chord starts where the one before it ends, so the next starts one chord length later.
  induction hspans generalizing k with
  | nil => exact .nil _
  | @cons cs chord specs chords hspan _ ih =>
    have hcount : k + (cs :: specs).length = k + 1 + specs.length := by
      rw [List.length_cons]
      omega
    rw [hcount] at hfits ⊢
    rw [List.zipIdx_cons] at hstarts
    have hstart : cs.startTick.toNat = k * ticks.toNat := hstarts _ List.mem_cons_self
    have hnext : (k + 1) * ticks.toNat = k * ticks.toNat + ticks.toNat := Nat.succ_mul _ _
    have hle : (k + 1) * ticks.toNat ≤ (k + 1 + specs.length) * ticks.toNat :=
      Nat.mul_le_mul_right _ (Nat.le_add_right _ _)
    refine .cons (by omega) hspan.1 ?_ (ih (k + 1)
      (fun cs' h => hticks cs' (List.mem_cons_of_mem cs h))
      (fun p h => hstarts p (List.mem_cons_of_mem _ h)) hfits)
    intro e he
    obtain ⟨hon, hoff⟩ := hspan.2 e he
    rw [hon, hoff, hticks cs List.mem_cons_self, ← Int.natCast_add, u32cast_natCast, hstart]
    exact ⟨rfl, by omega⟩

/-- The voiced chords tile the piece exactly when their number divides its bars, and the ticks of
the piece have 32 bits. -/
theorem aligned_iff {symbols : List Bytes} {bars : Int} (hne : symbols ≠ []) (h1 : 1 ≤ bars)
    (h2 : bars < 2 ^ 31) (seed : Seed) :
    Aligned symbols bars seed ↔ (symbols.length : Int) ∣ bars ∧ bars * 1920 < 2 ^ 32 := by
  have hspans := forall₂_spans symbols bars seed
  have hlength := length_chordSpecs symbols bars
  have hpos := List.length_pos_iff.mpr hne
  constructor
  -- The last chord ends at the number of chords times their length, which is all bars only without
  -- a remainder.
  · intro h
    obtain ⟨hhi, hnil | hlt⟩ := tiles_length hspans (fun _ h => durationTicks_chordSpecs h) h.tiles
    · rw [hnil, List.length_nil] at hlength
      omega
    · have hfits : bars * 1920 < 2 ^ 32 := by omega
      rw [hlength, Nat.zero_add] at hhi
      exact ⟨(length_mul_ticksPerChord_iff hne h1 hfits).mp hhi.symm, hfits⟩
  · rintro ⟨hdvd, hfits⟩
    have htotal := (length_mul_ticksPerChord_iff hne h1 hfits).mpr hdvd
    have hle : (symbols.length : Int) ≤ bars := Int.le_of_dvd (by omega) hdvd
    refine ⟨flatten_voicedChords symbols bars seed, ?_⟩
    have htiles := tiles_of_starts 0 hspans (fun _ h => durationTicks_chordSpecs h) ?_ ?_
    · rw [Nat.zero_mul, hlength, Nat.zero_add, htotal] at htiles
      exact htiles
    · -- No start wraps, since the end of the piece does not.
      intro p hp
      have hindex : p.2 < symbols.length := by
        rw [← hlength]
        exact List.snd_lt_of_mem_zipIdx hp
      have hstart : p.2 * (ticksPerChord symbols bars).toNat ≤ (bars * 1920).toNat := by
        rw [← htotal]
        exact Nat.mul_le_mul_right _ (Nat.le_of_lt hindex)
      rw [startTick_chordSpecs hp, Nat.mod_eq_of_lt (show p.2 < 2 ^ 32 by omega),
        Nat.mod_eq_of_lt (by omega)]
    · rw [Nat.zero_add, hlength, htotal]
      omega

/-- Two chords in four bars. -/
theorem aligned_iff_twoChords :
    Aligned [bytes "Dm7", bytes "G7"] 4 42 ↔
      (([bytes "Dm7", bytes "G7"].length : Nat) : Int) ∣ 4 ∧ (4 : Int) * 1920 < 2 ^ 32 :=
  aligned_iff (by decide) (by decide) (by decide) 42

/-- A V and its I in C major, over two bars. -/
def fiveOne : ReharmonizeRequest where
  melody := [⟨0, 480, 0, 60, 100, 0⟩]
  key := bytes "C"
  scale := bytes "major"
  originalChords := [bytes "G", bytes "C"]
  bars := 2
  bpm := 120
  style := .jazz

/-- The pass over the turnarounds leaves the number of chords. -/
theorem length_turnaroundFrom (key scale c : Bytes) (chords : List Bytes) :
    (turnaroundFrom key scale c chords).length = chords.length + 1 := by
  fun_induction turnaroundFrom key scale c chords with
  | case1 c1 c2 c3 c4 rest c2' ih =>
    rw [List.length_cons, ih]
    rfl
  | case2 c1 chords => rfl

/-- In the jazz style the V gets its ii in front. -/
theorem length_reharmonize_fiveOne : (reharmonize fiveOne).length = 3 := by
  have hresolves : resolvesV (bytes "C") (bytes "major") (bytes "G") (some (bytes "C")) = true := by
    decide
  have hlast : resolvesV (bytes "C") (bytes "major") (bytes "C") none = false := by decide
  have hsize : (diatonicChords (bytes "C") (bytes "major")).length ≥ 6 := by decide
  have hspelled : Spelled (bytes "C") := show qualityOf (bytes "C") ∈ qualities by decide
  have hnext : withNext [bytes "G", bytes "C"]
      = [(bytes "G", some (bytes "C")), (bytes "C", none)] := rfl
  rw [reharmonize_eq (by decide) (by decide)]
  generalize Mt19937_64.ofSeed fiveOne.seed = rng
  show (value (jazzReharm [bytes "G", bytes "C"] (bytes "C") (bytes "major")) rng).length = 3
  -- The first chord resolves to the second and becomes two, and the second stays one.
  obtain ⟨ii, v, hfirst, -⟩ :=
    jazzChord_resolves (p := (bytes "G", some (bytes "C"))) hresolves rng
  obtain ⟨s, hsecond, -⟩ := jazzChord_plain (p := (bytes "C", none)) hspelled hlast
    (after (jazzChord (bytes "C") (bytes "major") (bytes "G", some (bytes "C"))) rng)
  rw [jazzReharm, value_bind, value_pure, if_pos hsize, hnext, value_forEach_cons,
    value_forEach_cons, value_forEach_nil, hfirst, hsecond]
  exact length_turnaroundFrom (bytes "C") (bytes "major") ii [v, s]

/-- The three chords of the jazz style are longer than the two bars. -/
theorem jazz_not_aligned : ¬ Aligned (reharmonize fiveOne) fiveOne.bars 42 := by
  intro h
  have hlength := length_reharmonize_fiveOne
  have hspecs := length_chordSpecs (reharmonize fiveOne) 2
  obtain ⟨hhi, -⟩ := tiles_length (forall₂_spans (reharmonize fiveOne) 2 42)
    (fun _ h => durationTicks_chordSpecs h) h.tiles
  have hbars : barsPerChord (i32cast 3) 2 = 1 := by decide
  have hticks := ticksPerChord_toNat (reharmonize fiveOne) (show (1 : Int) ≤ 2 by decide)
    (by decide)
  rw [hlength, show ((3 : Nat) : Int) = 3 from rfl, hbars] at hticks
  rw [hspecs, hlength] at hhi
  have htotal : (fiveOne.bars * 1920).toNat = 3840 := rfl
  omega

end AiMidi.Proofs.Reharmonize
