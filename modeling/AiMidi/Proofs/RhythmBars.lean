import AiMidi.Theory.RhythmEngine
import Mathlib.Data.List.Nodup

/-!
# `AiMidi.Proofs.RhythmBars`: the drum patterns of a bar

`RhythmEngine.generate` is meant to play one pattern in every bar a chord starts in. It plays
one for every chord, so two chords of a bar play the pattern of the bar twice.

`generate_plays` lists the hits, and `generate_onePatternPerBar_iff` says which requests get what
is meant: those whose chords start in different bars, none of them in the last one, whose beats
are behind the last tick and wrap.

`Plays` says which ticks some events hit, and it is additive, so the loops over positions and over
chords are taken apart by `Plays.append`. The condition is found by counting: a bar that is played
twice has two closed hi-hats on its first tick (`Plays.count_first`).
-/

set_option autoImplicit false

namespace AiMidi.Proofs.RhythmBars

open AiMidi.Lib AiMidi.Theory AiMidi.Theory.RhythmEngine

/-! ### The grid

A bar has a fixed number of positions. Bars do not share ticks, so how often a tick is hit tells how
often its bar was played. -/

/-- The ticks between two positions of the grid. -/
def gridStep : RhythmResolution → Nat
  | .eighth    => 240
  | .sixteenth => 120

/-- The tick is a position of the grid in the bar. -/
def OnGrid (res : RhythmResolution) (bar t : Nat) : Prop :=
  t / kBarTicks = bar ∧ gridStep res ∣ t

/-- Being on the grid of a bar is decided by its two conditions. -/
instance (res : RhythmResolution) (bar t : Nat) : Decidable (OnGrid res bar t) :=
  inferInstanceAs (Decidable (_ ∧ _))

/-- The positions of the grid in a bar. -/
def gridTicks (res : RhythmResolution) (bar : Nat) : List Nat :=
  (List.range (kBarTicks / gridStep res)).map fun i => bar * kBarTicks + gridStep res * i

/-- The grid ticks of a bar are exactly its ticks on the grid. -/
theorem mem_gridTicks (res : RhythmResolution) (bar t : Nat) :
    t ∈ gridTicks res bar ↔ OnGrid res bar t := by
  rw [gridTicks, List.mem_map, OnGrid]
  constructor
  · intro h
    obtain ⟨i, hi, rfl⟩ := h
    rw [List.mem_range] at hi
    cases res <;> simp only [kBarTicks, gridStep] at hi ⊢ <;> omega
  · intro h
    refine ⟨t % kBarTicks / gridStep res, ?_, ?_⟩
    · rw [List.mem_range]
      cases res <;> simp only [kBarTicks, gridStep] at h ⊢ <;> omega
    · cases res <;> simp only [kBarTicks, gridStep] at h ⊢ <;> omega

/-- No tick is twice on the grid of a bar. -/
theorem nodup_gridTicks (res : RhythmResolution) (bar : Nat) : (gridTicks res bar).Nodup := by
  refine List.Nodup.map (fun i j h => ?_) List.nodup_range
  cases res <;> simp only [kBarTicks, gridStep] at h <;> omega

/-- The patterns of the bars have a tick as often as its bar is there. -/
theorem count_gridTicks (res : RhythmResolution) (bars : List Nat) (t : Nat) :
    (bars.flatMap (gridTicks res)).count t =
      if gridStep res ∣ t then bars.count (t / kBarTicks) else 0 := by
  induction bars with
  | nil => simp
  | cons bar bars ih =>
    rw [List.flatMap_cons, List.count_append, ih, (nodup_gridTicks res bar).count]
    simp only [mem_gridTicks, OnGrid, List.count_cons, beq_iff_eq, eq_comm (a := bar)]
    by_cases hgrid : gridStep res ∣ t
    · simp [hgrid, Nat.add_comm]
    · simp [hgrid]

/-! ### The hits

The kick and the snare depend on the position, the velocities on the draws. On each position there
is one of the two and a closed hi-hat, whatever is drawn. -/

/-- The ticks of the hits on these notes. -/
def ticksOf (notes : List UInt8) (events : List MidiEvent) : List Nat :=
  (events.filter (·.note ∈ notes)).map (·.tickOn.toNat)

/-- The ticks of two runs of events, one after the other, are the two lists of ticks. -/
theorem ticksOf_append (notes : List UInt8) (xs ys : List MidiEvent) :
    ticksOf notes (xs ++ ys) = ticksOf notes xs ++ ticksOf notes ys := by
  rw [ticksOf, List.filter_append, List.map_append]
  rfl

/-- A closed hi-hat and a kick or a snare on each of the ticks, and nothing else. -/
structure Plays (ticks : List Nat) (events : List MidiEvent) : Prop where
  hats : ticksOf [kClosedHH] events = ticks
  beats : ticksOf [kKick, kSnare] events = ticks
  notes : ∀ ev ∈ events, ev.note ∈ [kClosedHH, kKick, kSnare] ∧ ev.tickOn.toNat ∈ ticks

/-- No event plays no tick. -/
theorem Plays.nil : Plays [] [] := ⟨rfl, rfl, fun _ h => absurd h List.not_mem_nil⟩

/-- Two runs of events play the ticks of the first and then those of the second. -/
theorem Plays.append {xs ys : List Nat} {out rest : List MidiEvent} (hout : Plays xs out)
    (hrest : Plays ys rest) : Plays (xs ++ ys) (out ++ rest) := by
  constructor
  · rw [ticksOf_append, hout.hats, hrest.hats]
  · rw [ticksOf_append, hout.beats, hrest.beats]
  · intro ev hev
    obtain hev | hev := List.mem_append.mp hev
    · exact ⟨(hout.notes ev hev).1, List.mem_append_left ys (hout.notes ev hev).2⟩
    · exact ⟨(hrest.notes ev hev).1, List.mem_append_right xs (hrest.notes ev hev).2⟩

/-- A drum event is one note at its tick on the drum channel. -/
theorem drumEvent_yields (tick : UInt32) (note : UInt8) (lo hi : Int) :
    Seeded.Yields (drumEvent tick note lo hi) fun out =>
      ∃ off velocity, out = [⟨tick, off, kDrumChannel, note, velocity, 0⟩] :=
  Seeded.yields_bind_any fun off => Seeded.yields_bind_any fun velocity =>
    Seeded.yields_pure ⟨off, velocity, rfl⟩

/-- The hits at one grid tick play the closed hi-hat at that tick alone, with kick or snare beside
it. -/
theorem gridHits_plays {barStart tick : UInt32} (hfit : barStart.toNat + tick.toNat < 2 ^ 32)
    {note : UInt8} (hnote : note = kKick ∨ note = kSnare) :
    Seeded.Yields (gridHits barStart tick note) (Plays [barStart.toNat + tick.toNat]) := by
  -- The tick lies in 32 bits, so the cast keeps it.
  have ht : (u32cast (barStart.toNat + tick.toNat)).toNat = barStart.toNat + tick.toNat := by
    rw [u32cast_toNat (by omega) (by omega)]
    omega
  refine Seeded.yields_bind (P := (· = u32cast (barStart.toNat + tick.toNat)))
    (Seeded.yields_lift rfl) fun t htick => ?_
  rw [← htick] at ht
  refine Seeded.yields_bind (drumEvent_yields t kClosedHH 60 85) fun hat hhat => ?_
  refine Seeded.yields_bind (drumEvent_yields t note 80 100) fun beat hbeat => ?_
  obtain ⟨off, velocity, rfl⟩ := hhat
  obtain ⟨off', velocity', rfl⟩ := hbeat
  refine Seeded.yields_pure ?_
  rw [← ht]
  -- The beat is a kick or a snare.
  obtain rfl | rfl := hnote
  · exact ⟨rfl, rfl, by simp⟩
  · exact ⟨rfl, rfl, by simp⟩

/-- The grid before the swing. -/
def baseTicks : RhythmResolution → Sanitized (List UInt32)
  | .sixteenth => sixteenthBarTicks
  | .eighth    => eighthBarTicksStraight

/-- The last bar whose positions are all ticks is the one in front of this. -/
def kBars : Nat := 2236962

/-- The ticks of the pattern are the multiples of the grid step within a bar. -/
theorem baseTicks_toNat (res : RhythmResolution) :
    (baseTicks res).val.map (·.toNat) =
      (List.range (kBarTicks / gridStep res)).map (gridStep res * ·) := by
  cases res <;> decide

/-- The ticks of the pattern, moved to a bar, are the grid ticks of the bar. -/
theorem gridTicks_eq (res : RhythmResolution) (bar : Nat) :
    ((baseTicks res).val.zipIdx.flatMap fun p => [bar * kBarTicks + p.1.toNat]) =
      gridTicks res bar := by
  rw [← List.map_eq_flatMap]
  calc (baseTicks res).val.zipIdx.map (fun p => bar * kBarTicks + p.1.toNat)
      = ((baseTicks res).val.zipIdx.map Prod.fst).map (bar * kBarTicks + ·.toNat) := by
        rw [List.map_map]
        rfl
    _ = ((baseTicks res).val.map (·.toNat)).map (bar * kBarTicks + ·) := by
        rw [List.zipIdx_map_fst, List.map_map]
        rfl
    _ = gridTicks res bar := by
        rw [baseTicks_toNat, List.map_map]
        rfl

/-- A tick of the pattern lies within its bar. -/
theorem baseTicks_lt (res : RhythmResolution) :
    ∀ p ∈ (baseTicks res).val.zipIdx, p.1.toNat < kBarTicks := by
  cases res <;> decide

/-- The pattern of a bar, whatever is drawn for its velocities. -/
theorem barPattern_plays (style : RhythmStyle) {fill : FillSpec} (hfill : fill.startBar < 0)
    {bar : Nat} (hbar : bar < kBars) :
    Seeded.Yields
      (barPattern style fill (baseTicks style.resolution).val bar (u32cast (bar * kBarTicks)))
      (Plays (gridTicks style.resolution bar)) := by
  have hstart : (u32cast (bar * kBarTicks)).toNat = bar * kBarTicks := by
    unfold kBars at hbar
    unfold kBarTicks
    rw [u32cast_toNat (by omega) (by omega)]
    omega
  -- Whatever the drum at each position, the hits play the grid.
  have hhits : ∀ note : Nat → UInt8, (∀ i, note i = kKick ∨ note i = kSnare) →
      Seeded.Yields
        (Seeded.forEach (fun p : UInt32 × Nat =>
          gridHits (u32cast (bar * kBarTicks)) p.1 (note p.2))
          (baseTicks style.resolution).val.zipIdx) (Plays (gridTicks style.resolution bar)) := by
    intro note hnote
    rw [← gridTicks_eq]
    refine Seeded.yields_forEach_flatMap .nil .append fun p hp => ?_
    have hp := baseTicks_lt style.resolution p hp
    rw [← hstart]
    refine gridHits_plays ?_ (hnote p.2)
    rw [hstart]
    unfold kBars at hbar
    unfold kBarTicks at hp ⊢
    omega
  have hnofill : ¬ (fill.startBar ≥ 0 ∧ (u32cast fill.startBar).toNat = bar) := by omega
  unfold barPattern
  simp only [if_neg hnofill]
  generalize style.resolution = res at hhits ⊢
  -- The two resolutions differ in the drum at a position only.
  cases res with
  | sixteenth =>
    refine Seeded.yields_bind (hhits
      (fun i => if i % 4 = 0 ∨ i % 4 = 2 then kKick else kSnare) fun i => ?_)
      fun _ => Seeded.yields_pure
    split <;> simp
  | eighth =>
    refine Seeded.yields_bind (hhits (fun i => if i % 2 = 0 then kKick else kSnare) fun i => ?_)
      fun _ => Seeded.yields_pure
    split <;> simp

/-! ### The bars of the chords

A chord plays the bar that it starts in, from the first beat of that bar on. Two chords of one bar
therefore play the same ticks. -/

/-- The bar that a chord starts in. -/
def barOf (cs : ChordSpec) : Nat := cs.startTick.toNat / kBarTicks

/-- Without swing the events are the patterns of the chords, one after the other. -/
theorem generate_events (req : ChordRequest) {style : RhythmStyle} (hswing : style.swing = 0)
    (fill : FillSpec) :
    (generate req style fill).val = req.chords.flatMap fun cs =>
      (chordPattern req.seed style fill (baseTicks style.resolution).val cs).val := by
  have hticks : ∀ base, applySwing base style.swing = pure base := by
    intro base
    rw [hswing, applySwing, if_pos (by decide)]
  obtain ⟨res, swing, seed⟩ := style
  cases res <;>
    rw [generate, Sanitized.val_bind, Sanitized.val_bind, hticks, Sanitized.val_pure,
      Sanitized.val_forEach] <;> rfl

/-- Every chord plays the pattern of its bar. -/
theorem generate_plays {req : ChordRequest} (hbars : ∀ cs ∈ req.chords, barOf cs < kBars)
    {style : RhythmStyle} (hswing : style.swing = 0) {fill : FillSpec}
    (hfill : fill.startBar < 0) :
    Plays ((req.chords.map barOf).flatMap (gridTicks style.resolution))
      (generate req style fill).val := by
  rw [generate_events req hswing]
  generalize req.chords = chords at hbars
  induction chords with
  | nil => exact .nil
  | cons cs chords ih =>
    rw [List.map_cons, List.flatMap_cons, List.flatMap_cons]
    refine .append ?_ (ih fun cs' hcs' => hbars cs' (List.mem_cons_of_mem _ hcs'))
    exact Seeded.yields_run (barPattern_plays style hfill (hbars cs List.mem_cons_self)) _

/-- One pattern in each of the bars: on every position of its grid one closed hi-hat and one kick
or snare, and no other event. -/
structure OnePatternPerBar (res : RhythmResolution) (bars : List Nat) (events : List MidiEvent) :
    Prop where
  hats : ∀ bar ∈ bars, ∀ t, OnGrid res bar t → (ticksOf [kClosedHH] events).count t = 1
  beats : ∀ bar ∈ bars, ∀ t, OnGrid res bar t → (ticksOf [kKick, kSnare] events).count t = 1
  nothingElse : ∀ ev ∈ events, ev.note ∈ [kClosedHH, kKick, kSnare] ∧
    ∃ bar ∈ bars, OnGrid res bar ev.tickOn.toNat

/-- Events that play the grid of distinct bars are one pattern per bar. -/
theorem Plays.onePatternPerBar {res : RhythmResolution} {bars : List Nat}
    {events : List MidiEvent} (h : Plays (bars.flatMap (gridTicks res)) events)
    (hnodup : bars.Nodup) : OnePatternPerBar res bars events := by
  -- Each tick of the grid is played once, as no bar comes twice.
  have hcount : ∀ bar ∈ bars, ∀ t, OnGrid res bar t →
      (bars.flatMap (gridTicks res)).count t = 1 := by
    intro bar hbar t ht
    rw [count_gridTicks, if_pos ht.2, ht.1]
    exact List.count_eq_one_of_mem hnodup hbar
  constructor
  · rw [h.hats]
    exact hcount
  · rw [h.beats]
    exact hcount
  · intro ev hev
    obtain ⟨hnote, htick⟩ := h.notes ev hev
    obtain ⟨bar, hbar, htick⟩ := List.mem_flatMap.mp htick
    exact ⟨hnote, bar, hbar, (mem_gridTicks res bar _).mp htick⟩

/-- The first position of a bar. -/
theorem onGrid_first (res : RhythmResolution) (bar : Nat) : OnGrid res bar (bar * kBarTicks) := by
  cases res <;> simp only [OnGrid, kBarTicks, gridStep] <;> omega

/-- The hi-hat sounds at the first tick of a bar once for each time that the bar is played. -/
theorem Plays.count_first {res : RhythmResolution} {bars : List Nat} {events : List MidiEvent}
    (h : Plays (bars.flatMap (gridTicks res)) events) (bar : Nat) :
    (ticksOf [kClosedHH] events).count (bar * kBarTicks) = bars.count bar := by
  obtain ⟨hbar, hgrid⟩ := onGrid_first res bar
  rw [h.hats, count_gridTicks, if_pos hgrid, hbar]

/-- The second beat of the last bar is behind the last tick. -/
theorem OnePatternPerBar.bar_lt {res : RhythmResolution} {bars : List Nat}
    {events : List MidiEvent} (h : OnePatternPerBar res bars events) :
    ∀ bar ∈ bars, bar < kBars := by
  intro bar hbar
  have hgrid : OnGrid res bar (bar * kBarTicks + 480) := by
    cases res <;> simp only [OnGrid, kBarTicks, gridStep] <;> omega
  have hcount := h.hats bar hbar _ hgrid
  have hmem : bar * kBarTicks + 480 ∈ ticksOf [kClosedHH] events :=
    List.count_pos_iff.mp (by omega)
  obtain ⟨ev, -, htick⟩ := List.mem_map.mp hmem
  have hlt := ev.tickOn.toNat_lt
  rw [htick] at hlt
  unfold kBarTicks at hlt
  unfold kBars
  omega

/-- One pattern in every bar that a chord starts in is what the chords get when they start in
different bars, all in front of the last one. -/
theorem generate_onePatternPerBar_iff (req : ChordRequest) {style : RhythmStyle}
    (hswing : style.swing = 0) {fill : FillSpec} (hfill : fill.startBar < 0) :
    OnePatternPerBar style.resolution (req.chords.map barOf) (generate req style fill).val ↔
      (req.chords.map barOf).Nodup ∧ ∀ cs ∈ req.chords, barOf cs < kBars := by
  constructor
  · intro h
    have hbars := List.forall_mem_map.mp h.bar_lt
    refine ⟨List.nodup_iff_count_eq_one.mpr fun bar hbar => ?_, hbars⟩
    rw [← (generate_plays hbars hswing hfill).count_first bar]
    exact h.hats bar hbar _ (onGrid_first _ bar)
  · intro h
    exact (generate_plays h.2 hswing hfill).onePatternPerBar h.1

/-- Chords on the first beats of three bars, the last bar first. -/
def threeBars : ChordRequest :=
  ⟨[⟨3840, 1920, 0, bytes "maj", 0⟩, ⟨0, 1920, 7, bytes "7", 0⟩, ⟨1920, 1920, 9, bytes "min", 0⟩],
    1, 480⟩

/-- Three chords in three bars, given out of order, play one pattern per bar. -/
theorem generate_onePatternPerBar_three :
    OnePatternPerBar .sixteenth [2, 0, 1]
      (generate threeBars { resolution := .sixteenth } {}).val := by
  have hswing : ({ resolution := .sixteenth } : RhythmStyle).swing = 0 := rfl
  have hfill : ({} : FillSpec).startBar < 0 := by decide
  exact (generate_onePatternPerBar_iff threeBars hswing hfill).mpr (by decide)

/-- Two chords in one bar. -/
def halfBars : ChordRequest :=
  ⟨[⟨0, 960, 0, bytes "maj", 0⟩, ⟨960, 960, 7, bytes "maj", 0⟩], 1, 480⟩

/-- Their pattern is played twice. -/
theorem halfBars_twice :
    ¬ OnePatternPerBar .eighth (halfBars.chords.map barOf) (generate halfBars {} {}).val := by
  intro h
  have hbars : ∀ cs ∈ halfBars.chords, barOf cs < kBars := by decide
  have hfill : ({} : FillSpec).startBar < 0 := by decide
  have hplays : Plays _ (generate halfBars {} {}).val := generate_plays hbars rfl hfill
  have hcount := hplays.count_first 0
  rw [h.hats 0 List.mem_cons_self _ (onGrid_first .eighth 0)] at hcount
  exact absurd hcount (by decide)

end AiMidi.Proofs.RhythmBars
