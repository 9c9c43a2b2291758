import AiMidi.Theory.OrchestrateWorkflow
import Mathlib.Data.List.Perm.Basic

/-!
# `AiMidi.Proofs.Orchestration.MelodySplit`: every event is melody or harmony

The piano input is grouped by its ticks, and the events of a tick are split into the first of the
highest and the others. The chosen event is left out by its place, so equal events are told apart
(`splitGroup_cases`).

`splitsMelody` says it for the whole input: no event is lost or doubled, and the melody has one
event for each tick, none of whose events is higher.
-/

set_option autoImplicit false

namespace AiMidi.Proofs.Orchestration

open AiMidi.Lib AiMidi.Theory AiMidi.Theory.OrchestrateWorkflow

/-- Melody and harmony of an input: together they are its events, and the melody follows the ticks
with the highest note of each. -/
structure SplitsMelody (piano melody harmony : List MidiEvent) : Prop where
  perm : (melody ++ harmony).Perm piano
  ascending : (melody.map MidiEvent.tickOn).Pairwise (· < ·)
  ticks : ∀ tick, tick ∈ melody.map MidiEvent.tickOn ↔ tick ∈ piano.map MidiEvent.tickOn
  highest : ∀ ev ∈ melody, ∀ other ∈ piano, other.tickOn = ev.tickOn → other.note ≤ ev.note

/-! ### One tick

The highest note is searched from the first event on, and a later one of the same height does not
replace it. -/

/-- The events of a tick: the first of the highest, and the others. -/
theorem splitGroup_cases {events : List MidiEvent} (h : events ≠ []) :
    ∃ ev rest, splitGroup events = ([ev], rest) ∧ (ev :: rest).Perm events ∧
      ∀ other ∈ events, other.note ≤ ev.note := by
  obtain ⟨first, others, rfl⟩ := List.exists_cons_of_ne_nil h
  let noteOf (p : MidiEvent × Nat) : Nat := p.1.note.toNat
  have hmem := firstMax_mem noteOf (first, 0) (others.zipIdx 1)
  have hfirst := le_firstMax_best noteOf (first, 0) (others.zipIdx 1)
  have hothers : ∀ p ∈ others.zipIdx 1, _ ≤ _ := fun p hp => le_firstMax noteOf (first, 0) hp
  -- The chosen event is the one at its place.
  rw [← List.zipIdx_cons, List.mem_zipIdx_iff_getElem?] at hmem
  obtain ⟨hi, hget⟩ := List.getElem?_eq_some_iff.mp hmem
  refine ⟨_, _, rfl, ?_, ?_⟩
  · have hperm := List.getElem_cons_eraseIdx_perm hi
    rw [hget] at hperm
    exact hperm
  · intro other hother
    rw [UInt8.le_iff_toNat_le]
    obtain rfl | hother := List.mem_cons.mp hother
    · exact hfirst
    · rw [← List.zipIdx_map_fst 1 others] at hother
      obtain ⟨p, hp, rfl⟩ := List.mem_map.mp hother
      exact hothers p hp

/-- A group keeps its notes: one goes to the melody and the others to the harmony. -/
theorem splitGroup_perm (events : List MidiEvent) :
    ((splitGroup events).1 ++ (splitGroup events).2).Perm events := by
  by_cases h : events = []
  · rw [h]
    exact List.Perm.refl _
  · obtain ⟨ev, rest, hsplit, hperm, -⟩ := splitGroup_cases h
    rw [hsplit]
    exact hperm

/-! ### The whole input

The events are grouped in a map from ticks to lists. Flattening the map gives the events back in
another order. -/

/-- No note of the piano is lost or doubled. -/
theorem separate_perm (piano : List MidiEvent) :
    ((separateMelodyHarmony piano).1 ++ (separateMelodyHarmony piano).2).Perm piano := by
  show (List.flatMap _ _ ++ List.flatMap _ _).Perm piano
  refine (List.flatMap_append_perm _ _ _).trans ?_
  refine (List.Perm.flatMap_left _ fun events _ => splitGroup_perm events).trans ?_
  rw [List.flatMap_map]
  exact perm_groupBy _ _

/-- The melody note of a tick. -/
theorem splitGroup_melody {piano events : List MidiEvent} {tick : Nat}
    (h : (tick, events) ∈ groupBy (fun ev : MidiEvent => ev.tickOn.toNat) piano) :
    ∃ ev, (splitGroup events).1 = [ev] ∧ ev.tickOn.toNat = tick ∧
      ∀ other ∈ piano, other.tickOn.toNat = tick → other.note ≤ ev.note := by
  obtain ⟨hevents, hne⟩ := mem_groupBy.mp h
  have hmem : ∀ ev, ev ∈ events ↔ ev ∈ piano ∧ ev.tickOn.toNat = tick := by
    intro ev
    rw [hevents, List.mem_filter, decide_eq_true_iff]
  obtain ⟨ev, rest, hsplit, hperm, hhighest⟩ := splitGroup_cases hne
  refine ⟨ev, by rw [hsplit], ?_, ?_⟩
  · exact ((hmem ev).mp (hperm.mem_iff.mp List.mem_cons_self)).2
  · intro other hother htick
    exact hhighest other ((hmem other).mpr ⟨hother, htick⟩)

/-- The ticks of the melody are the keys of the map. -/
theorem melody_ticks (piano : List MidiEvent) :
    (separateMelodyHarmony piano).1.map (fun ev => ev.tickOn.toNat) =
      (groupBy (fun ev : MidiEvent => ev.tickOn.toNat) piano).map Prod.fst := by
  show List.map _ (List.flatMap _ (List.map _ _)) = _
  rw [List.flatMap_map, List.map_flatMap, List.map_eq_flatMap]
  apply List.flatMap_congr
  rintro ⟨tick, events⟩ h
  obtain ⟨ev, hsplit, rfl, -⟩ := splitGroup_melody h
  show List.map _ (splitGroup events).1 = _
  rw [hsplit]
  rfl

/-- The split of the input is one into melody and harmony. -/
theorem splitsMelody (piano : List MidiEvent) :
    SplitsMelody piano (separateMelodyHarmony piano).1 (separateMelodyHarmony piano).2 where
  perm := separate_perm piano
  ascending := by
    -- The groups are sorted by their tick, and each gives one note of the melody.
    have hsorted := sorted_groupBy (fun ev : MidiEvent => ev.tickOn.toNat) piano
    rw [← melody_ticks, List.pairwise_map] at hsorted
    rw [List.pairwise_map]
    exact hsorted.imp UInt32.lt_iff_toNat_lt.mpr
  ticks tick := by
    have hkeys : tick.toNat ∈ (groupBy (fun ev : MidiEvent => ev.tickOn.toNat) piano).map Prod.fst ↔
        ∃ ev ∈ piano, ev.tickOn.toNat = tick.toNat := mem_keys_groupBy
    rw [← melody_ticks] at hkeys
    simpa only [List.mem_map, UInt32.toNat_inj] using hkeys
  highest ev hev other hother htick := by
    -- The note is the one of its group, and the group holds all notes of the tick.
    obtain ⟨events, hgroup, hev⟩ := List.mem_flatMap.mp hev
    obtain ⟨⟨tick, events⟩, hentry, rfl⟩ := List.mem_map.mp hgroup
    obtain ⟨ev', hsplit, rfl, hhighest⟩ := splitGroup_melody hentry
    rw [hsplit, List.mem_singleton] at hev
    rw [hev] at htick ⊢
    exact hhighest other hother (congrArg UInt32.toNat htick)

end AiMidi.Proofs.Orchestration
