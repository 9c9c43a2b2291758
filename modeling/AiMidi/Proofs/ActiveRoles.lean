import AiMidi.Proofs.ArrangementSets
import Mathlib.Data.List.Forall2

/-!
# `AiMidi.Proofs.ActiveRoles`: who plays at which energy

The first section of an arrangement has the instruments whose roles play at its energy. After that
the planner removes one instrument when the energy falls, however many of the active ones do not
play any more. So a lead or a bass stays active below its energy when there is another one to drop
out (`leadAndBass_not_onlyMayPlay`).

`plan_onlyMayPlay_iff` says which arrangements have only instruments that play: those where each
fall of the energy has one instrument to drop out at most.
-/

set_option autoImplicit false

namespace AiMidi.Proofs.ActiveRoles

open AiMidi.Lib AiMidi.Theory AiMidi.Theory.ArrangementPlanner
open AiMidi.Theory.TimelinePlanner (energyToInt)
open AiMidi.Proofs.ArrangementSets

variable {instruments : List BlueprintInstrument} {active : List Nat}

/-- Every active instrument has a role that plays at the energy of its section. -/
def OnlyMayPlay (secs : List PlannedSection) (arrangement : Arrangement) : Prop :=
  List.Forall₂ (fun sec si => ∀ inst ∈ si.activeInstruments,
    rolePlaysAtEnergy inst.role sec.energy = true) secs arrangement.sectionInstruments

/-- At each fall of the energy, at most one active instrument does not play any more. -/
def FallsByOne (instruments : List BlueprintInstrument) (prev : EnergyLevel) (active : List Nat) :
    List PlannedSection → Prop
  | [] => True
  | sec :: secs =>
    let ideal := targetIndices instruments sec.energy
    (energyToInt sec.energy < energyToInt prev → (active.filter (· ∉ ideal)).length ≤ 1) ∧
      FallsByOne instruments sec.energy (nextActive prev active ideal sec.energy) secs

/-- The same for a timeline, whose first section has all that play. -/
def TimelineFallsByOne (instruments : List BlueprintInstrument) : List PlannedSection → Prop
  | [] => True
  | sec :: secs => FallsByOne instruments sec.energy (targetIndices instruments sec.energy) secs

/-! ### One step

What may play grows with the energy, so only a fall can leave an instrument over. The planner erases
the first such instrument, and none is left behind exactly when there was one at most. -/

/-- What plays at an energy plays at every higher one. -/
theorem rolePlaysAtEnergy_mono {role : Bytes} {e e' : EnergyLevel}
    (hle : energyToInt e ≤ energyToInt e') (h : rolePlaysAtEnergy role e = true) :
    rolePlaysAtEnergy role e' = true := by
  unfold rolePlaysAtEnergy at h ⊢
  -- Drums play at every energy.
  split
  · rfl
  · rename_i hdrum
    rw [if_neg hdrum] at h
    -- A lead and a bass have a level from which on they play, and all others play always.
    split
    · rename_i hlead
      rw [if_pos hlead, decide_eq_true_iff] at h
      exact decide_eq_true (h.trans hle)
    · rename_i hlead
      rw [if_neg hlead] at h
      split
      · rename_i hbass
        rw [if_pos hbass, decide_eq_true_iff] at h
        exact decide_eq_true (h.trans hle)
      · rfl

/-- What may play at a level may play at a higher one. -/
theorem targetIndices_mono {e e' : EnergyLevel} (hle : energyToInt e ≤ energyToInt e') {idx : Nat}
    (h : idx ∈ targetIndices instruments e) : idx ∈ targetIndices instruments e' := by
  obtain ⟨hidx, hplays⟩ := mem_targetIndices.mp h
  exact mem_targetIndices.mpr ⟨hidx, rolePlaysAtEnergy_mono hle hplays⟩

/-- Erasing the first of the elements with a property leaves none when there is one at most. -/
theorem forall_mem_eraseP_iff {α : Type} {p : α → Bool} {xs : List α} :
    (∀ a ∈ xs.eraseP p, p a = false) ↔ (xs.filter p).length ≤ 1 := by
  induction xs with
  | nil => simp
  | cons a xs ih =>
    by_cases h : p a = true
    · rw [List.eraseP_cons_of_pos h, List.filter_cons_of_pos h, List.length_cons]
      simp
    · rw [List.eraseP_cons_of_neg h, List.filter_cons_of_neg h, List.forall_mem_cons, ih]
      simp [h]

/-- A step to the next section leaves only instruments that play, when there were only such ones
before, exactly when it has to remove one at most. -/
theorem nextActive_plays_iff {prev curr : EnergyLevel}
    (h : ∀ idx ∈ active, idx ∈ targetIndices instruments prev) :
    (∀ idx ∈ nextActive prev active (targetIndices instruments curr) curr,
      idx ∈ targetIndices instruments curr) ↔
      (energyToInt curr < energyToInt prev →
        (active.filter (· ∉ targetIndices instruments curr)).length ≤ 1) := by
  unfold nextActive
  -- A rise adds a target, and what played before plays on at the higher energy.
  by_cases hrise : energyToInt curr > energyToInt prev
  · rw [if_pos hrise]
    refine iff_of_true (fun idx hidx => ?_) (fun hfall => by omega)
    obtain ⟨heq, -⟩ | ⟨new, hnew, -, heq⟩ := addOne_cases active (targetIndices instruments curr)
    · rw [heq] at hidx
      exact targetIndices_mono (Int.le_of_lt hrise) (h idx hidx)
    · rw [heq, List.mem_mergeSort, List.mem_append, List.mem_singleton] at hidx
      obtain hidx | rfl := hidx
      · exact targetIndices_mono (Int.le_of_lt hrise) (h idx hidx)
      · exact hnew
  · rw [if_neg hrise]
    -- A fall removes one instrument, and the same energy takes the targets themselves.
    by_cases hfall : energyToInt curr < energyToInt prev
    · rw [if_pos hfall, forall_prop_of_true hfall, removeOne, ← forall_mem_eraseP_iff]
      simp
    · rw [if_neg hfall]
      exact iff_of_true (fun idx hidx => hidx) (fun hlt => absurd hlt hfall)

/-! ### The run

The condition is asked at every fall of the timeline. It speaks of the active set in front of the
fall, so the induction carries that set along and not only the property. -/

/-- The active sets of a timeline stay within what may play exactly when no fall leaves more than
one instrument over. Induction on the sections, with the level before them. -/
theorem activesFrom_plays_iff {prev : EnergyLevel}
    (h : ∀ idx ∈ active, idx ∈ targetIndices instruments prev) (secs : List PlannedSection) :
    List.Forall₂ (fun sec active => ∀ idx ∈ active, idx ∈ targetIndices instruments sec.energy)
        secs (activesFrom instruments (some (prev, active)) secs) ↔
      FallsByOne instruments prev active secs := by
  induction secs generalizing prev active with
  | nil => exact iff_of_true .nil trivial
  | cons sec secs ih =>
    rw [activesFrom, List.forall₂_cons, FallsByOne, ← nextActive_plays_iff h]
    -- The sections behind this one are only reached with instruments that play.
    exact and_congr_right fun hstep => ih hstep

/-- The same from the first section on, where all that may play begin to. -/
theorem actives_plays_iff (instruments : List BlueprintInstrument) (secs : List PlannedSection) :
    List.Forall₂ (fun sec active => ∀ idx ∈ active, idx ∈ targetIndices instruments sec.energy)
        secs (activesFrom instruments none secs) ↔ TimelineFallsByOne instruments secs := by
  cases secs with
  | nil => exact iff_of_true .nil trivial
  | cons sec secs =>
    have hfirst : ∀ idx ∈ targetIndices instruments sec.energy,
        idx ∈ targetIndices instruments sec.energy := fun idx hidx => hidx
    rw [activesFrom, List.forall₂_cons, and_iff_right hfirst]
    exact activesFrom_plays_iff hfirst secs

/-- The instruments at the active places play exactly when the places are targets. -/
theorem forall_mem_instrumentsAt (h : ActiveSet instruments active) (e : EnergyLevel) :
    (∀ inst ∈ instrumentsAt instruments active, rolePlaysAtEnergy inst.role e = true) ↔
      ∀ idx ∈ active, idx ∈ targetIndices instruments e := by
  constructor
  · intro hall idx hidx
    have hlt := h.bounded idx hidx
    exact mem_targetIndices.mpr ⟨hlt, hall _
      (List.mem_filterMap.mpr ⟨idx, hidx, List.getElem?_eq_getElem hlt⟩)⟩
  · intro hall inst hinst
    obtain ⟨idx, hidx, hget⟩ := List.mem_filterMap.mp hinst
    obtain ⟨hlt, rfl⟩ := List.getElem?_eq_some_iff.mp hget
    exact (mem_targetIndices.mp (hall idx hidx)).2

/-- The plan of a blueprint has the active sets of its timeline, with the indices replaced by the
instruments. -/
theorem onlyMayPlay_iff_actives (blueprint : MusicBlueprint) (timeline : Timeline) :
    OnlyMayPlay timeline.sections (plan blueprint timeline) ↔
      List.Forall₂ (fun sec active => ∀ idx ∈ active,
          idx ∈ targetIndices blueprint.instruments sec.energy)
        timeline.sections (activesFrom blueprint.instruments none timeline.sections) := by
  have hsets := (activesFrom_activeSets blueprint.instruments timeline.sections).sets
  have hplan : (plan blueprint timeline).sectionInstruments.map
      SectionInstruments.activeInstruments = _ := planFrom_actives 0 none timeline.sections
  let plays (sec : PlannedSection) (insts : List BlueprintInstrument) : Prop :=
    ∀ inst ∈ insts, rolePlaysAtEnergy inst.role sec.energy = true
  show List.Forall₂ (fun sec si => plays sec (SectionInstruments.activeInstruments si)) _ _ ↔ _
  rw [← List.forall₂_map_right_iff, hplan, List.forall₂_map_right_iff, List.forall₂_iff_zip,
    List.forall₂_iff_zip]
  refine and_congr_right fun _ => forall_congr' fun sec => forall_congr' fun active =>
    forall_congr' fun hzip => ?_
  exact forall_mem_instrumentsAt (hsets active (List.of_mem_zip hzip).2) sec.energy

/-- All active instruments of an arrangement play at the energies of their sections exactly when
each fall of the energy has at most one instrument to drop out. -/
theorem plan_onlyMayPlay_iff (blueprint : MusicBlueprint) (timeline : Timeline) :
    OnlyMayPlay timeline.sections (plan blueprint timeline) ↔
      TimelineFallsByOne blueprint.instruments timeline.sections := by
  rw [onlyMayPlay_iff_actives, actives_plays_iff]

/-- A bass and a lead in a loud section and a quiet one. -/
def leadAndBass : MusicBlueprint where
  sections := [{ name := bytes "chorus", bars := 4, energy := .high },
    { name := bytes "outro", bars := 4, energy := .low }]
  instruments := [{ name := bytes "bass", role := bytes "bass" },
    { name := bytes "lead", role := bytes "lead" }]

/-- The bass drops out of the quiet section, and the lead plays on. -/
theorem leadAndBass_not_onlyMayPlay :
    ¬ OnlyMayPlay (TimelinePlanner.plan leadAndBass).sections
      (plan leadAndBass (TimelinePlanner.plan leadAndBass)) := by
  rw [onlyMayPlay_iff_actives, actives_plays_iff]
  intro h
  exact absurd (h.1 (by decide)) (by decide)

end AiMidi.Proofs.ActiveRoles
