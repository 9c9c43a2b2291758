import AiMidi.Theory.ArrangementPlanner
import Mathlib.Data.List.Sort

/-!
# `AiMidi.Proofs.ArrangementSets`: the active instruments of each section

The planner keeps the indices of the active instruments and changes them from section to section.
`addOne` and `removeOne` change one index at most, and both keep the order of the blueprint
(`addOne_activeSet`, `removeOne_activeSet`). An instrument whose role plays at all levels is a
target of every section, so it is never removed.

`ActiveSet` is the invariant of the loop, and `plan_activeSets` the result for an arrangement.

A step changes a set only by `addOne` or `removeOne`, and `nextActive_activeSet` has one case for
each. The sets of all sections are an induction over them (`activesFrom_activeSet`), and the plan
lists the instruments at their places (`planFrom_actives`).
-/

set_option autoImplicit false

namespace AiMidi.Proofs.ArrangementSets

open AiMidi.Lib AiMidi.Theory AiMidi.Theory.ArrangementPlanner
open AiMidi.Theory.TimelinePlanner (energyToInt)

variable {instruments : List BlueprintInstrument} {active target : List Nat}

/-! ### The property -/

/-- The instruments at the given places. -/
def instrumentsAt (instruments : List BlueprintInstrument) (active : List Nat) :
    List BlueprintInstrument := active.filterMap fun idx => instruments[idx]?

/-- Places of instruments in the order of the blueprint, with all that play at every level. -/
structure ActiveSet (instruments : List BlueprintInstrument) (active : List Nat) : Prop where
  ascending : active.Pairwise (· < ·)
  bounded : ∀ idx ∈ active, idx < instruments.length
  always : ∀ idx (_ : idx < instruments.length),
    (∀ e, rolePlaysAtEnergy instruments[idx].role e = true) → idx ∈ active

/-- What becomes of the active instruments from one section to the next. -/
structure Change (instruments : List BlueprintInstrument) (prev curr : EnergyLevel)
    (active next : List Nat) : Prop where
  same : curr = prev → next = targetIndices instruments curr
  rise : energyToInt prev < energyToInt curr →
    active.Sublist next ∧ next.length ≤ active.length + 1
  fall : energyToInt curr < energyToInt prev →
    next.Sublist active ∧ active.length ≤ next.length + 1

/-! ### Targets

The targets of a level are listed in the order of the blueprint. They are all the planner compares
an active set with. -/

/-- The indices of a level are those of the instruments whose role plays at it. -/
theorem mem_targetIndices {e : EnergyLevel} {idx : Nat} :
    idx ∈ targetIndices instruments e ↔
      ∃ h : idx < instruments.length, rolePlaysAtEnergy instruments[idx].role e = true := by
  rw [targetIndices, List.mem_map]
  constructor
  · rintro ⟨⟨inst, idx⟩, hmem, rfl⟩
    rw [List.mem_filter, List.mem_zipIdx_iff_getElem?] at hmem
    obtain ⟨h, hget⟩ := List.getElem?_eq_some_iff.mp hmem.1
    refine ⟨h, ?_⟩
    rw [hget]
    exact hmem.2
  · rintro ⟨h, hplays⟩
    refine ⟨(instruments[idx], idx), ?_, rfl⟩
    rw [List.mem_filter, List.mem_zipIdx_iff_getElem?]
    exact ⟨List.getElem?_eq_getElem h, hplays⟩

/-- They are an active set. -/
theorem targetIndices_activeSet (e : EnergyLevel) :
    ActiveSet instruments (targetIndices instruments e) where
  ascending := by
    have hsub : (targetIndices instruments e).Sublist (instruments.zipIdx.map Prod.snd) :=
      List.filter_sublist.map Prod.snd
    rw [List.zipIdx_map_snd] at hsub
    exact (List.pairwise_lt_range' _).sublist hsub
  bounded idx h := (mem_targetIndices.mp h).1
  always idx h hplays := mem_targetIndices.mpr ⟨h, hplays e⟩

/-! ### Steps

A rise of the energy adds one target at most, a fall removes one index that is no target, and an
equal energy takes the targets themselves. The first two keep the indices ascending, one by sorting
and the other because a part of an ascending list is ascending. -/

/-- Either every target is active already, or one of the others comes in. -/
theorem addOne_cases (active target : List Nat) :
    (addOne active target = active ∧ ∀ idx ∈ target, idx ∈ active) ∨
      ∃ idx ∈ target, idx ∉ active ∧ addOne active target = (active ++ [idx]).mergeSort := by
  cases hfind : target.find? (· ∉ active) with
  | none =>
    refine .inl ⟨by rw [addOne, hfind], fun idx hidx => ?_⟩
    simpa using List.find?_eq_none.mp hfind idx hidx
  | some idx =>
    have hnot := List.find?_some hfind
    exact .inr ⟨idx, List.mem_of_find?_eq_some hfind, of_decide_eq_true hnot,
      by rw [addOne, hfind]⟩

/-- The sorted list with a new index. -/
theorem ascending_mergeSort {idx : Nat} (h : active.Pairwise (· < ·)) (hnot : idx ∉ active) :
    ((active ++ [idx]).mergeSort).Pairwise (· < ·) := by
  have hle := List.pairwise_mergeSort' (· ≤ ·) (active ++ [idx])
  have hne : ((active ++ [idx]).mergeSort).Nodup := by
    rw [(List.mergeSort_perm _ _).nodup_iff, (List.perm_append_singleton idx active).nodup_iff,
      List.nodup_cons]
    exact ⟨hnot, h.imp Nat.ne_of_lt⟩
  exact hle.imp₂ (fun _ _ => Nat.lt_of_le_of_ne) hne

/-- Adding an instrument leaves those that play where they are. -/
theorem sublist_addOne (h : active.Pairwise (· < ·)) : active.Sublist (addOne active target) := by
  obtain ⟨heq, -⟩ | ⟨idx, -, -, heq⟩ := addOne_cases active target
  · rw [heq]
  · rw [heq]
    have hsub : active.Subperm ((active ++ [idx]).mergeSort) :=
      (List.sublist_append_left active [idx]).subperm.trans (List.mergeSort_perm _ _).symm.subperm
    exact List.sublist_of_subperm_of_pairwise hsub (h.imp Nat.le_of_lt)
      (List.pairwise_mergeSort' (· ≤ ·) _)

/-- What is added may play, so the set stays an active one. -/
theorem addOne_activeSet (h : ActiveSet instruments active)
    (htarget : ∀ idx ∈ target, idx < instruments.length) :
    ActiveSet instruments (addOne active target) := by
  -- Nothing has been added, or one target that was not active.
  obtain ⟨heq, -⟩ | ⟨idx, hidx, hnot, heq⟩ := addOne_cases active target
  · rw [heq]
    exact h
  · rw [heq]
    constructor
    case ascending => exact ascending_mergeSort h.ascending hnot
    case bounded =>
      intro i hi
      rw [List.mem_mergeSort] at hi
      obtain hi | hi := List.mem_append.mp hi
      · exact h.bounded i hi
      · rw [List.mem_singleton.mp hi]
        exact htarget idx hidx
    case always =>
      intro i hi hplays
      exact List.mem_mergeSort.mpr (List.mem_append_left _ (h.always i hi hplays))

/-- Nothing that is a target is removed. -/
theorem removeOne_activeSet (h : ActiveSet instruments active) (e : EnergyLevel) :
    ActiveSet instruments (removeOne active (targetIndices instruments e)) where
  ascending := h.ascending.eraseP _
  bounded idx hidx := h.bounded idx (List.mem_of_mem_eraseP hidx)
  always idx hidx hplays := by
    have htarget : idx ∈ targetIndices instruments e := mem_targetIndices.mpr ⟨hidx, hplays e⟩
    rw [removeOne, List.mem_eraseP_of_neg (by simpa using htarget)]
    exact h.always idx hidx hplays

/-- A step to the next section keeps the invariant. -/
theorem nextActive_activeSet (h : ActiveSet instruments active) (prev curr : EnergyLevel) :
    ActiveSet instruments (nextActive prev active (targetIndices instruments curr) curr) := by
  have htarget : ActiveSet instruments (targetIndices instruments curr) :=
    targetIndices_activeSet curr
  unfold nextActive
  split
  · exact addOne_activeSet h htarget.bounded
  · split
    · exact removeOne_activeSet h curr
    · exact htarget

/-- One section changes the set by one instrument at most, in the direction of the energy. -/
theorem nextActive_change (h : ActiveSet instruments active) (prev curr : EnergyLevel) :
    Change instruments prev curr active
      (nextActive prev active (targetIndices instruments curr) curr) := by
  constructor
  -- One case for each direction of the energy.
  case same =>
    rintro rfl
    rw [nextActive, if_neg (lt_irrefl _), if_neg (lt_irrefl _)]
  case rise =>
    intro hrise
    rw [nextActive, if_pos hrise]
    refine ⟨sublist_addOne h.ascending, ?_⟩
    obtain ⟨heq, -⟩ | ⟨idx, -, -, heq⟩ := addOne_cases active (targetIndices instruments curr)
    · rw [heq]
      exact Nat.le_succ _
    · rw [heq, List.length_mergeSort, List.length_append, List.length_singleton]
  case fall =>
    intro hfall
    rw [nextActive, if_neg (by omega), if_pos hfall]
    refine ⟨List.eraseP_sublist, ?_⟩
    have hlen := List.le_length_eraseP (l := active)
      (p := fun idx => decide (idx ∉ targetIndices instruments curr))
    rw [removeOne]
    omega

/-! ### The run

The planner carries the active indices from section to section. `activesFrom` is that fold alone,
without the sections that are built on the way. -/

/-- The active indices that the planner goes through. -/
def activesFrom (instruments : List BlueprintInstrument) :
    Option (EnergyLevel × List Nat) → List PlannedSection → List (List Nat)
  | _, [] => []
  | before, sec :: secs =>
    let ideal := targetIndices instruments sec.energy
    let active := match before with
      | none                => ideal
      | some (prev, active) => nextActive prev active ideal sec.energy
    active :: activesFrom instruments (some (sec.energy, active)) secs

/-- The plan lists the instruments of the active sets. -/
theorem planFrom_actives (i : Int) (before : Option (EnergyLevel × List Nat))
    (secs : List PlannedSection) :
    (planFrom instruments i before secs).map SectionInstruments.activeInstruments =
      (activesFrom instruments before secs).map (instrumentsAt instruments) := by
  induction secs generalizing i before with
  | nil => rfl
  | cons sec secs ih => exact congrArg (List.cons _) (ih (i + 1) _)

/-- There is one active set for each section. -/
theorem length_activesFrom (before : Option (EnergyLevel × List Nat))
    (secs : List PlannedSection) :
    (activesFrom instruments before secs).length = secs.length := by
  induction secs generalizing before with
  | nil => rfl
  | cons sec secs ih => exact congrArg (· + 1) (ih _)

/-- Every section has a set of active instruments. -/
theorem activesFrom_activeSet {prev : EnergyLevel} (h : ActiveSet instruments active)
    (secs : List PlannedSection) :
    ∀ next ∈ activesFrom instruments (some (prev, active)) secs, ActiveSet instruments next := by
  induction secs generalizing prev active with
  | nil => exact fun next hnext => absurd hnext List.not_mem_nil
  | cons sec secs ih =>
    have hstep := nextActive_activeSet h prev sec.energy
    exact List.forall_mem_cons.mpr ⟨hstep, ih hstep⟩

/-- Every section changes the active instruments of the section in front of it. -/
theorem activesFrom_change {sec : PlannedSection} (h : ActiveSet instruments active)
    (secs : List PlannedSection) :
    ∀ i (_ : i + 1 < (sec :: secs).length)
      (_ : i + 1 < (active :: activesFrom instruments (some (sec.energy, active)) secs).length),
      Change instruments (sec :: secs)[i].energy (sec :: secs)[i + 1].energy
        (active :: activesFrom instruments (some (sec.energy, active)) secs)[i]
        (active :: activesFrom instruments (some (sec.energy, active)) secs)[i + 1] := by
  induction secs generalizing sec active with
  | nil => exact fun i hi _ => absurd hi (by simp)
  | cons next secs ih =>
    intro i hi hi'
    cases i with
    | zero => exact nextActive_change h sec.energy next.energy
    | succ i =>
      exact ih (nextActive_activeSet h sec.energy next.energy) i (Nat.lt_of_succ_lt_succ hi)
        (Nat.lt_of_succ_lt_succ hi')

/-! ### Whole arrangements

For a whole arrangement the places turn into instruments. Ascending places give a sublist of the
instruments, which is what the order of the blueprint means. -/

/-- Sets of active instruments for the sections of a timeline. -/
structure ActiveSets (instruments : List BlueprintInstrument) (secs : List PlannedSection)
    (actives : List (List Nat)) : Prop where
  length : actives.length = secs.length
  sets : ∀ active ∈ actives, ActiveSet instruments active
  drums : ∀ active ∈ actives, ∀ idx (_ : idx < instruments.length),
    instruments[idx].role = bytes "drum" → idx ∈ active
  first : ∀ (_ : 0 < secs.length) (_ : 0 < actives.length),
    actives[0] = targetIndices instruments secs[0].energy
  changes : ∀ i (_ : i + 1 < secs.length) (_ : i + 1 < actives.length),
    Change instruments secs[i].energy secs[i + 1].energy actives[i] actives[i + 1]

/-- Drums play at all levels. -/
theorem ActiveSet.drums (h : ActiveSet instruments active) {idx : Nat}
    (hidx : idx < instruments.length) (hrole : instruments[idx].role = bytes "drum") :
    idx ∈ active := by
  apply h.always idx hidx
  intro e
  rw [rolePlaysAtEnergy, if_pos hrole]

/-- All active sets of a timeline meet the conditions. -/
theorem activesFrom_activeSets (instruments : List BlueprintInstrument)
    (secs : List PlannedSection) :
    ActiveSets instruments secs (activesFrom instruments none secs) := by
  -- The first set is that of the first energy, and each change keeps the conditions.
  have hsets : ∀ active ∈ activesFrom instruments none secs, ActiveSet instruments active := by
    cases secs with
    | nil => exact fun active h => absurd h List.not_mem_nil
    | cons sec secs =>
      have hfirst : ActiveSet instruments (targetIndices instruments sec.energy) :=
        targetIndices_activeSet sec.energy
      exact List.forall_mem_cons.mpr ⟨hfirst, activesFrom_activeSet hfirst secs⟩
  constructor
  case length => exact length_activesFrom none secs
  case sets => exact hsets
  case drums => exact fun active hactive idx hidx => (hsets active hactive).drums hidx
  case first =>
    intro hsecs hactives
    cases secs with
    | nil => exact absurd hsecs (Nat.lt_irrefl 0)
    | cons sec secs => rfl
  case changes =>
    cases secs with
    | nil => exact fun i hi => absurd hi (Nat.not_lt_zero _)
    | cons sec secs =>
      exact activesFrom_change (targetIndices_activeSet sec.energy) secs

/-- All indices select all instruments. -/
theorem instrumentsAt_range (instruments : List BlueprintInstrument) :
    instrumentsAt instruments (List.range instruments.length) = instruments := by
  calc instrumentsAt instruments (List.range instruments.length)
      = instruments.zipIdx.filterMap fun p => instruments[p.2]? := by
        rw [instrumentsAt, List.range_eq_range', ← List.zipIdx_map_snd 0 instruments,
          List.filterMap_map]
        rfl
    _ = instruments.zipIdx.filterMap fun p => some p.1 :=
        List.filterMap_congr fun _ hp => List.mem_zipIdx_iff_getElem?.mp hp
    _ = instruments := by
        rw [List.filterMap_eq_map', List.zipIdx_map_fst]

/-- The instruments at ascending places, in the order of the blueprint. -/
theorem instrumentsAt_sublist (h : ActiveSet instruments active) :
    (instrumentsAt instruments active).Sublist instruments := by
  have hsub : active.Sublist (List.range instruments.length) := by
    apply List.sublist_of_subperm_of_pairwise (r := (· ≤ ·))
    · apply List.subperm_of_subset (h.ascending.imp Nat.ne_of_lt)
      exact fun idx hidx => List.mem_range.mpr (h.bounded idx hidx)
    · exact h.ascending.imp Nat.le_of_lt
    · exact List.pairwise_le_range
  have hat := hsub.filterMap fun idx => instruments[idx]?
  rwa [← instrumentsAt, ← instrumentsAt, instrumentsAt_range] at hat

/-- The active instruments of every arrangement: for each section a set of places, and the
instruments at these places in the order of the blueprint. -/
theorem plan_activeSets (blueprint : MusicBlueprint) (timeline : Timeline) :
    ∃ actives, ActiveSets blueprint.instruments timeline.sections actives ∧
      (plan blueprint timeline).sectionInstruments.map SectionInstruments.activeInstruments =
        actives.map (instrumentsAt blueprint.instruments) ∧
      ∀ sec ∈ (plan blueprint timeline).sectionInstruments,
        sec.activeInstruments.Sublist blueprint.instruments := by
  have hsets := activesFrom_activeSets blueprint.instruments timeline.sections
  have hplan : (plan blueprint timeline).sectionInstruments.map
      SectionInstruments.activeInstruments = _ := planFrom_actives 0 none timeline.sections
  refine ⟨_, hsets, hplan, fun sec hsec => ?_⟩
  have hmem := List.mem_map_of_mem (f := SectionInstruments.activeInstruments) hsec
  rw [hplan] at hmem
  obtain ⟨active, hactive, heq⟩ := List.mem_map.mp hmem
  rw [← heq]
  exact instrumentsAt_sublist (hsets.sets active hactive)

end AiMidi.Proofs.ArrangementSets
