import AiMidi.Theory.TimelinePlanner
import Mathlib.Algebra.Ring.Int.Defs
import Mathlib.Data.List.Forall2

/-!
# `AiMidi.Proofs.TimelineGeometry`: sections one behind the other

The planner walks over the sections of a blueprint once and carries the bar that it has reached.
The lemmas about `planFrom` are about the loop from any index and any bar on, by induction on the
sections behind the first one. `plan_laidOut` puts them together for a whole blueprint.

Bars are integers without a bound here. In the source they are of type `int`, so the result is
about blueprints whose bars fit.

The loop looks at one section and at the next one, so its equation is about two sections in front
(`planFrom_cons`), and every lemma about it has the last section as its base.
-/

set_option autoImplicit false

namespace AiMidi.Proofs.TimelineGeometry

open AiMidi.Lib AiMidi.Theory AiMidi.Theory.TimelinePlanner

/-- A timeline with the sections of a blueprint in their order, one behind the other, and only the
bars of the transitions between them. -/
structure LaidOut (blueprint : List BlueprintSection) (timeline : Timeline) : Prop where
  planned : List.Forall₂ (fun s ps => ps = makePlanned s ps.startBar) blueprint timeline.sections
  bars : ∀ ps ∈ timeline.sections, 1 ≤ ps.bars ∧ ps.endBar = ps.startBar + ps.bars
  joins : timeline.transitions.map (fun t => (t.fromSectionIndex, t.toSectionIndex)) =
    (List.range (timeline.sections.length - 1)).map fun i : Nat => ((i : Int), (i : Int) + 1)
  first : ∀ h : timeline.sections ≠ [], (timeline.sections.head h).startBar = 0
  next : ∀ i (_ : i + 1 < timeline.sections.length) (_ : i < timeline.transitions.length),
    timeline.sections[i + 1].startBar =
      timeline.sections[i].endBar + timeline.transitions[i].transitionBars
  totalBars : timeline.totalBars = (timeline.sections.map PlannedSection.bars).sum +
    (timeline.transitions.map SectionTransition.transitionBars).sum
  totalTicks : timeline.totalTicks = timeline.totalBars * 4 * 480
  apart : timeline.sections.Pairwise fun ps later => ps.endBar ≤ later.startBar

/-! ### Sections and transitions

A section is planned from its own bar on, without regard to the others. The rule of the transition
looks at two sections and gives a number of bars. -/

/-- A planned section has at least one bar. -/
theorem makePlanned_bars (s : BlueprintSection) (startBar : Int) :
    1 ≤ (makePlanned s startBar).bars := by
  show 1 ≤ if s.bars > 0 then s.bars else 4
  split
  · omega
  · omega

/-- A planned section ends its bars after its start. -/
theorem makePlanned_endBar (s : BlueprintSection) (startBar : Int) :
    (makePlanned s startBar).endBar = startBar + (makePlanned s startBar).bars := rfl

/-- A planned section ends after it starts. -/
theorem lt_endBar (s : BlueprintSection) (startBar : Int) :
    startBar < (makePlanned s startBar).endBar := by
  have hbars := makePlanned_bars s startBar
  rw [makePlanned_endBar]
  omega

/-- A transition has no negative number of bars. -/
theorem transitionRule_nonneg (prev next : BlueprintSection) :
    0 ≤ (transitionRule prev next).1 := by
  unfold transitionRule
  repeat' split
  all_goals decide

/-! ### The loop

The loop carries the bar that it has reached. Each lemma says something about all sections from a
given bar on, so that it can be used for the sections behind the first. -/

/-- The bar behind a section and its transition. -/
def nextBar (currentBar : Int) (s next : BlueprintSection) : Int :=
  (makePlanned s currentBar).endBar + (transitionRule s next).1

/-- The next section starts after the current one. -/
theorem lt_nextBar (currentBar : Int) (s next : BlueprintSection) :
    currentBar < nextBar currentBar s next := by
  have hend := lt_endBar s currentBar
  have htransition := transitionRule_nonneg s next
  rw [nextBar]
  omega

section

variable (i currentBar : Int) (s : BlueprintSection) (rest : List BlueprintSection)

/-- A section that has a successor is planned, followed by its transition and the plan of the
rest. -/
theorem planFrom_cons (next : BlueprintSection) :
    planFrom i currentBar (s :: next :: rest) =
      (makePlanned s currentBar ::
          (planFrom (i + 1) (nextBar currentBar s next) (next :: rest)).1,
        determineTransition i s next ::
          (planFrom (i + 1) (nextBar currentBar s next) (next :: rest)).2.1,
        (planFrom (i + 1) (nextBar currentBar s next) (next :: rest)).2.2) := rfl

/-- Each section is planned at its own start. -/
theorem planFrom_planned : List.Forall₂ (fun s ps => ps = makePlanned s ps.startBar) (s :: rest)
    (planFrom i currentBar (s :: rest)).1 := by
  induction rest generalizing i currentBar s with
  | nil => exact .cons rfl .nil
  | cons next rest ih => exact .cons rfl (ih (i + 1) (nextBar currentBar s next) next)

/-- Each planned section has at least one bar and ends its bars after its start. -/
theorem planFrom_bars : ∀ ps ∈ (planFrom i currentBar (s :: rest)).1,
    1 ≤ ps.bars ∧ ps.endBar = ps.startBar + ps.bars := by
  induction rest generalizing i currentBar s with
  | nil =>
    intro ps hps
    rw [List.mem_singleton.mp hps]
    exact ⟨makePlanned_bars s currentBar, rfl⟩
  | cons next rest ih =>
    rw [planFrom_cons]
    intro ps hps
    obtain rfl | hps := List.mem_cons.mp hps
    · exact ⟨makePlanned_bars s currentBar, rfl⟩
    · exact ih (i + 1) _ next ps hps

/-- The first section starts where the loop starts. -/
theorem planFrom_first : ∃ sections, (planFrom i currentBar (s :: rest)).1 =
    makePlanned s currentBar :: sections := by
  cases rest with
  | nil => exact ⟨_, rfl⟩
  | cons next rest => exact ⟨_, rfl⟩

/-- No section starts in front of the loop. -/
theorem le_startBar : ∀ ps ∈ (planFrom i currentBar (s :: rest)).1, currentBar ≤ ps.startBar := by
  induction rest generalizing i currentBar s with
  | nil =>
    intro ps hps
    rw [List.mem_singleton.mp hps]
    exact Int.le_refl _
  | cons next rest ih =>
    have hlt := lt_nextBar currentBar s next
    rw [planFrom_cons]
    intro ps hps
    obtain rfl | hps := List.mem_cons.mp hps
    · exact Int.le_refl _
    · have hle := ih (i + 1) _ next ps hps
      omega

/-- Planned sections do not overlap: each ends no later than any later one starts. -/
theorem planFrom_apart : (planFrom i currentBar (s :: rest)).1.Pairwise fun ps later =>
    ps.endBar ≤ later.startBar := by
  induction rest generalizing i currentBar s with
  | nil => exact List.pairwise_singleton _ _
  | cons next rest ih =>
    have htransition := transitionRule_nonneg s next
    rw [planFrom_cons]
    apply List.pairwise_cons.mpr
    constructor
    · intro later hlater
      have hle := le_startBar (i + 1) _ next rest later hlater
      rw [nextBar] at hle
      omega
    · exact ih (i + 1) _ next

/-- The transitions join each section to the next one, in order. -/
theorem planFrom_joins :
    (planFrom i currentBar (s :: rest)).2.1.map (fun t => (t.fromSectionIndex, t.toSectionIndex)) =
      (List.range rest.length).map fun k : Nat => (i + k, i + k + 1) := by
  induction rest generalizing i currentBar s with
  | nil => rfl
  | cons next rest ih =>
    rw [planFrom_cons, List.map_cons, ih, List.length_cons, List.range_succ_eq_map, List.map_cons,
      List.map_map]
    congr 1
    · simp [determineTransition]
    · apply List.map_congr_left
      intro k _
      have hshift : i + 1 + (k : Int) = i + ((k + 1 : Nat) : Int) := by omega
      simp only [hshift, Function.comp_apply]

/-- The transition of a section leads to the section behind it. -/
theorem planFrom_next {k : Nat} (hk : k + 1 < (planFrom i currentBar (s :: rest)).1.length)
    (hk' : k < (planFrom i currentBar (s :: rest)).2.1.length) :
    (planFrom i currentBar (s :: rest)).1[k + 1].startBar =
      (planFrom i currentBar (s :: rest)).1[k].endBar +
        (planFrom i currentBar (s :: rest)).2.1[k].transitionBars := by
  induction rest generalizing i currentBar s k with
  | nil => exact absurd hk' (Nat.not_lt_zero k)
  | cons next rest ih =>
    cases k with
    | zero =>
      obtain ⟨sections, hsections⟩ := planFrom_first (i + 1) (nextBar currentBar s next) next rest
      simp only [planFrom_cons, hsections, List.getElem_cons_succ, List.getElem_cons_zero]
      rfl
    | succ k => exact ih (i + 1) (nextBar currentBar s next) next _ _

/-- Sections take at least one bar. -/
theorem lt_planFrom : currentBar < (planFrom i currentBar (s :: rest)).2.2 := by
  induction rest generalizing i currentBar s with
  | nil => exact lt_endBar s currentBar
  | cons next rest ih => exact Int.lt_trans (lt_nextBar currentBar s next) (ih (i + 1) _ next)

/-- The loop stops behind all bars that it has laid out. -/
theorem planFrom_stop :
    (planFrom i currentBar (s :: rest)).2.2 = currentBar +
      ((planFrom i currentBar (s :: rest)).1.map PlannedSection.bars).sum +
      ((planFrom i currentBar (s :: rest)).2.1.map SectionTransition.transitionBars).sum := by
  induction rest generalizing i currentBar s with
  | nil => simp [planFrom, makePlanned_endBar]
  | cons next rest ih =>
    have htransition : (determineTransition i s next).transitionBars = (transitionRule s next).1 :=
      rfl
    rw [planFrom_cons]
    dsimp only
    rw [ih, List.map_cons, List.map_cons, List.sum_cons, List.sum_cons, htransition, nextBar,
      makePlanned_endBar]
    omega

end

/-! ### Whole timelines -/

/-- The planned timeline of every blueprint. -/
theorem plan_laidOut (blueprint : MusicBlueprint) :
    LaidOut blueprint.sections (plan blueprint) := by
  cases hsections : blueprint.sections with
  | nil =>
    have hplan : plan blueprint = ⟨[], [], 0, 0⟩ := by
      rw [plan, hsections]
      rfl
    rw [hplan]
    exact ⟨.nil, by simp, rfl, by simp, by simp, rfl, rfl, .nil⟩
  | cons s rest =>
    have hplan : plan blueprint = ⟨(planFrom 0 0 (s :: rest)).1, (planFrom 0 0 (s :: rest)).2.1,
        (planFrom 0 0 (s :: rest)).2.2, (planFrom 0 0 (s :: rest)).2.2 * 4 * kPpq⟩ := by
      rw [plan, hsections]
    have hplanned := planFrom_planned 0 0 s rest
    rw [hplan]
    -- All of it comes from the induction over the sections, started at bar 0.
    constructor
    case planned => exact hplanned
    case bars => exact planFrom_bars 0 0 s rest
    case joins =>
      rw [planFrom_joins, ← hplanned.length_eq]
      simp
    case first =>
      intro h
      obtain ⟨sections, hfirst⟩ := planFrom_first 0 0 s rest
      simp only [hfirst, List.head_cons]
      rfl
    case next =>
      intro k hk hk'
      exact planFrom_next 0 0 s rest hk hk'
    case totalBars =>
      rw [planFrom_stop]
      simp
    case totalTicks => rfl
    case apart => exact planFrom_apart 0 0 s rest

end AiMidi.Proofs.TimelineGeometry
