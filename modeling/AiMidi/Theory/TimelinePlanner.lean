import AiMidi.Theory.Blueprint

/-!
# `AiMidi.Theory.TimelinePlanner`: sections on a time line

`plan` lays the sections of a blueprint one behind the other. A `fill` transition takes one
bar between two sections.
-/

set_option autoImplicit false

namespace AiMidi.Theory

open AiMidi.Lib

/-- A section of the timeline, with its place in bars. -/
structure PlannedSection where
  name : Bytes
  startBar : Int := 0
  endBar : Int := 0
  bars : Int := 0
  energy : EnergyLevel := .mid
  density : Rat := 1 / 2
  complexity : Rat := 1 / 2
  deriving DecidableEq, Repr

/-- The transition between two sections. -/
structure SectionTransition where
  fromSectionIndex : Int := 0
  toSectionIndex : Int := 0
  transitionBars : Int := 0
  type : Bytes := bytes "direct"
  deriving DecidableEq, Repr

/-- The planned timeline of a piece. -/
structure Timeline where
  sections : List PlannedSection := []
  transitions : List SectionTransition := []
  totalBars : Int := 0
  totalTicks : Int := 0
  deriving DecidableEq, Repr

namespace TimelinePlanner

/-- The energy levels in order. -/
def energyToInt : EnergyLevel → Int
  | .unspecified => 0
  | .low         => 1
  | .mid         => 2
  | .high        => 3

/-- Whether the energy rises from one section to the next. -/
def hasEnergyIncreased (prev next : BlueprintSection) : Bool :=
  energyToInt next.energy > energyToInt prev.energy

/-- The density that an energy level implies. -/
def densityForEnergy : EnergyLevel → Rat
  | .low  => 3 / 10
  | .high => 8 / 10
  | _     => 5 / 10

/-- The complexity that an energy level implies. -/
def complexityForEnergy : EnergyLevel → Rat
  | .low  => 2 / 10
  | .high => 6 / 10
  | _     => 4 / 10

/-- A section placed at a bar. -/
def makePlanned (s : BlueprintSection) (startBar : Int) : PlannedSection :=
  -- A section without a length gets four bars.
  let bars := if s.bars > 0 then s.bars else 4
  { name := s.name
    startBar := startBar
    endBar := startBar + bars
    bars := bars
    energy := s.energy
    density := if s.density > 0 then s.density else densityForEnergy s.energy
    complexity := if s.complexity > 0 then s.complexity else complexityForEnergy s.energy }

/-- The bars and the type of the transition between two sections. The rules for names come
before those for energies. -/
def transitionRule (prev next : BlueprintSection) : Int × Bytes :=
  if next.name = bytes "outro" then (0, bytes "direct")
  else if prev.name = bytes "intro" ∧ next.name = bytes "verse" then (0, bytes "direct")
  else if prev.name = bytes "chorus" ∧ next.name = bytes "verse" then (0, bytes "direct")
  else if prev.name = bytes "chorus" ∧ next.name = bytes "bridge" then (1, bytes "fill")
  else if prev.name = bytes "bridge" ∧ next.name = bytes "chorus" then (1, bytes "fill")
  else if prev.name = bytes "verse" ∧ next.name = bytes "chorus" then
    if hasEnergyIncreased prev next then (1, bytes "fill") else (0, bytes "direct")
  else if energyToInt prev.energy ≠ energyToInt next.energy then (1, bytes "fill")
  else (0, bytes "direct")

/-- The transition from a section to the next one. -/
def determineTransition (fromIdx : Int) (prev next : BlueprintSection) : SectionTransition :=
  let (bars, type) := transitionRule prev next
  ⟨fromIdx, fromIdx + 1, bars, type⟩

/-- The loop over the sections from index `i` on: the planned sections, the transitions and
the bar reached. -/
def planFrom (i currentBar : Int) :
    List BlueprintSection → List PlannedSection × List SectionTransition × Int
  | [] => ([], [], currentBar)
  -- The last section has no transition behind it.
  | [s] =>
    let ps := makePlanned s currentBar
    ([ps], [], ps.endBar)
  | s :: next :: rest =>
    let ps := makePlanned s currentBar
    let trans := determineTransition i s next
    let (sections, transitions, bar) :=
      planFrom (i + 1) (ps.endBar + trans.transitionBars) (next :: rest)
    (ps :: sections, trans :: transitions, bar)

/-- The timeline of a blueprint. -/
def plan (blueprint : MusicBlueprint) : Timeline :=
  let (sections, transitions, totalBars) := planFrom 0 0 blueprint.sections
  ⟨sections, transitions, totalBars, totalBars * 4 * kPpq⟩

end TimelinePlanner

end AiMidi.Theory
