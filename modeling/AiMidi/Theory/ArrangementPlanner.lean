import AiMidi.Theory.TimelinePlanner

/-!
# `AiMidi.Theory.ArrangementPlanner`: which instruments play in which section

Instruments are given by their index in the blueprint. The first section and every section
without a change of energy gets all instruments whose role plays at its energy. A rise adds
one instrument to the section before it, a fall removes one.
-/

set_option autoImplicit false

namespace AiMidi.Theory

open AiMidi.Lib

/-- The instruments that play in one section. -/
structure SectionInstruments where
  sectionName : Bytes
  sectionIndex : Int
  activeInstruments : List BlueprintInstrument
  deriving DecidableEq, Repr

/-- The planned arrangement and all instruments that take part in it. -/
structure Arrangement where
  sectionInstruments : List SectionInstruments := []
  allInstruments : List BlueprintInstrument := []
  deriving DecidableEq, Repr

namespace ArrangementPlanner

open TimelinePlanner (energyToInt)

/-- Drums always play, leads at high energy, bass and rhythm from middle energy on, pads,
comping and unknown roles always. -/
def rolePlaysAtEnergy (role : Bytes) (e : EnergyLevel) : Bool :=
  if role = bytes "drum" then true
  else if role = bytes "lead" then energyToInt e ≥ energyToInt .high
  else if role = bytes "bass" ∨ role = bytes "rhythm" then energyToInt e ≥ energyToInt .mid
  else true

/-- The indices of the instruments whose role plays at an energy level. -/
def targetIndices (instruments : List BlueprintInstrument) (e : EnergyLevel) : List Nat :=
  (instruments.zipIdx.filter fun (inst, _) => rolePlaysAtEnergy inst.role e).map Prod.snd

/-- Add the first target that is not active. -/
def addOne (active target : List Nat) : List Nat :=
  match target.find? (· ∉ active) with
  -- The active list is kept in the order of the blueprint.
  | some idx => (active ++ [idx]).mergeSort
  | none     => active

/-- Remove the first active index that is no target. -/
def removeOne (active target : List Nat) : List Nat := active.eraseP (· ∉ target)

/-- The active instruments of a section, from those of the section before it. -/
def nextActive (prev : EnergyLevel) (active ideal : List Nat) (curr : EnergyLevel) : List Nat :=
  if energyToInt curr > energyToInt prev then addOne active ideal
  else if energyToInt curr < energyToInt prev then removeOne active ideal
  -- The same energy resets to all targets, whatever was added or removed before.
  else ideal

/-- The sections from index `i` on, behind a section with the given energy and active
instruments. -/
def planFrom (instruments : List BlueprintInstrument) (i : Int) :
    Option (EnergyLevel × List Nat) → List PlannedSection → List SectionInstruments
  | _, [] => []
  | before, sec :: secs =>
    let ideal := targetIndices instruments sec.energy
    let active := match before with
      | none                => ideal
      | some (prev, active) => nextActive prev active ideal sec.energy
    ⟨sec.name, i, active.filterMap fun idx => instruments[idx]?⟩
      :: planFrom instruments (i + 1) (some (sec.energy, active)) secs

/-- The arrangement of a blueprint on its timeline. -/
def plan (blueprint : MusicBlueprint) (timeline : Timeline) : Arrangement :=
  ⟨planFrom blueprint.instruments 0 none timeline.sections, blueprint.instruments⟩

end ArrangementPlanner

end AiMidi.Theory
