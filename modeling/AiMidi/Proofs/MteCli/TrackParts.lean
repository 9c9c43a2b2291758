import AiMidi.Tools.MteCli

/-!
# `AiMidi.Proofs.MteCli.TrackParts`: no part is lost or doubled

In a run with a prompt `main` moves each part into the track of the first instrument with a
fitting role, and appends the parts that no instrument took. `arrangedTracks_parts` says that
the event lists of the tracks are then the parts that have events, whatever the names and roles
of the instruments. The invariant of the loop is `openParts`: the parts that have events and are
in no track yet.
-/

set_option autoImplicit false

namespace AiMidi.Proofs.MteCli

open AiMidi.Lib AiMidi.Theory AiMidi.Tools

/-- The part, when it has events and no instrument took it. -/
def openPart (taken : Bool) (events : List MidiEvent) : List (List MidiEvent) :=
  if taken = true ∨ events = [] then [] else [events]

/-- The parts that are still to be placed. -/
def openParts (parts : Parts) (assigned : Assigned) : List (List MidiEvent) :=
  openPart assigned.piano parts.piano ++ openPart assigned.bass parts.bass
    ++ openPart assigned.drums parts.drums

/-- The event lists of the tracks. -/
def trackEvents (tracks : List MidiTrack) : List (List MidiEvent) :=
  tracks.map MidiTrack.events

/-- A part that was taken is not played again. -/
theorem openPart_taken (events : List MidiEvent) : openPart true events = [] := if_pos (.inl rfl)

/-- The parts of two lists of tracks. -/
theorem trackEvents_append (xs ys : List MidiTrack) :
    trackEvents (xs ++ ys) = trackEvents xs ++ trackEvents ys := List.map_append

/-- A track that is dropped when it is empty has its part if there is one. -/
theorem trackEvents_unlessEmpty (name : Bytes) (events : List MidiEvent) :
    trackEvents (trackUnlessEmpty name events) = openPart false events := by
  unfold trackUnlessEmpty openPart
  by_cases h : events = []
  · rw [if_pos h, if_pos (.inr h)]
    rfl
  · rw [if_neg h, if_neg (by simp [h])]
    rfl

/-- Behind the last instrument, a part gets a track when it is open. -/
theorem trackEvents_fallback (taken : Bool) (name : Bytes) (events : List MidiEvent) :
    trackEvents (if taken then [] else trackUnlessEmpty name events) = openPart taken events := by
  cases taken with
  | true => exact (openPart_taken events).symm
  | false => exact trackEvents_unlessEmpty name events

/-- From every state of the loop, the tracks get the open parts, each once. -/
theorem arrangedTracks_open (parts : Parts) (assigned : Assigned)
    (insts : List BlueprintInstrument) :
    (trackEvents (arrangedTracks parts assigned insts)).Perm (openParts parts assigned) := by
  induction insts generalizing parts assigned with
  | nil =>
    rw [arrangedTracks, trackEvents_append, trackEvents_append, trackEvents_fallback,
      trackEvents_fallback, trackEvents_fallback]
    exact List.Perm.refl _
  | cons inst insts ih =>
    rw [arrangedTracks]
    split
    case isTrue hpiano =>
      have hfree : assigned.piano = false := by
        simp only [Bool.and_eq_true, Bool.not_eq_true'] at hpiano
        exact hpiano.1
      rw [trackEvents_append, trackEvents_unlessEmpty, openParts, hfree, List.append_assoc]
      -- The moved list stays closed: the flag of the piano is set.
      exact (ih _ _).append_left _
    case isFalse =>
      split
      case isTrue hbass =>
        have hfree : assigned.bass = false := by
          simp only [Bool.and_eq_true, Bool.not_eq_true'] at hbass
          exact hbass.1
        rw [trackEvents_append, trackEvents_unlessEmpty, openParts, hfree]
        have hrest := ih { parts with bass := [] } { assigned with bass := true }
        rw [openParts, openPart_taken, List.append_nil] at hrest
        refine (hrest.append_left _).trans ?_
        rw [List.append_assoc]
        exact List.perm_append_comm_assoc _ _ _
      case isFalse =>
        split
        case isTrue hdrums =>
          have hfree : assigned.drums = false := by
            simp only [Bool.and_eq_true, Bool.not_eq_true'] at hdrums
            exact hdrums.1
          rw [trackEvents_append, trackEvents_unlessEmpty, openParts, hfree]
          have hrest := ih { parts with drums := [] } { assigned with drums := true }
          rw [openParts, openPart_taken, List.append_nil] at hrest
          exact (hrest.append_left _).trans List.perm_append_comm
        case isFalse => exact ih parts assigned

/-- The parts that have events. -/
def playedParts (parts : Parts) : List (List MidiEvent) :=
  [parts.piano, parts.bass, parts.drums].filter (· ≠ [])

/-- At the start every part is open. -/
theorem openParts_start (parts : Parts) : openParts parts {} = playedParts parts := by
  have hpart : ∀ events : List MidiEvent,
      openPart false events = [events].filter (· ≠ []) := by
    intro events
    by_cases h : events = []
    · simp [openPart, h]
    · simp [openPart, h]
  show openPart false parts.piano ++ openPart false parts.bass ++ openPart false parts.drums = _
  rw [hpart, hpart, hpart, ← List.filter_append, ← List.filter_append]
  rfl

/-- Each part that has events is in one track, complete and unmodified, and the tracks hold no
other events. -/
theorem arrangedTracks_parts (parts : Parts) (insts : List BlueprintInstrument) :
    (trackEvents (arrangedTracks parts {} insts)).Perm (playedParts parts) := by
  rw [← openParts_start]
  exact arrangedTracks_open parts {} insts

end AiMidi.Proofs.MteCli
