import AiMidi.Lib.Sounding
import AiMidi.Proofs.MidiRenderer.WireOrder

/-!
# `AiMidi.Proofs.MidiRenderer.HangingNotes`: which tracks end in silence

The comparator puts every note off before every note on of the same tick. That is what keeps
back-to-back notes of one pitch apart. For an event of length zero it puts the note off in
front of its own note on, and the note then sounds until a later note off of the same
channel and note.

`noHangingNotes_iff` says exactly when that happens: with `tick_on ≤ tick_off` throughout, a
track ends in silence iff every event of length zero has another event of its channel and
note that ends later. A track without events of length zero always does.
-/

set_option autoImplicit false

namespace AiMidi.Proofs.MidiRenderer

open AiMidi.Lib
open AiMidi.Theory

/-- A wire event as an edge of its note. -/
def wireEdge (we : WireEvent) : Edge (UInt8 × UInt8) :=
  if we.isNoteOff then .off (wireKey we) else .on (wireKey we)

/-- The edges of a track, in the order that `build_instrument_track` writes. -/
def trackEdges (std : StdSort wireEventLt) (track : MidiTrack) : List (Edge (UInt8 × UInt8)) :=
  (wireOrder std track).map wireEdge

/-- Every note on of the track is followed by a note off of the same channel and note, and
no note is left sounding at the end. -/
def NoHangingNotes (std : StdSort wireEventLt) (track : MidiTrack) : Prop :=
  Edge.Released (trackEdges std track) ∧ ∀ key, Edge.play (trackEdges std track) key = false

/-- Every event of length zero has an event of the same channel and note that ends later.
Notes above 127 are not rendered and do not count. -/
def ZeroLengthCovered (track : MidiTrack) : Prop :=
  ∀ ev ∈ track.events, ev.note ≤ 127 → ev.tickOn = ev.tickOff →
    ∃ ev' ∈ track.events, eventKey ev' = eventKey ev ∧ ev.tickOff < ev'.tickOff

/-! ### Edges -/

/-- A note on opens its channel and pitch. -/
theorem wireEdge_eq_on {we : WireEvent} {key : UInt8 × UInt8} :
    wireEdge we = .on key ↔ we.isNoteOff = false ∧ wireKey we = key := by
  unfold wireEdge
  cases we.isNoteOff <;> simp

/-- A note off closes its channel and pitch. -/
theorem wireEdge_eq_off {we : WireEvent} {key : UInt8 × UInt8} :
    wireEdge we = .off key ↔ we.isNoteOff = true ∧ wireKey we = key := by
  unfold wireEdge
  cases we.isNoteOff <;> simp

/-! ### The order around one note on

The order of the wire events decides what is behind a note on. A note off of a later tick always is,
and one of the same tick never. -/

variable (std : StdSort wireEventLt) (track : MidiTrack)

/-- Behind a note on, the note offs are exactly those of a later tick: one at the same tick
comes first, and one at a later tick cannot come before. -/
theorem mem_after_noteOn_iff {before after : List WireEvent} {on off : WireEvent}
    (hsplit : wireOrder std track = before ++ on :: after) (hon : on.isNoteOff = false)
    (hoff : off.isNoteOff = true) :
    off ∈ after ↔ off ∈ wireOrder std track ∧ on.tick < off.tick := by
  have htick := pairwise_tick_wireOrder std track
  have hkind := wireOrder_off_before_on std track
  rw [hsplit] at htick hkind ⊢
  obtain ⟨-, htick', htick''⟩ := List.pairwise_append.mp htick
  obtain ⟨-, hkind', -⟩ := List.pairwise_append.mp hkind
  constructor
  · intro hmem
    refine ⟨List.mem_append_right _ (List.mem_cons_of_mem _ hmem), ?_⟩
    -- At the tick of the note on, the kind order would put the note off in front of it.
    refine UInt32.lt_of_le_of_ne (List.rel_of_pairwise_cons htick' hmem) fun heq => ?_
    rw [List.rel_of_pairwise_cons hkind' hmem heq hoff] at hon
    exact absurd hon (by simp)
  · rintro ⟨hmem, hlt⟩
    rcases List.mem_append.mp hmem with hmem | hmem
    -- A note off in front of the note on has no later tick.
    · have hle := htick'' off hmem on List.mem_cons_self
      exact absurd hlt (UInt32.not_lt.mpr hle)
    · rcases List.mem_cons.mp hmem with rfl | hmem
      · exact absurd hlt (UInt32.lt_irrefl _)
      · exact hmem

/-- The note ons of a track are released exactly when each has a note off of its key at a
later tick. -/
theorem released_trackEdges_iff :
    Edge.Released (trackEdges std track) ↔
      ∀ on ∈ wireOrder std track, on.isNoteOff = false →
        ∃ off ∈ wireOrder std track, off.isNoteOff = true ∧ wireKey off = wireKey on ∧
          on.tick < off.tick := by
  constructor
  · intro h on hmem hon
    obtain ⟨before, after, hsplit⟩ := List.append_of_mem hmem
    have hmap : trackEdges std track
        = before.map wireEdge ++ .on (wireKey on) :: after.map wireEdge := by
      rw [trackEdges, hsplit, List.map_append, List.map_cons, wireEdge_eq_on.mpr ⟨hon, rfl⟩]
    obtain ⟨off, hafter, hedge⟩ := List.mem_map.mp (h _ _ _ hmap)
    obtain ⟨hoff, hkey⟩ := wireEdge_eq_off.mp hedge
    obtain ⟨hmem', hlt⟩ := (mem_after_noteOn_iff std track hsplit hon hoff).mp hafter
    exact ⟨off, hmem', hoff, hkey, hlt⟩
  · intro h before after key hmap
    -- A split of the edges comes from a split of the wire events.
    obtain ⟨l₁, l₂, hsplit, -, htail⟩ := List.map_eq_append_iff.mp hmap
    obtain ⟨on, l₃, rfl, hedge, rfl⟩ := List.map_eq_cons_iff.mp htail
    obtain ⟨hon, rfl⟩ := wireEdge_eq_on.mp hedge
    have hmem : on ∈ wireOrder std track := by simp [hsplit]
    obtain ⟨off, hmem', hoff, hkey, hlt⟩ := h on hmem hon
    have hafter := (mem_after_noteOn_iff std track hsplit hon hoff).mpr ⟨hmem', hlt⟩
    exact List.mem_map.mpr ⟨off, hafter, wireEdge_eq_off.mpr ⟨hoff, hkey⟩⟩

/-! ### Hanging notes

A note that is left sounding has no note off at a later tick. Its own would be one unless its length
is zero, so only such events can be left over. -/

/-- A track whose events satisfy `tick_on ≤ tick_off` leaves no note sounding exactly when
its events of length zero are covered. -/
theorem noHangingNotes_iff (hle : ∀ ev ∈ track.events, ev.tickOn ≤ ev.tickOff) :
    NoHangingNotes std track ↔ ZeroLengthCovered track := by
  rw [NoHangingNotes, ← Edge.released_iff_silent, and_self, released_trackEdges_iff]
  constructor
  · intro h ev hev hnote hzero
    -- The note off that releases the event belongs to the event that covers it.
    obtain ⟨on, hmem, hon⟩ := exists_mem_wirePair hnote false
    obtain ⟨-, hkey, htick⟩ := mem_wirePair hmem
    rw [hon] at htick
    obtain ⟨off, hmem', hoff, hkey', hlt⟩ :=
      h on ((mem_wireOrder std track).mpr ⟨ev, hev, hmem⟩) hon
    obtain ⟨ev', hev', hpair⟩ := (mem_wireOrder std track).mp hmem'
    obtain ⟨-, hkey'', htick'⟩ := mem_wirePair hpair
    rw [hoff] at htick'
    refine ⟨ev', hev', by rw [← hkey'', hkey', hkey], ?_⟩
    rw [htick, htick'] at hlt
    exact hzero ▸ hlt
  · intro h on hmem hon
    obtain ⟨ev, hev, hpair⟩ := (mem_wireOrder std track).mp hmem
    obtain ⟨hnote, hkey, htick⟩ := mem_wirePair hpair
    rw [hon] at htick
    -- The note off of a longer event is its own; one of length zero needs its cover.
    obtain ⟨ev', hev', hkey', hlt⟩ : ∃ ev' ∈ track.events,
        eventKey ev' = eventKey ev ∧ ev.tickOn < ev'.tickOff := by
      by_cases hzero : ev.tickOn = ev.tickOff
      · rw [hzero]
        exact h ev hev hnote hzero
      · exact ⟨ev, hev, rfl, UInt32.lt_of_le_of_ne (hle ev hev) hzero⟩
    have hnote' : ev'.note ≤ 127 := by
      have heq : ev'.note = ev.note := congrArg Prod.snd hkey'
      rw [heq]
      exact hnote
    obtain ⟨off, hmem', hoff⟩ := exists_mem_wirePair hnote' true
    obtain ⟨-, hkey'', htick'⟩ := mem_wirePair hmem'
    rw [hoff] at htick'
    refine ⟨off, (mem_wireOrder std track).mpr ⟨ev', hev', hmem'⟩, hoff, ?_, ?_⟩
    · rw [hkey'', hkey', hkey]
    · rw [htick, htick']
      exact hlt

/-- A track whose only event has length zero. -/
def zeroLengthTrack : MidiTrack := ⟨bytes "Piano", [⟨480, 480, 0, 60, 100, 0⟩]⟩

/-- The note of an event of length zero is left sounding. -/
theorem zeroLength_hangs :
    (∀ ev ∈ zeroLengthTrack.events, ev.tickOn ≤ ev.tickOff) ∧
      ¬ NoHangingNotes wireSort zeroLengthTrack := by
  refine ⟨by decide, fun h => ?_⟩
  exact absurd (h.2 (0, 60)) (by decide)

/-- Two notes of one pitch back to back end in silence. -/
theorem noHangingNotes_backToBack :
    NoHangingNotes wireSort
      ⟨bytes "Piano", [⟨0, 480, 0, 60, 100, 0⟩, ⟨480, 960, 0, 60, 100, 0⟩]⟩ :=
  (noHangingNotes_iff wireSort _ (by decide)).mpr (by
    unfold ZeroLengthCovered
    decide)

end AiMidi.Proofs.MidiRenderer
