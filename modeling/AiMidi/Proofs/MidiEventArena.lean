import AiMidi.Core.MidiEventArena

/-!
# `AiMidi.Proofs.MidiEventArena`: when vectors that share an arena keep their contents

A vector reads element `i` at `data_ + i`, but each push takes whatever slot is free. The
contents survive as long as a push on a vector that already holds events finds its free slot
directly behind them (`Adjoins`). `unaliased_of_adjoins` proves it for every run of pushes
and clears on any number of vectors. The invariant is `Holds`: the events pushed onto a
vector since its last clear lie one behind the other in the used part of the block, which no
later push writes.

A push into a gap loses its event: `get?_size_of_gap` shows that the new element reads the
slot directly behind the old ones, not the slot that was written.
-/

set_option autoImplicit false

namespace AiMidi.Proofs.MidiEventArena

open AiMidi.Lib AiMidi.Lib.System AiMidi.Theory AiMidi.Core

variable {ι : Type} [DecidableEq ι] {capacity : Nat}

/-! ### The property -/

/-- The events of the successful pushes on `v` since its last clear, oldest first. -/
def pushedOnto (v : ι) : List (ArenaAction ι × ArenaState ι) → List MidiEvent
  | [] => []
  | (.push w event ok, _) :: past =>
      if w = v ∧ ok then pushedOnto v past ++ [event] else pushedOnto v past
  | (.clear w, _) :: past => if w = v then [] else pushedOnto v past

/-- The vectors do not alias after a run: each has the size and the elements of its own
pushes, and a push that fails changes no vector. -/
structure Unaliased (past : List (ArenaAction ι × ArenaState ι)) (s : ArenaState ι) : Prop where
  size_eq : ∀ v, (s.vectors v).size = (pushedOnto v past).length
  get_eq : ∀ v i, i < (s.vectors v).size →
    (s.vectors v).get? s.arena i = (pushedOnto v past)[i]?
  failed_push : ∀ v event s', ArenaStep s (.push v event false) s' →
    ∀ w, s'.vectors w = s.vectors w ∧
      ∀ i, (s'.vectors w).get? s'.arena i = (s.vectors w).get? s.arena i

/-- A push meets the condition when the vector is empty, when the next free slot lies
directly behind its elements, or when the arena is full. A clear always does. -/
def Adjoins (s : ArenaState ι) : ArenaAction ι → Prop
  | .push v _ _ => (s.vectors v).size = 0 ∨
      (∃ d, (s.vectors v).data = some d ∧ d + (s.vectors v).size = s.arena.used) ∨
      s.arena.used ≥ s.arena.capacity
  | .clear _ => True

/-! ### What one push does

The arena is full or it is not. There is no third case, as a push asks for one slot only and the sum
of `allocate_n` plays no part. -/

/-- A push either fails on a full arena and changes nothing, or stores the event in the first
free slot. -/
theorem pushBack_cases {arena arena' : MidiEventArena} {v v' : ArenaEventVector}
    {event : MidiEvent} {ok : Bool} (h : v.pushBack arena event = (ok, arena', v')) :
    (ok = false ∧ arena' = arena ∧ v' = v ∧ arena.used ≥ arena.capacity) ∨
    (ok = true ∧ arena.used < arena.capacity ∧ arena'.used = arena.used + 1 ∧
      arena'.buffer = arena.buffer.set arena.used event ∧ v'.size = v.size + 1 ∧
      v'.data = if v.size = 0 then some arena.used else v.data) := by
  rw [ArenaEventVector.pushBack, MidiEventArena.allocate] at h
  by_cases hfull : arena.used ≥ arena.capacity
  · rw [dif_pos hfull] at h
    obtain ⟨rfl, rfl, rfl⟩ := h
    exact .inl ⟨rfl, rfl, rfl, hfull⟩
  · rw [dif_neg hfull] at h
    obtain ⟨rfl, rfl, rfl⟩ := h
    exact .inr ⟨rfl, Nat.not_le.mp hfull, rfl, rfl, rfl, rfl⟩

/-- A failed push leaves the whole state as it is. -/
theorem eq_of_failed_push {s s' : ArenaState ι} {v : ι} {event : MidiEvent}
    (h : ArenaStep s (.push v event false) s') : s' = s := by
  cases h with
  | push hpush =>
    obtain ⟨-, rfl, rfl, -⟩ | ⟨hok, -⟩ := pushBack_cases hpush
    · rw [Function.update_eq_self]
    · exact absurd hok (by decide)

/-! ### The invariant

A vector holds its events in consecutive slots that are in use. Pushes write free slots, so the only
push that can break this is one on the vector itself. -/

/-- The vector holds the events in consecutive used slots. -/
structure Holds (arena : MidiEventArena) (v : ArenaEventVector) (events : List MidiEvent) :
    Prop where
  size_eq : v.size = events.length
  slots : events ≠ [] → ∃ d, v.data = some d ∧ d + events.length ≤ arena.used ∧
    ∀ i, i < events.length → arena.buffer[d + i]? = events[i]?

/-- What a vector holds is what it reads. -/
theorem Holds.get {arena : MidiEventArena} {v : ArenaEventVector} {events : List MidiEvent}
    (h : Holds arena v events) {i : Nat} (hi : i < v.size) : v.get? arena i = events[i]? := by
  have hlt : i < events.length := h.size_eq ▸ hi
  obtain ⟨d, hd, -, hslots⟩ := h.slots (List.ne_nil_of_length_pos (by omega))
  rw [ArenaEventVector.get?, hd]
  exact hslots i hlt

/-- A cleared vector holds nothing. -/
theorem holds_clear (arena : MidiEventArena) (v : ArenaEventVector) :
    Holds arena v.clear [] :=
  ⟨rfl, fun h => absurd rfl h⟩

/-- A push on any vector leaves what the others hold: it writes a slot behind all used
ones. -/
theorem Holds.frame {arena arena' : MidiEventArena} {v : ArenaEventVector}
    {events : List MidiEvent} {event : MidiEvent} (h : Holds arena v events)
    (hused : arena'.used = arena.used + 1)
    (hbuffer : arena'.buffer = arena.buffer.set arena.used event) : Holds arena' v events := by
  refine ⟨h.size_eq, fun hne => ?_⟩
  obtain ⟨d, hd, hle, hslots⟩ := h.slots hne
  refine ⟨d, hd, by omega, fun i hi => ?_⟩
  rw [hbuffer, List.getElem?_set_ne (by omega)]
  exact hslots i hi

/-- A push that adjoins appends its event. -/
theorem Holds.push {arena arena' : MidiEventArena} {v v' : ArenaEventVector}
    {events : List MidiEvent} {event : MidiEvent} (h : Holds arena v events)
    (hlt : arena.used < arena.capacity) (hused : arena'.used = arena.used + 1)
    (hbuffer : arena'.buffer = arena.buffer.set arena.used event)
    (hsize : v'.size = v.size + 1)
    (hdata : v'.data = if v.size = 0 then some arena.used else v.data)
    (hadj : v.size = 0 ∨ ∃ d, v.data = some d ∧ d + v.size = arena.used) :
    Holds arena' v' (events ++ [event]) := by
  have hlen := h.size_eq
  refine ⟨by rw [hsize, hlen, List.length_append]; rfl, fun _ => ?_⟩
  -- The written slot lies directly behind the old ones, which the push does not touch.
  obtain ⟨d, hd, hend⟩ : ∃ d, v'.data = some d ∧ d + events.length = arena.used := by
    obtain hzero | ⟨d, hd, hend⟩ := hadj
    · exact ⟨arena.used, by rw [hdata, if_pos hzero], by omega⟩
    · by_cases hzero : v.size = 0
      · exact ⟨arena.used, by rw [hdata, if_pos hzero], by omega⟩
      · exact ⟨d, by rw [hdata, if_neg hzero, hd], by omega⟩
  refine ⟨d, hd, by rw [List.length_append, List.length_singleton]; omega, fun i hi => ?_⟩
  rw [List.length_append, List.length_singleton] at hi
  -- The last element is the slot just written, the others are the old slots.
  by_cases hlast : i = events.length
  · rw [hlast, hend, hbuffer, List.getElem?_set_self (arena.length_buffer ▸ hlt),
      List.getElem?_concat_length]
  · have hi' : i < events.length := by omega
    rw [hbuffer, List.getElem?_set_ne (by omega), List.getElem?_append_left hi']
    obtain ⟨d', hd', -, hslots⟩ := h.slots (List.ne_nil_of_length_pos (by omega))
    have hdd : d' = d := by
      rw [hdata, if_neg (by omega), hd'] at hd
      exact Option.some.inj hd
    rw [← hdd]
    exact hslots i hi'

/-- Each vector holds the events pushed onto it, in every run whose pushes adjoin. -/
theorem holds_run {past : List (ArenaAction ι × ArenaState ι)} {s : ArenaState ι}
    (h : Run ((arenaVectors ι capacity).restrict Adjoins) past s) :
    ∀ v, Holds s.arena (s.vectors v) (pushedOnto v past) := by
  refine h.invariant (I := fun past s => ∀ v, Holds s.arena (s.vectors v) (pushedOnto v past))
    ?_ ?_
  · intro s hs v
    rw [show s = _ from hs]
    exact ⟨rfl, fun hne => absurd rfl hne⟩
  · rintro past s a s' - ih ⟨hadj, hstep⟩ v
    cases hstep with
    | clear =>
      rename_i w
      by_cases hvw : w = v
      · subst hvw
        rw [pushedOnto, if_pos rfl]
        simp only [Function.update_self]
        exact holds_clear _ _
      · rw [pushedOnto, if_neg hvw]
        simp only [Function.update_of_ne (Ne.symm hvw)]
        exact ih v
    | push hpush =>
      rename_i w event ok arena vec
      obtain ⟨rfl, rfl, rfl, -⟩ | ⟨rfl, hlt, hused, hbuffer, hsize, hdata⟩ :=
        pushBack_cases hpush
      -- A failed push: nothing moves, and it does not count as pushed.
      · rw [pushedOnto, if_neg (by simp), Function.update_eq_self]
        exact ih v
      · by_cases hvw : w = v
        · subst hvw
          rw [pushedOnto, if_pos ⟨rfl, rfl⟩]
          simp only [Function.update_self]
          refine (ih w).push hlt hused hbuffer hsize hdata ?_
          obtain hzero | hd | hfull := hadj
          · exact .inl hzero
          · exact .inr hd
          · exact absurd hfull (Nat.not_le.mpr hlt)
        -- Another vector took the slot.
        · rw [pushedOnto, if_neg (by simp [hvw])]
          simp only [Function.update_of_ne (Ne.symm hvw)]
          exact (ih v).frame hused hbuffer

/-! ### The result -/

/-- Vectors that share an arena do not alias in any run whose pushes all adjoin. -/
theorem unaliased_of_adjoins {past : List (ArenaAction ι × ArenaState ι)} {s : ArenaState ι}
    (h : Run ((arenaVectors ι capacity).restrict Adjoins) past s) : Unaliased past s where
  size_eq v := (holds_run h v).size_eq
  get_eq v _ hi := (holds_run h v).get hi
  failed_push v event s' hstep w := by
    rw [eq_of_failed_push hstep]
    exact ⟨rfl, fun _ => rfl⟩

/-- An event of the examples. -/
def noteAt (tick : UInt32) : MidiEvent := ⟨tick, tick + 120, 0, 60, 100, 0⟩

/-- Two pushes on one vector, then one on the other. -/
theorem unaliased_of_adjoins_twoVectors :
    ∃ past s, Unaliased (past : List (ArenaAction Bool × _)) s ∧ past.length = 3 ∧
      (s.vectors true).size = 1 := by
  have h0 : Run ((arenaVectors Bool 4).restrict Adjoins) [] _ := .start rfl
  have h1 := h0.snoc (a := ArenaAction.push false (noteAt 0) true) ⟨Or.inl rfl, .push rfl⟩
  have h2 := h1.snoc (a := ArenaAction.push false (noteAt 1) true)
    ⟨Or.inr (Or.inl ⟨0, rfl, rfl⟩), .push rfl⟩
  have h3 := h2.snoc (a := ArenaAction.push true (noteAt 2) true) ⟨Or.inl rfl, .push rfl⟩
  exact ⟨_, _, unaliased_of_adjoins h3, rfl, rfl⟩

/-- A push on the first vector after one on the second: the element it adds is the other
vector's event. -/
theorem interleaved_pushes_alias :
    ∃ past s, Run (arenaVectors Bool 4) past s ∧ ¬ Unaliased past s := by
  have h0 : Run (arenaVectors Bool 4) [] _ := .start rfl
  have h1 := h0.snoc (a := ArenaAction.push false (noteAt 0) true) (.push rfl)
  have h2 := h1.snoc (a := ArenaAction.push true (noteAt 1) true) (.push rfl)
  have h3 := h2.snoc (a := ArenaAction.push false (noteAt 2) true) (.push rfl)
  refine ⟨_, _, h3, fun h => ?_⟩
  have hget := h.get_eq false 1 (by decide)
  exact absurd hget (by decide)

/-- After a push into a gap the new element reads the slot behind the old ones, which the push
did not write. -/
theorem get?_size_of_gap {arena arena' : MidiEventArena} {v v' : ArenaEventVector}
    {event : MidiEvent} (hpush : v.pushBack arena event = (true, arena', v')) {d : Nat}
    (hdata : v.data = some d) (hsize : v.size ≠ 0) (hgap : d + v.size ≠ arena.used) :
    v'.get? arena' v.size = arena.buffer[d + v.size]? := by
  obtain ⟨hok, -⟩ | ⟨-, -, -, hbuffer, -, hdata'⟩ := pushBack_cases hpush
  · exact absurd hok (by decide)
  · rw [if_neg hsize, hdata] at hdata'
    rw [ArenaEventVector.get?, hdata', hbuffer]
    exact List.getElem?_set_ne (Ne.symm hgap)

end AiMidi.Proofs.MidiEventArena
