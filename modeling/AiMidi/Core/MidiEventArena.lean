import AiMidi.Lib.Transition
import AiMidi.Theory.Types
import Mathlib.Logic.Function.Basic

/-!
# `AiMidi.Core.MidiEventArena`: the event arena and the vectors that live in it

`MidiEventArena` hands out the slots of one block of events, from the first to the last.
`ArenaEventVector` takes its slots from an arena that it may share with other vectors. It
keeps the address of its first slot and a size, so element `i` is read at `data_ + i`.
`midiEventArena capacity` is the system of all the calls on the arena itself, and
`arenaAllocator capacity` that of the calls of the STL allocators on it.

A slot address is the index of the slot in the block. `ArenaState ι` is one arena with a
family of vectors `ι`, and `arenaVectors ι capacity` is the system of all the `push_back`
and `clear` calls on them, in any order. An action carries the value that its call returns.
-/

set_option autoImplicit false

namespace AiMidi.Core

open AiMidi.Lib AiMidi.Theory

/-- The pool of event slots. -/
structure MidiEventArena where
  capacity : Nat
  buffer : List MidiEvent
  used : Nat
  length_buffer : buffer.length = capacity
  used_le : used ≤ capacity

namespace MidiEventArena

/-- A fresh arena. `make_unique<MidiEvent[]>` zeroes every event. -/
def ofCapacity (capacity : Nat) : MidiEventArena where
  capacity := capacity
  buffer := List.replicate capacity ⟨0, 0, 0, 0, 0, 0⟩
  used := 0
  length_buffer := List.length_replicate
  used_le := Nat.zero_le _

/-- The next free slot, or `none` when the capacity is exhausted. -/
def allocate (a : MidiEventArena) : Option (Nat × MidiEventArena) :=
  if h : a.used ≥ a.capacity then none
  else some (a.used, { a with used := a.used + 1, used_le := Nat.not_le.mp h })

/-- The first of `n` free slots. The sum `used_ + n` wraps at 64 bits. -/
def allocateN (a : MidiEventArena) (n : UInt64) : Option (Nat × MidiEventArena) :=
  let used := (a.used + n.toNat) % 2 ^ 64
  if h : used > a.capacity then none
  else some (a.used, { a with used := used, used_le := Nat.not_lt.mp h })

/-- All slots are free again. -/
def reset (a : MidiEventArena) : MidiEventArena := { a with used := 0, used_le := Nat.zero_le _ }

/-- The store `*slot = event`. -/
def write (a : MidiEventArena) (slot : Nat) (event : MidiEvent) : MidiEventArena :=
  { a with
    buffer := a.buffer.set slot event
    length_buffer := by rw [List.length_set, a.length_buffer] }

end MidiEventArena

/-! ### The arena by itself

The calls on an arena may come in any order. The step relation records what each of them has
returned. -/

/-- A call on the arena. An allocation carries the slot it returns, `none` for null. -/
inductive ArenaCall where
  | allocate (slot : Option Nat)
  | allocateN (n : UInt64) (slot : Option Nat)
  | reset

/-- The arena after an allocation. A call that returns null leaves it as it is. -/
def MidiEventArena.afterCall (a : MidiEventArena) (result : Option (Nat × MidiEventArena)) :
    MidiEventArena :=
  (result.map Prod.snd).getD a

/-- One call. -/
inductive ArenaCallStep : MidiEventArena → ArenaCall → MidiEventArena → Prop where
  | allocate {a : MidiEventArena} :
      ArenaCallStep a (.allocate (a.allocate.map Prod.fst)) (a.afterCall a.allocate)
  | allocateN {a : MidiEventArena} (n : UInt64) :
      ArenaCallStep a (.allocateN n ((a.allocateN n).map Prod.fst)) (a.afterCall (a.allocateN n))
  | reset {a : MidiEventArena} : ArenaCallStep a .reset a.reset

/-- All the calls on an arena, in any order. `std::size_t` has 64 bits. -/
def midiEventArena (capacity : UInt64) : System MidiEventArena ArenaCall where
  init a := a = .ofCapacity capacity.toNat
  step := ArenaCallStep

/-- The vector-like wrapper: `data_` is null until the first push. -/
structure ArenaEventVector where
  data : Option Nat
  size : Nat

namespace ArenaEventVector

/-- A vector as its constructor leaves it. -/
def empty : ArenaEventVector := ⟨none, 0⟩

/-- `push_back`: the returned flag, the arena and the vector afterwards. -/
def pushBack (arena : MidiEventArena) (v : ArenaEventVector) (event : MidiEvent) :
    Bool × MidiEventArena × ArenaEventVector :=
  match arena.allocate with
  | none => (false, arena, v)
  | some (slot, arena) =>
      let data := if v.size = 0 then some slot else v.data
      (true, arena.write slot event, ⟨data, v.size + 1⟩)

/-- `clear` keeps `data_` and the slots. -/
def clear (v : ArenaEventVector) : ArenaEventVector := { v with size := 0 }

/-- `operator[]`: what the memory at `data_ + i` holds. -/
def get? (arena : MidiEventArena) (v : ArenaEventVector) (i : Nat) : Option MidiEvent :=
  v.data.bind fun d => arena.buffer[d + i]?

end ArenaEventVector

/-! ### Many vectors on one arena

The vectors know the arena and nothing of each other. A state is the arena with all of them, and a
step is a call on one. -/

/-- One arena with its vectors. -/
structure ArenaState (ι : Type) where
  arena : MidiEventArena
  vectors : ι → ArenaEventVector

/-- A call on one of the vectors. A `push` carries the flag it returns. -/
inductive ArenaAction (ι : Type) where
  | push (v : ι) (event : MidiEvent) (ok : Bool)
  | clear (v : ι)

section

variable {ι : Type} [DecidableEq ι]

/-- One call. -/
inductive ArenaStep : ArenaState ι → ArenaAction ι → ArenaState ι → Prop where
  | push {s : ArenaState ι} {v : ι} {event : MidiEvent} {ok : Bool} {arena : MidiEventArena}
      {vec : ArenaEventVector}
      (hpush : (s.vectors v).pushBack s.arena event = (ok, arena, vec)) :
      ArenaStep s (.push v event ok) ⟨arena, Function.update s.vectors v vec⟩
  | clear {s : ArenaState ι} {v : ι} :
      ArenaStep s (.clear v)
        { s with vectors := Function.update s.vectors v (s.vectors v).clear }

/-- The calls on vectors `ι` that share an arena of the given capacity. -/
def arenaVectors (ι : Type) [DecidableEq ι] (capacity : Nat) :
    System (ArenaState ι) (ArenaAction ι) where
  init s := s = ⟨.ofCapacity capacity, fun _ => .empty⟩
  step := ArenaStep

end

/-! ### The STL allocator on an arena

The allocator counts in bytes and the arena in events. The allocator is the place where the one is
converted to the other. -/

/-- `sizeof(MidiEvent)`. -/
def sizeofMidiEvent : UInt64 := 12

/-- `allocate(n)` for elements of `size` bytes: the first slot and the arena afterwards. `none` is
the `std::bad_alloc`. The product wraps at 64 bits. -/
def MidiEventArenaAllocator.allocate (arena : MidiEventArena) (size n : UInt64) :
    Option (Nat × MidiEventArena) :=
  arena.allocateN (n * size / sizeofMidiEvent)

/-- A call that returns its first slot. -/
structure AllocatorCall where
  size : UInt64
  n : UInt64
  first : Nat

/-- One call that does not throw. Allocators of any element type share the arena. -/
inductive AllocatorStep : MidiEventArena → AllocatorCall → MidiEventArena → Prop where
  | allocate {a a' : MidiEventArena} {size n : UInt64} {first : Nat}
      (h : MidiEventArenaAllocator.allocate a size n = some (first, a')) :
      AllocatorStep a ⟨size, n, first⟩ a'

/-- The calls on an arena of the given capacity. Its constructor throws when the block has more
bytes than `std::size_t` counts. -/
def arenaAllocator (capacity : UInt64) : System MidiEventArena AllocatorCall where
  init a := capacity.toNat * sizeofMidiEvent.toNat < 2 ^ 64 ∧ a = .ofCapacity capacity.toNat
  step := AllocatorStep

end AiMidi.Core
