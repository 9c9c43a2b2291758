import Mathlib.Data.List.Basic

/-!
# `AiMidi.Lib.BoundedQueue`: a first-in first-out queue with a capacity

The abstract queue: a list of at most `capacity` elements, oldest first. An enqueue needs
room and adds at the end, a dequeue takes the head, and any other operation of a concrete
queue is a stutter.
-/

set_option autoImplicit false

namespace AiMidi.Lib

/-- What a step does to the queue. -/
inductive QueueOp (α : Type) where
  | stutter
  | enqueue (a : α)
  | dequeue (a : α)

/-- The steps of a queue of the given capacity. -/
inductive QueueStep {α : Type} (capacity : Nat) : List α → QueueOp α → List α → Prop where
  | stutter {q : List α} : QueueStep capacity q .stutter q
  | enqueue {q : List α} {a : α} (room : q.length < capacity) :
      QueueStep capacity q (.enqueue a) (q ++ [a])
  | dequeue {q : List α} {a : α} : QueueStep capacity (a :: q) (.dequeue a) q

/-- No step takes the queue above its capacity. -/
theorem QueueStep.length_le {α : Type} {capacity : Nat} {q q' : List α} {op : QueueOp α}
    (h : QueueStep capacity q op q') (hq : q.length ≤ capacity) : q'.length ≤ capacity := by
  cases h with
  | stutter => exact hq
  | enqueue room =>
    rw [List.length_append]
    exact room
  | dequeue => exact Nat.le_of_succ_le hq

end AiMidi.Lib
