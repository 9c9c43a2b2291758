import Mathlib.Data.List.Basic

/-!
# `AiMidi.Lib.Mt19937`: the 64-bit Mersenne Twister

`std::mt19937_64` as the C++ standard defines it: 312 words of state, seeded by a linear
recurrence, regenerated all at once when they are used up, and tempered on output.

`next` returns the output and the generator after it. What the development proves about
programs that draw from it holds for every sequence of outputs.
-/

set_option autoImplicit false

namespace AiMidi.Lib

/-- The state: the words and the index of the next one to use. -/
structure Mt19937_64 where
  words : Array UInt64
  index : Nat

namespace Mt19937_64

/-- The number of words. -/
def stateSize : Nat := 312

/-- The distance between the two words that a new word is mixed from. -/
def shiftSize : Nat := 156

/-- The multiplier of the seeding recurrence. -/
def initMultiplier : UInt64 := 6364136223846793005

/-- Word `i + 1` of the seeded state, behind word `i`. -/
def seedWord (words : Array UInt64) (i : Nat) : Array UInt64 :=
  let prev := words.getD i 0
  words.push (initMultiplier * (prev ^^^ (prev >>> 62)) + UInt64.ofNat (i + 1))

/-- The generator for a seed. -/
def ofSeed (seed : UInt64) : Mt19937_64 where
  words := (List.range (stateSize - 1)).foldl seedWord #[seed]
  index := stateSize

/-- The new word `k`: the upper bits of the word and the lower bits of its successor, mixed
with the word `shiftSize` further on. -/
def twistWord (words : Array UInt64) (k : Nat) : Array UInt64 :=
  let y := (words.getD k 0 &&& 0xFFFFFFFF80000000)
    ||| (words.getD ((k + 1) % stateSize) 0 &&& 0x7FFFFFFF)
  let mixed := words.getD ((k + shiftSize) % stateSize) 0 ^^^ (y >>> 1)
  words.setIfInBounds k (if y &&& 1 = 0 then mixed else mixed ^^^ 0xB5026F5AA96619E9)

/-- All words anew. -/
def twist (words : Array UInt64) : Array UInt64 := (List.range stateSize).foldl twistWord words

/-- The output transformation. -/
def temper (z : UInt64) : UInt64 :=
  let z := z ^^^ ((z >>> 29) &&& 0x5555555555555555)
  let z := z ^^^ ((z <<< 17) &&& 0x71D67FFFEDA60000)
  let z := z ^^^ ((z <<< 37) &&& 0xFFF7EEE000000000)
  z ^^^ (z >>> 43)

/-- `rng()`: the output and the generator after it. -/
def next (rng : Mt19937_64) : UInt64 × Mt19937_64 :=
  -- All words are regenerated when the last one has been used.
  let rng := if rng.index ≥ stateSize then ⟨twist rng.words, 0⟩ else rng
  (temper (rng.words.getD rng.index 0), { rng with index := rng.index + 1 })

/-- The value of `rng() % n`. -/
def draw (rng : Mt19937_64) (n : UInt64) : Nat := (rng.next.1 % n).toNat

/-- The generator behind its next `k` outputs. -/
def skip (rng : Mt19937_64) : Nat → Mt19937_64
  | 0 => rng
  | k + 1 => rng.next.2.skip k

/-- Skipping twice is skipping the sum. -/
theorem skip_skip (rng : Mt19937_64) (j k : Nat) : (rng.skip j).skip k = rng.skip (j + k) := by
  induction j generalizing rng with
  | zero => rw [Nat.zero_add, skip]
  | succ j ih =>
    rw [skip, ih, Nat.add_right_comm]
    rfl

/-- A draw is below its modulus. -/
theorem draw_lt (rng : Mt19937_64) {n : UInt64} (h : 0 < n.toNat) : rng.draw n < n.toNat := by
  rw [draw, UInt64.toNat_mod]
  exact Nat.mod_lt _ h

/-! ### The first output

The first output depends on three of the seeded words. -/

/-- Word `i` of the seeded state. -/
def seedAt (seed : UInt64) : Nat → UInt64
  | 0 => seed
  | i + 1 =>
    initMultiplier * (seedAt seed i ^^^ (seedAt seed i >>> 62)) + UInt64.ofNat (i + 1)

/-- The words of the seeded state are those of the recurrence, and there are as many as were asked
for. -/
theorem seeded_words (seed : UInt64) (n : Nat) :
    ((List.range n).foldl seedWord #[seed]).size = n + 1 ∧
      ∀ i ≤ n, ((List.range n).foldl seedWord #[seed]).getD i 0 = seedAt seed i := by
  induction n with
  -- The induction is on the number of words that were added to the first one.
  | zero =>
    refine ⟨rfl, fun i hi => ?_⟩
    rw [Nat.le_zero.mp hi]
    rfl
  | succ n ih =>
    rw [List.range_succ, List.foldl_append, List.foldl_cons, List.foldl_nil]
    generalize (List.range n).foldl seedWord #[seed] = words at ih ⊢
    obtain ⟨hsize, hword⟩ := ih
    refine ⟨by rw [seedWord, Array.size_push, hsize], fun i hi => ?_⟩
    rw [seedWord, Array.getD_eq_getD_getElem?, Array.getElem?_push, hsize]
    split
    case isTrue heq => rw [heq, hword n (Nat.le_refl n), seedAt, Option.getD_some]
    case isFalse hne => rw [← Array.getD_eq_getD_getElem?, hword i (by omega)]

/-- A new word from the upper bits of its old one, the lower bits of the successor, and a word
further on. -/
def mixWords (old successor further : UInt64) : UInt64 :=
  let y := (old &&& 0xFFFFFFFF80000000) ||| (successor &&& 0x7FFFFFFF)
  let mixed := further ^^^ (y >>> 1)
  if y &&& 1 = 0 then mixed else mixed ^^^ 0xB5026F5AA96619E9

/-- The first word is replaced first, and then left alone. -/
theorem twist_first {words : Array UInt64} (h : 0 < words.size) :
    (twist words).getD 0 0 =
      mixWords (words.getD 0 0) (words.getD 1 0) (words.getD shiftSize 0) := by
  -- No later round of the loop writes the first word again.
  have hrest : ∀ ks : List Nat, 0 ∉ ks → ∀ ws : Array UInt64,
      (ks.foldl twistWord ws).getD 0 0 = ws.getD 0 0 := by
    intro ks
    induction ks with
    | nil => exact fun _ ws => rfl
    | cons k ks ih =>
      intro hk ws
      rw [List.foldl_cons, ih fun hmem => hk (List.mem_cons_of_mem k hmem),
        twistWord, Array.getD_eq_getD_getElem?,
        Array.getElem?_setIfInBounds_ne (show k ≠ 0 from fun h0 => hk (h0 ▸ List.mem_cons_self)),
        ← Array.getD_eq_getD_getElem?]
  have hrange : List.range stateSize = 0 :: (List.range 311).map Nat.succ :=
    List.range_succ_eq_map
  rw [twist, hrange, List.foldl_cons, hrest _ (by simp), twistWord,
    Array.getD_eq_getD_getElem?, Array.getElem?_setIfInBounds_self_of_lt h, Option.getD_some]
  rfl

/-- The first output of a seed. -/
theorem next_ofSeed (seed : UInt64) :
    (ofSeed seed).next.1 =
      temper (mixWords (seedAt seed 0) (seedAt seed 1) (seedAt seed shiftSize)) := by
  obtain ⟨hsize, hword⟩ := seeded_words seed (stateSize - 1)
  rw [ofSeed]
  generalize (List.range (stateSize - 1)).foldl seedWord #[seed] = words at hsize hword ⊢
  have hnext : (next ⟨words, stateSize⟩).1 = temper ((twist words).getD 0 0) := by
    rw [next, if_pos (Nat.le_refl stateSize)]
  rw [hnext, twist_first (by omega), hword 0 (by decide), hword 1 (by decide),
    hword shiftSize (by decide)]

end Mt19937_64

end AiMidi.Lib
