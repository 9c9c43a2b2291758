import AiMidi.Lib.Mt19937
import AiMidi.Lib.Sanitized
import AiMidi.Lib.Splits
import Mathlib.Data.List.Forall2

/-!
# `AiMidi.Lib.Seeded`: computations that draw random numbers

A `Seeded α` computes with sanitized 32-bit arithmetic and may draw from a Mersenne Twister
(`draw`). `run` starts it with the generator of a seed.

`Safe x P` is the postcondition form for every state of the generator: no 32-bit operation
wraps, and the value satisfies `P`. Of a draw the rules know only that it is below its
modulus. `Yields x P` is the weaker form that says nothing about wraps: the value satisfies
`P`, also where a tick has wrapped on the way to it.

The rules follow the syntax of `do` blocks: one for a plain value, one for a sequence, one for a
draw, one for lifted arithmetic and one for a loop. A proof about an engine applies them from the
first line of its source to the last. Where the draws themselves matter, `value` and `after` follow
the generator from one round to the next.
-/

set_option autoImplicit false

namespace AiMidi.Lib

/-- A computation that draws from a generator. -/
abbrev Seeded (α : Type) : Type := StateT Mt19937_64 Sanitized α

namespace Seeded

variable {α β : Type}

/-- The value of `rng() % n`. -/
def draw (n : UInt64) : Seeded Nat := fun rng => pure (rng.draw n, rng.next.2)

/-- The value of `rng()`. -/
def next : Seeded UInt64 := fun rng => pure rng.next

/-- The computation with a fresh generator. -/
def run (seed : UInt64) (x : Seeded α) : Sanitized α := do
  let r ← StateT.run x (.ofSeed seed)
  pure r.1

/-- The loop `for (a : as) out.insert(out.end(), body(a))`, with one generator for all
rounds. -/
def forEach (body : α → Seeded (List β)) : List α → Seeded (List β)
  | []      => pure []
  | a :: as => do
      let out ← body a
      let rest ← forEach body as
      pure (out ++ rest)

/-- No operation wraps, and the value satisfies `P`, whatever the generator yields. -/
def Safe (x : Seeded α) (P : α → Prop) : Prop :=
  ∀ rng, Sanitized.Safe (StateT.run x rng) fun r => P r.1

/-- A plain value draws nothing and wraps nothing. -/
theorem safe_pure {P : α → Prop} {a : α} (h : P a) : Safe (pure a) P := fun _ =>
  Sanitized.safe_pure h

/-- The rule for a sequence: what the first part yields is all that the second one may rely on. -/
theorem safe_bind {x : Seeded α} {f : α → Seeded β} {P : α → Prop} {Q : β → Prop}
    (hx : Safe x P) (hf : ∀ a, P a → Safe (f a) Q) : Safe (x >>= f) Q := fun rng =>
  Sanitized.safe_bind (hx rng) fun r hr => hf r.1 hr r.2

/-- Weakening the postcondition. -/
theorem Safe.mono {x : Seeded α} {P Q : α → Prop} (h : Safe x P) (hPQ : ∀ a, P a → Q a) :
    Safe x Q := fun rng => (h rng).mono fun r hr => hPQ r.1 hr

/-- A draw below a positive bound lies below it. -/
theorem safe_draw {n : UInt64} (h : 0 < n.toNat) : Safe (draw n) fun k => k < n.toNat :=
  fun rng => Sanitized.safe_pure (rng.draw_lt h)

/-- Of any draw at least this is known. -/
theorem safe_draw_any (n : UInt64) : Safe (draw n) fun _ => True := fun _ =>
  Sanitized.safe_pure trivial

/-- Arithmetic does not touch the generator. -/
theorem safe_lift {x : Sanitized α} {P : α → Prop} (h : Sanitized.Safe x P) :
    Safe (liftM x : Seeded α) P := fun _ =>
  Sanitized.safe_bind h fun _ ha => Sanitized.safe_pure ha

/-- A loop whose rounds are all safe is safe, and each of its outputs satisfies the
postcondition of its round. -/
theorem safe_forEach {body : α → Seeded (List β)} {as : List α} {P : β → Prop}
    (h : ∀ a ∈ as, Safe (body a) fun out => ∀ b ∈ out, P b) :
    Safe (forEach body as) fun out => ∀ b ∈ out, P b := by
  induction as with
  | nil => exact safe_pure fun b hb => absurd hb (by simp)
  | cons a as ih =>
    refine safe_bind (h a List.mem_cons_self) fun out hout => ?_
    refine safe_bind (ih fun a' ha' => h a' (List.mem_cons_of_mem _ ha')) fun rest hrest => ?_
    refine safe_pure fun b hb => ?_
    obtain hb | hb := List.mem_append.mp hb
    · exact hout b hb
    · exact hrest b hb

/-- What one round of a safe loop outputs is an output of the loop. -/
theorem safe_forEach_exists {body : α → Seeded (List β)} {as : List α} {a : α}
    {P : List β → Prop} {Q : β → Prop} (h : Safe (forEach body as) P) (ha : a ∈ as)
    (hbody : Safe (body a) fun out => ∃ b ∈ out, Q b) :
    Safe (forEach body as) fun out => ∃ b ∈ out, Q b := by
  -- The whole loop is safe by `h`, so only its outputs are left to look at.
  refine fun rng => ⟨(h rng).1, ?_⟩
  clear h
  induction as generalizing rng with
  | nil => exact absurd ha (by simp)
  | cons a' as ih =>
    -- The rest of the loop runs with the generator that the first round leaves.
    have hrun : (StateT.run (forEach body (a' :: as)) rng).val.1
        = (StateT.run (body a') rng).val.1
          ++ (StateT.run (forEach body as) (StateT.run (body a') rng).val.2).val.1 := rfl
    rw [hrun]
    obtain rfl | ha := List.mem_cons.mp ha
    · obtain ⟨b, hb, hQ⟩ := (hbody rng).2
      exact ⟨b, List.mem_append_left _ hb, hQ⟩
    · obtain ⟨b, hb, hQ⟩ := ih ha (StateT.run (body a') rng).val.2
      exact ⟨b, List.mem_append_right _ hb, hQ⟩

/-- A safe computation is safe with every seed. -/
theorem safe_run {x : Seeded α} {P : α → Prop} (h : Safe x P) (seed : UInt64) :
    Sanitized.Safe (run seed x) P :=
  Sanitized.safe_bind (h _) fun _ hr => Sanitized.safe_pure hr

/-! ### Value and generator

For results that are computed, a program is a function of its generator: its value and the generator
that it leaves. `Yields` is what holds for all generators at once. -/

/-- The value that the generator `rng` leads to. -/
def value (x : Seeded α) (rng : Mt19937_64) : α := (StateT.run x rng).val.1

/-- The generator that the computation leaves. -/
def after (x : Seeded α) (rng : Mt19937_64) : Mt19937_64 := (StateT.run x rng).val.2

/-- A run begins with the generator of the seed. -/
theorem val_run (seed : UInt64) (x : Seeded α) : (run seed x).val = value x (.ofSeed seed) := rfl

/-- A plain value is that value for every generator. -/
@[simp] theorem value_pure (a : α) (rng : Mt19937_64) : value (pure a) rng = a := rfl

/-- The second part sees the generator that the first one leaves. -/
@[simp] theorem value_bind (x : Seeded α) (f : α → Seeded β) (rng : Mt19937_64) :
    value (x >>= f) rng = value (f (value x rng)) (after x rng) := rfl

/-- A draw takes the next number of the generator. -/
@[simp] theorem value_draw (n : UInt64) (rng : Mt19937_64) : value (draw n) rng = rng.draw n := rfl

/-- A plain value leaves the generator. -/
@[simp] theorem after_pure (a : α) (rng : Mt19937_64) : after (pure a : Seeded α) rng = rng := rfl

/-- A sequence leaves the generator of its second part. -/
@[simp] theorem after_bind (x : Seeded α) (f : α → Seeded β) (rng : Mt19937_64) :
    after (x >>= f) rng = after (f (value x rng)) (after x rng) := rfl

/-- A draw moves the generator on by one number. -/
@[simp] theorem after_draw (n : UInt64) (rng : Mt19937_64) : after (draw n) rng = rng.next.2 := rfl

/-- The value satisfies `P`, whatever the generator yields. -/
def Yields (x : Seeded α) (P : α → Prop) : Prop := ∀ rng, P (value x rng)

/-- What is safe also yields its property, with the marks forgotten. -/
theorem Safe.yields {x : Seeded α} {P : α → Prop} (h : Safe x P) : Yields x P := fun rng =>
  (h rng).2

/-- The rule for a plain value. -/
theorem yields_pure {P : α → Prop} {a : α} (h : P a) : Yields (pure a) P := fun _ => h

/-- The rule for a sequence. -/
theorem yields_bind {x : Seeded α} {f : α → Seeded β} {P : α → Prop} {Q : β → Prop}
    (hx : Yields x P) (hf : ∀ a, P a → Yields (f a) Q) : Yields (x >>= f) Q := fun rng =>
  hf _ (hx rng) _

/-- Nothing is known about the first value. -/
theorem yields_bind_any {x : Seeded α} {f : α → Seeded β} {Q : β → Prop}
    (hf : ∀ a, Yields (f a) Q) : Yields (x >>= f) Q := fun _ => hf _ _

/-- A weaker property is yielded as well. -/
theorem Yields.mono {x : Seeded α} {P Q : α → Prop} (h : Yields x P) (hPQ : ∀ a, P a → Q a) :
    Yields x Q := fun rng => hPQ _ (h rng)

/-- The rule for a draw. -/
theorem yields_draw {n : UInt64} (h : 0 < n.toNat) : Yields (draw n) fun k => k < n.toNat :=
  (safe_draw h).yields

/-- Arithmetic yields its wrapped value. -/
theorem yields_lift {x : Sanitized α} {P : α → Prop} (h : P x.val) :
    Yields (liftM x : Seeded α) P := fun _ => h

/-- Each output of a loop satisfies what the outputs of its rounds satisfy. -/
theorem yields_forEach_forall {body : α → Seeded (List β)} {as : List α} {P : β → Prop}
    (h : ∀ a ∈ as, Yields (body a) fun out => ∀ b ∈ out, P b) :
    Yields (forEach body as) fun out => ∀ b ∈ out, P b := by
  induction as with
  | nil => exact yields_pure fun b hb => absurd hb List.not_mem_nil
  | cons a as ih =>
    refine yields_bind (h a List.mem_cons_self) fun out hout => ?_
    refine yields_bind (ih fun a' ha' => h a' (List.mem_cons_of_mem _ ha')) fun rest hrest => ?_
    exact yields_pure fun b hb => (List.mem_append.mp hb).elim (hout b) (hrest b)

/-- What each round of a loop makes of its element, the loop makes of the list. -/
theorem yields_forEach_flatMap {γ : Type} {body : α → Seeded (List β)} {as : List α}
    {f : α → List γ} {R : List γ → List β → Prop} (hnil : R [] [])
    (happend : ∀ {xs ys out rest}, R xs out → R ys rest → R (xs ++ ys) (out ++ rest))
    (h : ∀ a ∈ as, Yields (body a) (R (f a))) :
    Yields (forEach body as) (R (as.flatMap f)) := by
  induction as with
  | nil => exact yields_pure hnil
  | cons a as ih =>
    rw [List.flatMap_cons]
    refine yields_bind (h a List.mem_cons_self) fun out hout => ?_
    refine yields_bind (ih fun a' ha' => h a' (List.mem_cons_of_mem _ ha')) fun rest hrest => ?_
    exact yields_pure (happend hout hrest)

/-- A loop whose rounds output what `f` says, seen through `g`. -/
theorem yields_forEach_map {γ : Type} {body : α → Seeded (List β)} {as : List α} {g : β → γ}
    {f : α → List γ} (h : ∀ a ∈ as, Yields (body a) fun out => out.map g = f a) :
    Yields (forEach body as) fun out => out.map g = as.flatMap f := by
  have happend : ∀ {xs ys : List γ} {out rest : List β}, xs = out.map g → ys = rest.map g →
      xs ++ ys = (out ++ rest).map g := by
    intro xs ys out rest hout hrest
    rw [hout, hrest, List.map_append]
  exact (yields_forEach_flatMap (R := fun xs out => xs = out.map g) rfl happend
    fun a ha => (h a ha).mono fun out hout => hout.symm).mono fun out hout => hout.symm

/-- The images under `f` of what a loop outputs are those of what its rounds output. -/
theorem yields_forEach {γ : Type} {body : α → Seeded (List β)} {as : List α} {f : β → γ}
    {R : α → γ → Prop}
    (h : ∀ a ∈ as, Yields (body a) fun out => ∀ x, (∃ b ∈ out, f b = x) ↔ R a x) :
    Yields (forEach body as) fun out => ∀ x, (∃ b ∈ out, f b = x) ↔ ∃ a ∈ as, R a x := by
  induction as with
  | nil => exact yields_pure fun x => by simp
  | cons a as ih =>
    refine yields_bind (h a List.mem_cons_self) fun out hout => ?_
    refine yields_bind (ih fun a' ha' => h a' (List.mem_cons_of_mem _ ha')) fun rest hrest => ?_
    refine yields_pure fun x => ?_
    simp only [List.mem_append, or_and_right, exists_or, hout, hrest, List.mem_cons,
      exists_eq_left]

/-- What a computation yields for every state of the generator it yields for every seed. -/
theorem yields_run {x : Seeded α} {P : α → Prop} (h : Yields x P) (seed : UInt64) :
    P (run seed x).val := h _

/-! ### The rounds of a loop

A loop hands its generator from round to round. Where each round takes a fixed number of outputs,
the generator in front of a round is known from its index. -/

/-- No rounds, no values. -/
theorem value_forEach_nil (body : α → Seeded (List β)) (rng : Mt19937_64) :
    value (forEach body []) rng = [] := rfl

/-- The first round comes first, and the others see the generator it leaves. -/
theorem value_forEach_cons (body : α → Seeded (List β)) (a : α) (as : List α) (rng : Mt19937_64) :
    value (forEach body (a :: as)) rng
      = value (body a) rng ++ value (forEach body as) (after (body a) rng) := rfl

/-- A loop may be cut in two. -/
theorem value_forEach_append (body : α → Seeded (List β)) (as as' : List α) (rng : Mt19937_64) :
    value (forEach body (as ++ as')) rng =
      value (forEach body as) rng ++ value (forEach body as') (after (forEach body as) rng) := by
  induction as generalizing rng with
  | nil => rfl
  | cons a as ih =>
    rw [List.cons_append, value_forEach_cons, ih, value_forEach_cons, List.append_assoc]
    rfl

/-- When each round asks the generator `k` times, round `i` starts behind `k * i` outputs. -/
theorem value_forEach_of_skip {body : α → Seeded (List β)} {k : Nat}
    (h : ∀ a rng, after (body a) rng = rng.skip k) (as : List α) (rng : Mt19937_64) (n : Nat) :
    value (forEach body as) (rng.skip (k * n)) =
      (as.zipIdx n).flatMap fun p => value (body p.1) (rng.skip (k * p.2)) := by
  induction as generalizing n with
  | nil => rfl
  | cons a as ih =>
    rw [value_forEach_cons, h, Mt19937_64.skip_skip, ← Nat.mul_succ, ih, List.zipIdx_cons,
      List.flatMap_cons]

/-- What a loop outputs, with its place: it is output in some round, which starts with the
generator that the rounds in front leave. -/
theorem splits_forEach {body : α → Seeded (List β)} {as : List α} {rng : Mt19937_64}
    {P : List β → β → List β → Prop} :
    Splits (value (forEach body as) rng) P ↔ Splits as fun pre a post =>
      Splits (value (body a) (after (forEach body pre) rng)) fun out b rest =>
        P (value (forEach body pre) rng ++ out) b
          (rest ++ value (forEach body post) (after (body a) (after (forEach body pre) rng))) := by
  induction as generalizing rng P with
  | nil => exact iff_of_false splits_nil splits_nil
  | cons a as ih =>
    rw [value_forEach_cons, splits_append, splits_cons, ih]
    refine or_congr Iff.rfl (splits_congr fun pre b post _ => splits_congr fun out c rest _ => ?_)
    rw [value_forEach_cons, List.append_assoc]
    rfl

/-- What holds of some output of a loop. -/
theorem exists_mem_forEach {body : α → Seeded (List β)} {as : List α} {rng : Mt19937_64}
    {p : β → Prop} :
    (∃ b ∈ value (forEach body as) rng, p b) ↔ Splits as fun pre a _ =>
      ∃ b ∈ value (body a) (after (forEach body pre) rng), p b := by
  rw [← splits_mem, splits_forEach]
  exact splits_congr fun pre a post _ => splits_mem

/-- A loop whose rounds are those of another loop, with `f` applied to their outputs. -/
theorem run_forEach_map {γ : Type} {body : α → Seeded (List γ)} {body' : α → Seeded (List β)}
    {f : β → γ} (h : ∀ a rng, value (body a) rng = (value (body' a) rng).map f ∧
      after (body a) rng = after (body' a) rng) (as : List α) (rng : Mt19937_64) :
    value (forEach body as) rng = (value (forEach body' as) rng).map f ∧
      after (forEach body as) rng = after (forEach body' as) rng := by
  induction as generalizing rng with
  | nil => exact ⟨rfl, rfl⟩
  | cons a as ih =>
    obtain ⟨hvalue, hafter⟩ := h a rng
    obtain ⟨ihvalue, ihafter⟩ := ih (after (body' a) rng)
    constructor
    · rw [value_forEach_cons, value_forEach_cons, hvalue, hafter, ihvalue, List.map_append]
    · show after (forEach body as) (after (body a) rng) = _
      rw [hafter, ihafter]
      rfl

/-- The body of a loop that keeps the output of each round as one list. -/
def grouped (body : α → Seeded (List β)) (a : α) : Seeded (List (List β)) := do
  let out ← body a
  pure [out]

/-- Grouping the values of the rounds draws nothing more, and the groups in order are the values of
the loop. -/
theorem run_grouped (body : α → Seeded (List β)) (as : List α) (rng : Mt19937_64) :
    (value (forEach (grouped body) as) rng).flatten = value (forEach body as) rng ∧
      after (forEach (grouped body) as) rng = after (forEach body as) rng := by
  induction as generalizing rng with
  | nil => exact ⟨rfl, rfl⟩
  | cons a as ih =>
    obtain ⟨hvalue, hafter⟩ := ih (after (body a) rng)
    exact ⟨congrArg (value (body a) rng ++ ·) hvalue, hafter⟩

/-- Each round has its property. -/
theorem forall₂_grouped {body : α → Seeded (List β)} {R : α → List β → Prop}
    (h : ∀ a, Yields (body a) (R a)) (as : List α) (rng : Mt19937_64) :
    List.Forall₂ R as (value (forEach (grouped body) as) rng) := by
  induction as generalizing rng with
  | nil => exact .nil
  | cons a as ih => exact .cons (h a rng) (ih _)

end Seeded

end AiMidi.Lib
