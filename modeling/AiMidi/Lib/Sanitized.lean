import AiMidi.Lib.Bytes

/-!
# `AiMidi.Lib.Sanitized`: 32-bit arithmetic that reports its wraps

A `Sanitized α` is a value together with one flag: whether some 32-bit operation on the
way to it left the range of its type. `u32` and `i32` store an exact integer result into an
unsigned or signed 32-bit variable. They return the wrapped value, which is what the
machine computes, and raise the flag when the exact result did not fit. So `val` is the
behaviour of the program, and `wrapped = false` says that no operation on the way wrapped.

The flag only accumulates: `bind` joins the flags of its two halves. `Safe x P` is the
postcondition form, "no wrap, and the value satisfies `P`". Its rules (`safe_pure`,
`safe_bind`, `safe_u32`, `safe_i32`, `safe_forEach`) follow the shape of a `do` block.
-/

set_option autoImplicit false

namespace AiMidi.Lib

/-- A value with the record of a 32-bit wrap on the way to it. -/
structure Sanitized (α : Type) where
  val : α
  wrapped : Bool

namespace Sanitized

variable {α β γ : Type}

/-- A sequence wraps when one of its parts does. -/
instance : Monad Sanitized where
  pure a := ⟨a, false⟩
  -- The program goes on with the wrapped value.
  bind x f := ⟨(f x.val).val, x.wrapped || (f x.val).wrapped⟩

/-- A plain value is that value. -/
@[simp] theorem val_pure (a : α) : (pure a : Sanitized α).val = a := rfl

/-- It has not wrapped. -/
@[simp] theorem wrapped_pure (a : α) : (pure a : Sanitized α).wrapped = false := rfl

/-- The value of a sequence is that of the program that goes on with the first value. -/
@[simp] theorem val_bind (x : Sanitized α) (f : α → Sanitized β) :
    (x >>= f).val = (f x.val).val := rfl

/-- The mark of a sequence collects those of its parts. -/
@[simp] theorem wrapped_bind (x : Sanitized α) (f : α → Sanitized β) :
    (x >>= f).wrapped = (x.wrapped || (f x.val).wrapped) := rfl

/-- An exact result stored into an unsigned 32-bit variable. -/
def u32 (z : Int) : Sanitized UInt32 := ⟨u32cast z, decide (z < 0 ∨ 2 ^ 32 ≤ z)⟩

/-- An exact result stored into a signed 32-bit variable. -/
def i32 (z : Int) : Sanitized Int := ⟨i32cast z, decide (z < -2 ^ 31 ∨ 2 ^ 31 ≤ z)⟩

/-- An `unsigned` is the number modulo `2 ^ 32`. -/
@[simp] theorem val_u32 (z : Int) : (u32 z).val = u32cast z := rfl

/-- An `int` is the number as it wraps. -/
@[simp] theorem val_i32 (z : Int) : (i32 z).val = i32cast z := rfl

/-- The program goes on with the exact result when it fits an `int`. -/
theorem val_bind_i32 {z : Int} {f : Int → Sanitized α} (h0 : -2 ^ 31 ≤ z) (h1 : z < 2 ^ 31) :
    (i32 z >>= f).val = (f z).val := by
  rw [val_bind, val_i32, i32cast_of_range h0 h1]

/-- No wrap: the result fits, and the program goes on with it without a wrap. -/
theorem wrapped_bind_i32 {z : Int} {f : Int → Sanitized α} :
    (i32 z >>= f).wrapped = false ↔ (-2 ^ 31 ≤ z ∧ z < 2 ^ 31) ∧ (f z).wrapped = false := by
  have hflag : (i32 z).wrapped = false ↔ -2 ^ 31 ≤ z ∧ z < 2 ^ 31 := by
    rw [i32, decide_eq_false_iff_not]
    omega
  rw [wrapped_bind, Bool.or_eq_false_iff, hflag]
  refine and_congr_right fun h => ?_
  rw [val_i32, i32cast_of_range h.1 h.2]

/-- The rest of a program sees the wrapped number. -/
theorem val_bind_u32 (z : Int) (f : UInt32 → Sanitized α) :
    (u32 z >>= f).val = (f (u32cast z)).val := rfl

/-- The loop `for (a : as) out.insert(out.end(), body(a))`: the outputs of the rounds, in
order. -/
def forEach (body : α → Sanitized (List β)) : List α → Sanitized (List β)
  | []      => pure []
  | a :: as => do
      let out ← body a
      let rest ← forEach body as
      pure (out ++ rest)

/-- The values of a loop are those of its rounds, one behind the other. -/
@[simp] theorem val_forEach (body : α → Sanitized (List β)) (as : List α) :
    (forEach body as).val = as.flatMap fun a => (body a).val := by
  induction as with
  | nil => rfl
  | cons a as ih => simp [forEach, ih]

/-- A loop wraps when one of its rounds does. -/
@[simp] theorem wrapped_forEach (body : α → Sanitized (List β)) (as : List α) :
    (forEach body as).wrapped = as.any fun a => (body a).wrapped := by
  induction as with
  | nil => rfl
  | cons a as ih => simp [forEach, ih]

/-! ### Postconditions

`Safe` is the Hoare triple of these programs: no step wraps and the result has a property. There is
one rule for each way to build a program. -/

/-- No operation wrapped, and the value satisfies `P`. -/
def Safe (x : Sanitized α) (P : α → Prop) : Prop := x.wrapped = false ∧ P x.val

/-- A plain value is safe when the property holds of it. -/
theorem safe_pure {P : α → Prop} {a : α} (h : P a) : Safe (pure a) P := ⟨rfl, h⟩

/-- The rule for a sequence: the first part establishes what the second one needs. -/
theorem safe_bind {x : Sanitized α} {f : α → Sanitized β} {P : α → Prop} {Q : β → Prop}
    (hx : Safe x P) (hf : ∀ a, P a → Safe (f a) Q) : Safe (x >>= f) Q := by
  obtain ⟨hw, hv⟩ := hf x.val hx.2
  exact ⟨by rw [wrapped_bind, hx.1, hw]; rfl, hv⟩

/-- Weakening the postcondition. -/
theorem Safe.mono {x : Sanitized α} {P Q : α → Prop} (h : Safe x P) (hPQ : ∀ a, P a → Q a) :
    Safe x Q :=
  ⟨h.1, hPQ _ h.2⟩

/-- Two postconditions of one computation. -/
theorem Safe.and {x : Sanitized α} {P Q : α → Prop} (hP : Safe x P) (hQ : Safe x Q) :
    Safe x fun a => P a ∧ Q a :=
  ⟨hP.1, hP.2, hQ.2⟩

/-- A further postcondition for every index that meets a condition. -/
theorem Safe.and_forall {ι : Type} {x : Sanitized α} {P : α → Prop} {c : ι → Prop}
    {Q : ι → α → Prop} (hP : Safe x P) (hQ : ∀ i, c i → Safe x (Q i)) :
    Safe x fun a => P a ∧ ∀ i, c i → Q i a :=
  ⟨hP.1, hP.2, fun i hi => (hQ i hi).2⟩

/-- A stored result that fits an unsigned variable is the exact result. -/
theorem safe_u32 {z : Int} (h0 : 0 ≤ z) (h1 : z < 2 ^ 32) :
    Safe (u32 z) fun n => (n.toNat : Int) = z := by
  refine ⟨?_, ?_⟩
  · simp only [u32, decide_eq_false_iff_not]
    omega
  · show ((u32cast z).toNat : Int) = z
    rw [u32cast_toNat h0 h1, Int.toNat_of_nonneg h0]

/-- A stored result that fits a signed variable is the exact result. -/
theorem safe_i32 {z : Int} (h0 : -2 ^ 31 ≤ z) (h1 : z < 2 ^ 31) :
    Safe (i32 z) fun n => n = z := by
  refine ⟨?_, ?_⟩
  · simp only [i32, decide_eq_false_iff_not]
    omega
  · show i32cast z = z
    exact i32cast_of_range h0 h1

/-- A loop whose rounds are all safe is safe, and each of its outputs satisfies the
postcondition of its round. -/
theorem safe_forEach {body : α → Sanitized (List β)} {as : List α} {P : β → Prop}
    (h : ∀ a ∈ as, Safe (body a) fun out => ∀ b ∈ out, P b) :
    Safe (forEach body as) fun out => ∀ b ∈ out, P b := by
  refine ⟨?_, ?_⟩
  · rw [wrapped_forEach, List.any_eq_false]
    intro a ha
    simp [(h a ha).1]
  · intro b hb
    rw [val_forEach, List.mem_flatMap] at hb
    obtain ⟨a, ha, hb⟩ := hb
    exact (h a ha).2 b hb

/-- What one round of a safe loop outputs is an output of the loop. -/
theorem safe_forEach_exists {body : α → Sanitized (List β)} {as : List α} {a : α}
    {P : List β → Prop} {Q : β → Prop} (h : Safe (forEach body as) P) (ha : a ∈ as)
    (hbody : Safe (body a) fun out => ∃ b ∈ out, Q b) :
    Safe (forEach body as) fun out => ∃ b ∈ out, Q b := by
  refine ⟨h.1, ?_⟩
  obtain ⟨b, hb, hQ⟩ := hbody.2
  rw [val_forEach]
  exact ⟨b, List.mem_flatMap.mpr ⟨a, ha, hb⟩, hQ⟩

end Sanitized

end AiMidi.Lib
