import Mathlib.Data.Rat.Defs

/-!
# `AiMidi.Dsp.FloatOps`: the arithmetic of the analyses

The analyses compute on `float`. A model of them takes the type of the samples as a parameter, with
the operations that the code applies. Nothing is assumed of the operations: the sum of two numbers
may be rounded, and a comparison may be that of numbers which are not ordered. A result about the
models holds of every such arithmetic.
-/

set_option autoImplicit false

namespace AiMidi.Dsp

/-- A floating-point type. -/
class FloatOps (F : Type) extends Add F, Sub F, Mul F, Div F where
  /-- A literal, or the conversion of an integer. -/
  lit : Rat → F
  /-- `a < b`. -/
  lt : F → F → Bool
  sqrt : F → F
  log2 : F → F
  fmod : F → F → F
  /-- The conversion to `int`. -/
  toInt : F → Int

export FloatOps (lit)

section

variable {F : Type} [FloatOps F]

/-- `std::max(a, b)`. -/
def fmax (a b : F) : F := if FloatOps.lt a b then b else a

/-- `std::min(a, b)`. -/
def fmin (a b : F) : F := if FloatOps.lt b a then b else a

/-- A loop that adds up from zero. -/
def accumulate (terms : List F) : F := terms.foldl (· + ·) (lit 0)

end

end AiMidi.Dsp
