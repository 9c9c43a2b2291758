import AiMidi.Proofs.MidiRenderer.RoundTrip
import AiMidi.Proofs.MteCli.Precedence

/-!
# `AiMidi.Proofs.MteCli.Tempo`: the tempo through its three bytes

The tempo track stores the microseconds of a quarter, a truncated quotient, in three bytes. From
four beats per minute on the quotient has 24 bits, and up to 5000 it is large enough for the
tempo to come back by rounding. The command line also lets 1, 2 and 3 through, and their
quotients lose their top byte (`tempoSurvives_iff`).
-/

set_option autoImplicit false

namespace AiMidi.Proofs.MteCli

open AiMidi.Lib AiMidi.Theory AiMidi.Tools
open AiMidi.Lib.Smf (beNat beNat_lt)
open AiMidi.Proofs.MidiRenderer (beNat_writeBe32)

/-! ### The property -/

/-- The value of a tempo meta event at delta 0. -/
def readTempo (events : Bytes) : Option Nat :=
  if events.take 4 = [0x00, 0xFF, 0x51, 0x03] then some (beNat ((events.drop 4).take 3)) else none

/-- The tempo of a tempo track, behind the eight bytes of its chunk header. -/
def decodedTempo (comp : SmfComposition) : Option Nat := readTempo ((buildTempoTrack comp).drop 8)

/-- The quotient, rounded to the nearest integer. -/
def roundedQuotient (a b : Nat) : Nat := (2 * a + b) / (2 * b)

/-- The tempo track has the microseconds of a quarter, and the tempo comes back from them. -/
def TempoSurvives (comp : SmfComposition) : Prop :=
  ∃ microseconds : Nat, decodedTempo comp = some microseconds ∧
    (microseconds : Int) = 60000000 / comp.bpm ∧
    (roundedQuotient 60000000 microseconds : Int) = comp.bpm

/-! ### The three bytes

The quotient is written as a field of four bytes without its first one. A quotient of 24 bits is not
changed by this. -/

/-- The low three bytes of a field. -/
theorem beNat_tail_writeBe32 (v : UInt32) : beNat ((writeBe32 v).drop 1) = v.toNat % 2 ^ 24 := by
  have hfour := beNat_writeBe32 v
  have hthree := beNat_lt ((writeBe32 v).drop 1)
  have hsplit : beNat (writeBe32 v) =
      ((v >>> 24 &&& 0xFF).toUInt8).toNat * 2 ^ 24 + beNat ((writeBe32 v).drop 1) := by
    simp only [writeBe32, beNat, List.drop_succ_cons, List.drop_zero, List.foldl_cons,
      List.foldl_nil]
    omega
  have hlength : ((writeBe32 v).drop 1).length = 3 := rfl
  rw [hlength] at hthree
  omega

/-- The track holds the quotient without its top byte. -/
theorem decodedTempo_eq (comp : SmfComposition) :
    decodedTempo comp = some ((60000000 / u32cast comp.bpm : UInt32).toNat % 2 ^ 24) := by
  rw [← beNat_tail_writeBe32]
  rfl

/-- A quotient that is at least twice its divisor gives the divisor back. -/
theorem roundedQuotient_div {n b : Nat} (hb : 0 < b) (h : 2 * b ≤ n / b) :
    roundedQuotient n (n / b) = b := by
  have hle : b * (n / b) ≤ n := Nat.mul_div_le n b
  have hlt : n < b * (n / b + 1) := Nat.lt_mul_div_succ n hb
  rw [Nat.mul_add] at hlt
  unfold roundedQuotient
  generalize n / b = q at *
  have hmul : b * (2 * q) = 2 * (b * q) := Nat.mul_left_comm b 2 q
  have hmul' : (b + 1) * (2 * q) = 2 * (b * q) + 2 * q := by
    rw [Nat.add_mul, hmul, Nat.one_mul]
  apply Nat.div_eq_of_lt_le
  · omega
  · omega

/-! ### The tempos that survive

The slowest tempos have the largest quotients. Up to three beats per minute the quotient needs a
fourth byte. -/

/-- Up to 5000 beats per minute, a tempo survives exactly when it is at least 4. -/
theorem tempoSurvives_iff {argv : List Bytes} {args : Args} (hargs : parseArgs argv = some args)
    (hle : args.bpm ≤ 5000) {comp : SmfComposition} (hcomp : comp.bpm = args.bpm) :
    TempoSurvives comp ↔ 4 ≤ args.bpm := by
  obtain ⟨hpos, -⟩ := numbers_pos_of_parseArgs hargs
  rw [← hcomp] at hle hpos ⊢
  have hquotient : (60000000 / u32cast comp.bpm : UInt32).toNat = 60000000 / comp.bpm.toNat := by
    rw [UInt32.toNat_div, u32cast_toNat (by omega) (by omega)]
    rfl
  have hcast : ((60000000 / comp.bpm.toNat : Nat) : Int) = 60000000 / comp.bpm := by
    rw [Int.natCast_ediv, Int.toNat_of_nonneg (by omega)]
    rfl
  unfold TempoSurvives
  rw [decodedTempo_eq, hquotient, ← hcast]
  constructor
  · rintro ⟨microseconds, hdecoded, hexact, -⟩
    have hmod := Option.some.inj hdecoded
    by_contra hslow
    -- The quotient of a tempo below 4 has 25 bits or more.
    have hbig : 60000000 / 3 ≤ 60000000 / comp.bpm.toNat :=
      Nat.div_le_div_left (by omega) (by omega)
    omega
  · intro hfast
    have hsmall : 60000000 / comp.bpm.toNat ≤ 60000000 / 4 :=
      Nat.div_le_div_left (by omega) (by decide)
    have hbig : 60000000 / 5000 ≤ 60000000 / comp.bpm.toNat :=
      Nat.div_le_div_left (by omega) (by omega)
    refine ⟨60000000 / comp.bpm.toNat, ?_, rfl, ?_⟩
    · rw [Nat.mod_eq_of_lt (by omega)]
    · rw [roundedQuotient_div (by omega) (by omega)]
      omega

/-- A command line with a tempo. -/
def tempoArgv (bpm : Bytes) : List Bytes :=
  [bytes "--key", bytes "C", bytes "--scale", bytes "major", bytes "--bpm", bpm,
   bytes "--output", bytes "a.mid"]

/-- What the command line sets. -/
def tempoArgs (bpm : Int) : Args :=
  { key := bytes "C", scale := bytes "major", bpm := bpm, output := bytes "a.mid" }

/-- A piece without instruments at a tempo. -/
def emptyPiece (bpm : Int) : SmfComposition := { tracks := [], bpm := bpm }

/-- The tempo of the default. -/
theorem tempoSurvives_iff_default :
    TempoSurvives (emptyPiece 120) ↔ (4 : Int) ≤ 120 :=
  tempoSurvives_iff
    (show parseArgs (tempoArgv (bytes "120")) = some (tempoArgs 120) by decide) (by decide) rfl

/-- The command line accepts three beats per minute, and the track has another tempo. -/
theorem three_not_survives : ∃ args, parseArgs (tempoArgv (bytes "3")) = some args ∧
    args.bpm = 3 ∧ ¬ TempoSurvives (emptyPiece args.bpm) := by
  refine ⟨tempoArgs 3, by decide, rfl, ?_⟩
  rintro ⟨microseconds, hdecoded, hexact, -⟩
  have hlost : decodedTempo (emptyPiece (tempoArgs 3).bpm) = some 3222784 := by decide
  rw [hlost] at hdecoded
  rw [← Option.some.inj hdecoded] at hexact
  exact absurd hexact (by decide)

end AiMidi.Proofs.MteCli
