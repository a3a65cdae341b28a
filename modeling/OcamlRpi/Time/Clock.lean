import Mathlib.Algebra.Ring.Nat
import Mathlib.Algebra.Ring.Int.Defs

namespace OcamlRpi.Time

def TICKS_PER_SEC : BitVec 64 := 1000000

def valInt (x : BitVec 32) : BitVec 32 := (x <<< 1) + 1

def intVal (v : BitVec 32) : ℤ := (v.sshiftRight 1).toInt

/-- `{ tv_sec:int; tv_usec:int; }` -/
structure T where
  tvSec : BitVec 32
  tvUsec : BitVec 32
deriving DecidableEq

/-- The variable `t` of `caml_time_time`. -/
def ticks (hi lo : BitVec 32) : BitVec 64 := (hi.setWidth 64 <<< 32) ||| lo.setWidth 64

/-- `caml_time_time`, given what it reads at `TIMER_CHI` and then at `TIMER_CLO`. -/
def camlTimeTime (hi lo : BitVec 32) : T :=
  let t := ticks hi lo
  let tvSec := (t / TICKS_PER_SEC).setWidth 32
  let tvUsec := (t % TICKS_PER_SEC).setWidth 32
  ⟨valInt tvSec, valInt tvUsec⟩

/-- The microseconds that a time stands for. -/
def T.micros (t : T) : ℤ := intVal t.tvSec * 10 ^ 6 + intVal t.tvUsec

/-- The 64-bit counter of the timer at one moment after the other. It does not
go back, and may advance by any amount in between. -/
structure Timer where
  counter : ℕ → BitVec 64
  mono : ∀ i j, i ≤ j → (counter i).toNat ≤ (counter j).toNat

namespace Timer

variable (c : Timer) (i j : ℕ)

/-- The register `TIMER_CHI`. -/
def hi : BitVec 32 := (c.counter i >>> 32).setWidth 32

/-- The register `TIMER_CLO`. -/
def lo : BitVec 32 := (c.counter i).setWidth 32

/-- A call that reads the high half at the moment `i`, and the low half at `j`. -/
def time : T := camlTimeTime (c.hi i) (c.lo j)

/-- OCaml's `int` has room for the seconds of the time that the call puts
together. -/
def InRange : Prop := (ticks (c.hi i) (c.lo j)).toNat < 2 ^ 30 * 10 ^ 6

instance : Decidable (c.InRange i j) := inferInstanceAs (Decidable (_ < _))

/-- The time is between the values of the counter at the two reads. -/
def Between : Prop := (c.counter i).toNat ≤ (c.time i j).micros ∧ (c.time i j).micros ≤ (c.counter j).toNat

end Timer

variable {c : Timer} {i j : ℕ} {x : BitVec 32}

theorem intVal_valInt (h : x.toNat < 2 ^ 30) : intVal (valInt x) = x.toNat := by
  have hv : (valInt x).toNat = 2 * x.toNat + 1 := by
    have h₁ : (1 : BitVec 32).toNat = 1 := rfl
    rw [valInt, BitVec.toNat_add, BitVec.toNat_shiftLeft, Nat.shiftLeft_eq, h₁]
    omega
  have hpos : (valInt x).toInt = 2 * x.toNat + 1 := by
    rw [BitVec.toInt_eq_toNat_of_lt (by omega), hv]
    rfl
  rw [intVal, BitVec.toInt_sshiftRight, hpos, Int.shiftRight_eq_div_pow]
  omega

theorem toNat_ticks (hi lo : BitVec 32) : (ticks hi lo).toNat = hi.toNat * 2 ^ 32 + lo.toNat := by
  have hlo := lo.isLt
  have hhi := hi.isLt
  have hshift : (hi.setWidth 64 <<< 32).toNat = hi.toNat <<< 32 := by
    rw [BitVec.toNat_shiftLeft, BitVec.toNat_setWidth, Nat.shiftLeft_eq, Nat.shiftLeft_eq]
    omega
  rw [ticks, BitVec.toNat_or, hshift, BitVec.toNat_setWidth, Nat.mod_eq_of_lt (by omega),
    ← Nat.shiftLeft_add_eq_or_of_lt hlo, Nat.shiftLeft_eq]

theorem Timer.toNat_hi (c : Timer) (i : ℕ) : (c.hi i).toNat = (c.counter i).toNat / 2 ^ 32 := by
  have h := (c.counter i).isLt
  rw [hi, BitVec.toNat_setWidth, BitVec.toNat_ushiftRight, Nat.shiftRight_eq_div_pow]
  omega

theorem Timer.toNat_lo (c : Timer) (i : ℕ) : (c.lo i).toNat = (c.counter i).toNat % 2 ^ 32 :=
  BitVec.toNat_setWidth _ _

theorem micros_eq {hi lo : BitVec 32} (h : (ticks hi lo).toNat < 2 ^ 30 * 10 ^ 6) :
    (camlTimeTime hi lo).micros = (ticks hi lo).toNat := by
  have hticks : TICKS_PER_SEC.toNat = 10 ^ 6 := rfl
  have hsec : ((ticks hi lo / TICKS_PER_SEC).setWidth 32).toNat = (ticks hi lo).toNat / 10 ^ 6 := by
    rw [BitVec.toNat_setWidth, BitVec.toNat_udiv, hticks]
    omega
  have husec : ((ticks hi lo % TICKS_PER_SEC).setWidth 32).toNat = (ticks hi lo).toNat % 10 ^ 6 := by
    rw [BitVec.toNat_setWidth, BitVec.toNat_umod, hticks]
    omega
  rw [T.micros, camlTimeTime, intVal_valInt (by omega), intVal_valInt (by omega), hsec, husec]
  omega

namespace Timer

theorem micros_time (h : c.InRange i j) :
    (c.time i j).micros = (c.counter i).toNat / 2 ^ 32 * 2 ^ 32 + (c.counter j).toNat % 2 ^ 32 := by
  have hm : (c.time i j).micros = (ticks (c.hi i) (c.lo j)).toNat := micros_eq h
  rw [hm, toNat_ticks, c.toNat_hi, c.toNat_lo]
  rfl

/-- The high half is read first, so the time is never ahead of the counter. -/
theorem micros_le (hij : i ≤ j) (h : c.InRange i j) : (c.time i j).micros ≤ (c.counter j).toNat := by
  have hle := c.mono i j hij
  rw [micros_time h]
  omega

theorem between_iff (hij : i ≤ j) (h : c.InRange i j) :
    c.Between i j ↔ (c.lo i).toNat ≤ (c.lo j).toNat := by
  rw [Between, and_iff_left (micros_le hij h), micros_time h, c.toNat_lo, c.toNat_lo]
  omega

/-- The time is one of the counter during the call exactly if the low half has
not become less between the two reads. Then it is not before that of any call
that has ended. -/
theorem time_between_iff (hij : i ≤ j) (h : c.InRange i j) :
    (c.Between i j ↔ (c.lo i).toNat ≤ (c.lo j).toNat) ∧
      ((c.lo i).toNat ≤ (c.lo j).toNat → ∀ k l, k ≤ l → l ≤ i → c.InRange k l →
        (c.time k l).micros ≤ (c.time i j).micros) := by
  refine ⟨between_iff hij h, fun hlo k l hkl hli hk ↦ ?_⟩
  have hlate := ((between_iff hij h).mpr hlo).1
  have hearly := micros_le hkl hk
  have hmono := c.mono l i hli
  omega

/-- The counter before and after a carry into its high half. -/
def carry : Timer where
  counter i := if i = 0 then 0xFFFFFFFF else 0x100000000
  mono i j h := by
    by_cases hi : i = 0
    · rw [if_pos hi]
      split_ifs <;> decide
    · rw [if_neg hi, if_neg (by omega)]

theorem time_between_small : carry.Between 1 2 :=
  (time_between_iff (by decide) (by decide)).1.mpr (by decide)

/-- With the carry between the two reads, the time is 0. -/
theorem time_between_wrong : ¬ ∀ (c : Timer) (i j : ℕ), i ≤ j → c.InRange i j → c.Between i j := by
  intro h
  exact absurd (h carry 0 1 (by decide) (by decide)).1 (by decide)

end Timer

end OcamlRpi.Time
