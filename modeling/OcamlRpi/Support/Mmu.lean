import Mathlib.Tactic.Positivity
import OcamlRpi.Support.Armv6

namespace OcamlRpi.Support.Armv6

/-- What an address is mapped to: `ap` is APX and AP, `memory` is TEX, C and B. -/
structure Page where
  phys : BitVec 32
  ap : BitVec 3
  memory : BitVec 5
  xn : Bool
deriving DecidableEq

namespace Cpu

variable (c : Cpu)

/-- The MMU is on, without subpages, TEX remap and Force AP. -/
def Paged : Prop := c.cp .control &&& 0x30800001 = 0x00800001

/-- The low addresses have a table of their own, of the size given in TTBCR. -/
def entry (va : BitVec 32) : BitVec 32 :=
  let n := ((c.cp .ttbcr).extractLsb' 0 3).toNat
  let i := va >>> 20 <<< 2
  if va >>> (32 - n) = 0 then c.mem.word (c.cp .ttbr0 >>> (14 - n) <<< (14 - n) + i)
  else c.mem.word (c.cp .ttbr1 >>> 14 <<< 14 + i)

/-- A manager of the domain passes by the access permissions. -/
def permissions (domain : ℕ) (e : BitVec 32) : Option (BitVec 3) :=
  match (c.cp .dacr).extractLsb' (2 * domain) 2 with
  | 1 => some (e.extractLsb' 15 1 ++ e.extractLsb' 10 2)
  | 3 => some 3
  | _ => none

def page (domain : ℕ) (e phys : BitVec 32) : Option Page :=
  (c.permissions domain e).map fun ap ↦ ⟨phys, ap, e.extractLsb' 12 3 ++ e.extractLsb' 2 2, e.getLsbD 4⟩

/-- The walk of a paged CPU, in tables of sections and supersections. Tables of
the second level are not modelled. -/
def translate (va : BitVec 32) : Option Page :=
  let e := c.entry va
  if e.extractLsb' 0 2 = 2 then
    if e.getLsbD 18 then c.page 0 e (e.extractLsb' 24 8 ++ va.extractLsb' 0 24)
    else c.page (e.extractLsb' 5 4).toNat e (e.extractLsb' 20 12 ++ va.extractLsb' 0 20)
  else none

end Cpu

variable {c : Cpu} {va : BitVec 32} {hi : BitVec 8} {lo : BitVec 24}

theorem shift_of_aligned {t : BitVec 32} {n m : ℕ} (h : 2 ^ n ∣ t.toNat) (hm : m ≤ n) : t >>> m <<< m = t := by
  obtain ⟨q, hq⟩ := (pow_dvd_pow 2 hm).trans h
  refine BitVec.eq_of_toNat_eq ?_
  rw [BitVec.toNat_shiftLeft, BitVec.toNat_ushiftRight, Nat.shiftLeft_eq, Nat.shiftRight_eq_div_pow, hq,
    Nat.mul_div_cancel_left _ (by positivity), Nat.mul_comm, ← hq, Nat.mod_eq_of_lt t.isLt]

/-- With one table for all addresses it does not matter where TTBCR splits them. -/
theorem Cpu.entry_same {t : BitVec 32} (ht : 2 ^ 14 ∣ t.toNat) (h₀ : c.cp .ttbr0 = t) (h₁ : c.cp .ttbr1 = t)
    (va : BitVec 32) : c.entry va = c.mem.word (t + va >>> 20 <<< 2) := by
  rw [Cpu.entry, h₀, h₁, shift_of_aligned ht (Nat.sub_le _ _), shift_of_aligned ht le_rfl]
  exact ite_self _

theorem Cpu.translate_supersection (he : c.entry va = hi ++ lo) (ht : lo.extractLsb' 0 2 = 2) (hs : lo.getLsbD 18)
    (hd : (c.cp .dacr).extractLsb' 0 2 = 1) :
    c.translate va = some ⟨hi ++ va.extractLsb' 0 24, lo.extractLsb' 15 1 ++ lo.extractLsb' 10 2,
      lo.extractLsb' 12 3 ++ lo.extractLsb' 2 2, lo.getLsbD 4⟩ := by
  have hx (s n : ℕ) (h : s + n ≤ 24) : (hi ++ lo).extractLsb' s n = lo.extractLsb' s n :=
    BitVec.extractLsb'_append_eq_of_add_le h
  have hb (i : ℕ) (h : i < 24) : (hi ++ lo).getLsbD i = lo.getLsbD i := by
    rw [BitVec.getLsbD_append, if_pos h]
  have hhi : (hi ++ lo).extractLsb' 24 8 = hi := BitVec.extractLsb'_append_eq_left
  rw [Cpu.translate, he, hx 0 2 (by decide), hb 18 (by decide), if_pos ht, if_pos hs, hhi, Cpu.page, Cpu.permissions,
    Nat.mul_zero, hd, hx 15 1 (by decide), hx 10 2 (by decide), hx 12 3 (by decide), hx 2 2 (by decide),
    hb 4 (by decide)]
  rfl

theorem Cpu.translate_fault (he : (c.entry va).extractLsb' 0 2 = 0) : c.translate va = none := by
  rw [Cpu.translate, he]
  rfl

end OcamlRpi.Support.Armv6
