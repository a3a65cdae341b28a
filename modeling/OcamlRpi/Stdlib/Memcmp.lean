import OcamlRpi.Stdlib.Strcmp

namespace OcamlRpi.Stdlib

open Support List
open Memory (wrap)

/-- `while(t == 0 && n-- > 0) { t = *p++ - *q++; }` -/
def memcmpLoop (m : Mem) (t : ℤ) (p q : ℕ) : ℕ → ℤ
  | 0 => t
  | n + 1 => if t = 0 then memcmpLoop m ((m p).toNat - (m q).toNat) (wrap (p + 1)) (wrap (q + 1)) n else t

def memcmp (m : Mem) (s1 s2 n : ℕ) : ℤ := memcmpLoop m 0 s1 s2 n

/-- The `n` bytes from `p` on. -/
def bytesAt (m : Mem) (p : ℕ) : ℕ → List UInt8
  | 0 => []
  | n + 1 => m p :: bytesAt m (wrap (p + 1)) n

variable {m : Mem} {t : ℤ} {p q : ℕ} {a b : UInt8} {as bs cs : List UInt8}

theorem Orders.cons (h : Orders t as bs) (a : UInt8) : Orders t (a :: as) (a :: bs) where
  eq := h.eq.trans (by simp)
  lt := h.lt.trans (by simp)
  gt := h.gt.trans (by simp)

/-- The first byte that differs decides. -/
theorem orders_of_ne (hne : a ≠ b) (as bs : List UInt8) : Orders (a.toNat - b.toNat) (a :: as) (b :: bs) := by
  have hnat : a.toNat ≠ b.toNat := fun h ↦ hne (UInt8.toNat_inj.mp h)
  refine ⟨iff_of_false (by omega) fun h ↦ hne (cons.inj h).1, ?_, ?_⟩
  · rw [cons_lt_cons_iff, UInt8.lt_iff_toNat_lt]
    simp only [hne, false_and, or_false]
    omega
  · rw [cons_lt_cons_iff, UInt8.lt_iff_toNat_lt]
    simp only [hne.symm, false_and, or_false]
    omega

theorem memcmpLoop_of_ne (ht : t ≠ 0) (m : Mem) (p q n : ℕ) : memcmpLoop m t p q n = t := by
  cases n with
  | zero => rfl
  | succ n => exact if_neg ht

/-- `memcmp` orders the bytes, where `strcmp` does not. -/
theorem memcmp_orders (m : Mem) (s1 s2 n : ℕ) : Orders (memcmp m s1 s2 n) (bytesAt m s1 n) (bytesAt m s2 n) := by
  induction n generalizing s1 s2 with
  | zero => exact orders_self []
  | succ n ih =>
    rw [memcmp, memcmpLoop, if_pos rfl, bytesAt, bytesAt]
    by_cases he : m s1 = m s2
    · rw [he, Int.sub_self]
      exact (ih _ _).cons _
    · have hne : ((m s1).toNat : ℤ) - (m s2).toNat ≠ 0 := fun h ↦ he (UInt8.toNat_inj.mp (by omega))
      rw [memcmpLoop_of_ne hne]
      exact orders_of_ne he _ _

end OcamlRpi.Stdlib
