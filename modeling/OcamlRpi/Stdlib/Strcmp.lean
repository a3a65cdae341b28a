import OcamlRpi.Stdlib.CString
import OcamlRpi.Support.Run

namespace OcamlRpi.Stdlib

open Support List
open Memory (wrap)

/-- `while(t != 0 && *s1) t = (*s1++) - (*s2++);` -/
def strcmpLoop : ℕ → Mem → ℤ → ℕ → ℕ → Option ℤ
  | 0, _, _, _, _ => none
  | n + 1, m, t, s1, s2 =>
    if t ≠ 0 ∧ m s1 ≠ 0 then
      strcmpLoop n m ((m s1).toNat - (m s2).toNat) (wrap (s1 + 1)) (wrap (s2 + 1))
    else some t

def strcmp (n : ℕ) (m : Mem) (s1 s2 : ℕ) : Option ℤ := strcmpLoop n m 0 s1 s2

/-- The sign of `t` tells the order of the strings by their bytes. -/
structure Orders (t : ℤ) (as bs : List UInt8) : Prop where
  eq : t = 0 ↔ as = bs
  lt : t < 0 ↔ as < bs
  gt : 0 < t ↔ bs < as

/-- `strcmp` returns a number that orders the strings. -/
def Compares (m : Mem) (s1 s2 : ℕ) (as bs : List UInt8) : Prop :=
  ∃ t, (∃ N, ∀ n, N ≤ n → strcmp n m s1 s2 = some t) ∧ Orders t as bs

variable {m : Mem} {s1 s2 : ℕ} {as bs : List UInt8}

theorem orders_self (as : List UInt8) : Orders 0 as as := by
  have hirrefl := List.lt_irrefl as
  exact ⟨iff_of_true rfl rfl, iff_of_false (by decide) hirrefl, iff_of_false (by decide) hirrefl⟩

/-- The loop is never entered, as `t` starts out zero. -/
theorem strcmp_eq (m : Mem) (s1 s2 : ℕ) : ∀ n, 1 ≤ n → strcmp n m s1 s2 = some 0 := by
  intro n hn
  obtain ⟨n, rfl⟩ : ∃ k, n = k + 1 := ⟨n - 1, by omega⟩
  rw [strcmp, strcmpLoop, if_neg]
  intro h
  exact h.1 rfl

theorem Compares.eq (h : Compares m s1 s2 as bs) : as = bs := by
  obtain ⟨t, hrun, ht⟩ := h
  exact ht.eq.mp (result_unique hrun ⟨1, strcmp_eq m s1 s2⟩)

theorem strcmp_orders_iff (_h₁ : CString m s1 as) (_h₂ : CString m s2 bs) :
    Compares m s1 s2 as bs ↔ as = bs := by
  refine ⟨Compares.eq, fun h ↦ ⟨0, ⟨1, strcmp_eq m s1 s2⟩, ?_⟩⟩
  subst h
  exact orders_self as

theorem strcmp_orders_small : Compares (fun x ↦ if x = 4096 then 97 else 0) 4096 4096 [97] [97] :=
  have h : CString (fun x ↦ if x = 4096 then 97 else 0) 4096 [97] :=
    cstring_cons.mpr ⟨rfl, by decide, cstring_nil.mpr rfl⟩
  (strcmp_orders_iff h h).mpr rfl

/-- `a` and the empty string are taken for equal. -/
theorem strcmp_orders_wrong : ¬ ∀ (m : Mem) (s1 s2 : ℕ) (as bs : List UInt8), CString m s1 as →
    CString m s2 bs → s1 + as.length < 2 ^ 32 → s2 + bs.length < 2 ^ 32 → Compares m s1 s2 as bs := by
  intro h
  have h₁ : CString (fun x ↦ if x = 4096 then 97 else 0) 4096 [97] :=
    cstring_cons.mpr ⟨rfl, by decide, cstring_nil.mpr rfl⟩
  have h₂ : CString (fun x ↦ if x = 4096 then 97 else 0) 4097 [] := cstring_nil.mpr rfl
  exact absurd (h _ _ _ _ _ h₁ h₂ (by decide) (by decide)).eq (by decide)

end OcamlRpi.Stdlib
