import OcamlRpi.Memory.Copy

namespace OcamlRpi.Stdlib

open Support Function
open Memory (wrap memcpy memcpy_apply)

/-- `while(n-- > 0) *--d = *--s;` -/
def copyDown (m : Mem) (d s : ℕ) : ℕ → Mem
  | 0 => m
  | n + 1 => copyDown (update m (sub32 d 1) (m (sub32 s 1))) (sub32 d 1) (sub32 s 1) n

/-- The memory after `memmove`, and its result. The loop upwards is that of
`memcpy`. -/
def memmove (m : Mem) (dest src n : ℕ) : Mem × ℕ :=
  if dest < src ∨ n ≤ sub32 dest src then (memcpy m dest src n, dest)
  else (copyDown m (wrap (dest + n)) (wrap (src + n)) n, dest)

variable {m : Mem} {d s n x : ℕ}

theorem sub32_wrap (h : x < 2 ^ 32) : sub32 (wrap (x + 1)) 1 = x := by
  simp only [sub32, wrap]
  omega

/-- Downwards, a byte of the source is read before the place behind it is
written. -/
theorem copyDown_apply (hd : d + n ≤ 2 ^ 32) (hsd : s ≤ d) :
    copyDown m (wrap (d + n)) (wrap (s + n)) n x = if d ≤ x ∧ x < d + n then m (s + (x - d)) else m x := by
  induction n generalizing m with
  | zero =>
    rw [copyDown, if_neg]
    omega
  | succ n ih =>
    rw [copyDown, ← Nat.add_assoc, ← Nat.add_assoc, sub32_wrap (by omega), sub32_wrap (by omega)]
    have hmod : wrap (d + n) = d + n := Nat.mod_eq_of_lt (by omega)
    have hmod' : wrap (s + n) = s + n := Nat.mod_eq_of_lt (by omega)
    rw [← hmod, ← hmod', ih (by omega), hmod, hmod']
    by_cases hlast : x = d + n
    · subst hlast
      have hsub : d + n - d = n := by omega
      rw [if_neg (by omega), if_pos (by omega), update_self, hsub]
    · rw [update_of_ne hlast]
      by_cases hin : d ≤ x ∧ x < d + n
      · have hne : s + (x - d) ≠ d + n := by omega
        rw [if_pos hin, if_pos (by omega), update_of_ne hne]
      · rw [if_neg hin, if_neg (by omega)]

theorem memmove_apply (hd : d + n ≤ 2 ^ 32) (hs : s + n ≤ 2 ^ 32) :
    (memmove m d s n).1 x = if d ≤ x ∧ x < d + n then m (s + (x - d)) else m x := by
  by_cases h : d < s ∨ n ≤ sub32 d s
  · rw [memmove, if_pos h]
    refine memcpy_apply hd hs ?_
    by_cases hds : d ≤ s
    · exact .inl hds
    · have hn := h.resolve_left (by omega)
      by_cases hlt : d < 2 ^ 32
      · rw [sub32_of_le (by omega) hlt] at hn
        omega
      · omega
  · rw [memmove, if_neg h]
    exact copyDown_apply hd (by omega)

/-- Whatever the overlap of the two ranges, `memmove` copies what was there, and
changes nothing else. -/
theorem memmove_copies (hd : d + n ≤ 2 ^ 32) (hs : s + n ≤ 2 ^ 32) (m : Mem) :
    (∀ i, i < n → (memmove m d s n).1 (d + i) = m (s + i)) ∧
      (∀ x, x < d ∨ d + n ≤ x → (memmove m d s n).1 x = m x) ∧ (memmove m d s n).2 = d := by
  refine ⟨fun i hi ↦ ?_, fun x hx ↦ ?_, ?_⟩
  · have hsub : d + i - d = i := by omega
    rw [memmove_apply hd hs, if_pos (by omega), hsub]
  · rw [memmove_apply hd hs, if_neg (by omega)]
  · unfold memmove
    split_ifs <;> rfl

theorem memmove_copies_small :
    (∀ i, i < 4 → (memmove UInt8.ofNat 4097 4096 4).1 (4097 + i) = UInt8.ofNat (4096 + i)) ∧
      (∀ x, x < 4097 ∨ 4101 ≤ x → (memmove UInt8.ofNat 4097 4096 4).1 x = UInt8.ofNat x) ∧
        (memmove UInt8.ofNat 4097 4096 4).2 = 4097 :=
  memmove_copies (by decide) (by decide) UInt8.ofNat

end OcamlRpi.Stdlib
