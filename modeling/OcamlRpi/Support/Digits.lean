import Mathlib.Data.Nat.Digits.Lemmas

namespace OcamlRpi.Support

open List

/-- The number that the digits `ds` stand for, behind digits for `n`. -/
def horner (b n : ℕ) (ds : List ℕ) : ℕ := ds.foldl (fun n d ↦ n * b + d) n

/-- The digits of `n`, the most significant one first; 0 has one digit. -/
def numeral (b n : ℕ) : List ℕ := if n = 0 then [0] else (Nat.digits b n).reverse

variable {b n m d k : ℕ} {ds es : List ℕ}

/-- A number gets larger with a digit. -/
theorem horner_lt_horner (hb : 0 < b) (h : Forall₂ (· ≤ ·) ds es) (hn : n ≤ m) (hne : n < m ∨ ds ≠ es) :
    horner b n ds < horner b m es := by
  induction h generalizing n m with
  | nil => exact hne.resolve_right (not_not.mpr rfl)
  | @cons d e ds es hd hds ih =>
    have hmul : n * b ≤ m * b := Nat.mul_le_mul_right b hn
    refine ih (Nat.add_le_add hmul hd) ?_
    rcases hne with hlt | hne
    · have hlt' : n * b < m * b := Nat.mul_lt_mul_of_pos_right hlt hb
      have hstep : n * b + d < m * b + e := by omega
      exact .inl hstep
    · by_cases he : d = e
      · subst he
        exact .inr fun h ↦ hne (h ▸ rfl)
      · have hstep : n * b + d < m * b + e := by omega
        exact .inl hstep

theorem horner_numeral (b n : ℕ) : horner b 0 (numeral b n) = n := by
  unfold horner numeral
  split_ifs with h
  · subst h
    simp
  · rw [foldl_reverse]
    have hx := Nat.ofDigits_digits b n
    rw [Nat.ofDigits_eq_foldr] at hx
    simpa only [Nat.cast_id, Nat.mul_comm b, Nat.add_comm] using hx

theorem lt_of_mem_numeral (hb : 2 ≤ b) (h : d ∈ numeral b n) : d < b := by
  unfold numeral at h
  split_ifs at h
  · rw [mem_singleton.mp h]
    omega
  · exact Nat.digits_lt_base hb (mem_reverse.mp h)

theorem numeral_ne_nil (b n : ℕ) : numeral b n ≠ [] := by
  unfold numeral
  split_ifs with h
  · exact cons_ne_nil 0 []
  · simpa using Nat.digits_ne_nil_iff_ne_zero.mpr h

theorem head_numeral (h : 0 ∈ (numeral b n).head?) : n = 0 := by
  by_contra hn
  rw [numeral, if_neg hn, head?_reverse] at h
  have hne := Nat.digits_ne_nil_iff_ne_zero (b := b).mpr hn
  rw [getLast?_eq_some_getLast hne] at h
  exact Nat.getLast_digit_ne_zero b hn (Option.some.inj h)

theorem length_numeral_le (hb : 2 ≤ b) (hk : 0 < k) (h : n < b ^ k) : (numeral b n).length ≤ k := by
  unfold numeral
  split_ifs
  · exact hk
  · rw [length_reverse]
    exact (Nat.digits_length_le_iff hb n).mpr h

/-- The digits of `n` at `k` places, the most significant one first. -/
def places (b k n : ℕ) : List ℕ := (range k).map fun i ↦ n / b ^ (k - 1 - i) % b

theorem replicate_digits (hb : 2 ≤ b) (h : n < b ^ k) :
    replicate (k - (Nat.digits b n).length) 0 ++ (Nat.digits b n).reverse = places b k n := by
  have hlen := (Nat.digits_length_le_iff hb n).mpr h
  refine ext_getElem ?_ fun i hi hi' ↦ ?_
  · rw [length_append, length_replicate, length_reverse, places, length_map, length_range]
    omega
  · have hplace : (places b k n)[i] = (Nat.digits b n).getD (k - 1 - i) 0 := by
      rw [Nat.getD_digits n _ hb]
      simp [places]
    rw [length_append, length_replicate, length_reverse] at hi
    rw [hplace, getElem_append]
    split
    · next hlt =>
      rw [length_replicate] at hlt
      rw [getElem_replicate, getD_eq_getElem?_getD, getElem?_eq_none (by omega), Option.getD_none]
    · next hge =>
      rw [length_replicate] at hge
      rw [getElem_reverse, getD_eq_getElem?_getD, getElem?_eq_getElem (by omega), Option.getD_some]
      congr 1
      rw [length_replicate]
      omega

/-- With zeros in front, the digits of a number take as many places as it needs
at most. -/
theorem replicate_numeral (hb : 2 ≤ b) (hk : 0 < k) (h : n < b ^ k) :
    replicate (k - (numeral b n).length) 0 ++ numeral b n = places b k n := by
  rw [← replicate_digits hb h, numeral]
  split_ifs with hn
  · subst hn
    rw [Nat.digits_zero, length_nil, Nat.sub_zero, reverse_nil, append_nil, length_singleton, ← replicate_succ',
      Nat.sub_add_cancel hk]
  · rw [length_reverse]

end OcamlRpi.Support
