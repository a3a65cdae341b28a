import OcamlRpi.Stdlib.Numeral

namespace OcamlRpi.Stdlib

open List
open Printf (byte)

variable {b : ℕ} {c : UInt8} {s ws sgn ds rest : List UInt8} {neg : Bool}

theorem out_zero (sign : ℤ) : out sign ⟨0, none, 0⟩ = ⟨0, 0, some .EINVAL⟩ := by
  have hmin : (0 : ℤ) ≠ LONG_MIN := by decide
  simp [out, hmin]

theorem scanDigits_stop (h : b ≤ digit (byte s 0)) (x : Scan) : scanDigits b s x = x := by
  cases s with
  | nil => rfl
  | cons c s =>
    have hc : ¬(digit c : ℤ) < b := by
      have hx : b ≤ digit c := h
      omega
    rw [scanDigits, if_neg hc]

/-- Where no digit follows the signs, the digits are looked for at the start of
the string once more. -/
theorem strtol_empty (hb : 2 ≤ b) (hb' : b ≤ 10) (h₀ : b ≤ digit (byte s 0))
    (hq : b ≤ digit (byte s (parseSign s (skipSpace s 0)).1)) :
    strtol (some s) b = ⟨0, 0, some .EINVAL⟩ := by
  have hbase : ¬((b : ℤ) = 1 ∨ (b : ℤ) < 0 ∨ 36 < (b : ℤ)) := by omega
  have hb₁₆ : (b : ℤ) ≠ 16 := by omega
  have hbn : b ≠ 0 := by omega
  have hdet : ∀ q, detectBase s q b = ((b : ℤ), 0) := by
    intro q
    simp [detectBase, hbn, hb₁₆]
  have hpre : ∀ q, b ≤ digit (byte s q) → skipPrefix s q b 0 = 0 := by
    intro q hq
    have hge : ¬(digit (byte s q) : ℤ) < b := by omega
    rw [skipPrefix, if_neg hb₁₆, if_neg hge]
  simp only [strtol, if_neg hbase, hdet, hpre _ hq, drop_zero, scanDigits_stop h₀, out_zero, ite_self]

theorem SignText.digit (h : SignText sgn neg) (hc : c ∈ sgn) : digit c = 256 ∧ isspace c = false := by
  cases h with
  | none => exact absurd hc not_mem_nil
  | plus =>
    obtain rfl := mem_singleton.mp hc
    decide
  | minus =>
    obtain rfl := mem_singleton.mp hc
    decide

theorem byte_zero (P : UInt8 → Prop) (h : ∀ c ∈ s.head?, P c) (h₀ : P 0) : P (byte s 0) := by
  cases s with
  | nil => exact h₀
  | cons c s => exact h c rfl

/-- What holds of the first byte of a string without digits holds of the first
byte behind its sign, if it does not depend on the sign. -/
theorem SignText.head_append {P : UInt8 → Prop} (h : SignText sgn neg) (hs : ∀ c ∈ sgn, P c)
    (hr : sgn = [] → ∀ c ∈ rest.head?, P c) : ∀ c ∈ (sgn ++ rest).head?, P c := by
  intro c hc
  cases h with
  | none => exact hr rfl c hc
  | plus => exact hs c (mem_of_mem_head? hc)
  | minus => exact hs c (mem_of_mem_head? hc)

/-- `strtol` returns the number that the digits of a base up to 10 stand for,
or the end of the range that it is beyond. -/
theorem strtol_range (hb : 2 ≤ b) (hb' : b ≤ 10) (hw : ∀ c ∈ ws, isspace c) (hs : SignText sgn neg)
    (hd : ∀ c ∈ ds, digit c < b)
    (hr : ∀ c ∈ rest.head?, b ≤ digit c ∧ c ≠ '+'.toUInt8 ∧ c ≠ '-'.toUInt8)
    (hall : sgn = [] → ds = [] → ∀ c ∈ rest.head?, isspace c = false) :
    strtol (some (ws ++ (sgn ++ (ds ++ rest)))) b =
      if ds = [] then ⟨0, 0, some .EINVAL⟩
      else clamp (if neg then -(value b 0 ds : ℤ) else value b 0 ds)
        (ws.length + sgn.length + ds.length) := by
  by_cases hne : ds = []
  · subst hne
    rw [if_pos rfl, nil_append]
    have h₂₅₆ : b ≤ 256 := by omega
    have hplus := byte_zero (· ≠ '+'.toUInt8) (fun c hc ↦ (hr c hc).2.1) (by decide)
    have hminus := byte_zero (· ≠ '-'.toUInt8) (fun c hc ↦ (hr c hc).2.2) (by decide)
    have hrest := byte_zero (fun c ↦ b ≤ digit c) (fun c hc ↦ (hr c hc).1) (digit_zero ▸ h₂₅₆)
    have hspace := hs.head_append (fun c hc ↦ (hs.digit hc).2) fun h ↦ hall h rfl
    have hskip : skipSpace (ws ++ (sgn ++ rest)) 0 = ws.length := by
      rw [skipSpace_eq hw hspace, Nat.zero_add]
    have hsign := hs.head_append (P := fun c ↦ b ≤ digit c)
      (fun c hc ↦ (hs.digit hc).1 ▸ h₂₅₆) fun _ c hc ↦ (hr c hc).1
    have hfirst : ∀ c ∈ (ws ++ (sgn ++ rest)).head?, b ≤ digit c := by
      intro c hc
      cases ws with
      | nil => exact hsign c hc
      | cons d ws =>
        obtain rfl : d = c := Option.some.inj hc
        rw [digit_isspace (hw d mem_cons_self)]
        exact h₂₅₆
    refine strtol_empty hb hb' (byte_zero (fun c ↦ b ≤ digit c) hfirst (digit_zero ▸ h₂₅₆)) ?_
    have hend := byte_append_right (ws ++ sgn) rest 0
    rw [append_assoc, length_append, Nat.add_zero] at hend
    rw [hskip, hs.parse (fun _ ↦ hplus) (fun _ ↦ hminus), hend]
    exact hrest
  · rw [if_neg hne]
    exact strtol_clamp hb hb' hw hs hne hd fun c hc ↦ (hr c hc).1

/-- A blank, a minus, eleven nines and a dot. -/
theorem strtol_range_small :
    strtol (some ([32] ++ ([45] ++ (replicate 11 57 ++ [46])))) (10 : ℕ) =
      ⟨LONG_MIN, 13, some .ERANGE⟩ := by
  have hds : ∀ c ∈ replicate 11 57, digit c < 10 := by
    intro c hc
    rw [eq_of_mem_replicate hc]
    decide
  have hr : ∀ c ∈ [46].head?, 10 ≤ digit c ∧ c ≠ '+'.toUInt8 ∧ c ≠ '-'.toUInt8 := by
    intro c hc
    obtain rfl : 46 = c := Option.some.inj hc
    decide
  exact strtol_range (b := 10) (by decide) (by decide) (forall_mem_singleton.mpr (by decide)) .minus hds hr
    fun h ↦ absurd h (by decide)

end OcamlRpi.Stdlib
