import Mathlib.Data.List.TakeWhile
import Mathlib.Order.Bounds.Basic
import OcamlRpi.Stdlib.Letters

namespace OcamlRpi.Stdlib

open List
open Printf (byte byte_drop)

def isLetter (c : UInt8) : Bool :=
  'A'.toUInt8 ≤ c ∧ c ≤ 'Z'.toUInt8 ∨ 'a'.toUInt8 ≤ c ∧ c ≤ 'z'.toUInt8

def IsDigit (b : ℕ) (c : UInt8) : Prop := ∃ d ∈ digitValue c, d < b

/-- The base of the digits `ds`, where no prefix tells it. -/
def plainBase (base : ℕ) (ds : List UInt8) : ℕ :=
  if base ≠ 0 then base else if byte ds 0 = '0'.toUInt8 then 8 else 10

/-- A number without sign, as the C standard describes it. -/
inductive Unsigned (base : ℕ) : List UInt8 → Prop
  | digits {ds : List UInt8} (hne : ds ≠ []) (hd : ∀ c ∈ ds, IsDigit (plainBase base ds) c) :
      Unsigned base ds
  | hex {x : UInt8} {ds : List UInt8} (hb : base = 0 ∨ base = 16) (hx : x = 'x'.toUInt8 ∨ x = 'X'.toUInt8)
      (hne : ds ≠ []) (hd : ∀ c ∈ ds, IsDigit 16 c) : Unsigned base ('0'.toUInt8 :: x :: ds)

def Number (base : ℕ) (s : List UInt8) : Prop :=
  ∃ ws sgn neg u, s = ws ++ (sgn ++ u) ∧ (∀ c ∈ ws, isspace c) ∧ SignText sgn neg ∧ Unsigned base u

/-- The longest number that `s` starts with ends at `k`; without one, `k` is 0. -/
def EndsNumber (base : ℕ) (s : List UInt8) (k : ℕ) : Prop :=
  IsGreatest {n | n = 0 ∨ ∃ t, t <+: s ∧ Number base t ∧ t.length = n} k

/-- A plus and a minus stand in front of the digits. -/
def DoubleSign (base : ℕ) (s : List UInt8) : Prop :=
  ∃ ws c u, s = ws ++ ('+'.toUInt8 :: '-'.toUInt8 :: c :: u) ∧ (∀ c ∈ ws, isspace c) ∧
    IsDigit (plainBase base (c :: u)) c

/-- Only the prefix `0X` tells the base. -/
def UpperPrefix (base : ℕ) (s : List UInt8) : Prop :=
  base = 0 ∧ ∃ ws sgn neg c u, s = ws ++ (sgn ++ '0'.toUInt8 :: 'X'.toUInt8 :: c :: u) ∧
    (∀ c ∈ ws, isspace c) ∧ SignText sgn neg ∧ IsDigit 16 c

/-- A prefix with one of the letters `xs`, and a digit behind it. -/
def HexPrefix (xs u : List UInt8) : Prop :=
  byte u 0 = '0'.toUInt8 ∧ byte u 1 ∈ xs ∧ digit (byte u 2) < 16

instance (xs u : List UInt8) : Decidable (HexPrefix xs u) := by
  unfold HexPrefix
  infer_instance

/-- How long the number is that `u` starts with, with a prefix from `xs`. -/
def unsignedEnd (xs : List UInt8) (base : ℕ) (u : List UInt8) : ℕ :=
  if (base = 0 ∨ base = 16) ∧ HexPrefix xs u then digitsEnd 16 u 2
  else digitsEnd (plainBase base u) u 0

/-- The letters of the prefixes that `strtol` knows. -/
def prefixes (base : ℕ) : List UInt8 :=
  if base = 0 then ['x'.toUInt8] else ['x'.toUInt8, 'X'.toUInt8]

/-- The bases that C defines without letters as digits, and 16. -/
def Plain (base : ℕ) : Prop := base = 0 ∨ 2 ≤ base ∧ base ≤ 10 ∨ base = 16

/-- No letter but those of a prefix. -/
def NoLetters (s : List UInt8) : Prop := ∀ c ∈ s, isLetter c → c = 'x'.toUInt8 ∨ c = 'X'.toUInt8

variable {b base p q k : ℕ} {c : UInt8} {s t u ws sgn ds xs : List UInt8} {neg : Bool} {sign : ℤ}

theorem digitsEnd_drop (b : ℕ) (s : List UInt8) (q i : ℕ) :
    digitsEnd b s (q + i) = q + digitsEnd b (s.drop q) i := by
  rw [digitsEnd, digitsEnd, drop_drop, Nat.add_assoc]

theorem detectBase_zero (s : List UInt8) (q : ℕ) :
    detectBase s q 0 =
      if HexPrefix ['x'.toUInt8] (s.drop q) then (16, q + 2)
      else if byte s q = '0'.toUInt8 then (8, q + 1) else (10, 0) := by
  simp only [HexPrefix, byte_drop, Nat.add_zero, mem_singleton]
  by_cases h : byte s q = '0'.toUInt8 ∧ byte s (q + 1) = 'x'.toUInt8 ∧ digit (byte s (q + 2)) < 16
  · simp only [detectBase, true_or, true_and, if_pos h]
    rfl
  · by_cases h₀ : byte s q = '0'.toUInt8
    · simp only [detectBase, true_or, true_and, if_neg h, if_pos h₀]
      rfl
    · simp only [detectBase, true_or, true_and, if_neg h, if_neg h₀, if_true]

theorem scan_end {base : ℤ} (hd : (detectBase s q base).1 = b) (ha : digitsAt s q base = q + p) :
    (scanDigits (detectBase s q base).1 (s.drop (digitsAt s q base)) ⟨0, none, digitsAt s q base⟩).ptr =
      q + digitsEnd b (s.drop q) p := by
  rw [hd, ha, scanDigits_ptr, digitsEnd_drop]

theorem hexPrefix_drop :
    HexPrefix xs (s.drop q) ↔ byte s q = '0'.toUInt8 ∧ byte s (q + 1) ∈ xs ∧ digit (byte s (q + 2)) < 16 := by
  simp only [HexPrefix, byte_drop, Nat.add_zero]

theorem skipPrefix_hex (h : HexPrefix xs (s.drop q)) (hxs : xs ⊆ ['x'.toUInt8, 'X'.toUInt8]) (ptr : ℕ) :
    skipPrefix s q 16 ptr = q + 2 := by
  obtain ⟨h₀, hx, hd⟩ := hexPrefix_drop.mp h
  have hx' : byte s (q + 1) = 'x'.toUInt8 ∨ byte s (q + 1) = 'X'.toUInt8 := by simpa using hxs hx
  rw [skipPrefix, if_pos rfl, if_pos h₀, if_pos ⟨hx', hd⟩]

theorem skipPrefix_digit {base : ℤ} (h₁₆ : base ≠ 16) (h : digit (byte s q) < base) (ptr : ℕ) :
    skipPrefix s q base ptr = q := by
  rw [skipPrefix, if_neg h₁₆, if_pos h]

/-- If the first character behind the signs is a digit, `strtol` stops behind
the longest number with a prefix that it knows. -/
theorem scan_unsigned (hb : Plain base) (hq : digit (byte s q) < plainBase base (s.drop q)) :
    (scanDigits (detectBase s q base).1 (s.drop (digitsAt s q base)) ⟨0, none, digitsAt s q base⟩).ptr =
      q + unsignedEnd (prefixes base) base (s.drop q) := by
  have hbyte : byte (s.drop q) 0 = byte s q := byte_drop s q 0
  unfold plainBase at hq
  unfold unsignedEnd plainBase prefixes
  rw [hbyte] at hq ⊢
  rcases hb with rfl | ⟨h₂, h₁₀⟩ | rfl
  · have hdet : detectBase s q (0 : ℕ) = _ := detectBase_zero s q
    simp only [ne_eq, not_true_eq_false, if_false, true_or, true_and, if_true] at hq ⊢
    by_cases hx : HexPrefix ['x'.toUInt8] (s.drop q)
    · rw [if_pos hx] at hdet ⊢
      refine scan_end (by rw [hdet]; rfl) ?_
      rw [digitsAt, hdet]
      exact skipPrefix_hex hx (by decide) _
    · rw [if_neg hx] at hdet ⊢
      by_cases h₀ : byte s q = '0'.toUInt8
      · rw [if_pos h₀] at hdet hq ⊢
        refine scan_end (by rw [hdet]; rfl) ?_
        rw [digitsAt, hdet]
        exact skipPrefix_digit (by decide) (Int.ofNat_lt.mpr hq) _
      · rw [if_neg h₀] at hdet hq ⊢
        refine scan_end (by rw [hdet]; rfl) ?_
        rw [digitsAt, hdet]
        exact skipPrefix_digit (by decide) (Int.ofNat_lt.mpr hq) _
  · have hne : base ≠ 0 := by omega
    have h₁₆ : ¬((base = 0 ∨ base = 16) ∧ HexPrefix (if base = 0 then ['x'.toUInt8]
        else ['x'.toUInt8, 'X'.toUInt8]) (s.drop q)) := by
      intro h
      omega
    rw [if_pos hne] at hq ⊢
    rw [if_neg h₁₆]
    refine scan_end (by rw [detectBase_eq (by omega)]) ?_
    rw [digitsAt_eq (by omega) (by omega), if_pos (by omega)]
    rfl
  · simp only [ne_eq, Nat.reduceEqDiff, not_false_eq_true, if_true, if_false, false_or, true_and] at hq ⊢
    by_cases hx : HexPrefix ['x'.toUInt8, 'X'.toUInt8] (s.drop q)
    · rw [if_pos hx]
      refine scan_end (by rw [detectBase_eq (by decide)]) ?_
      rw [digitsAt, detectBase_eq (by decide)]
      exact skipPrefix_hex hx (Subset.refl _) _
    · rw [if_neg hx]
      refine scan_end (by rw [detectBase_eq (by decide)]) ?_
      have hx' := mt hexPrefix_drop.mpr hx
      rw [Nat.cast_ofNat, digitsAt_sixteen]
      split_ifs with h₀ h
      · exact absurd ⟨h₀, by simpa using h.1, h.2⟩ hx'
      · rfl
      · rfl
      · omega

theorem byte_all (P : UInt8 → Prop) (h : ∀ c ∈ s, P c) (h₀ : P 0) (i : ℕ) : P (byte s i) := by
  rcases Nat.lt_or_ge i s.length with hi | hi
  · have hb : byte s i = s[i] := by simp [byte, hi]
    rw [hb]
    exact h _ (getElem_mem hi)
  · have hb : byte s i = 0 := by simp [byte, hi]
    rw [hb]
    exact h₀

theorem digit_plain (hc : isLetter c → c = 'x'.toUInt8 ∨ c = 'X'.toUInt8) : digit c < 10 ∨ 36 ≤ digit c := by
  by_cases h : isLetter c
  · rcases hc h with rfl | rfl <;> decide
  · simp only [isLetter, decide_eq_true_eq, not_or] at h
    by_cases h₀ : '0'.toUInt8 ≤ c ∧ c ≤ '9'.toUInt8
    · have hlast : c.toNat ≤ 57 := UInt8.le_iff_toNat_le.mp h₀.2
      have hsub : (c - '0'.toUInt8).toNat = c.toNat - 48 := UInt8.toNat_sub_of_le _ _ h₀.1
      rw [digit, if_pos h₀]
      omega
    · rw [digit, if_neg h₀, if_neg h.1, if_neg h.2]
      exact .inr (by decide)

theorem NoLetters.digit (hs : NoLetters s) (i : ℕ) : digit (byte s i) < 10 ∨ 36 ≤ digit (byte s i) :=
  byte_all (fun c ↦ Stdlib.digit c < 10 ∨ 36 ≤ Stdlib.digit c) (fun c hc ↦ digit_plain (hs c hc))
    (.inr (by decide)) i

theorem plainBase_pos (hb : Plain base) (u : List UInt8) : 2 ≤ plainBase base u ∧ plainBase base u ≤ 16 := by
  unfold plainBase
  rcases hb with rfl | h | rfl <;> split_ifs <;> omega

/-- Without a digit behind the signs `strtol` looks for one at the start. -/
theorem scan_nothing (hb : Plain base) (hs : NoLetters s) (hq : plainBase base (s.drop q) ≤ digit (byte s q))
    (h₀ : q = 0 ∨ digit (byte s 0) = 256) :
    (scanDigits (detectBase s q base).1 (s.drop (digitsAt s q base)) ⟨0, none, digitsAt s q base⟩).ptr =
      0 := by
  have hpos := plainBase_pos hb (s.drop q)
  have hzero : byte s q ≠ '0'.toUInt8 := by
    intro h
    have hz : digit '0'.toUInt8 = 0 := by decide
    rw [h, hz] at hq
    omega
  have hfirst : plainBase base (s.drop q) ≤ digit (byte s 0) := by
    rcases h₀ with rfl | h
    · exact hq
    · omega
  have hstops : ∀ b : ℕ, plainBase base (s.drop q) = b → (detectBase s q base).1 = b →
      digitsAt s q base = 0 →
      (scanDigits (detectBase s q base).1 (s.drop (digitsAt s q base))
        ⟨0, none, digitsAt s q base⟩).ptr = 0 := by
    intro b hb hd ha
    have hstop : b ≤ digit (byte s 0) := hb ▸ hfirst
    rw [hd, ha, drop_zero, scanDigits_stop hstop]
  have hplain := byte_drop s q 0
  rw [Nat.add_zero] at hplain
  rcases hb with rfl | ⟨h₂, h₁₀⟩ | rfl
  · have hno : ¬HexPrefix ['x'.toUInt8] (s.drop q) := fun h ↦ hzero (hexPrefix_drop.mp h).1
    have hdet : detectBase s q (0 : ℕ) = (10, 0) := by
      rw [Nat.cast_zero, detectBase_zero, if_neg hno, if_neg hzero]
    have hbase : plainBase 0 (s.drop q) = 10 := by
      rw [plainBase, if_neg (by decide), hplain, if_neg hzero]
    refine hstops 10 hbase (by rw [hdet]; rfl) ?_
    rw [digitsAt, hdet, skipPrefix, if_neg (by decide), if_neg (by omega)]
  · have hbase : plainBase base (s.drop q) = base := if_pos (by omega)
    refine hstops base hbase (by rw [detectBase_eq (by omega)]) ?_
    rw [digitsAt_eq (by omega) (by omega), if_neg (by omega)]
  · have hbase : plainBase 16 (s.drop q) = 16 := if_pos (by decide)
    have hdig := hs.digit q
    refine hstops 16 hbase (by rw [detectBase_eq (by decide)]) ?_
    rw [Nat.cast_ofNat, digitsAt_sixteen, if_neg hzero, if_neg (by omega)]

theorem strtol_end (hb : Plain base) (hs : NoLetters s) (hp : skipSpace s 0 = p) (hq : (parseSign s p).1 = q)
    (h₀ : q = 0 ∨ digit (byte s 0) = 256) :
    (strtol (some s) base).endptr =
      if digit (byte s q) < plainBase base (s.drop q) then q + unsignedEnd (prefixes base) base (s.drop q)
      else 0 := by
  have hbase : ¬((base : ℤ) = 1 ∨ (base : ℤ) < 0 ∨ 36 < (base : ℤ)) := by
    unfold Plain at hb
    omega
  have hpos := plainBase_pos hb (s.drop q)
  by_cases hz : byte s p = 0
  · have hplus : (0 : UInt8) ≠ '+'.toUInt8 := by decide
    have hminus : (0 : UInt8) ≠ '-'.toUInt8 := by decide
    have hqp : q = p := by
      simp only [← hq, parseSign, if_neg hplus, if_neg hminus, hz]
    have hge : ¬digit (byte s q) < plainBase base (s.drop q) := by
      rw [hqp, hz, digit_zero, ← hqp]
      omega
    rw [if_neg hge]
    simp only [strtol, if_neg hbase, hp, hz, if_true, out_endptr]
  · by_cases hzq : byte s q = 0
    · have hge : ¬digit (byte s q) < plainBase base (s.drop q) := by
        rw [hzq, digit_zero]
        omega
      rw [if_neg hge]
      simp only [strtol, if_neg hbase, hp, if_neg hz, hq, hzq, if_true, out_endptr]
    · have hsign : parseSign s (skipSpace s 0) = (q, (parseSign s p).2) := by
        rw [hp, ← hq]
      rw [strtol_scan hbase (hp ▸ hz) hsign hzq, out_endptr]
      split_ifs with hlt
      · exact scan_unsigned hb hlt
      · exact scan_nothing hb hs (Nat.not_lt.mp hlt) h₀

theorem isDigit_iff (hc : isLetter c → c = 'x'.toUInt8 ∨ c = 'X'.toUInt8) (hb : b ≤ 16) :
    IsDigit b c ↔ digit c < b := by
  have hplain := digit_plain hc
  constructor
  · intro h
    obtain ⟨d, hd, hlt⟩ := h
    have hm := digit_misread hd
    unfold misread at hm
    split_ifs at hm <;> omega
  · intro h
    have h₀ : '0'.toUInt8 ≤ c ∧ c ≤ '9'.toUInt8 := by
      by_contra h₀
      rw [digit, if_neg h₀] at h hplain
      split_ifs at h hplain <;> omega
    refine ⟨digit c, ?_, h⟩
    rw [digitValue, if_pos h₀, digit, if_pos h₀]
    rfl

theorem hexPrefix_iff (h₀ : 0 ∉ xs) :
    HexPrefix xs u ↔ ∃ x c r, u = '0'.toUInt8 :: x :: c :: r ∧ x ∈ xs ∧ digit c < 16 := by
  constructor
  · intro h
    obtain ⟨hz, hx, hd⟩ := h
    rcases u with - | ⟨z, - | ⟨x, - | ⟨c, r⟩⟩⟩
    · exact absurd hz (by decide)
    · exact absurd hx h₀
    · have hzero : byte [z, x] 2 = 0 := rfl
      rw [hzero] at hd
      exact absurd hd (by decide)
    · obtain rfl : z = '0'.toUInt8 := hz
      exact ⟨x, c, r, rfl, hx, hd⟩
  · intro h
    obtain ⟨x, c, r, rfl, hx, hd⟩ := h
    exact ⟨rfl, hx, hd⟩

theorem length_le_digitsEnd (hd : ∀ c ∈ ds, digit c < b) (pre u : List UInt8) :
    pre.length + ds.length ≤ digitsEnd b (pre ++ (ds ++ u)) pre.length := by
  rw [digitsEnd, drop_left, takeWhile_append_of_pos (by simpa using hd), length_append]
  omega

theorem plainBase_start (hne : t ≠ []) (h : t <+: u) : plainBase base u = plainBase base t := by
  obtain ⟨r, rfl⟩ := h
  obtain ⟨c, l, rfl⟩ := exists_cons_of_ne_nil hne
  rfl

theorem NoLetters.digits (hu : NoLetters u) (h : ds ⊆ u) (hb : b ≤ 16) :
    (∀ c ∈ ds, IsDigit b c) ↔ ∀ c ∈ ds, Stdlib.digit c < b :=
  forall₂_congr fun c hc ↦ isDigit_iff (hu c (h hc)) hb

theorem unsigned_length_le (hb : Plain base) (hu : NoLetters u) (ht : t <+: u) (h : Unsigned base t) :
    t.length ≤ unsignedEnd ['x'.toUInt8, 'X'.toUInt8] base u := by
  have hpos := plainBase_pos hb u
  unfold unsignedEnd
  obtain ⟨r, rfl⟩ := ht
  cases h with
  | digits hne hd =>
    rw [plainBase_start hne (prefix_append t r)] at hpos ⊢
    have hdig := (hu.digits (subset_append_left t r) hpos.2).mp hd
    split_ifs with hx
    · have hle := (digitsEnd_spec (b := 16) (by decide) (t ++ r) 2).1
      have hshort : t.length ≤ 1 := by
        obtain ⟨x, c, r', he, hx', -⟩ := (hexPrefix_iff (by decide)).mp hx.2
        rcases t with - | ⟨z, - | ⟨y, t⟩⟩
        · exact absurd rfl hne
        · exact le_rfl
        · obtain rfl : y = x := (cons.inj (cons.inj he).2).1
          have hy := hdig y (by simp)
          have h₃₉ : Stdlib.digit y = 39 := by
            rcases mem_cons.mp hx' with rfl | hx'
            · decide
            · obtain rfl := mem_singleton.mp hx'
              decide
          omega
      omega
    · have hle := length_le_digitsEnd hdig [] r
      rw [nil_append, length_nil, Nat.zero_add] at hle
      exact hle
  | @hex x ds hb' hx hne hd =>
    have hsub : ds ⊆ '0'.toUInt8 :: x :: ds ++ r := by
      intro c hc
      simp [hc]
    have hdig := (hu.digits hsub (by decide)).mp hd
    have hprefix : HexPrefix ['x'.toUInt8, 'X'.toUInt8] ('0'.toUInt8 :: x :: ds ++ r) := by
      obtain ⟨c, l, rfl⟩ := exists_cons_of_ne_nil hne
      have hmem : x ∈ ['x'.toUInt8, 'X'.toUInt8] := by simpa using hx
      exact ⟨rfl, hmem, hdig c mem_cons_self⟩
    rw [if_pos ⟨hb', hprefix⟩]
    have hle := length_le_digitsEnd hdig ['0'.toUInt8, x] r
    rw [length_cons, length_cons]
    exact (Nat.add_comm ds.length 2).trans_le hle

theorem unsignedEnd_isGreatest (hb : Plain base) (hu : NoLetters u) :
    IsGreatest {n | n = 0 ∨ ∃ t, t <+: u ∧ Unsigned base t ∧ t.length = n}
      (unsignedEnd ['x'.toUInt8, 'X'.toUInt8] base u) := by
  have hpos := plainBase_pos hb u
  constructor
  · unfold unsignedEnd
    have hrun : ∀ b (v : List UInt8), v ⊆ u → b ≤ 16 →
        ∀ c ∈ v.takeWhile fun c ↦ Stdlib.digit c < b, IsDigit b c := by
      intro b v hv hb c hc
      have hlt := mem_takeWhile_imp hc
      have hpre : (v.takeWhile fun c ↦ Stdlib.digit c < b) <+: v := takeWhile_prefix _
      exact (isDigit_iff (hu c (hv (hpre.subset hc))) hb).mpr (by simpa using hlt)
    split_ifs with h
    · obtain ⟨x, c, r, rfl, hx, hd⟩ := (hexPrefix_iff (by decide)).mp h.2
      refine .inr ⟨'0'.toUInt8 :: x :: (c :: r).takeWhile fun c ↦ Stdlib.digit c < 16, ?_, ?_, ?_⟩
      · rw [cons_prefix_cons, cons_prefix_cons]
        exact ⟨rfl, rfl, takeWhile_prefix _⟩
      · refine .hex h.1 (by simpa using hx) ?_ (hrun 16 _ (by simp) le_rfl)
        rw [takeWhile_cons_of_pos (by simpa using hd)]
        exact cons_ne_nil _ _
      · rw [length_cons, length_cons, Nat.add_assoc, Nat.add_comm]
        rfl
    · by_cases hz : (u.takeWhile fun c ↦ Stdlib.digit c < plainBase base u) = []
      · left
        rw [digitsEnd, drop_zero, hz]
        rfl
      · have hpre := takeWhile_prefix (l := u) fun c ↦ decide (Stdlib.digit c < plainBase base u)
        refine .inr ⟨_, hpre, .digits hz ?_, ?_⟩
        · rw [← plainBase_start hz hpre]
          exact hrun _ u (Subset.refl u) hpos.2
        · rw [digitsEnd, drop_zero, Nat.zero_add]
  · intro n hn
    rcases hn with rfl | ⟨t, ht, hun, rfl⟩
    · exact Nat.zero_le _
    · exact unsigned_length_le hb hu ht hun

theorem digitValue_none (h : isspace c ∨ c = '+'.toUInt8 ∨ c = '-'.toUInt8) : digitValue c = none := by
  rcases h with h | rfl | rfl
  · simp only [isspace, decide_eq_true_eq, mem_cons, not_mem_nil, or_false] at h
    rcases h with rfl | rfl | rfl | rfl | rfl | rfl <;> decide
  · decide
  · decide

theorem IsDigit.ne (h : IsDigit b c) : isspace c = false ∧ c ≠ '+'.toUInt8 ∧ c ≠ '-'.toUInt8 := by
  obtain ⟨d, hd, -⟩ := h
  have hno : ¬(isspace c ∨ c = '+'.toUInt8 ∨ c = '-'.toUInt8) := by
    intro hx
    rw [digitValue_none hx] at hd
    cases hd
  simpa using hno

theorem Unsigned.head (h : Unsigned base u) : ∃ c l b, u = c :: l ∧ IsDigit b c := by
  cases h with
  | digits hne hd =>
    obtain ⟨c, l, rfl⟩ := exists_cons_of_ne_nil hne
    exact ⟨c, l, _, rfl, hd c mem_cons_self⟩
  | @hex x ds => exact ⟨_, _, 10, rfl, 0, rfl, by decide⟩

theorem append_space_inj {ws' : List UInt8} (hw : ∀ c ∈ ws, isspace c) (hw' : ∀ c ∈ ws', isspace c)
    (ht : ∀ c ∈ t.head?, isspace c = false) (hu : ∀ c ∈ u.head?, isspace c = false)
    (h : ws ++ t = ws' ++ u) : ws = ws' ∧ t = u := by
  have hlen : ws.length = ws'.length := by
    have hl := skipSpace_eq (p := 0) hw ht
    rw [h, skipSpace_eq hw' hu] at hl
    omega
  exact append_inj h hlen

theorem SignText.append_inj {sgn' : List UInt8} {neg' : Bool} (h : SignText sgn neg) (h' : SignText sgn' neg')
    (hu : sgn = [] → ∀ c ∈ u.head?, c ≠ '+'.toUInt8 ∧ c ≠ '-'.toUInt8)
    (ht : ∀ c ∈ t.head?, c ≠ '+'.toUInt8 ∧ c ≠ '-'.toUInt8) (he : sgn ++ u = sgn' ++ t) :
    sgn = sgn' ∧ u = t := by
  cases h with
  | none =>
    cases h' with
    | none => exact ⟨rfl, he⟩
    | plus =>
      obtain rfl : u = '+'.toUInt8 :: t := he
      exact absurd rfl (hu rfl _ rfl).1
    | minus =>
      obtain rfl : u = '-'.toUInt8 :: t := he
      exact absurd rfl (hu rfl _ rfl).2
  | plus =>
    cases h' with
    | none =>
      obtain rfl : '+'.toUInt8 :: u = t := he
      exact absurd rfl (ht _ rfl).1
    | plus => exact ⟨rfl, (cons.inj he).2⟩
    | minus => exact absurd (cons.inj he).1 (by decide)
  | minus =>
    cases h' with
    | none =>
      obtain rfl : '-'.toUInt8 :: u = t := he
      exact absurd rfl (ht _ rfl).2
    | plus => exact absurd (cons.inj he).1 (by decide)
    | minus => exact ⟨rfl, (cons.inj he).2⟩

/-- `ws` are the blanks in front of a sign, and `sgn` is all of it that the
standard allows. -/
structure Front (ws sgn : List UInt8) (neg : Bool) (u : List UInt8) : Prop where
  space : ∀ c ∈ ws, isspace c
  sign : SignText sgn neg
  stop : ∀ c ∈ (sgn ++ u).head?, isspace c = false
  none : sgn = [] → ∀ c ∈ u.head?, c ≠ '+'.toUInt8 ∧ c ≠ '-'.toUInt8

theorem Front.unique {ws' sgn' : List UInt8} {neg' : Bool} (h : Front ws sgn neg u)
    (hw : ∀ c ∈ ws', isspace c) (hs : SignText sgn' neg') (hc : IsDigit b c)
    (he : ws' ++ (sgn' ++ c :: t) = ws ++ (sgn ++ u)) : ws' = ws ∧ sgn' = sgn ∧ c :: t = u := by
  obtain ⟨hsp, hsg⟩ := hc.ne
  have hhead : ∀ d ∈ (c :: t).head?, d = c := fun d hd ↦ (Option.some.inj hd).symm
  have hstop : ∀ d ∈ (sgn' ++ c :: t).head?, isspace d = false := by
    refine hs.head_append (fun d hd ↦ (hs.digit hd).2) fun _ d hd ↦ ?_
    rw [hhead d hd]
    exact hsp
  obtain ⟨hws, he⟩ := append_space_inj hw h.space hstop h.stop he
  obtain ⟨hsgn, hu⟩ := h.sign.append_inj hs h.none (fun d hd ↦ hhead d hd ▸ hsg) he.symm
  exact ⟨hws, hsgn.symm, hu.symm⟩

theorem Front.endsNumber (h : Front ws sgn neg u) (hb : Plain base) (hu : NoLetters u) :
    EndsNumber base (ws ++ (sgn ++ u))
      (if unsignedEnd ['x'.toUInt8, 'X'.toUInt8] base u = 0 then 0
        else ws.length + sgn.length + unsignedEnd ['x'.toUInt8, 'X'.toUInt8] base u) := by
  obtain ⟨hmem, hmax⟩ := unsignedEnd_isGreatest hb hu
  constructor
  · split_ifs with hz
    · exact .inl rfl
    · obtain ⟨t, ht, hun, hlen⟩ := hmem.resolve_left hz
      refine .inr ⟨ws ++ (sgn ++ t), ?_, ⟨ws, sgn, neg, t, rfl, h.space, h.sign, hun⟩, ?_⟩
      · exact (prefix_append_right_inj ws).mpr ((prefix_append_right_inj sgn).mpr ht)
      · rw [length_append, length_append, hlen, Nat.add_assoc]
  · intro n hn
    rcases hn with rfl | ⟨t, ⟨r, hr⟩, ⟨ws', sgn', neg', v, rfl, hw, hs, hun⟩, rfl⟩
    · exact Nat.zero_le _
    · obtain ⟨c, l, b, rfl, hc⟩ := hun.head
      rw [append_assoc, append_assoc] at hr
      obtain ⟨rfl, rfl, he⟩ := h.unique hw hs hc hr
      have hle := hmax (.inr ⟨c :: l, ⟨r, he⟩, hun, rfl⟩)
      have hpos : 0 < (c :: l).length := Nat.succ_pos _
      rw [if_neg (by omega)]
      simp only [length_append]
      omega

theorem digitsEnd_eq_zero (hb : b ≤ 256) : digitsEnd b u 0 = 0 ↔ ¬digit (byte u 0) < b := by
  obtain ⟨-, hrun, hstop⟩ := digitsEnd_spec hb u 0
  constructor
  · intro h
    rw [h] at hstop
    omega
  · intro h
    by_contra hne
    exact h (hrun 0 le_rfl (by omega))

theorem unsignedEnd_eq_zero (hb : Plain base) (xs u : List UInt8) :
    unsignedEnd xs base u = 0 ↔ ¬digit (byte u 0) < plainBase base u := by
  have hpos := plainBase_pos hb u
  unfold unsignedEnd
  split_ifs with h
  · have hle := (digitsEnd_spec (b := 16) (by decide) u 2).1
    have hz : digit '0'.toUInt8 = 0 := by decide
    rw [h.2.1, hz]
    omega
  · exact digitsEnd_eq_zero (by omega)

theorem hexPrefix_pair :
    HexPrefix ['x'.toUInt8, 'X'.toUInt8] u ↔ HexPrefix ['x'.toUInt8] u ∨ HexPrefix ['X'.toUInt8] u := by
  simp only [HexPrefix, mem_cons, not_mem_nil, or_false]
  tauto

/-- `strtol` knows the prefixes, but for `0X` when it detects the base. -/
theorem unsignedEnd_prefixes (u : List UInt8) :
    unsignedEnd (prefixes base) base u = unsignedEnd ['x'.toUInt8, 'X'.toUInt8] base u ↔
      ¬(base = 0 ∧ HexPrefix ['X'.toUInt8] u) := by
  unfold prefixes
  by_cases h₀ : base = 0
  · subst h₀
    have hpair := hexPrefix_pair (u := u)
    simp only [unsignedEnd, true_or, true_and, if_true]
    by_cases hX : HexPrefix ['X'.toUInt8] u
    · have hX' := hX
      obtain ⟨hz, h₁, -⟩ := hX'
      have hx : ¬HexPrefix ['x'.toUInt8] u := by
        intro h
        have he := (mem_singleton.mp h₁).symm.trans (mem_singleton.mp h.2.1)
        exact absurd he (by decide)
      have hbase : plainBase 0 u = 8 := if_pos hz
      have hstop : 8 ≤ digit (byte u 1) := by
        rw [mem_singleton.mp h₁]
        decide
      have hshort := digitsEnd_le (b := 8) (by decide) (Nat.zero_le 1) hstop
      have hle := (digitsEnd_spec (b := 16) (by decide) u 2).1
      rw [if_neg hx, if_pos (hpair.mpr (.inr hX)), hbase]
      exact iff_of_false (by omega) (not_not.mpr hX)
    · have hsame : HexPrefix ['x'.toUInt8, 'X'.toUInt8] u ↔ HexPrefix ['x'.toUInt8] u := by
        rw [hpair, or_iff_left hX]
      rw [if_congr hsame rfl rfl]
      exact iff_of_true rfl hX
  · simp only [h₀, false_and, not_false_eq_true, if_false]

theorem exists_front (s : List UInt8) :
    (∃ ws u, s = ws ++ ('+'.toUInt8 :: '-'.toUInt8 :: u) ∧ ∀ c ∈ ws, isspace c) ∨
      ∃ ws sgn neg u, s = ws ++ (sgn ++ u) ∧ Front ws sgn neg u ∧
        (neg = false → ∀ c ∈ u.head?, c ≠ '-'.toUInt8) := by
  have hw : ∀ c ∈ s.takeWhile isspace, isspace c := fun c hc ↦ mem_takeWhile_imp hc
  have ht : ∀ c ∈ (s.dropWhile isspace).head?, isspace c = false := by
    intro c hc
    have hnot := head?_dropWhile_not isspace s
    rwa [Option.mem_def.mp hc] at hnot
  have hs : s = s.takeWhile isspace ++ s.dropWhile isspace := (takeWhile_append_dropWhile).symm
  generalize s.takeWhile isspace = ws at hw hs
  generalize s.dropWhile isspace = t at ht hs
  subst hs
  have hnil : ∀ d ∈ ([] : List UInt8).head?, d ≠ '+'.toUInt8 ∧ d ≠ '-'.toUInt8 := fun d hd ↦ by cases hd
  cases t with
  | nil => exact .inr ⟨ws, [], false, [], rfl, ⟨hw, .none, ht, fun _ ↦ hnil⟩, fun _ d hd ↦ (hnil d hd).2⟩
  | cons c u =>
    by_cases hm : c = '-'.toUInt8
    · subst hm
      exact .inr ⟨ws, ['-'.toUInt8], true, u, rfl, ⟨hw, .minus, ht, fun h ↦ by cases h⟩, fun h ↦ by cases h⟩
    have hone : ∀ d ∈ (c :: u).head?, d = c := fun d hd ↦ (Option.some.inj hd).symm
    by_cases hp : c = '+'.toUInt8
    · subst hp
      by_cases hu : ∀ d ∈ u.head?, d ≠ '-'.toUInt8
      · exact .inr ⟨ws, ['+'.toUInt8], false, u, rfl, ⟨hw, .plus, ht, fun h ↦ by cases h⟩, fun _ ↦ hu⟩
      · cases u with
        | nil => exact absurd (fun d hd ↦ (hnil d hd).2) hu
        | cons d v =>
          have hd : d = '-'.toUInt8 := by simpa using hu
          subst hd
          exact .inl ⟨ws, v, rfl, hw⟩
    · refine .inr ⟨ws, [], false, c :: u, rfl, ⟨hw, .none, ht, fun _ d hd ↦ ?_⟩, fun _ d hd ↦ ?_⟩
      · rw [hone d hd]
        exact ⟨hp, hm⟩
      · rw [hone d hd]
        exact hm

theorem first_digit (hw : ∀ c ∈ ws, isspace c) (hs : ∀ c ∈ sgn, digit c = 256) (u : List UInt8) :
    ws.length + sgn.length = 0 ∨ digit (byte (ws ++ (sgn ++ u)) 0) = 256 := by
  cases ws with
  | cons c ws => exact .inr (digit_isspace (hw c mem_cons_self))
  | nil =>
    cases sgn with
    | cons c sgn => exact .inr (hs c mem_cons_self)
    | nil => exact .inl rfl

theorem NoLetters.right (ds : List UInt8) (h : NoLetters (ds ++ u)) : NoLetters u :=
  fun c hc ↦ h c (mem_append_right ds hc)

theorem doubleSign_end (hb : Plain base) (hw : ∀ c ∈ ws, isspace c)
    (hs : NoLetters (ws ++ ('+'.toUInt8 :: '-'.toUInt8 :: u))) :
    (strtol (some (ws ++ ('+'.toUInt8 :: '-'.toUInt8 :: u))) base).endptr =
      if digit (byte u 0) < plainBase base u then ws.length + 2 + unsignedEnd (prefixes base) base u
      else 0 := by
  have hbyte : ∀ i, byte (ws ++ ('+'.toUInt8 :: '-'.toUInt8 :: u)) (ws.length + i) =
      byte ('+'.toUInt8 :: '-'.toUInt8 :: u) i := byte_append_right ws _
  have hskip : skipSpace (ws ++ ('+'.toUInt8 :: '-'.toUInt8 :: u)) 0 = ws.length := by
    rw [skipSpace_eq hw, Nat.zero_add]
    intro c hc
    obtain rfl : '+'.toUInt8 = c := Option.some.inj hc
    decide
  have hsign : (parseSign (ws ++ ('+'.toUInt8 :: '-'.toUInt8 :: u)) ws.length).1 = ws.length + 2 := by
    have h₀ : byte (ws ++ ('+'.toUInt8 :: '-'.toUInt8 :: u)) ws.length = '+'.toUInt8 := hbyte 0
    have h₁ : byte (ws ++ ('+'.toUInt8 :: '-'.toUInt8 :: u)) (ws.length + 1) = '-'.toUInt8 := hbyte 1
    rw [parseSign, if_pos h₀, if_pos h₁]
  have hdrop : (ws ++ ('+'.toUInt8 :: '-'.toUInt8 :: u)).drop (ws.length + 2) = u := by
    rw [← drop_drop, drop_left]
    rfl
  have h₂₅₆ : ∀ c ∈ ['+'.toUInt8, '-'.toUInt8], digit c = 256 := by
    intro c hc
    rcases mem_cons.mp hc with rfl | hc
    · decide
    · obtain rfl := mem_singleton.mp hc
      decide
  have hfirst : ws.length + 2 = 0 ∨ digit (byte (ws ++ ('+'.toUInt8 :: '-'.toUInt8 :: u)) 0) = 256 :=
    first_digit hw h₂₅₆ u
  have hx := strtol_end hb hs hskip hsign hfirst
  rwa [hdrop, hbyte 2] at hx

theorem Front.end (hf : Front ws sgn neg u) (hneg : neg = false → ∀ c ∈ u.head?, c ≠ '-'.toUInt8)
    (hb : Plain base) (hs : NoLetters (ws ++ (sgn ++ u))) :
    (strtol (some (ws ++ (sgn ++ u))) base).endptr =
      if digit (byte u 0) < plainBase base u
      then ws.length + sgn.length + unsignedEnd (prefixes base) base u else 0 := by
  have hskip : skipSpace (ws ++ (sgn ++ u)) 0 = ws.length := by
    rw [skipSpace_eq hf.space hf.stop, Nat.zero_add]
  have hsign : (parseSign (ws ++ (sgn ++ u)) ws.length).1 = ws.length + sgn.length := by
    rw [hf.sign.parse]
    · exact fun h ↦ byte_zero (· ≠ '+'.toUInt8) (fun c hc ↦ (hf.none h c hc).1) (by decide)
    · exact fun h ↦ byte_zero (· ≠ '-'.toUInt8) (hneg h) (by decide)
  have hdrop : (ws ++ (sgn ++ u)).drop (ws.length + sgn.length) = u := by
    rw [← drop_drop, drop_left, drop_left]
  have hbyte : byte (ws ++ (sgn ++ u)) (ws.length + sgn.length) = byte u 0 := by
    rw [← hdrop, byte_drop, hdrop, Nat.add_zero]
  have hx := strtol_end hb hs hskip hsign (first_digit hf.space (fun c hc ↦ (hf.sign.digit hc).1) u)
  rwa [hdrop, hbyte] at hx

theorem Front.upperPrefix_iff (hf : Front ws sgn neg u) (hu : NoLetters u) :
    UpperPrefix base (ws ++ (sgn ++ u)) ↔ base = 0 ∧ HexPrefix ['X'.toUInt8] u := by
  refine and_congr_right fun _ ↦ ?_
  rw [hexPrefix_iff (by decide)]
  constructor
  · intro h
    obtain ⟨ws', sgn', neg', c, v, he, hw, hs, hc⟩ := h
    have hz : IsDigit 10 '0'.toUInt8 := ⟨0, rfl, by decide⟩
    obtain ⟨-, -, rfl⟩ := hf.unique hw hs hz he.symm
    exact ⟨_, c, v, rfl, mem_singleton_self _, (isDigit_iff (hu c (by simp)) le_rfl).mp hc⟩
  · intro h
    obtain ⟨x, c, v, rfl, hx, hc⟩ := h
    obtain rfl := mem_singleton.mp hx
    exact ⟨ws, sgn, neg, c, v, rfl, hf.space, hf.sign, (isDigit_iff (hu c (by simp)) le_rfl).mpr hc⟩

theorem doubleSign_iff (hb : Plain base) (hw : ∀ c ∈ ws, isspace c) (hu : NoLetters u) :
    DoubleSign base (ws ++ ('+'.toUInt8 :: '-'.toUInt8 :: u)) ↔ digit (byte u 0) < plainBase base u := by
  have hpos := plainBase_pos hb u
  have hplus : ∀ v, ∀ c ∈ ('+'.toUInt8 :: v).head?, isspace c = false := by
    intro v c hc
    obtain rfl : '+'.toUInt8 = c := Option.some.inj hc
    decide
  constructor
  · intro h
    obtain ⟨ws', c, v, he, hw', hc⟩ := h
    obtain ⟨-, he⟩ := append_space_inj hw hw' (hplus _) (hplus _) he
    obtain rfl : u = c :: v := (cons.inj (cons.inj he).2).2
    exact (isDigit_iff (hu c mem_cons_self) hpos.2).mp hc
  · intro h
    cases u with
    | nil =>
      have hz : byte [] 0 = 0 := rfl
      rw [hz, digit_zero] at h
      omega
    | cons c v => exact ⟨ws, c, v, rfl, hw, (isDigit_iff (hu c mem_cons_self) hpos.2).mpr h⟩

theorem Front.not_doubleSign (hf : Front ws sgn neg u) (hneg : neg = false → ∀ c ∈ u.head?, c ≠ '-'.toUInt8) :
    ¬DoubleSign base (ws ++ (sgn ++ u)) := by
  intro h
  obtain ⟨ws', c, v, he, hw', -⟩ := h
  have hplus : ∀ d ∈ ('+'.toUInt8 :: '-'.toUInt8 :: c :: v).head?, isspace d = false := by
    intro d hd
    obtain rfl : '+'.toUInt8 = d := Option.some.inj hd
    decide
  obtain ⟨-, he⟩ := append_space_inj hf.space hw' hf.stop hplus he
  cases hf.sign with
  | none =>
    obtain rfl : u = '+'.toUInt8 :: '-'.toUInt8 :: c :: v := he
    exact (hf.none rfl _ rfl).1 rfl
  | plus =>
    obtain rfl : u = '-'.toUInt8 :: c :: v := (cons.inj he).2
    exact hneg rfl _ rfl rfl
  | minus => exact absurd (cons.inj he).1 (by decide)

/-- To the standard there is no number behind two signs. -/
theorem doubleSign_endsNumber (hb : Plain base) (hw : ∀ c ∈ ws, isspace c) (hu : NoLetters u) :
    EndsNumber base (ws ++ ('+'.toUInt8 :: '-'.toUInt8 :: u)) 0 ∧
      ¬UpperPrefix base (ws ++ ('+'.toUInt8 :: '-'.toUInt8 :: u)) := by
  have hf : Front ws ['+'.toUInt8] false ('-'.toUInt8 :: u) := by
    refine ⟨hw, .plus, fun c hc ↦ ?_, fun h ↦ absurd h (cons_ne_nil _ _)⟩
    exact (SignText.digit .plus (mem_singleton.mpr (Option.some.inj hc).symm)).2
  have hu' : NoLetters ('-'.toUInt8 :: u) := forall_mem_cons.mpr ⟨by decide, hu⟩
  have hpos := plainBase_pos hb ('-'.toUInt8 :: u)
  have hzero : unsignedEnd ['x'.toUInt8, 'X'.toUInt8] base ('-'.toUInt8 :: u) = 0 := by
    have hminus : digit (byte ('-'.toUInt8 :: u) 0) = 256 := (SignText.digit .minus mem_cons_self).1
    rw [unsignedEnd_eq_zero hb, hminus]
    omega
  have hend := hf.endsNumber hb hu'
  rw [if_pos hzero] at hend
  refine ⟨hend, fun h ↦ ?_⟩
  have hx := ((hf.upperPrefix_iff hu').mp h).2.1
  exact absurd hx (by decide : '-'.toUInt8 ≠ '0'.toUInt8)

/-- `strtol` ends the number where the standard does, unless there are two
signs, or only the prefix `0X` tells the base. -/
theorem strtol_grammar_iff (hb : Plain base) (hs : NoLetters s) :
    EndsNumber base s (strtol (some s) base).endptr ↔ ¬DoubleSign base s ∧ ¬UpperPrefix base s := by
  rcases exists_front s with ⟨ws, u, rfl, hw⟩ | ⟨ws, sgn, neg, u, rfl, hf, hneg⟩
  · have hu : NoLetters u := (hs.right ws).right ['+'.toUInt8, '-'.toUInt8]
    obtain ⟨hend, hupper⟩ := doubleSign_endsNumber hb hw hu
    rw [doubleSign_iff hb hw hu, and_iff_left hupper, doubleSign_end hb hw hs]
    split_ifs with hd
    · refine iff_of_false (fun h ↦ ?_) (not_not.mpr hd)
      have hx := hend.unique h
      omega
    · exact iff_of_true hend hd
  · have hu : NoLetters u := (hs.right ws).right sgn
    have hend := hf.endsNumber hb hu
    have hz := unsignedEnd_eq_zero hb (prefixes base) u
    have hz' := unsignedEnd_eq_zero hb ['x'.toUInt8, 'X'.toUInt8] u
    rw [hf.upperPrefix_iff hu, ← unsignedEnd_prefixes, and_iff_right (hf.not_doubleSign hneg),
      hf.end hneg hb hs]
    constructor
    · intro h
      have hx := hend.unique h
      split_ifs at hx <;> omega
    · intro h
      rw [← h] at hend
      split_ifs at hend ⊢ with hd <;> first | exact hend | omega

/-- `-0x7` with the base 0. -/
theorem strtol_grammar_small : EndsNumber 0 [45, 48, 120, 55] (strtol (some [45, 48, 120, 55]) 0).endptr := by
  have hs : NoLetters [45, 48, 120, 55] :=
    forall_mem_cons.mpr ⟨by decide, forall_mem_cons.mpr ⟨by decide, forall_mem_cons.mpr ⟨by decide,
      forall_mem_singleton.mpr (by decide)⟩⟩⟩
  refine (strtol_grammar_iff (.inl rfl) hs).mpr ⟨fun h ↦ ?_, fun h ↦ ?_⟩
  · obtain ⟨ws, c, u, he, -⟩ := h
    have hm : '+'.toUInt8 ∈ [45, 48, 120, 55] := he ▸ mem_append_right ws mem_cons_self
    exact absurd hm (by decide)
  · obtain ⟨-, ws, sgn, neg, c, u, he, -⟩ := h
    have hm : 'X'.toUInt8 ∈ [45, 48, 120, 55] :=
      he ▸ mem_append_right ws (mem_append_right sgn (mem_cons_of_mem _ mem_cons_self))
    exact absurd hm (by decide)

/-- `+-5` is no number. -/
theorem strtol_grammar_wrong : ¬ ∀ (base : ℕ) (s : List UInt8), Plain base → NoLetters s →
    EndsNumber base s (strtol (some s) base).endptr := by
  intro h
  have hs : NoLetters [43, 45, 53] :=
    forall_mem_cons.mpr ⟨by decide, forall_mem_cons.mpr ⟨by decide, forall_mem_singleton.mpr (by decide)⟩⟩
  have hb : Plain 10 := .inr (.inl (by decide))
  have hw : ∀ c ∈ [], isspace c := forall_mem_nil _
  obtain ⟨hend, -⟩ := doubleSign_endsNumber hb hw (hs.right [43, 45])
  have hx := hend.unique (h 10 _ hb hs)
  exact absurd hx (by decide)

end OcamlRpi.Stdlib
