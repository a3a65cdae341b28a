import Mathlib.Data.Int.DivMod
import OcamlRpi.Printf.Placeholder
import OcamlRpi.Stdlib.Strtol
import OcamlRpi.Support.Digits

namespace OcamlRpi.Stdlib

open List
open Printf (byte)

/-- The number that the digits `ds` stand for, behind digits for `n`. -/
def value (b : ℕ) (n : ℕ) (ds : List UInt8) : ℕ := ds.foldl (fun n c ↦ n * b + digit c) n

/-- What stands for the sign of a number. -/
inductive SignText : List UInt8 → Bool → Prop
  | none : SignText [] false
  | plus : SignText ['+'.toUInt8] false
  | minus : SignText ['-'.toUInt8] true

variable {b n p i : ℕ} {c : UInt8} {ws sgn pre ds cs rest : List UInt8} {neg : Bool}

theorem byte_append_right (cs rest : List UInt8) (i : ℕ) :
    byte (cs ++ rest) (cs.length + i) = byte rest i := by
  simp [byte, getElem?_append_right]

@[simp] theorem value_cons (b n : ℕ) (c : UInt8) (ds : List UInt8) :
    value b n (c :: ds) = value b (n * b + digit c) ds := rfl

theorem value_eq_horner (b n : ℕ) (ds : List UInt8) : value b n ds = Support.horner b n (ds.map digit) :=
  foldl_map.symm

theorem value_append (b n : ℕ) (ds cs : List UInt8) :
    value b n (ds ++ cs) = value b (value b n ds) cs := foldl_append

theorem value_zeros (b k : ℕ) : value b 0 (replicate k '0'.toUInt8) = 0 := by
  induction k with
  | zero => rfl
  | succ k ih =>
    rw [replicate_succ, value_cons]
    have hz : 0 * b + digit '0'.toUInt8 = 0 := by
      rw [Nat.zero_mul]
      decide
    rw [hz]
    exact ih

theorem digit_zero : digit 0 = 256 := by decide

theorem digit_isspace (h : isspace c) : digit c = 256 := by
  simp only [isspace, decide_eq_true_eq, mem_cons, not_mem_nil, or_false] at h
  rcases h with rfl | rfl | rfl | rfl | rfl | rfl <;> decide

theorem ne_zero_of_isspace (h : isspace c = true) : c ≠ 0 := by
  intro he
  subst he
  exact absurd h (by decide)

/-- The variables of `strtol` at `p`, behind digits for `n`. -/
def Scan.of (n p : ℕ) : Scan := if n ≤ 2 ^ 31 then ⟨-n, none, p⟩ else ⟨LONG_MIN, some .ERANGE, p⟩

/-- What `strtol` returns for the number `v` that ends at `p`. -/
def clamp (v : ℤ) (p : ℕ) : Parsed :=
  if v < LONG_MIN then ⟨LONG_MIN, p, some .ERANGE⟩
  else if LONG_MAX < v then ⟨LONG_MAX, p, some .ERANGE⟩
  else ⟨v, p, none⟩

theorem of_le (h : n ≤ 2 ^ 31) : Scan.of n p = ⟨-n, none, p⟩ := if_pos h

theorem of_lt (h : 2 ^ 31 < n) : Scan.of n p = ⟨LONG_MIN, some .ERANGE, p⟩ :=
  if_neg (Nat.not_le.mpr h)

/-- The two range tests refuse exactly the digits that lead out of the range,
and a number that is out of range stays so. -/
theorem next_of (hb : 2 ≤ b) (n p d : ℕ) : Scan.next b d (.of n p) = .of (n * b + d) (p + 1) := by
  have hmin : LONG_MIN.tdiv b = -((2147483648 / b : ℕ) : ℤ) := by
    rw [LONG_MIN, Int.neg_tdiv]
    rfl
  have hmul : -(n : ℤ) * b = -((n * b : ℕ) : ℤ) := by
    push_cast
    exact Int.neg_mul _ _
  have hle : n * 1 ≤ n * b := Nat.mul_le_mul_left n (by omega)
  by_cases hn : n ≤ 2 ^ 31
  · have hq : n ≤ 2147483648 / b ↔ n * b ≤ 2147483648 := Nat.le_div_iff_mul_le (by omega)
    rw [of_le hn]
    simp only [Scan.next, hmin, hmul]
    by_cases hr : n * b + d ≤ 2 ^ 31
    · rw [of_le hr, if_neg (by omega), if_neg (by simp only [LONG_MIN]; omega)]
      congr 1
      omega
    · have hlast : -((n * b : ℕ) : ℤ) < LONG_MIN + d := by
        simp only [LONG_MIN]
        omega
      rw [of_lt (by omega), if_pos hlast, ite_self]
  · have hhalf : 2147483648 / b ≤ 2147483648 / 2 := Nat.div_le_div_left hb (by decide)
    have hlow : LONG_MIN < -((2147483648 / b : ℕ) : ℤ) := by
      simp only [LONG_MIN]
      omega
    rw [of_lt (by omega), of_lt (by omega), Scan.next, hmin, if_pos hlow]

theorem scanDigits_of (hb : 2 ≤ b) (n p : ℕ) (hd : ∀ c ∈ ds, digit c < b)
    (hr : ∀ c ∈ rest.head?, b ≤ digit c) :
    scanDigits b (ds ++ rest) (.of n p) = .of (value b n ds) (p + ds.length) := by
  induction ds generalizing n p with
  | nil =>
    cases rest with
    | nil => rfl
    | cons c rest =>
      have hc : ¬(digit c : ℤ) < b := by
        have hx := hr c rfl
        omega
      rw [nil_append, scanDigits, if_neg hc]
      rfl
  | cons c ds ih =>
    have hc : (digit c : ℤ) < b := by
      have hx := hd c mem_cons_self
      omega
    have hds : ∀ c ∈ ds, digit c < b := fun c hc ↦ hd c (mem_cons_of_mem _ hc)
    rw [cons_append, scanDigits, if_pos hc, next_of hb, ih _ _ hds, value_cons, length_cons,
      Nat.add_assoc, Nat.add_comm 1]

theorem skipSpace_eq (hw : ∀ c ∈ ws, isspace c) (hr : ∀ c ∈ rest.head?, isspace c = false) :
    skipSpace (ws ++ rest) p = p + ws.length := by
  induction ws generalizing p with
  | nil =>
    cases rest with
    | nil => rfl
    | cons c rest =>
      have hc : ¬(c ≠ 0 ∧ isspace c = true) := by simp [hr c rfl]
      rw [nil_append, skipSpace, if_neg hc]
      rfl
  | cons c ws ih =>
    have hc : isspace c = true := hw c mem_cons_self
    have hws : ∀ c ∈ ws, isspace c := fun c hc ↦ hw c (mem_cons_of_mem _ hc)
    rw [cons_append, skipSpace, if_pos ⟨ne_zero_of_isspace hc, hc⟩, ih hws, length_cons,
      Nat.add_assoc, Nat.add_comm 1]

/-- Where `strtol` starts to look for digits, if the signs end at `q`. -/
def digitsAt (s : List UInt8) (q : ℕ) (base : ℤ) : ℕ :=
  skipPrefix s q (detectBase s q base).1 (detectBase s q base).2

theorem strtol_scan {s : List UInt8} {base : ℤ} {q : ℕ} {sign : ℤ}
    (hb : ¬(base = 1 ∨ base < 0 ∨ 36 < base)) (h₀ : byte s (skipSpace s 0) ≠ 0)
    (hs : parseSign s (skipSpace s 0) = (q, sign)) (hq : byte s q ≠ 0) :
    strtol (some s) base = out sign (scanDigits (detectBase s q base).1 (s.drop (digitsAt s q base))
      ⟨0, none, digitsAt s q base⟩) := by
  simp only [strtol, if_neg hb, if_neg h₀, hs, if_neg hq, digitsAt]

theorem detectBase_eq {base : ℤ} (h : base ≠ 0) (s : List UInt8) (q : ℕ) :
    detectBase s q base = (base, if base = 16 ∧ byte s q = '0'.toUInt8 ∧ byte s (q + 1) = 'x'.toUInt8 ∧
      digit (byte s (q + 2)) < 16 then q + 2 else 0) := by
  by_cases hx : base = 16 ∧ byte s q = '0'.toUInt8 ∧ byte s (q + 1) = 'x'.toUInt8 ∧
      digit (byte s (q + 2)) < 16
  · obtain ⟨rfl, hx⟩ := hx
    simp [detectBase, hx]
  · simp only [detectBase, h, false_or, if_neg hx, false_and, if_false]

theorem digitsAt_sixteen (s : List UInt8) (q : ℕ) :
    digitsAt s q 16 =
      if byte s q = '0'.toUInt8 then
        if (byte s (q + 1) = 'x'.toUInt8 ∨ byte s (q + 1) = 'X'.toUInt8) ∧ digit (byte s (q + 2)) < 16
        then q + 2
        else q
      else if digit (byte s q) ≤ 16 then q
      else 0 := by
  rw [digitsAt, detectBase_eq (by decide), skipPrefix, if_pos rfl]
  by_cases h : byte s q = '0'.toUInt8
  · rw [if_pos h, if_pos h]
  · simp only [h, false_and, and_false, if_false]

theorem digitsAt_eq {base : ℤ} (h₀ : base ≠ 0) (h₁₆ : base ≠ 16) (s : List UInt8) (q : ℕ) :
    digitsAt s q base = if (digit (byte s q) : ℤ) < base then q else 0 := by
  simp only [digitsAt, detectBase_eq h₀, skipPrefix, h₁₆, false_and, if_false]

theorem ne_of_digit (h : digit c < 256) {d : UInt8} (hd : digit d = 256) : c ≠ d := by
  intro he
  subst he
  omega

theorem isspace_of_digit (h : digit c < 256) : isspace c = false := by
  by_contra hc
  rw [Bool.not_eq_false] at hc
  rw [digit_isspace hc] at h
  omega

theorem SignText.head (h : SignText sgn neg) (hc : digit (byte cs 0) < 256) :
    ∃ d l, sgn ++ cs = d :: l ∧ d ≠ 0 ∧ isspace d = false := by
  cases h with
  | none =>
    cases cs with
    | nil => exact absurd hc (by decide)
    | cons c cs => exact ⟨c, cs, rfl, ne_of_digit hc (by decide), isspace_of_digit hc⟩
  | plus => exact ⟨_, _, rfl, by decide, by decide⟩
  | minus => exact ⟨_, _, rfl, by decide, by decide⟩

theorem SignText.parse (h : SignText sgn neg) (hp : sgn = [] → byte cs 0 ≠ '+'.toUInt8)
    (hm : neg = false → byte cs 0 ≠ '-'.toUInt8) (ws : List UInt8) :
    parseSign (ws ++ (sgn ++ cs)) ws.length = (ws.length + sgn.length, if neg then -1 else 1) := by
  have hb := byte_append_right ws (sgn ++ cs)
  have hb₀ := hb 0
  have hb₁ := hb 1
  rw [Nat.add_zero] at hb₀
  cases h with
  | none =>
    rw [nil_append] at hb₀ ⊢
    rw [parseSign, hb₀, if_neg (hp rfl), hb₀, if_neg (hm rfl)]
    rfl
  | plus =>
    have hx : byte (['+'.toUInt8] ++ cs) 0 = '+'.toUInt8 := rfl
    have hy : byte (['+'.toUInt8] ++ cs) 1 = byte cs 0 := rfl
    rw [parseSign, hb₀, hx, if_pos rfl, hb₁, hy, if_neg (hm rfl)]
    rfl
  | minus =>
    have hx : byte (['-'.toUInt8] ++ cs) 0 = '-'.toUInt8 := rfl
    have hne : '-'.toUInt8 ≠ '+'.toUInt8 := by decide
    rw [parseSign, hb₀, hx, if_neg hne, hb₀, hx, if_pos rfl]
    rfl

theorem out_of (n : ℕ) (hp : p ≠ 0) :
    out (if neg then -1 else 1) (.of n p) = clamp (if neg then -(n : ℤ) else n) p := by
  unfold clamp
  cases neg with
  | true =>
    have hhi : ¬LONG_MAX < -(n : ℤ) := by
      simp only [LONG_MAX]
      omega
    by_cases hn : n ≤ 2 ^ 31
    · have hlo : ¬-(n : ℤ) < LONG_MIN := by
        simp only [LONG_MIN]
        omega
      rw [of_le hn]
      simp [out, hp, hlo, hhi]
    · have hlo : -(n : ℤ) < LONG_MIN := by
        simp only [LONG_MIN]
        omega
      rw [of_lt (by omega)]
      simp [out, hp, hlo]
  | false =>
    have hlo : ¬(n : ℤ) < LONG_MIN := by
      simp only [LONG_MIN]
      omega
    by_cases hn : n ≤ 2 ^ 31
    · have hmin : -(n : ℤ) = LONG_MIN ↔ LONG_MAX < (n : ℤ) := by
        simp only [LONG_MIN, LONG_MAX]
        omega
      rw [of_le hn]
      simp only [out, hmin, hp, if_neg hlo, Bool.false_eq_true, if_false, if_true, Int.neg_neg]
    · have hhi : LONG_MAX < (n : ℤ) := by
        simp only [LONG_MAX]
        omega
      rw [of_lt (by omega)]
      simp [out, hlo, hhi]

theorem strtol_front {base : ℤ} (hb : ¬(base = 1 ∨ base < 0 ∨ 36 < base)) (hw : ∀ c ∈ ws, isspace c)
    (hs : SignText sgn neg) (ht : digit (byte cs 0) < 256) :
    let s := ws ++ (sgn ++ cs)
    let q := ws.length + sgn.length
    strtol (some s) base = out (if neg then -1 else 1)
      (scanDigits (detectBase s q base).1 (s.drop (digitsAt s q base)) ⟨0, none, digitsAt s q base⟩) := by
  intro s q
  obtain ⟨c, l, hl, hc₀, hsp⟩ := hs.head ht
  have hskip : skipSpace s 0 = ws.length := by
    rw [skipSpace_eq hw, Nat.zero_add]
    rw [hl]
    simpa using hsp
  have h₀ : byte s ws.length ≠ 0 := by
    have hx : byte s ws.length = byte (sgn ++ cs) 0 := byte_append_right ws _ 0
    rw [hx, hl]
    exact hc₀
  have hq : byte s q = byte cs 0 := by
    have hx := byte_append_right (ws ++ sgn) cs 0
    rwa [append_assoc, length_append] at hx
  have hsign : parseSign s ws.length = (q, if neg then -1 else 1) :=
    hs.parse (fun _ ↦ ne_of_digit ht (by decide)) (fun _ ↦ ne_of_digit ht (by decide)) ws
  rw [← hskip] at h₀ hsign
  exact strtol_scan hb h₀ hsign (hq ▸ ne_of_digit ht (by decide))

/-- `strtol` reads the digits behind a prefix, and stops behind them. -/
theorem strtol_digits (ws pre rest : List UInt8) (hb : 2 ≤ b) (hb' : b ≤ 36) (hw : ∀ c ∈ ws, isspace c)
    (hs : SignText sgn neg)
    (ht : digit (byte (pre ++ (ds ++ rest)) 0) < 256) (hne : ds ≠ [])
    (hat : digitsAt (ws ++ (sgn ++ (pre ++ (ds ++ rest)))) (ws.length + sgn.length) b =
      ws.length + sgn.length + pre.length)
    (hd : ∀ c ∈ ds, digit c < b) (hr : ∀ c ∈ rest.head?, b ≤ digit c) :
    strtol (some (ws ++ (sgn ++ (pre ++ (ds ++ rest))))) b =
      clamp (if neg then -(value b 0 ds : ℤ) else value b 0 ds)
        (ws.length + sgn.length + pre.length + ds.length) := by
  have hdrop : (ws ++ (sgn ++ (pre ++ (ds ++ rest)))).drop (ws.length + sgn.length + pre.length) =
      ds ++ rest := by
    rw [← drop_drop, ← drop_drop, drop_left, drop_left, drop_left]
  have hof : (⟨0, none, ws.length + sgn.length + pre.length⟩ : Scan) =
      .of 0 (ws.length + sgn.length + pre.length) := rfl
  have hpos : 0 < ds.length := length_pos_iff.mpr hne
  rw [strtol_front (by omega) hw hs ht, hat, detectBase_eq (by omega), hdrop, hof,
    scanDigits_of hb _ _ hd hr]
  exact out_of _ (by omega)

theorem strtol_clamp (hb : 2 ≤ b) (hb' : b ≤ 10) (hw : ∀ c ∈ ws, isspace c) (hs : SignText sgn neg)
    (hne : ds ≠ []) (hd : ∀ c ∈ ds, digit c < b) (hr : ∀ c ∈ rest.head?, b ≤ digit c) :
    strtol (some (ws ++ (sgn ++ (ds ++ rest)))) b =
      clamp (if neg then -(value b 0 ds : ℤ) else value b 0 ds) (ws.length + sgn.length + ds.length) := by
  obtain ⟨c, cs, rfl⟩ := exists_cons_of_ne_nil hne
  have hc : digit c < b := hd c mem_cons_self
  have hq : byte (ws ++ (sgn ++ (c :: cs ++ rest))) (ws.length + sgn.length) = c := by
    have hx := byte_append_right (ws ++ sgn) (c :: cs ++ rest) 0
    rwa [append_assoc, length_append] at hx
  have hfirst : digit (byte (c :: cs ++ rest) 0) < 256 := by
    have hx : byte (c :: cs ++ rest) 0 = c := rfl
    rw [hx]
    omega
  refine strtol_digits ws [] rest hb (by omega) hw hs hfirst (cons_ne_nil c cs) ?_ hd hr
  rw [nil_append, digitsAt_eq (by omega) (by omega), hq, if_pos (by omega)]
  rfl

@[simp] theorem clamp_endptr (v : ℤ) (p : ℕ) : (clamp v p).endptr = p := by
  unfold clamp
  split_ifs <;> rfl

@[simp] theorem out_endptr (sign : ℤ) (x : Scan) : (out sign x).endptr = x.ptr := by
  simp only [out]
  split_ifs <;> rfl

theorem clamp_value (v : ℤ) (p : ℕ) : (clamp v p).value = max LONG_MIN (min v LONG_MAX) := by
  have h : LONG_MIN ≤ LONG_MAX := by decide
  unfold clamp
  split_ifs <;> dsimp only <;> omega

theorem clamp_eq {v : ℤ} (hlo : LONG_MIN ≤ v) (hhi : v ≤ LONG_MAX) : clamp v p = ⟨v, p, none⟩ := by
  rw [clamp, if_neg (by omega), if_neg (by omega)]

/-- The offset behind the digits that start at `p`. -/
def digitsEnd (b : ℕ) (s : List UInt8) (p : ℕ) : ℕ :=
  p + ((s.drop p).takeWhile fun c ↦ digit c < b).length

theorem scanDigits_length (b : ℕ) (l : List UInt8) (x : Scan) :
    (scanDigits b l x).ptr = x.ptr + (l.takeWhile fun c ↦ digit c < b).length := by
  induction l generalizing x with
  | nil => rfl
  | cons c l ih =>
    by_cases hc : digit c < b
    · have hnext : (x.next b (digit c)).ptr = x.ptr + 1 := by
        unfold Scan.next
        split_ifs <;> rfl
      rw [scanDigits, if_pos (by omega), ih, hnext, takeWhile_cons_of_pos (by simpa using hc), length_cons]
      omega
    · rw [scanDigits, if_neg (by omega), takeWhile_cons_of_neg (by simpa using hc)]
      rfl

theorem scanDigits_ptr (b : ℕ) (s : List UInt8) (p : ℕ) (res : ℤ) (errno : Option Errno) :
    (scanDigits b (s.drop p) ⟨res, errno, p⟩).ptr = digitsEnd b s p := scanDigits_length b _ _

theorem digitsEnd_spec (hb : b ≤ 256) (s : List UInt8) (p : ℕ) :
    p ≤ digitsEnd b s p ∧ (∀ i, p ≤ i → i < digitsEnd b s p → digit (byte s i) < b) ∧
      b ≤ digit (byte s (digitsEnd b s p)) := by
  obtain ⟨l, hl⟩ : ∃ l, s.drop p = l := ⟨_, rfl⟩
  induction l generalizing p with
  | nil =>
    have hz : byte s p = 0 := by
      simp [byte, drop_eq_nil_iff.mp hl]
    have he : digitsEnd b s p = p := by
      rw [digitsEnd, hl]
      rfl
    rw [he, hz, digit_zero]
    exact ⟨le_rfl, fun i hi hlt ↦ by omega, hb⟩
  | cons c l ih =>
    obtain ⟨hc, hl'⟩ := Printf.byte_of_drop hl
    by_cases hd : digit c < b
    · have he : digitsEnd b s p = digitsEnd b s (p + 1) := by
        rw [digitsEnd, digitsEnd, hl, hl', takeWhile_cons_of_pos (by simpa using hd), length_cons]
        omega
      obtain ⟨hle, hrun, hstop⟩ := ih (p + 1) hl'
      rw [he]
      refine ⟨by omega, fun i hi hlt ↦ ?_, hstop⟩
      by_cases hp : i = p
      · rw [hp, hc]
        exact hd
      · exact hrun i (by omega) hlt
    · have he : digitsEnd b s p = p := by
        rw [digitsEnd, hl, takeWhile_cons_of_neg (by simpa using hd)]
        rfl
      rw [he, hc]
      exact ⟨le_rfl, fun i hi hlt ↦ by omega, by omega⟩

theorem digitsEnd_le (hb : b ≤ 256) {k : ℕ} (hp : p ≤ k) (h : b ≤ digit (byte s k)) :
    digitsEnd b s p ≤ k := by
  by_contra hlt
  have hk := (digitsEnd_spec hb s p).2.1 k hp (by omega)
  omega

end OcamlRpi.Stdlib
