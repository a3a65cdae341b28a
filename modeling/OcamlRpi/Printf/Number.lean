import Mathlib.Logic.Function.Iterate
import OcamlRpi.Printf.Output

namespace OcamlRpi.Printf

open Function List

/-- The value of an `int` expression. -/
def int (x : ℤ) : ℤ := x.bmod (2 ^ 32)

structure Flags where
  plus : Bool
  left : Bool
  alternate : Bool
  space : Bool
  zeropad : Bool
  sign : Bool
  upper : Bool
deriving DecidableEq

def Flags.empty : Flags := ⟨false, false, false, false, false, false, false⟩

def digit (upper : Bool) (d : ℕ) : UInt8 :=
  UInt8.ofNat (if d < 10 then 48 + d else if upper then 55 + d else 87 + d)

/-- The loop that fills `tmp`, which is given from its last element on. -/
def toDigits (upper : Bool) (base num : ℕ) (tmp : List UInt8) : List UInt8 :=
  if num = 0 ∨ base < 2 then tmp
  else toDigits upper base (num / base) (digit upper (num % base) :: tmp)
termination_by num
decreasing_by
  rename_i h
  rw [not_or] at h
  exact Nat.div_lt_self (Nat.pos_of_ne_zero h.1) (by omega)

/-- `while(precision < width--) buf_add(c);` -/
def padWidth (o : Out) (c : UInt8) (precision width : ℤ) : Out × ℤ :=
  if precision < width then padWidth (o.bufAdd c) c precision (width - 1)
  else (o, int (width - 1))
termination_by (width - precision).toNat

/-- `while(len < precision--) { buf_add(c); --width; }` -/
def padPrecision (o : Out) (c : UInt8) (len precision width : ℤ) : Out × ℤ :=
  if len < precision then padPrecision (o.bufAdd c) c len (precision - 1) (int (width - 1))
  else (o, width)
termination_by (precision - len).toNat

/-- `while(len > 0) { buf_add(tmp[--len]); --width; }`, where `--len` is only
done if the character is written. -/
def putDigits : ℕ → Out → List UInt8 → ℤ → Option (Out × ℤ)
  | _, o, [], width => some (o, width)
  | 0, _, _ :: _, _ => none
  | n + 1, o, c :: tmp, width =>
    putDigits n (o.bufAdd c) (if o.buf < o.stop then tmp else c :: tmp) (int (width - 1))

/-- `while(width-- > 0) buf_add(' ');` -/
def padRest (o : Out) (width : ℤ) : Out :=
  if 0 < width then padRest (o.bufAdd ' '.toUInt8) (width - 1) else o
termination_by width.toNat

/-- `sprint_int`. -/
def sprintInt (fuel : ℕ) (o : Out) (num base : ℕ) (width precision : ℤ) (flags : Flags) :
    Option Out :=
  if base ≠ 10 ∧ base ≠ 16 then some { o with buf := 0 }
  else
    -- the sign bit of `num` as an `int64_t`
    let negative := flags.sign && decide (2 ^ 63 ≤ num)
    let num := if negative then 2 ^ 64 - num else num
    let tmp := toDigits flags.upper base num (if num = 0 then ['0'.toUInt8] else [])
    let precision := if precision < tmp.length then (tmp.length : ℤ) else precision
    let width := if negative || flags.plus then int (width - 1) else width
    let width := if flags.alternate then int (width - 2) else width
    let o := if negative then o.bufAdd '-'.toUInt8
      else if flags.plus then o.bufAdd (if flags.space then ' '.toUInt8 else '+'.toUInt8)
      else o
    let o := if flags.alternate then (o.bufAdd '0'.toUInt8).bufAdd 'x'.toUInt8 else o
    let pad := if flags.zeropad then '0'.toUInt8 else ' '.toUInt8
    let (o, width) := if flags.left then (o, width) else padWidth o pad precision width
    let (o, width) := padPrecision o pad tmp.length precision width
    (putDigits fuel o tmp width).map fun (o, width) ↦ padRest o width

/-- `--width`. -/
def decr (width : ℤ) : ℤ := int (width - 1)

variable {o o' : Out} {c : UInt8} {tmp : List UInt8} {n m num base : ℕ} {width precision : ℤ} {flags : Flags}

theorem padWidth_eq (o : Out) (c : UInt8) (precision width : ℤ) :
    padWidth o c precision width =
      (o.adds (replicate (width - precision).toNat c), int (min width precision - 1)) := by
  fun_induction padWidth o c precision width with
  | case1 o width h ih =>
    have hn : (width - precision).toNat = (width - 1 - precision).toNat + 1 := by omega
    rw [ih, hn, replicate_succ, Out.adds_cons]
    congr 3
    omega
  | case2 o width h =>
    have hn : (width - precision).toNat = 0 := by omega
    have hw : min width precision = width := Int.min_eq_left (by omega)
    rw [hn, hw]
    rfl

theorem padPrecision_eq (o : Out) (c : UInt8) (len precision width : ℤ) :
    padPrecision o c len precision width =
      (o.adds (replicate (precision - len).toNat c), decr^[(precision - len).toNat] width) := by
  fun_induction padPrecision o c len precision width with
  | case1 o precision width h ih =>
    have hn : (precision - len).toNat = (precision - 1 - len).toNat + 1 := by omega
    rw [ih, hn, replicate_succ, Out.adds_cons]
    rfl
  | case2 o precision width h =>
    have hn : (precision - len).toNat = 0 := by omega
    rw [hn]
    rfl

theorem padRest_eq (o : Out) (width : ℤ) :
    padRest o width = o.adds (replicate width.toNat ' '.toUInt8) := by
  fun_induction padRest o width with
  | case1 o width h ih =>
    have hn : width.toNat = (width - 1).toNat + 1 := by omega
    rw [ih, hn, replicate_succ, Out.adds_cons]
  | case2 o width h =>
    have hn : width.toNat = 0 := by omega
    rw [hn]
    rfl

def signText (negative : Bool) (flags : Flags) : List UInt8 :=
  if negative then ['-'.toUInt8]
  else if flags.plus then [if flags.space then ' '.toUInt8 else '+'.toUInt8]
  else []

def alternateText (flags : Flags) : List UInt8 :=
  if flags.alternate then ['0'.toUInt8, 'x'.toUInt8] else []

/-- What `sprint_int` writes before its digits, the digits, and its `width`
before it writes the digits. -/
structure Layout where
  before : List UInt8
  digits : List UInt8
  width : ℤ

def layout (num base : ℕ) (width precision : ℤ) (flags : Flags) : Layout :=
  let negative := flags.sign && decide (2 ^ 63 ≤ num)
  let num := if negative then 2 ^ 64 - num else num
  let digits := toDigits flags.upper base num (if num = 0 then ['0'.toUInt8] else [])
  let precision := if precision < digits.length then (digits.length : ℤ) else precision
  let width := if negative || flags.plus then int (width - 1) else width
  let width := if flags.alternate then int (width - 2) else width
  let pad := if flags.zeropad then '0'.toUInt8 else ' '.toUInt8
  let blanks := if flags.left then 0 else (width - precision).toNat
  let width := if flags.left then width else int (min width precision - 1)
  let zeros := (precision - digits.length).toNat
  ⟨signText negative flags ++ alternateText flags ++ replicate blanks pad ++ replicate zeros pad,
    digits, decr^[zeros] width⟩

theorem signText_eq (o : Out) (negative : Bool) (flags : Flags) :
    (if negative then o.bufAdd '-'.toUInt8
      else if flags.plus then o.bufAdd (if flags.space then ' '.toUInt8 else '+'.toUInt8)
      else o) = o.adds (signText negative flags) := by
  unfold signText
  split_ifs <;> rfl

theorem alternateText_eq (o : Out) (flags : Flags) :
    (if flags.alternate then (o.bufAdd '0'.toUInt8).bufAdd 'x'.toUInt8 else o) =
      o.adds (alternateText flags) := by
  unfold alternateText
  split_ifs <;> rfl

theorem padLeft_eq (o : Out) (c : UInt8) (precision width : ℤ) (left : Bool) :
    (if left then (o, width) else padWidth o c precision width) =
      (o.adds (replicate (if left then 0 else (width - precision).toNat) c),
        if left then width else int (min width precision - 1)) := by
  rw [padWidth_eq]
  split_ifs <;> rfl

theorem sprintInt_eq (hb : base = 10 ∨ base = 16) :
    sprintInt n o num base width precision flags =
      (putDigits n (o.adds (layout num base width precision flags).before)
        (layout num base width precision flags).digits
        (layout num base width precision flags).width).map
          fun r ↦ r.1.adds (replicate r.2.toNat ' '.toUInt8) := by
  have hbase : ¬(base ≠ 10 ∧ base ≠ 16) := by omega
  simp only [sprintInt, if_neg hbase, layout, signText_eq, alternateText_eq, padLeft_eq,
    padPrecision_eq, padRest_eq, Out.adds_append]

/-- The text of a number, as far as `sprint_int` is not cut short. -/
def numberText (num base : ℕ) (width precision : ℤ) (flags : Flags) : List Emission :=
  let l := layout num base width precision flags
  l.before.map .plain ++ l.digits.map .moves ++
    (replicate (decr^[l.digits.length] l.width).toNat ' '.toUInt8).map .plain

theorem putDigits_fits (hf : Fits (o.stop - o.buf) (tmp.map .moves)) (hs : o.stop < 2 ^ 32)
    (hn : tmp.length ≤ n) :
    putDigits n o tmp width = some (o.adds tmp, decr^[tmp.length] width) := by
  induction tmp generalizing n o width with
  | nil => cases n <;> rfl
  | cons c tmp ih =>
    obtain ⟨n, rfl⟩ : ∃ m, n = m + 1 := ⟨n - 1, by rw [length_cons] at hn; omega⟩
    rw [map_cons, fits_cons] at hf
    have hlt : o.buf < o.stop := by
      have hx := hf.1 (by simp)
      omega
    have hb : (o.bufAdd c).buf = o.buf + 1 := Out.bufAdd_buf (by omega)
    rw [putDigits, if_pos hlt, ih (o := o.bufAdd c) ?_ hs (by simpa using hn)]
    · rfl
    · rw [hb, Out.bufAdd_stop, ← Nat.sub_sub]
      exact hf.2

theorem putDigits_adds {r : Out × ℤ} (hr : putDigits n o tmp width = some r) :
    ∃ cs, r.1 = o.adds cs := by
  induction n generalizing o tmp width with
  | zero =>
    cases tmp with
    | nil =>
      cases hr
      exact ⟨[], rfl⟩
    | cons c tmp => cases hr
  | succ n ih =>
    cases tmp with
    | nil =>
      cases hr
      exact ⟨[], rfl⟩
    | cons c tmp =>
      obtain ⟨cs, hcs⟩ := ih hr
      exact ⟨c :: cs, hcs⟩

/-- Once the buffer is full, no digit is used up until the pointer has wrapped. -/
theorem putDigits_full (ht : tmp ≠ []) (hs : 0 < o.stop) (hb : o.Full) {r : Out × ℤ}
    (hr : putDigits n o tmp width = some r) : r.1.Wrapped := by
  induction n generalizing o width with
  | zero =>
    cases tmp with
    | nil => exact absurd rfl ht
    | cons c tmp => cases hr
  | succ n ih =>
    rcases hb with hb | hw
    · cases tmp with
      | nil => exact absurd rfl ht
      | cons c tmp =>
        rw [putDigits, if_neg (Nat.not_lt.mpr hb.1)] at hr
        exact ih (o := o.bufAdd c) hs (Out.Full.bufAdd (.inl hb) hs) hr
    · obtain ⟨cs, hcs⟩ := putDigits_adds hr
      rw [hcs]
      exact hw.adds hs

theorem putDigits_cases (hs : 0 < o.stop) (hlt : o.buf < 2 ^ 32) (hs' : o.stop < 2 ^ 32) {r : Out × ℤ}
    (hr : putDigits n o tmp width = some r) :
    r.1.Wrapped ∨ Fits (o.stop - o.buf) (tmp.map .moves) ∧ r = (o.adds tmp, decr^[tmp.length] width) := by
  induction tmp generalizing n o width with
  | nil =>
    refine .inr ⟨fits_nil, ?_⟩
    cases n <;> (cases hr; rfl)
  | cons c tmp ih =>
    by_cases hb : o.buf < o.stop
    · cases n with
      | zero => cases hr
      | succ n =>
        have hb' : (o.bufAdd c).buf = o.buf + 1 := Out.bufAdd_buf (by omega)
        rw [putDigits, if_pos hb] at hr
        refine (ih (o := o.bufAdd c) hs (by omega) hs' hr).imp_right fun hx ↦ ?_
        rw [hb', Out.bufAdd_stop, ← Nat.sub_sub] at hx
        rw [map_cons, fits_cons]
        exact ⟨⟨fun _ ↦ by omega, hx.1⟩, hx.2⟩
    · exact .inl (putDigits_full (cons_ne_nil c tmp) hs (.inl ⟨by omega, hlt⟩) hr)

variable {r : Out}

theorem numberText_length :
    (numberText num base width precision flags).length =
      (layout num base width precision flags).before.length +
        (layout num base width precision flags).digits.length +
        (decr^[(layout num base width precision flags).digits.length]
          (layout num base width precision flags).width).toNat := by
  simp [numberText, Nat.add_assoc]

theorem chars_map_plain (cs : List UInt8) : chars (cs.map .plain) = cs := by
  simp [chars, Function.comp_def]

theorem chars_map_moves (cs : List UInt8) : chars (cs.map .moves) = cs := by
  simp [chars, Function.comp_def]

theorem chars_numberText :
    chars (numberText num base width precision flags) =
      (layout num base width precision flags).before ++ (layout num base width precision flags).digits ++
        replicate (decr^[(layout num base width precision flags).digits.length]
          (layout num base width precision flags).width).toNat ' '.toUInt8 := by
  simp only [numberText, chars_append, chars_map_plain, chars_map_moves]

theorem fits_map_plain (cs : List UInt8) : Fits n (cs.map .plain) := by
  refine fits_of_plain fun e he ↦ ?_
  obtain ⟨c, -, rfl⟩ := mem_map.mp he
  rfl

theorem fits_numberText :
    Fits n (numberText num base width precision flags) ↔
      Fits (n - (layout num base width precision flags).before.length)
        ((layout num base width precision flags).digits.map .moves) := by
  simp only [numberText, fits_append, fits_map_plain, true_and, and_true, length_map]

/-- All is written if there is room for the digits. -/
theorem sprintInt_digits (hb : base = 10 ∨ base = 16) (hs : o.stop < 2 ^ 32)
    (hf : Fits (o.stop - (o.adds (layout num base width precision flags).before).buf)
      ((layout num base width precision flags).digits.map .moves))
    (hn : (layout num base width precision flags).digits.length ≤ n) :
    sprintInt n o num base width precision flags =
      some (o.adds (chars (numberText num base width precision flags))) := by
  rw [← Out.adds_stop o (layout num base width precision flags).before] at hs hf
  rw [sprintInt_eq hb, putDigits_fits hf hs hn, Option.map_some, chars_numberText, Out.adds_append,
    Out.adds_append]

theorem sprintInt_fits (hb : base = 10 ∨ base = 16) (hs : o.stop < 2 ^ 32)
    (hf : Fits (o.stop - o.buf) (numberText num base width precision flags))
    (hw : o.buf + (numberText num base width precision flags).length < 2 ^ 32)
    (hn : (layout num base width precision flags).digits.length ≤ n) :
    sprintInt n o num base width precision flags =
      some (o.adds (chars (numberText num base width precision flags))) := by
  rw [numberText_length] at hw
  rw [fits_numberText, Nat.sub_sub, ← Out.adds_buf (by omega)] at hf
  exact sprintInt_digits hb hs hf hn

theorem sprintInt_cases (hb : base = 10 ∨ base = 16) (hs : 0 < o.stop) (hs' : o.stop < 2 ^ 32)
    (hlt : o.buf < 2 ^ 32) (hr : sprintInt n o num base width precision flags = some r) :
    r.Wrapped ∨ Fits (o.stop - o.buf) (numberText num base width precision flags) ∧
      r = o.adds (chars (numberText num base width precision flags)) := by
  rw [sprintInt_eq hb] at hr
  obtain ⟨q, hq, rfl⟩ := Option.map_eq_some_iff.mp hr
  rcases Out.adds_buf_or_wrapped hs hlt (layout num base width precision flags).before with hw | hw
  · obtain ⟨cs, hcs⟩ := putDigits_adds hq
    rw [hcs]
    exact .inl ((hw.adds (by simpa using hs)).adds (by simpa using hs))
  · have hbuf := Out.adds_buf hw
    refine (putDigits_cases (by simpa using hs) (by omega) (by simpa using hs') hq).imp ?_ ?_
    · intro hx
      have hstop : q.1.stop = o.stop := by
        obtain ⟨cs, hcs⟩ := putDigits_adds hq
        simp [hcs]
      exact hx.adds (by omega)
    · intro h
      obtain ⟨hf, rfl⟩ := h
      rw [Out.adds_stop, hbuf, ← Nat.sub_sub] at hf
      refine ⟨fits_numberText.mpr hf, ?_⟩
      rw [chars_numberText, Out.adds_append, Out.adds_append]

theorem sprintInt_adds (hb : base = 10 ∨ base = 16)
    (hr : sprintInt n o num base width precision flags = some r) : ∃ cs, r = o.adds cs := by
  rw [sprintInt_eq hb] at hr
  obtain ⟨q, hq, rfl⟩ := Option.map_eq_some_iff.mp hr
  obtain ⟨cs, hcs⟩ := putDigits_adds hq
  rw [hcs, ← Out.adds_append, ← Out.adds_append]
  exact ⟨_, rfl⟩

end OcamlRpi.Printf
