import OcamlRpi.Printf.Directive
import OcamlRpi.Printf.Integer
import OcamlRpi.Printf.Sprintf
import OcamlRpi.Stdlib.CString
import OcamlRpi.Stdlib.Numeral

namespace OcamlRpi.Stdlib

open List Support
open Printf (byte toDigits Flags Layout layout numberText chars signText Emission Arg Text Returns Result
  patch WidthText directive FLAGS)

/-- The offset `k` is right behind the last digit of `s`. -/
def BehindDigits (s : List UInt8) (k : ℕ) : Prop :=
  0 < k ∧ digit (byte s (k - 1)) < 10 ∧ ∀ i, k ≤ i → 10 ≤ digit (byte s i)

def DECIMAL_FLAGS : List UInt8 := ['+'.toUInt8, ' '.toUInt8, '-'.toUInt8, '0'.toUInt8]

variable {num n : ℕ} {upper neg : Bool} {tmp fl ws sgn : List UInt8} {w : ℤ} {flags : Flags}
  {wargs : List Arg} {v : BitVec 32}

theorem digit_digit (upper : Bool) {d : ℕ} (h : d < 10) : digit (Printf.digit upper d) = d := by
  revert d upper
  decide

/-- The digits that `sprint_int` prints. -/
def digitsOf (upper : Bool) (num : ℕ) : List UInt8 :=
  toDigits upper 10 num (if num = 0 then ['0'.toUInt8] else [])

theorem digitsOf_eq (upper : Bool) (num : ℕ) :
    digitsOf upper num = (numeral 10 num).map (Printf.digit upper) :=
  Printf.toDigits_numeral (by decide) num

theorem digitsOf_spec (upper : Bool) (num : ℕ) :
    value 10 0 (digitsOf upper num) = num ∧ (∀ c ∈ digitsOf upper num, digit c < 10) ∧
      0 < (digitsOf upper num).length := by
  have hlt : ∀ d ∈ numeral 10 num, d < 10 := fun d hd ↦ lt_of_mem_numeral (by decide) hd
  have hdigit : (numeral 10 num).map (digit ∘ Printf.digit upper) = numeral 10 num :=
    (map_congr_left fun d hd ↦ digit_digit upper (hlt d hd)).trans (map_id _)
  rw [digitsOf_eq]
  refine ⟨?_, fun c hc ↦ ?_, ?_⟩
  · rw [value_eq_horner, map_map, hdigit, horner_numeral]
  · obtain ⟨d, hd, rfl⟩ := mem_map.mp hc
    rw [digit_digit upper (hlt d hd)]
    exact hlt d hd
  · rw [length_map]
    exact length_pos_iff.mpr (numeral_ne_nil 10 num)

/-- The blank that stands for a plus is skipped, and is no sign to `strtol`. -/
theorem signText_split (neg : Bool) (flags : Flags) :
    ∃ ws sgn, signText neg flags = ws ++ sgn ∧ (∀ c ∈ ws, isspace c) ∧ SignText sgn neg ∧
      ∀ c ∈ ws ++ sgn, c ≠ 0 := by
  cases neg with
  | true =>
    exact ⟨[], _, rfl, forall_mem_nil _, .minus, forall_mem_singleton.mpr (by decide)⟩
  | false =>
    cases hp : flags.plus with
    | false => exact ⟨[], [], by simp [signText, hp], forall_mem_nil _, .none, forall_mem_nil _⟩
    | true =>
      cases hs : flags.space with
      | false =>
        exact ⟨[], ['+'.toUInt8], by simp [signText, hp, hs], forall_mem_nil _, .plus,
          forall_mem_singleton.mpr (by decide)⟩
      | true =>
        exact ⟨[' '.toUInt8], [], by simp [signText, hp, hs], forall_mem_singleton.mpr (by decide), .none,
          forall_mem_singleton.mpr (by decide)⟩

/-- In front of the digits there are only zeros where blanks would separate
them from their sign. -/
theorem chars_decimal (flags : Flags) (h : flags.alternate = false) (hs : flags.sign = true) (h₀ : 0 ≤ w)
    (h₁ : w < 2 ^ 31) (hpad : 0 < w → flags.left = true ∨ flags.zeropad = true) (v : BitVec 32) :
    ∃ k j, chars (numberText (Printf.cast true 32 v) 10 w 0 flags) =
      signText (decide (v.toInt < 0)) flags ++
        (replicate k '0'.toUInt8 ++ digitsOf flags.upper v.toInt.natAbs ++ replicate j ' '.toUInt8) := by
  obtain ⟨hcast, hint⟩ := Printf.cast_word v
  have hfront : Printf.frontText (v.signExtend 64).toNat flags = signText (decide (v.toInt < 0)) flags := by
    rw [Printf.frontText, Printf.negative_toNat _ hs, hint]
    simp [Printf.alternateText, h]
  have hdigits : Printf.digitsText (v.signExtend 64).toNat 10 flags = digitsOf flags.upper v.toInt.natAbs := by
    rw [Printf.digitsText, Printf.magnitude_toNat _ hs, hint, digitsOf_eq]
  obtain ⟨j, hj⟩ : ∃ j, chars (numberText (Printf.cast true 32 v) 10 w 0 flags) = _ ++ replicate j ' '.toUInt8 :=
    ⟨_, Printf.chars_number (by decide) h₀ h₁ 0⟩
  rw [hcast, hfront, hdigits] at hj
  rw [hcast, hj]
  by_cases hz : flags.zeropad = true
  · rw [Printf.padChar, if_pos hz]
    simp only [append_assoc]
    exact ⟨_, j, rfl⟩
  · have hnone : Printf.blanksBefore (v.signExtend 64).toNat 10 w 0 flags = 0 := by
      have hw : flags.left = true ∨ w = 0 := by
        by_cases hpos : 0 < w
        · exact .inl ((hpad hpos).resolve_right hz)
        · omega
      unfold Printf.blanksBefore
      rcases hw with hl | rfl
      · rw [if_pos hl]
      · split_ifs <;> omega
    refine ⟨0, j, ?_⟩
    rw [hnone]
    simp

theorem behindDigits_append (pre : List UInt8) {ds : List UInt8} (j : ℕ) (hd : ∀ c ∈ ds, digit c < 10)
    (hlen : 0 < ds.length) :
    BehindDigits (pre ++ (ds ++ replicate j ' '.toUInt8)) (pre.length + ds.length) := by
  have hblank : ∀ i, 10 ≤ digit (byte (replicate j ' '.toUInt8) i) := by
    intro i
    simp only [byte, getD_eq_getElem?_getD, getElem?_replicate]
    split_ifs <;> decide
  refine ⟨by omega, ?_, ?_⟩
  · have hi : pre.length + ds.length - 1 = pre.length + (ds.length - 1) := by omega
    have hb : byte (ds ++ replicate j ' '.toUInt8) (ds.length - 1) ∈ ds := by
      have hlt : ds.length - 1 < ds.length := by omega
      simp [byte, getElem?_append_left hlt, hlt]
    rw [hi, byte_append_right]
    exact hd _ hb
  · intro i hi
    obtain ⟨m, rfl⟩ := Nat.exists_eq_add_of_le hi
    rw [Nat.add_assoc, byte_append_right, byte_append_right]
    exact hblank m

theorem strtol_decimal (hf : ∀ c ∈ sgn, c ≠ 0) (hw : ∀ c ∈ ws, isspace c)
    (hs : SignText sgn (decide (v.toInt < 0))) (k j : ℕ) (upper : Bool) :
    let s := ws ++ (sgn ++ (replicate k '0'.toUInt8 ++ digitsOf upper v.toInt.natAbs ++
      replicate j ' '.toUInt8))
    (∀ c ∈ s, c ≠ 0) ∧ ∃ p, BehindDigits s p ∧ strtol (some s) 10 = ⟨v.toInt, p, none⟩ := by
  intro s
  obtain ⟨hval, hdig, hpos⟩ := digitsOf_spec upper v.toInt.natAbs
  set ds := replicate k '0'.toUInt8 ++ digitsOf upper v.toInt.natAbs with hds
  have hd : ∀ c ∈ ds, digit c < 10 := by
    intro c hc
    rcases mem_append.mp hc with hc | hc
    · rw [(mem_replicate.mp hc).2]
      decide
    · exact hdig c hc
  have hlen : 0 < ds.length := by
    rw [hds, length_append]
    omega
  have hv : value 10 0 ds = v.toInt.natAbs := by
    rw [hds, value_append, value_zeros, hval]
  refine ⟨?_, ws.length + sgn.length + ds.length, ?_, ?_⟩
  · intro c hc
    rcases mem_append.mp hc with hc | hc
    · exact ne_zero_of_isspace (hw c hc)
    rcases mem_append.mp hc with hc | hc
    · exact hf c hc
    rcases mem_append.mp hc with hc | hc
    · exact ne_of_digit (Nat.lt_trans (hd c hc) (by decide)) (by decide)
    · rw [(mem_replicate.mp hc).2]
      decide
  · have hb := behindDigits_append (ws ++ sgn) j hd hlen
    rwa [append_assoc, length_append] at hb
  · have hr : ∀ c ∈ (replicate j ' '.toUInt8).head?, 10 ≤ digit c := by
      intro c hc
      have hm := mem_replicate.mp (mem_of_mem_head? hc)
      rw [hm.2]
      decide
    have hx := strtol_clamp (b := 10) (by decide) (by decide) hw hs (length_pos_iff.mp hlen) hd hr
    have habs : (if decide (v.toInt < 0) then -(v.toInt.natAbs : ℤ) else v.toInt.natAbs) = v.toInt := by
      by_cases hn : v.toInt < 0
      · rw [if_pos (decide_eq_true hn)]
        omega
      · rw [if_neg (by simp [hn])]
        omega
    have hlo : LONG_MIN ≤ v.toInt := BitVec.le_toInt v
    have hhi : v.toInt ≤ LONG_MAX := Int.le_of_lt_add_one (BitVec.toInt_lt (x := v))
    rw [hv, habs, clamp_eq hlo hhi] at hx
    exact hx

theorem cstring_of_text {fmt : List UInt8} {args rest : List Arg} {es : List Emission} {buf size : ℕ}
    (ht : Text fmt 0 args es rest) (hl : es.length < size) (hs : buf + size < 2 ^ 32)
    (hne : ∀ c ∈ chars es, c ≠ 0) (m : Mem) :
    ∃ r, Returns fmt args buf size r ∧ CString (patch m r.written) buf (chars es) := by
  have hfits := Printf.fits_of_length_le (Nat.le_of_lt hl)
  obtain ⟨r, hr, -, -, -, hwr⟩ := ht.truncates hs hfits (by omega)
  obtain ⟨htext, hend⟩ := hwr (by omega)
  have hmin : min (size - 1) es.length = es.length := by omega
  have hlen : (chars es).length = es.length := Printf.length_chars
  rw [hmin] at htext hend
  refine ⟨r, hr, fun i hi ↦ ?_, ?_⟩
  · have hget : (chars es)[i]? = some (chars es)[i] := getElem?_eq_getElem hi
    have hb : byte (chars es) i = (chars es)[i] := by
      rw [byte, getD_eq_getElem?_getD, hget, Option.getD_some]
    rw [patch, htext i (by omega), hget, hb]
    exact ⟨rfl, hne _ (getElem_mem hi)⟩
  · rw [patch, hlen, hend]
    rfl

theorem text_decimal (hfl : ∀ c ∈ fl, c ∈ FLAGS) (hw : WidthText ws wargs w) (v : BitVec 32) :
    Text (directive fl ws 'd'.toUInt8) 0 (wargs ++ [.int v])
      (numberText (Printf.cast true 32 v) 10 w 0 { Flags.empty.add fl with sign := true }) [] := by
  have hp := Printf.placeholder_directive (c := 'd'.toUInt8) [.int v] hfl hw (by decide) rfl
  have hend : byte (directive fl ws 'd'.toUInt8) (directive fl ws 'd'.toUInt8).length = 0 := by
    simp [byte]
  have ht := Text.placeholder (i := 0) rfl hp rfl (Text.stop hend)
  rw [append_nil] at ht
  exact ht

/-- `strtol` returns the number that `vsnprintf` printed with `%d`, if no
blanks can come between its sign and its digits. -/
theorem strtol_vsnprintf (hfl : ∀ c ∈ fl, c ∈ DECIMAL_FLAGS) (hw : WidthText ws wargs w)
    (hpad : 0 < w → '-'.toUInt8 ∈ fl ∨ '0'.toUInt8 ∈ fl) (v : BitVec 32) :
    ∃ es, Text (directive fl ws 'd'.toUInt8) 0 (wargs ++ [.int v]) es [] ∧
      ∀ (m : Mem) (buf size : ℕ), es.length < size → buf + size < 2 ^ 32 →
        ∃ r s p, Returns (directive fl ws 'd'.toUInt8) (wargs ++ [.int v]) buf size r ∧
          CString (patch m r.written) buf s ∧ BehindDigits s p ∧
            strtol (some s) 10 = ⟨v.toInt, p, none⟩ := by
  have hflags : ∀ c ∈ fl, c ∈ FLAGS := by
    intro c hc
    have hd := hfl c hc
    simp only [DECIMAL_FLAGS, FLAGS, mem_cons, not_mem_nil, or_false] at hd ⊢
    tauto
  have halt : (Flags.empty.add fl).alternate = false := by
    have hno : '#'.toUInt8 ∉ fl := fun h ↦ absurd (hfl _ h) (by decide)
    simp [Flags.add, Flags.empty, hno]
  obtain ⟨h₀, h₁⟩ := hw.bounds
  have hleft : 0 < w → (Flags.empty.add fl).left = true ∨ (Flags.empty.add fl).zeropad = true := by
    intro h
    simpa [Flags.add, Flags.empty] using hpad h
  obtain ⟨k, j, hchars⟩ := chars_decimal { Flags.empty.add fl with sign := true } halt rfl
    h₀ h₁ hleft v
  obtain ⟨us, sgn, hsplit, hus, hsgn, hne⟩ := signText_split (decide (v.toInt < 0))
    { Flags.empty.add fl with sign := true }
  obtain ⟨hz, p, hp, hval⟩ := strtol_decimal (fun c hc ↦ hne c (mem_append_right us hc)) hus hsgn k j
    (Flags.empty.add fl).upper
  rw [← append_assoc, ← hsplit, ← hchars] at hz hp hval
  refine ⟨_, text_decimal hflags hw v, fun m buf size hl hs ↦ ?_⟩
  obtain ⟨r, hr, hc⟩ := cstring_of_text (text_decimal hflags hw v) hl hs hz m
  exact ⟨r, _, p, hr, hc, hp, hval⟩

/-- `%012d` with the least number. -/
theorem strtol_vsnprintf_small :
    ∃ es, Text [37, 48, 49, 50, 100] 0 [.int 0x80000000] es [] ∧
      ∀ (m : Mem) (buf size : ℕ), es.length < size → buf + size < 2 ^ 32 →
        ∃ r s p, Returns [37, 48, 49, 50, 100] [.int 0x80000000] buf size r ∧
          CString (patch m r.written) buf s ∧ BehindDigits s p ∧
            strtol (some s) 10 = ⟨LONG_MIN, p, none⟩ :=
  have hfl : ∀ c ∈ [48], c ∈ DECIMAL_FLAGS := forall_mem_singleton.mpr (by decide)
  have hds : ∀ c ∈ [49, 50], Printf.isdigit c :=
    forall_mem_cons.mpr ⟨by decide, forall_mem_singleton.mpr (by decide)⟩
  have hw : WidthText [49, 50] [] 12 := .number hds (by decide) (by decide)
  strtol_vsnprintf hfl hw (fun _ ↦ .inr (by decide)) 0x80000000

end OcamlRpi.Stdlib
