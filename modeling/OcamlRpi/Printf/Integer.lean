import OcamlRpi.Printf.Format
import OcamlRpi.Support.Digits

namespace OcamlRpi.Printf

open Function List Support

/-- `num` is read as a negative number. -/
def negative (num : ℕ) (flags : Flags) : Bool := flags.sign && decide (2 ^ 63 ≤ num)

def magnitude (num : ℕ) (flags : Flags) : ℕ := if negative num flags then 2 ^ 64 - num else num

def digitsText (num base : ℕ) (flags : Flags) : List UInt8 :=
  (numeral base (magnitude num flags)).map (digit flags.upper)

/-- The sign and the prefix. -/
def frontText (num : ℕ) (flags : Flags) : List UInt8 :=
  signText (negative num flags) flags ++ alternateText flags

def padChar (flags : Flags) : UInt8 := if flags.zeropad then '0'.toUInt8 else ' '.toUInt8

/-- The length of the text of a number. -/
def fieldLength (num base : ℕ) (width precision : ℤ) (flags : Flags) : ℕ :=
  max width.toNat ((frontText num flags).length + max precision.toNat (digitsText num base flags).length)

/-- The `width` that is left behind the digits, before it is an `int`. -/
def leftover (num base : ℕ) (width precision : ℤ) (flags : Flags) : ℤ :=
  let rest := width - (frontText num flags).length
  let digits := max precision (digitsText num base flags).length
  (if flags.left then rest else min rest digits - 1) - digits

variable {num base n : ℕ} {width precision x : ℤ} {flags : Flags} {upper : Bool} {tmp : List UInt8}

theorem cast_lt (signed : Bool) (bits : ℕ) (v : BitVec 32) : cast signed bits v < 2 ^ 64 := by
  cases signed with
  | true => exact BitVec.isLt _
  | false =>
    have hle : v.toNat % 2 ^ bits ≤ v.toNat := Nat.mod_le _ _
    have hlt := v.isLt
    simp only [cast, Bool.false_eq_true, if_false, BitVec.toNat_setWidth]
    omega

theorem cast_word (v : BitVec 32) :
    cast true 32 v = (v.signExtend 64).toNat ∧ (v.signExtend 64).toInt = v.toInt := by
  refine ⟨?_, BitVec.toInt_signExtend_of_le (by decide)⟩
  simp only [cast, if_true, BitVec.setWidth_eq]

theorem negative_toNat (v : BitVec 64) (hs : flags.sign = true) :
    negative v.toNat flags = decide (v.toInt < 0) := by
  have hcond := BitVec.toInt_eq_toNat_cond v
  have hlt := v.isLt
  rw [negative, hs, Bool.true_and, decide_eq_decide]
  split_ifs at hcond <;> omega

theorem magnitude_toNat (v : BitVec 64) (hs : flags.sign = true) : magnitude v.toNat flags = v.toInt.natAbs := by
  have hcond := BitVec.toInt_eq_toNat_cond v
  have hlt := v.isLt
  rw [magnitude, negative_toNat v hs]
  by_cases hv : v.toInt < 0
  · rw [if_pos (decide_eq_true hv)]
    split_ifs at hcond <;> omega
  · rw [if_neg (by simp [hv])]
    split_ifs at hcond <;> omega

theorem toDigits_eq (hb : 2 ≤ base) (num : ℕ) (tmp : List UInt8) :
    toDigits upper base num tmp = (Nat.digits base num).reverse.map (digit upper) ++ tmp := by
  fun_induction toDigits upper base num tmp with
  | case1 num tmp h =>
    have hz : num = 0 := by omega
    subst hz
    simp
  | case2 num tmp h ih =>
    have hpos : 0 < num := by omega
    rw [ih, Nat.digits_def' hb hpos]
    simp

theorem toDigits_numeral (hb : 2 ≤ base) (num : ℕ) :
    toDigits upper base num (if num = 0 then ['0'.toUInt8] else []) =
      (numeral base num).map (digit upper) := by
  rw [toDigits_eq hb]
  unfold numeral
  split_ifs with h
  · subst h
    cases upper <;> simp <;> decide
  · rw [append_nil]

theorem int_self (hlo : -2 ^ 31 ≤ x) (hhi : x < 2 ^ 31) : int x = x := by
  unfold int
  rw [Int.bmod_eq_of_le] <;> omega

theorem int_below (hlo : -2 ^ 32 ≤ x) (hhi : x < -2 ^ 31) : int x = x + 2 ^ 32 := by
  have h : int (x + 2 ^ 32) = int x := by
    unfold int
    exact Int.add_bmod_right x _
  rw [← h, int_self] <;> omega

theorem int_int (x y : ℤ) : int (int x + y) = int (x + y) := by
  unfold int
  exact Int.bmod_add_bmod

theorem decr_iterate (n : ℕ) (x : ℤ) : decr^[n] (int x) = int (x - n) := by
  induction n generalizing x with
  | zero => rw [iterate_zero, id, Nat.cast_zero, Int.sub_zero]
  | succ n ih =>
    rw [iterate_succ_apply, decr, Int.sub_eq_add_neg, int_int, ih]
    congr 1
    omega

theorem frontText_length_le (num : ℕ) (flags : Flags) : (frontText num flags).length ≤ 3 := by
  unfold frontText signText alternateText
  split_ifs <;> simp

theorem rest_eq (h₀ : 0 ≤ width) (h₁ : width < 2 ^ 31) (num : ℕ) (flags : Flags) :
    (if flags.alternate then int ((if negative num flags || flags.plus then int (width - 1) else width) - 2)
      else if negative num flags || flags.plus then int (width - 1) else width) =
      width - (frontText num flags).length := by
  have hsign : (if negative num flags || flags.plus then int (width - 1) else width) =
      width - (signText (negative num flags) flags).length := by
    unfold signText
    cases negative num flags <;> cases flags.plus <;> simp <;> exact int_self (by omega) (by omega)
  have hle : (signText (negative num flags) flags).length ≤ 1 := by
    unfold signText
    split_ifs <;> simp
  rw [hsign, frontText, length_append, alternateText]
  split_ifs with h
  · rw [int_self (by omega) (by omega), length_cons, length_singleton]
    omega
  · rw [length_nil]
    omega

/-- The number of pad characters that the width asks for. -/
def blanksBefore (num base : ℕ) (width precision : ℤ) (flags : Flags) : ℕ :=
  if flags.left then 0
  else (width - (frontText num flags).length - max precision (digitsText num base flags).length).toNat

theorem layout_eq (hb : 2 ≤ base) (h₀ : 0 ≤ width) (h₁ : width < 2 ^ 31) (num : ℕ) (precision : ℤ)
    (flags : Flags) :
    layout num base width precision flags =
      ⟨frontText num flags ++ replicate (blanksBefore num base width precision flags) (padChar flags) ++
          replicate (precision - (digitsText num base flags).length).toNat (padChar flags),
        digitsText num base flags,
        decr^[(precision - (digitsText num base flags).length).toNat]
          (if flags.left then width - (frontText num flags).length
            else int (min (width - (frontText num flags).length)
              (max precision (digitsText num base flags).length) - 1))⟩ := by
  have hrest := rest_eq h₀ h₁ num flags
  have hdigits : toDigits flags.upper base (magnitude num flags)
      (if magnitude num flags = 0 then ['0'.toUInt8] else []) = digitsText num base flags :=
    toDigits_numeral hb _
  have hprec : (if precision < (digitsText num base flags).length
      then ((digitsText num base flags).length : ℤ) else precision) =
        max precision (digitsText num base flags).length := by
    split_ifs <;> omega
  have hzeros : (max precision (digitsText num base flags).length -
      (digitsText num base flags).length).toNat = (precision - (digitsText num base flags).length).toNat := by
    omega
  unfold negative at hrest
  unfold magnitude negative at hdigits
  simp only [layout, hdigits, hprec, hrest, hzeros]
  rfl

/-- The number of blanks behind the digits. -/
def blanksAfter (num base : ℕ) (width precision : ℤ) (flags : Flags) : ℕ :=
  (int (leftover num base width precision flags)).toNat

theorem decr_leftover (hb : 2 ≤ base) (h₀ : 0 ≤ width) (h₁ : width < 2 ^ 31) (precision : ℤ) :
    decr^[(layout num base width precision flags).digits.length]
        (layout num base width precision flags).width =
      int (leftover num base width precision flags) := by
  have hle := frontText_length_le num flags
  have hself : (if flags.left then width - (frontText num flags).length
      else int (min (width - (frontText num flags).length)
        (max precision (digitsText num base flags).length) - 1)) =
      int (if flags.left then width - (frontText num flags).length
        else min (width - (frontText num flags).length)
          (max precision (digitsText num base flags).length) - 1) := by
    split_ifs
    · exact (int_self (by omega) (by omega)).symm
    · rfl
  rw [layout_eq hb h₀ h₁, hself]
  dsimp only
  rw [← iterate_add_apply, decr_iterate]
  congr 1
  simp only [leftover]
  omega

theorem chars_number (hb : 2 ≤ base) (h₀ : 0 ≤ width) (h₁ : width < 2 ^ 31) (precision : ℤ) :
    chars (numberText num base width precision flags) =
      frontText num flags ++
        replicate (blanksBefore num base width precision flags +
          (precision - (digitsText num base flags).length).toNat) (padChar flags) ++
        digitsText num base flags ++
        replicate (blanksAfter num base width precision flags) ' '.toUInt8 := by
  rw [chars_numberText, decr_leftover hb h₀ h₁, layout_eq hb h₀ h₁, replicate_add, blanksAfter]
  simp only [append_assoc]

/-- `width` stays an `int` as long as it is counted down. -/
theorem leftover_iff (h₀ : 0 ≤ width) :
    -2 ^ 31 ≤ leftover num base width precision flags ↔
      fieldLength num base width precision flags + (if flags.left then 0 else 1) ≤ width.toNat + 2 ^ 31 := by
  unfold leftover fieldLength
  dsimp only
  split_ifs <;> omega

theorem blanks_eq (h₀ : 0 ≤ width) (h₁ : width < 2 ^ 31)
    (h : -2 ^ 31 ≤ leftover num base width precision flags) :
    (blanksAfter num base width precision flags ≠ 0 → flags.left = true) ∧
      (frontText num flags).length + blanksBefore num base width precision flags +
        max precision.toNat (digitsText num base flags).length +
        blanksAfter num base width precision flags = fieldLength num base width precision flags := by
  have hlt : leftover num base width precision flags < 2 ^ 31 := by
    unfold leftover
    dsimp only
    split_ifs <;> omega
  rw [blanksAfter, int_self h hlt]
  unfold leftover blanksBefore fieldLength
  dsimp only
  cases flags.left <;> simp <;> omega

/-- Beyond that, it becomes positive, and blanks are printed. -/
theorem blanks_overflow (h₀ : 0 ≤ width) (hp : precision < 2 ^ 31)
    (hd : (digitsText num base flags).length < 2 ^ 31)
    (h : leftover num base width precision flags < -2 ^ 31) :
    ∃ k, 0 < k ∧ k < 2 ^ 32 ∧ blanksAfter num base width precision flags = k ∧
      (frontText num flags).length + blanksBefore num base width precision flags +
        max precision.toNat (digitsText num base flags).length =
          fieldLength num base width precision flags := by
  have hle := frontText_length_le num flags
  have hlo : -2 ^ 32 < leftover num base width precision flags := by
    unfold leftover
    dsimp only
    split_ifs <;> omega
  refine ⟨_, ?_, ?_, rfl, ?_⟩
  · rw [blanksAfter, int_below (by omega) h]
    omega
  · rw [blanksAfter, int_below (by omega) h]
    omega
  · unfold leftover at h
    unfold blanksBefore fieldLength
    dsimp only at h
    split_ifs at h ⊢ <;> omega

/-- The digits in `tmp`. -/
def scratch (num base : ℕ) (flags : Flags) : List UInt8 :=
  toDigits flags.upper base (magnitude num flags) (if magnitude num flags = 0 then ['0'.toUInt8] else [])

/-- What `sprint_int` promises: the text of the number is at `buf`, the result
points behind it, and `tmp` holds its digits. -/
def PrintsNumber (o : Out) (num base : ℕ) (width precision : ℤ) (flags : Flags) : Prop :=
  ∃ (o' : Out) (k j : ℕ) (text : List UInt8),
    (∃ m, ∀ n, m ≤ n → sprintInt n o num base width precision flags = some o') ∧
      o'.buf = o.buf + fieldLength num base width precision flags ∧
      text.length = fieldLength num base width precision flags ∧
      (∀ a, o'.written a =
        if o.buf ≤ a ∧ a < o.buf + text.length then text[a - o.buf]? else o.written a) ∧
      text = frontText num flags ++ replicate k (padChar flags) ++ digitsText num base flags ++
        replicate j ' '.toUInt8 ∧
      (j ≠ 0 → flags.left = true) ∧
      (scratch num base flags).length ≤ 20

variable {o : Out}

theorem digitsText_length_le (hb : base = 10 ∨ base = 16) (hn : num < 2 ^ 64) (flags : Flags) :
    (digitsText num base flags).length ≤ 20 := by
  have hm : magnitude num flags < 2 ^ 64 := by
    unfold magnitude negative
    split_ifs with h
    · have hneg : 2 ^ 63 ≤ num := by
        have hx := (Bool.and_eq_true _ _).mp h
        simpa using hx.2
      omega
    · exact hn
  rw [digitsText, length_map]
  rcases hb with rfl | rfl
  · exact length_numeral_le (by decide) (by decide) (Nat.lt_of_lt_of_le hm (by decide))
  · exact length_numeral_le (by decide) (by decide) (Nat.lt_of_lt_of_le hm (by decide))

theorem number_length (hb : 2 ≤ base) (h₀ : 0 ≤ width) (h₁ : width < 2 ^ 31) (num : ℕ) (precision : ℤ)
    (flags : Flags) :
    (chars (numberText num base width precision flags)).length =
      (frontText num flags).length + blanksBefore num base width precision flags +
        max precision.toNat (digitsText num base flags).length +
        blanksAfter num base width precision flags := by
  rw [chars_number hb h₀ h₁]
  simp only [length_append, length_replicate]
  omega

theorem sprintInt_room (hb : base = 10 ∨ base = 16) (h₀ : 0 ≤ width) (h₁ : width < 2 ^ 31)
    (hs : o.stop < 2 ^ 32) (hr : o.buf + fieldLength num base width precision flags ≤ o.stop)
    (hn : (digitsText num base flags).length ≤ n) :
    sprintInt n o num base width precision flags =
      some (o.adds (chars (numberText num base width precision flags))) := by
  have hlayout := layout_eq (by omega : 2 ≤ base) h₀ h₁ num precision flags
  have hroom : o.buf + ((layout num base width precision flags).before.length +
      (layout num base width precision flags).digits.length) ≤ o.stop := by
    rw [hlayout]
    simp only [length_append, length_replicate]
    unfold fieldLength at hr
    unfold blanksBefore
    split_ifs <;> omega
  have hbuf : (o.adds (layout num base width precision flags).before).buf =
      o.buf + (layout num base width precision flags).before.length := Out.adds_buf (by omega)
  have hdigits : (layout num base width precision flags).digits.length ≤ n := by rwa [hlayout]
  refine sprintInt_digits hb hs (fits_of_length_le ?_) hdigits
  rw [length_map, hbuf]
  omega

/-- With at most 2 ^ 31 characters more than `width`, counting it down does not
overflow. -/
theorem printsNumber_of_le (hn : num < 2 ^ 64) (hb : base = 10 ∨ base = 16) (h₀ : 0 ≤ width) (h₁ : width < 2 ^ 31)
    (hs : o.stop < 2 ^ 32) (hr : o.buf + fieldLength num base width precision flags ≤ o.stop)
    (h : fieldLength num base width precision flags + (if flags.left then 0 else 1) ≤ width.toNat + 2 ^ 31) :
    PrintsNumber o num base width precision flags := by
  have hb₂ : 2 ≤ base := by omega
  obtain ⟨hleft, hsum⟩ := blanks_eq h₀ h₁ ((leftover_iff h₀).mpr h)
  have hfield : (chars (numberText num base width precision flags)).length =
      fieldLength num base width precision flags := (number_length hb₂ h₀ h₁ num precision flags).trans hsum
  have hscratch : scratch num base flags = digitsText num base flags := toDigits_numeral hb₂ _
  refine ⟨_, _, _, _, ⟨_, fun n hn ↦ sprintInt_room (n := n) hb h₀ h₁ hs hr hn⟩, ?_, hfield, fun a ↦ ?_,
    chars_number hb₂ h₀ h₁ precision, hleft, hscratch ▸ digitsText_length_le hb hn flags⟩
  · rw [Out.adds_buf (by omega), hfield]
  · rw [Out.adds_written (by omega)]
    congr 1
    simp only [eq_iff_iff]
    omega

/-- A piece of the mapped memory is no longer than the kernel's half of it. -/
theorem length_mapped {a k : ℕ} (ha : a + k < 2 ^ 32) (hm : ∀ b, a ≤ b → b < a + k → Mapped b) : k ≤ 2 ^ 30 := by
  have hV : VIRT_BASE = 0xC0000000 := rfl
  unfold Mapped at hm
  by_cases hlow : a < 0x10000000
  · by_contra hk
    have := hm 0x10000000 (by omega) (by omega)
    omega
  · by_contra hk
    have := hm a (le_refl a) (by omega)
    omega

/-- `sprint_int` prints numbers as it promises where there is memory for them. -/
theorem sprintInt_number (hn : num < 2 ^ 64) (hb : base = 10 ∨ base = 16) (h₀ : 0 ≤ width) (h₁ : width < 2 ^ 31)
    (hs : o.stop < 2 ^ 32) (hr : o.buf + fieldLength num base width precision flags ≤ o.stop)
    (hm : ∀ a, o.buf ≤ a → a < o.buf + fieldLength num base width precision flags → Mapped a) :
    PrintsNumber o num base width precision flags := by
  have hlen := length_mapped (by omega) hm
  refine printsNumber_of_le hn hb h₀ h₁ hs hr ?_
  split_ifs <;> omega

/-- 123 with the width 5. -/
theorem sprintInt_number_small : PrintsNumber (.start 4096 8) 123 10 5 0 .empty :=
  sprintInt_number (o := .start 4096 8) (by decide) (.inl rfl) (by decide) (by decide) (by decide) (by decide)
    fun _ _ ha ↦ .inl (Nat.lt_trans ha (by decide))

end OcamlRpi.Printf
