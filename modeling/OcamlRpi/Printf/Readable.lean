import OcamlRpi.Printf.Truncation
import OcamlRpi.Printf.Width

namespace OcamlRpi.Printf

open List Support

/-- The argument of `%d` with the length `l` and its value. -/
inductive SignedArg : ℕ → Arg → ℤ → Prop
  | char (x : BitVec 32) : SignedArg 1 (.int x) (x.setWidth 8).toInt
  | short (x : BitVec 32) : SignedArg 2 (.int x) (x.setWidth 16).toInt
  | int (x : BitVec 32) : SignedArg 4 (.int x) x.toInt
  | long (x : BitVec 64) : SignedArg 8 (.long x) x.toInt

def decimalText (v : ℤ) : List UInt8 := (numeral 10 v.natAbs).map (digit false)

def signOf (v : ℤ) (plus : Bool) : List UInt8 :=
  if v < 0 then ['-'.toUInt8] else if plus then ['+'.toUInt8] else []

/-- Blanks are only in front of the sign and behind the last digit, and there
are at least `p` digits. -/
def Readable (v p : ℤ) (plus : Bool) (cs : List UInt8) : Prop :=
  ∃ k z j, cs = replicate k ' '.toUInt8 ++ signOf v plus ++ replicate z '0'.toUInt8 ++ decimalText v ++
    replicate j ' '.toUInt8 ∧ p ≤ z + (decimalText v).length

/-- `vsnprintf` prints a text with the property `P` into every buffer that is
large enough. -/
def Produces (fmt : List UInt8) (args : List Arg) (P : List UInt8 → Prop) : Prop :=
  ∃ es rest, Text fmt 0 args es rest ∧
    (∀ buf size, es.length < size → buf + size < 2 ^ 32 → Truncates fmt args es rest buf size) ∧ P (chars es)

variable {fmt fl ws ps ls tail : List UInt8} {j l n : ℕ} {v w p : ℤ} {wargs pargs args rest : List Arg} {arg : Arg}
  {es : List Emission} {P : List UInt8 → Prop}

theorem produces_iff (hi : byte fmt 0 = '%'.toUInt8) (h : contribution fmt 0 args = some (es, j, rest))
    (hj : byte fmt j = 0) : Produces fmt args P ↔ P (chars es) := by
  obtain ⟨⟨action, k, args'⟩, hp, he⟩ := Option.bind_eq_some_iff.mp h
  constructor
  · intro hx
    obtain ⟨es', rest', ht, -, hP⟩ := hx
    cases ht with
    | stop h₀ =>
      rw [hi] at h₀
      exact absurd h₀ (by decide)
    | literal _ hc _ => exact absurd hi hc
    | placeholder _ hp' he' ht' =>
      cases hp.symm.trans hp'
      cases he.symm.trans he'
      cases ht' with
      | stop _ => rwa [append_nil] at hP
      | literal h₀ _ _ => exact absurd hj h₀
      | placeholder h₀ _ _ _ =>
        rw [hj] at h₀
        exact absurd h₀ (by decide)
  · intro hP
    have ht : Text fmt 0 args (es ++ []) rest := .placeholder hi hp he (.stop hj)
    rw [append_nil] at ht
    exact ⟨es, rest, ht, fun buf size hl hs ↦ ht.truncates hs (fits_of_length_le (Nat.le_of_lt hl)) (by omega), hP⟩

section Blanks

variable {α : Type} [DecidableEq α] {blank zero : α} {sg ds : List α}

/-- Blanks between a sign and its digits do not go away by moving them. -/
theorem blanks_iff (hs : ∀ c ∈ sg, c ≠ blank) (hd : ∀ c ∈ ds, c ≠ blank) (hne : ds ≠ []) (hz : zero ≠ blank)
    (n j : ℕ) (p : ℤ) :
    (∃ k z j', sg ++ replicate n blank ++ ds ++ replicate j blank =
      replicate k blank ++ sg ++ replicate z zero ++ ds ++ replicate j' blank ∧ p ≤ z + ds.length) ↔
        p ≤ ds.length ∧ (sg = [] ∨ n = 0) := by
  have hsg : sg.filter (· ≠ blank) = sg := filter_eq_self.mpr (by simpa using hs)
  have hds : ds.filter (· ≠ blank) = ds := filter_eq_self.mpr (by simpa using hd)
  have hblank : ∀ n, (replicate n blank).filter (· ≠ blank) = [] := fun n ↦ filter_replicate_of_neg (by simp)
  have hzero : ∀ n, (replicate n zero).filter (· ≠ blank) = replicate n zero :=
    fun n ↦ filter_replicate_of_pos (by simpa using hz)
  obtain ⟨d, ds', rfl⟩ := exists_cons_of_ne_nil hne
  constructor
  · intro h
    obtain ⟨k, z, j', he, hp⟩ := h
    have hz₀ : z = 0 := by
      have hf := congrArg (fun cs ↦ (cs.filter (· ≠ blank)).length) he
      simp only [filter_append, hsg, hds, hblank, hzero, length_append, length_replicate, length_nil] at hf
      omega
    subst hz₀
    refine ⟨by simpa using hp, ?_⟩
    cases sg with
    | nil => exact .inl rfl
    | cons c sg =>
      -- the sign is the first character, so no blank is in front of it
      have hk : k = 0 := by
        cases k with
        | zero => rfl
        | succ k =>
          have hx : c = blank := by simpa [replicate_succ] using congrArg head? he
          exact absurd hx (hs c mem_cons_self)
      subst hk
      simp only [append_assoc, replicate_zero, nil_append, append_cancel_left_eq] at he
      cases n with
      | zero => exact .inr rfl
      | succ n =>
        have hx : blank = d := by simpa [replicate_succ] using congrArg head? he
        exact absurd hx.symm (hd d mem_cons_self)
  · intro h
    obtain ⟨hp, rfl | rfl⟩ := h
    · exact ⟨n, 0, j, by simp, by simpa using hp⟩
    · exact ⟨0, 0, j, by simp, by simpa using hp⟩

end Blanks

theorem SignedArg.vaNum (h : SignedArg l arg v) (args : List Arg) :
    ∃ x : BitVec 64, vaNum true l (arg :: args) = some (x.toNat, args) ∧ x.toInt = v := by
  cases h with
  | char x => exact ⟨_, rfl, BitVec.toInt_signExtend_of_le (by decide)⟩
  | short x => exact ⟨_, rfl, BitVec.toInt_signExtend_of_le (by decide)⟩
  | int x =>
    obtain ⟨hcast, hint⟩ := cast_word x
    exact ⟨x.signExtend 64, by rw [Printf.vaNum, hcast], hint⟩
  | long x => exact ⟨x, rfl, rfl⟩

/-- The flags that a signed number has in C99. -/
def SIGNED_FLAGS : List UInt8 := ['+'.toUInt8, '-'.toUInt8, '0'.toUInt8]

theorem frontText_signed (hf : ∀ c ∈ fl, c ∈ SIGNED_FLAGS) (x : BitVec 64) :
    frontText x.toNat { Flags.empty.add fl with sign := true } = signOf x.toInt ('+'.toUInt8 ∈ fl) := by
  have hspace : ' '.toUInt8 ∉ fl := fun h ↦ absurd (hf _ h) (by decide)
  have halt : '#'.toUInt8 ∉ fl := fun h ↦ absurd (hf _ h) (by decide)
  rw [frontText, negative_toNat x rfl]
  simp [signText, alternateText, signOf, Flags.add, Flags.empty, hspace, halt]

theorem digitsText_signed (x : BitVec 64) :
    digitsText x.toNat 10 { Flags.empty.add fl with sign := true } = decimalText x.toInt := by
  rw [digitsText, magnitude_toNat x rfl]
  rfl

theorem decimalText_ne_nil (v : ℤ) : decimalText v ≠ [] := by
  rw [decimalText, Ne, map_eq_nil_iff]
  exact numeral_ne_nil 10 v.natAbs

theorem digit_ne_blank (upper : Bool) : ∀ d < 10, digit upper d ≠ ' '.toUInt8 := by
  cases upper <;> decide

theorem decimalText_ne_blank (v : ℤ) : ∀ c ∈ decimalText v, c ≠ ' '.toUInt8 := by
  intro c hc
  obtain ⟨d, hd, rfl⟩ := mem_map.mp hc
  exact digit_ne_blank false d (lt_of_mem_numeral (by decide) hd)

theorem signOf_ne_blank (v : ℤ) (plus : Bool) : ∀ c ∈ signOf v plus, c ≠ ' '.toUInt8 := by
  unfold signOf
  split_ifs
  · exact forall_mem_singleton.mpr (by decide)
  · exact forall_mem_singleton.mpr (by decide)
  · exact forall_mem_nil _

theorem signOf_eq_nil (v : ℤ) (plus : Bool) : signOf v plus = [] ↔ 0 ≤ v ∧ plus = false := by
  unfold signOf
  split_ifs with h <;> simp_all

theorem signOf_length_le (v : ℤ) (plus : Bool) : (signOf v plus).length ≤ 1 := by
  unfold signOf
  split_ifs <;> simp

/-- The precision that `%d` gives to `sprint_int`. -/
def digitsAsked (p : ℤ) : ℤ := if p = -1 then 0 else p

theorem number_readable (hf : ∀ c ∈ fl, c ∈ SIGNED_FLAGS) (h₀ : 0 ≤ w) (h₁ : w < 2 ^ 31) (p : ℤ)
    (x : BitVec 64) :
    Readable x.toInt p ('+'.toUInt8 ∈ fl)
        (chars (numberText x.toNat 10 w (digitsAsked p) { Flags.empty.add fl with sign := true })) ↔
      '0'.toUInt8 ∈ fl ∨ p ≤ (decimalText x.toInt).length ∧
        ((0 ≤ x.toInt ∧ '+'.toUInt8 ∉ fl) ∨ '-'.toUInt8 ∈ fl ∨ w ≤ (decimalText x.toInt).length + 1) := by
  have hpos : 0 < (decimalText x.toInt).length := length_pos_iff.mpr (decimalText_ne_nil _)
  have hle := signOf_length_le x.toInt ('+'.toUInt8 ∈ fl)
  have hsg := signOf_eq_nil x.toInt (decide ('+'.toUInt8 ∈ fl))
  rw [chars_number (by decide) h₀ h₁, frontText_signed hf, digitsText_signed]
  by_cases hz : '0'.toUInt8 ∈ fl
  · have hpad : padChar { Flags.empty.add fl with sign := true } = '0'.toUInt8 := by
      simp [padChar, Flags.add, hz]
    rw [hpad]
    refine iff_of_true ⟨0, _, _, rfl, ?_⟩ (.inl hz)
    unfold digitsAsked
    split_ifs <;> omega
  · have hpad : padChar { Flags.empty.add fl with sign := true } = ' '.toUInt8 := by
      simp [padChar, Flags.add, Flags.empty, hz]
    rw [hpad, Readable, blanks_iff (signOf_ne_blank _ _) (decimalText_ne_blank _) (decimalText_ne_nil _) (by decide)]
    rw [or_iff_right hz, and_congr_right_iff]
    intro hp
    by_cases hs : 0 ≤ x.toInt ∧ '+'.toUInt8 ∉ fl
    · exact iff_of_true (.inl (hsg.mpr ⟨hs.1, decide_eq_false hs.2⟩)) (.inl hs)
    · have hne : signOf x.toInt ('+'.toUInt8 ∈ fl) ≠ [] :=
        fun h ↦ hs ⟨(hsg.mp h).1, of_decide_eq_false (hsg.mp h).2⟩
      have hone : (signOf x.toInt ('+'.toUInt8 ∈ fl)).length = 1 := by
        have hlt := length_pos_iff.mpr hne
        omega
      have hleft : ({ Flags.empty.add fl with sign := true } : Flags).left = decide ('-'.toUInt8 ∈ fl) := by
        simp [Flags.add, Flags.empty]
      have hp' : digitsAsked p ≤ (decimalText x.toInt).length := by
        unfold digitsAsked
        split_ifs <;> omega
      rw [or_iff_right hne, or_iff_right hs, blanksBefore, frontText_signed hf, digitsText_signed, hone, hleft]
      by_cases hl : '-'.toUInt8 ∈ fl
      · simp only [hl, decide_true, if_true, true_or, iff_true]
        omega
      · simp only [hl, decide_false, Bool.false_eq_true, if_false, false_or]
        omega

theorem produces_signed (hf : ∀ c ∈ fl, c ∈ SIGNED_FLAGS) (hw : WidthText ws wargs w)
    (hp : PrecisionText ps pargs p) (hl : LengthText ls l) (hv : SignedArg l arg v)
    (hfmt : fmt = conversion fl ws ps ls 'd'.toUInt8 ++ tail)
    (hend : byte fmt (conversion fl ws ps ls 'd'.toUInt8).length = 0) (args : List Arg) :
    ∃ x : BitVec 64, x.toInt = v ∧ ∀ P, Produces fmt (wargs ++ (pargs ++ arg :: args)) P ↔
      P (chars (numberText x.toNat 10 w (digitsAsked p) { Flags.empty.add fl with sign := true })) := by
  obtain ⟨x, hx, hv'⟩ := hv.vaNum args
  have hflags : ∀ c ∈ fl, c ∈ FLAGS := by
    intro c hc
    have hd := hf c hc
    simp only [SIGNED_FLAGS, FLAGS, mem_cons, not_mem_nil, or_false] at hd ⊢
    tauto
  have hconv : convert (Flags.empty.add fl) w p l (arg :: args) 'd'.toUInt8 =
      some (.number x.toNat false w (digitsAsked p) { Flags.empty.add fl with sign := true }, args) := by
    show caseD _ w p l (arg :: args) = _
    rw [caseD, hx]
    rfl
  have hdrop : fmt.drop 0 = conversion fl ws ps ls 'd'.toUInt8 ++ tail := hfmt
  obtain ⟨hi, he⟩ := contribution_conversion hflags hw hp hl (by decide) hdrop hconv
  exact ⟨x, hv', fun P ↦ produces_iff hi he (by rwa [Nat.zero_add])⟩

/-- `%d` prints a readable number with zeros for padding; with blanks, exactly
if there are no more digits asked for than it has, and no blanks behind a sign. -/
theorem decimal_readable_iff (hf : ∀ c ∈ fl, c ∈ SIGNED_FLAGS) (hw : WidthText ws wargs w)
    (hp : PrecisionText ps pargs p) (hl : LengthText ls l) (hv : SignedArg l arg v)
    (hfmt : fmt = conversion fl ws ps ls 'd'.toUInt8 ++ tail)
    (hend : byte fmt (conversion fl ws ps ls 'd'.toUInt8).length = 0) :
    Produces fmt (wargs ++ (pargs ++ arg :: args)) (Readable v p ('+'.toUInt8 ∈ fl)) ↔
      '0'.toUInt8 ∈ fl ∨ p ≤ (decimalText v).length ∧
        ((0 ≤ v ∧ '+'.toUInt8 ∉ fl) ∨ '-'.toUInt8 ∈ fl ∨ w ≤ (decimalText v).length + 1) := by
  obtain ⟨h₀, h₁⟩ := hw.bounds
  obtain ⟨x, rfl, hP⟩ := produces_signed hf hw hp hl hv hfmt hend args
  rw [hP]
  exact number_readable hf h₀ h₁ p x

theorem widthText_five : WidthText [53] [] 5 := .number (forall_mem_singleton.mpr rfl) (by decide) (by decide)

/-- `%05d` with -7. -/
theorem decimal_readable_small :
    Produces [37, 48, 53, 100] ([] ++ ([] ++ [.int (-7)])) (Readable (-7) (-1) ('+'.toUInt8 ∈ [48])) :=
  have hf : ∀ c ∈ [48], c ∈ SIGNED_FLAGS := forall_mem_singleton.mpr (by decide)
  (decimal_readable_iff hf widthText_five .none .none (.int (-7)) (append_nil _).symm rfl).mpr (.inl (by decide))

/-- `%5d` prints -7 with its blanks behind the sign. -/
theorem decimal_readable_wrong : ¬ ∀ (fmt fl ws ps ls tail : List UInt8) (l : ℕ) (w p v : ℤ)
    (wargs pargs args : List Arg) (arg : Arg), (∀ c ∈ fl, c ∈ SIGNED_FLAGS) → WidthText ws wargs w →
    PrecisionText ps pargs p → LengthText ls l → SignedArg l arg v →
    fmt = conversion fl ws ps ls 'd'.toUInt8 ++ tail →
    byte fmt (conversion fl ws ps ls 'd'.toUInt8).length = 0 →
    Produces fmt (wargs ++ (pargs ++ arg :: args)) (Readable v p ('+'.toUInt8 ∈ fl)) := by
  intro h
  have hf : ∀ c ∈ [], c ∈ SIGNED_FLAGS := forall_mem_nil _
  have hw := widthText_five
  have hv : SignedArg 4 (.int (-7)) (-7) := .int (-7)
  have hx := h [37, 53, 100] [] [53] [] [] [] 4 5 (-1) (-7) [] [] [] (.int (-7)) hf hw .none .none hv rfl rfl
  obtain ⟨x, hx', hP⟩ := produces_signed hf hw .none .none hv (append_nil _).symm rfl []
  have hread := (hP _).mp hx
  rw [← hx', number_readable hf (by decide) (by decide), hx'] at hread
  have hone : (decimalText (-7)).length = 1 := by
    simp [decimalText, numeral]
  rw [hone] at hread
  exact absurd hread (by decide)

end OcamlRpi.Printf
