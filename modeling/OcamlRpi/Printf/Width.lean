import OcamlRpi.Printf.Directive
import OcamlRpi.Printf.Integer
import OcamlRpi.Printf.Loop

namespace OcamlRpi.Printf

open List

/-- The argument is one that a directive of the type `c` and the length `l` prints. -/
def Suits (c : UInt8) (l : ℕ) : Arg → Prop
  | .int _ => c = 'c'.toUInt8 ∨ c ≠ 's'.toUInt8 ∧ l ≠ 8
  | .long _ => c ≠ 'c'.toUInt8 ∧ c ≠ 's'.toUInt8 ∧ l = 8
  | .str _ => c = 's'.toUInt8

/-- The placeholder whose `%` is at the offset `i` prints a text with the
property `P`, given room for it. -/
def Contributes (fmt : List UInt8) (i : ℕ) (args : List Arg) (P : List UInt8 → Prop) : Prop :=
  ∃ es j rest, contribution fmt i args = some (es, j, rest) ∧
    (∀ o : Out, o.buf + es.length ≤ o.stop → o.stop < 2 ^ 32 →
      Passes fmt (i, args, o) (j, rest, o.adds (chars es))) ∧ P (chars es)

/-- What the comments on width and precision promise: at least `w` characters,
and of a string at most `p`. -/
def KeepsWidth (w p : ℤ) (arg : Arg) (cs : List UInt8) : Prop :=
  w ≤ cs.length ∧ ∀ s, arg = .str s → ∃ a n b,
    cs = replicate a ' '.toUInt8 ++ s.take n ++ replicate b ' '.toUInt8 ∧ ∀ k : ℕ, p = k → n ≤ k

/-- The number of characters up to the NUL of a string, or `p` of them. -/
def shown (p : ℤ) (s : List UInt8) : ℕ :=
  if p = -1 then (s.takeWhile (· ≠ 0)).length else min p.toNat (s.takeWhile (· ≠ 0)).length

def WidthFits (c : UInt8) (w p : ℤ) : Arg → Prop
  | .int _ => c = 'c'.toUInt8 → w ≤ 1
  | .long _ => True
  | .str s => w ≤ shown p s

variable {fmt fl ws ps ls s tail : List UInt8} {c : UInt8} {i j l num base : ℕ} {w p : ℤ} {flags : Flags}
  {wargs pargs args rest : List Arg} {arg : Arg} {es : List Emission} {P : List UInt8 → Prop}

theorem contributes_iff (hi : byte fmt i = '%'.toUInt8) (h : contribution fmt i args = some (es, j, rest)) :
    Contributes fmt i args P ↔ P (chars es) := by
  constructor
  · intro hx
    obtain ⟨es', j', rest', h', -, hP⟩ := hx
    cases h.symm.trans h'
    exact hP
  · intro hP
    exact ⟨es, j, rest, h, fun o hr hs ↦ passes_contribution hi h hr hs, hP⟩

theorem contribution_conversion {action : Action} (hf : ∀ c ∈ fl, c ∈ FLAGS) (hw : WidthText ws wargs w)
    (hp : PrecisionText ps pargs p) (hl : LengthText ls l) (hc : c ∈ TYPES)
    (hfmt : fmt.drop i = conversion fl ws ps ls c ++ tail)
    (ha : convert (Flags.empty.add fl) w p l args c = some (action, rest)) :
    byte fmt i = '%'.toUInt8 ∧ contribution fmt i (wargs ++ (pargs ++ args)) =
      emits fmt (i + (conversion fl ws ps ls c).length) rest action := by
  refine ⟨(byte_of_drop (hfmt.trans (cons_append ..))).1, ?_⟩
  rw [contribution, placeholder_conversion hf hw hp hl hc hfmt ha, Option.bind_some]

theorem shown_le (p : ℤ) (s : List UInt8) : shown p s ≤ (s.takeWhile (· ≠ 0)).length := by
  unfold shown
  split_ifs
  · exact le_rfl
  · exact Nat.min_le_right _ _

theorem chars_prefixText (cs : List UInt8) (n : ℕ) : chars (prefixText cs n) = cs.take n := by
  unfold prefixText
  split_ifs with h
  · rw [chars_map_moves, take_of_length_le (Nat.le_of_lt h)]
  · exact chars_map_plain _

theorem chars_stringText (s : List UInt8) (p : ℤ) : chars (stringText s p) = s.take (shown p s) := by
  have hpre : s.takeWhile (· ≠ 0) = s.take (s.takeWhile (· ≠ 0)).length :=
    prefix_iff_eq_take.mp <| takeWhile_prefix _
  unfold stringText shown
  split_ifs
  · rw [chars_map_moves]
    exact hpre
  · rw [chars_prefixText]
    nth_rewrite 1 [hpre]
    exact take_take

theorem length_shown (p : ℤ) (s : List UInt8) : (s.take (shown p s)).length = shown p s := by
  have hpre : s.takeWhile (· ≠ 0) <+: s := takeWhile_prefix _
  have hle := hpre.length_le
  have hs := shown_le p s
  rw [length_take]
  omega

theorem string_width : KeepsWidth w p (.str s) (s.take (shown p s)) ↔ w ≤ shown p s := by
  rw [KeepsWidth, length_shown]
  refine ⟨fun h ↦ h.1, fun h ↦ ⟨h, fun s' hs ↦ ?_⟩⟩
  cases hs
  refine ⟨0, shown p s, 0, by simp, fun k hk ↦ ?_⟩
  unfold shown
  split_ifs <;> omega

/-- A number is never shorter than its width, overflow or not. -/
theorem number_width (hn : num < 2 ^ 64) (hb : base = 10 ∨ base = 16) (h₀ : 0 ≤ w) (h₁ : w < 2 ^ 31)
    (hp : p < 2 ^ 31) : w ≤ (chars (numberText num base w p flags)).length := by
  have hd := digitsText_length_le hb hn flags
  have hlen := number_length (by omega : 2 ≤ base) h₀ h₁ num p flags
  have hfield : w ≤ fieldLength num base w p flags := by
    unfold fieldLength
    omega
  by_cases h : -2 ^ 31 ≤ leftover num base w p flags
  · obtain ⟨-, hsum⟩ := blanks_eq h₀ h₁ h
    omega
  · obtain ⟨k, -, -, -, hsum⟩ := blanks_overflow h₀ hp (by omega) (Int.not_le.mp h)
    omega

theorem vaNum_eq (hl : LengthText ls l) (hc : c ≠ 'c'.toUInt8) (hs : c ≠ 's'.toUInt8) (ha : Suits c l arg)
    (signed : Bool) (args : List Arg) :
    ∃ num, vaNum signed l (arg :: args) = some (num, args) ∧ num < 2 ^ 64 := by
  cases arg with
  | int v =>
    have h8 : l ≠ 8 := (ha.resolve_left hc).2
    cases hl with
    | ll => exact absurd rfl h8
    | _ => exact ⟨_, rfl, cast_lt _ _ _⟩
  | long v =>
    obtain ⟨-, -, rfl⟩ := ha
    exact ⟨_, rfl, v.isLt⟩
  | str s => exact absurd ha hs

theorem convert_number (hl : LengthText ls l) (hc : c ∈ TYPES) (hc' : c ≠ 'c'.toUInt8) (hs : c ≠ 's'.toUInt8)
    (ha : Suits c l arg) (hp : p < 2 ^ 31) (flags : Flags) (w : ℤ) (args : List Arg) :
    ∃ num hex p' flags', convert flags w p l (arg :: args) c = some (.number num hex w p' flags', args) ∧
      num < 2 ^ 64 ∧ p' < 2 ^ 31 := by
  have hva := vaNum_eq hl hc' hs ha
  have hd : ∃ num hex p' flags', caseD flags w p l (arg :: args) = some (.number num hex w p' flags', args) ∧
      num < 2 ^ 64 ∧ p' < 2 ^ 31 := by
    obtain ⟨num, hnum, hlt⟩ := hva true args
    refine ⟨num, false, if p = -1 then 0 else p, { flags with sign := true }, ?_, hlt, by split_ifs <;> omega⟩
    rw [caseD, hnum]
    rfl
  have hu : ∀ (flags : Flags) (hex : Bool) (p : ℤ), p < 2 ^ 31 → ∃ num hex' p' flags',
      caseU flags w p l (arg :: args) hex = some (.number num hex' w p' flags', args) ∧
        num < 2 ^ 64 ∧ p' < 2 ^ 31 := by
    intro flags hex p hp
    obtain ⟨num, hnum, hlt⟩ := hva false args
    refine ⟨num, hex, if p = -1 then 0 else p, flags, ?_, hlt, by split_ifs <;> omega⟩
    rw [caseU, hnum]
    rfl
  simp only [TYPES, mem_cons, not_mem_nil, or_false] at hc
  rcases hc with rfl | rfl | rfl | rfl | rfl | rfl | rfl | rfl
  · exact hd
  · exact hd
  · exact hu _ true _ (by split_ifs <;> omega)
  · exact hu _ true _ hp
  · exact hu _ true _ hp
  · exact hu _ false _ hp
  · exact absurd rfl hc'
  · exact absurd rfl hs

section Conversions

variable (hf : ∀ c ∈ fl, c ∈ FLAGS) (hw : WidthText ws wargs w) (hp : PrecisionText ps pargs p)
  (hl : LengthText ls l)

include hf hw hp hl

theorem string_contributes (hfmt : fmt.drop i = conversion fl ws ps ls 's'.toUInt8 ++ tail) :
    Contributes fmt i (wargs ++ (pargs ++ .str s :: args)) (KeepsWidth w p (.str s)) ↔ w ≤ shown p s := by
  have hconv : convert (Flags.empty.add fl) w p l (.str s :: args) 's'.toUInt8 =
      some (.string s p, args) := rfl
  obtain ⟨hi, he⟩ := contribution_conversion hf hw hp hl (by decide) hfmt hconv
  rw [contributes_iff hi he, chars_stringText]
  exact string_width

theorem char_contributes (hfmt : fmt.drop i = conversion fl ws ps ls 'c'.toUInt8 ++ tail) (v : BitVec 32) :
    Contributes fmt i (wargs ++ (pargs ++ .int v :: args)) (KeepsWidth w p (.int v)) ↔ w ≤ 1 := by
  have hconv : convert (Flags.empty.add fl) w p l (.int v :: args) 'c'.toUInt8 =
      some (.char, .int v :: args) := rfl
  obtain ⟨hi, he⟩ := contribution_conversion hf hw hp hl (by decide) hfmt hconv
  rw [contributes_iff hi he]
  exact ⟨fun h ↦ h.1, fun h ↦ ⟨h, fun s hx ↦ by cases hx⟩⟩

theorem number_contributes (hc : c ∈ TYPES) (hc' : c ≠ 'c'.toUInt8) (hs : c ≠ 's'.toUInt8) (ha : Suits c l arg)
    (hfmt : fmt.drop i = conversion fl ws ps ls c ++ tail) :
    Contributes fmt i (wargs ++ (pargs ++ arg :: args)) (KeepsWidth w p arg) := by
  obtain ⟨h₀, h₁⟩ := hw.bounds
  obtain ⟨num, hex, p', flags', hconv, hn, hp'⟩ := convert_number hl hc hc' hs ha hp.lt (Flags.empty.add fl) w args
  obtain ⟨hi, he⟩ := contribution_conversion hf hw hp hl hc hfmt hconv
  have hb : (if hex then 16 else 10) = 10 ∨ (if hex then 16 else 10) = 16 := by
    cases hex <;> decide
  have hstr : ∀ s, arg ≠ .str s := by
    intro s hx
    subst hx
    exact hs ha
  rw [contributes_iff hi he]
  exact ⟨number_width hn hb h₀ h₁ hp', fun s hx ↦ absurd hx (hstr s)⟩

end Conversions

/-- Every directive keeps its width but `%c` and `%s`, which do not pad: these
keep it if it is not more than they print. -/
theorem conversion_width_iff (hf : ∀ c ∈ fl, c ∈ FLAGS) (hw : WidthText ws wargs w)
    (hp : PrecisionText ps pargs p) (hl : LengthText ls l) (hc : c ∈ TYPES) (ha : Suits c l arg)
    (hfmt : fmt.drop i = conversion fl ws ps ls c ++ tail) :
    Contributes fmt i (wargs ++ (pargs ++ arg :: args)) (KeepsWidth w p arg) ↔ WidthFits c w p arg := by
  cases arg with
  | str s =>
    obtain rfl : c = 's'.toUInt8 := ha
    exact string_contributes hf hw hp hl hfmt
  | long v => exact iff_of_true (number_contributes hf hw hp hl hc ha.1 ha.2.1 ha hfmt) trivial
  | int v =>
    by_cases hc' : c = 'c'.toUInt8
    · subst hc'
      rw [char_contributes hf hw hp hl hfmt v]
      exact ⟨fun h _ ↦ h, fun h ↦ h rfl⟩
    · have hs : c ≠ 's'.toUInt8 := (ha.resolve_left hc').1
      exact iff_of_true (number_contributes hf hw hp hl hc hc' hs ha hfmt) fun h ↦ absurd h hc'

theorem widthText_two : WidthText [50] [] 2 := .number (forall_mem_singleton.mpr rfl) (by decide) (by decide)

/-- `%2d` with 7. -/
theorem conversion_width_small :
    Contributes [37, 50, 100] 0 ([] ++ ([] ++ [.int 7])) (KeepsWidth 2 (-1) (.int 7)) := by
  have hf : ∀ c ∈ [], c ∈ FLAGS := forall_mem_nil _
  have hs : Suits 'd'.toUInt8 4 (.int 7) := .inr (by decide)
  exact (conversion_width_iff hf widthText_two .none .none (by decide) hs rfl).mpr fun h ↦ absurd h (by decide)

/-- `%2c` with `A` prints one character. -/
theorem conversion_width_wrong : ¬ ∀ (fmt fl ws ps ls tail : List UInt8) (c : UInt8) (i l : ℕ) (w p : ℤ)
    (wargs pargs args : List Arg) (arg : Arg), (∀ c ∈ fl, c ∈ FLAGS) → WidthText ws wargs w →
    PrecisionText ps pargs p → LengthText ls l → c ∈ TYPES → Suits c l arg →
    fmt.drop i = conversion fl ws ps ls c ++ tail →
    Contributes fmt i (wargs ++ (pargs ++ arg :: args)) (KeepsWidth w p arg) := by
  intro h
  have hx := h [37, 50, 99] [] [50] [] [] [] 'c'.toUInt8 0 4 2 (-1) [] [] [] (.int 65) (by simp) widthText_two
    .none .none (by decide) (.inl rfl) rfl
  have hcon : contribution [37, 50, 99] 0 [.int 65] = some ([.moves 65], 3, []) := rfl
  have hw : (2 : ℤ) ≤ (chars [Emission.moves 65]).length := ((contributes_iff rfl hcon).mp hx).1
  exact absurd hw (by decide)

end OcamlRpi.Printf
