import Mathlib.Algebra.Ring.Int.Defs
import OcamlRpi.Printf.Text

namespace OcamlRpi.Printf

open List

/-- The characters that the label `repeat` takes. -/
def FLAGS : List UInt8 := ['+'.toUInt8, '-'.toUInt8, '#'.toUInt8, ' '.toUInt8, '0'.toUInt8]

/-- The flags with those of `fl` set as well. -/
def Flags.add (flags : Flags) (fl : List UInt8) : Flags where
  plus := flags.plus || '+'.toUInt8 ∈ fl
  left := flags.left || '-'.toUInt8 ∈ fl
  alternate := flags.alternate || '#'.toUInt8 ∈ fl
  space := flags.space || ' '.toUInt8 ∈ fl
  zeropad := flags.zeropad || '0'.toUInt8 ∈ fl
  sign := flags.sign
  upper := flags.upper

def TYPES : List UInt8 :=
  ['d'.toUInt8, 'i'.toUInt8, 'p'.toUInt8, 'X'.toUInt8, 'x'.toUInt8, 'u'.toUInt8, 'c'.toUInt8, 's'.toUInt8]

/-- The value of a decimal number that stands behind digits for `n`. -/
def decimal (n : ℕ) (ds : List UInt8) : ℕ := ds.foldl (fun n c ↦ n * 10 + (c - '0'.toUInt8).toNat) n

/-- A width in a format, with the argument it takes and its value. A number
does not start with a zero, which would be a flag. -/
inductive WidthText : List UInt8 → List Arg → ℤ → Prop
  | number {ds : List UInt8} (hd : ∀ c ∈ ds, isdigit c) (h₀ : ds.head? ≠ some '0'.toUInt8)
      (hv : decimal 0 ds < 2 ^ 31) : WidthText ds [] (decimal 0 ds)
  | star (v : BitVec 32) : WidthText ['*'.toUInt8] [.int v] (if v.toInt < 0 then 0 else v.toInt)

/-- A precision in a format, with the argument it takes and its value. -/
inductive PrecisionText : List UInt8 → List Arg → ℤ → Prop
  | none : PrecisionText [] [] (-1)
  | number {ds : List UInt8} (hd : ∀ c ∈ ds, isdigit c) :
      PrecisionText ('.'.toUInt8 :: ds) [] (int (decimal 0 ds))
  | star (v : BitVec 32) :
      PrecisionText ['.'.toUInt8, '*'.toUInt8] [.int v] (if v.toInt < 0 then 0 else v.toInt)

/-- A length in a format, and the number of bytes that it stands for. -/
inductive LengthText : List UInt8 → ℕ → Prop
  | none : LengthText [] 4
  | hh : LengthText ['h'.toUInt8, 'h'.toUInt8] 1
  | h : LengthText ['h'.toUInt8] 2
  | l : LengthText ['l'.toUInt8] 4
  | ll : LengthText ['l'.toUInt8, 'l'.toUInt8] 8
  | z : LengthText ['z'.toUInt8] 4
  | t : LengthText ['t'.toUInt8] 4

/-- A directive: `%[flags][width][.precision][length]type`. -/
def conversion (fl ws ps ls : List UInt8) (c : UInt8) : List UInt8 :=
  '%'.toUInt8 :: (fl ++ (ws ++ (ps ++ (ls ++ [c]))))

/-- A directive without precision and length. -/
def directive (fl ws : List UInt8) (c : UInt8) : List UInt8 := '%'.toUInt8 :: (fl ++ (ws ++ [c]))

variable {fl ws ps ls ds rest cs fmt tail : List UInt8} {c e : UInt8} {d : Char} {flags : Flags} {i l n : ℕ}
  {wargs pargs args args' : List Arg} {w p : ℤ} {action : Action}

theorem eq_of_ofUInt8 (h : Char.ofUInt8 c = d) : c = d.toUInt8 := by
  obtain rfl := h
  exact (UInt8.toUInt8_toUInt32 c).symm

theorem notMem_of_ofUInt8 {l : List UInt8} (hc : c ∉ l) (h : Char.ofUInt8 c = d) : d.toUInt8 ∉ l := by
  rw [← eq_of_ofUInt8 h]
  exact hc

theorem parseFlags_stop (hc : c ∉ FLAGS) : parseFlags (c :: cs) flags i = (flags, i) := by
  unfold parseFlags
  split
  iterate 5
    next h => exact absurd (by decide) (notMem_of_ofUInt8 hc h)
  next => rfl

theorem parseFlags_cons (hc : c ∈ FLAGS) (cs : List UInt8) (flags : Flags) (i : ℕ) :
    parseFlags (c :: cs) flags i = parseFlags cs (flags.add [c]) (i + 1) := by
  have hadd : ∀ flags', parseFlags (c :: cs) flags i = parseFlags cs flags' (i + 1) →
      flags' = flags.add [c] →
      parseFlags (c :: cs) flags i = parseFlags cs (flags.add [c]) (i + 1) := by
    rintro flags' h rfl
    exact h
  simp only [FLAGS, mem_cons, not_mem_nil, or_false] at hc
  rcases hc with rfl | rfl | rfl | rfl | rfl
  · apply hadd { flags with plus := true } rfl
    simp +decide [Flags.add]
  · apply hadd { flags with left := true } rfl
    simp +decide [Flags.add]
  · apply hadd { flags with alternate := true } rfl
    simp +decide [Flags.add]
  · apply hadd { flags with space := true } rfl
    simp +decide [Flags.add]
  · apply hadd { flags with zeropad := true } rfl
    simp +decide [Flags.add]

theorem Flags.add_cons (flags : Flags) (c : UInt8) (fl : List UInt8) :
    flags.add (c :: fl) = (flags.add [c]).add fl := by
  simp [Flags.add, Bool.or_assoc]

theorem parseFlags_append (flags : Flags) (i : ℕ) (hf : ∀ c ∈ fl, c ∈ FLAGS)
    (hr : ∀ c ∈ rest.head?, c ∉ FLAGS) : parseFlags (fl ++ rest) flags i = (flags.add fl, i + fl.length) := by
  induction fl generalizing flags i with
  | nil =>
    have hadd : flags.add [] = flags := by simp [Flags.add]
    rw [hadd]
    cases rest with
    | nil => rfl
    | cons c rest => exact parseFlags_stop (hr c rfl)
  | cons c fl ih =>
    have hfl : ∀ c ∈ fl, c ∈ FLAGS := fun c hc ↦ hf c (mem_cons_of_mem _ hc)
    rw [cons_append, parseFlags_cons (hf c mem_cons_self), ih _ _ hfl, ← Flags.add_cons, length_cons,
      Nat.add_assoc, Nat.add_comm 1]

theorem letter_stop (he : e ∈ ['h'.toUInt8, 'l'.toUInt8, 'z'.toUInt8, 't'.toUInt8] ++ TYPES) :
    e ∉ FLAGS ∧ isdigit e = false ∧ e ≠ '*'.toUInt8 ∧ e ≠ '.'.toUInt8 := by
  simp only [TYPES, mem_append, mem_cons, not_mem_nil, or_false] at he
  rcases he with (rfl | rfl | rfl | rfl) | rfl | rfl | rfl | rfl | rfl | rfl | rfl | rfl <;> decide

theorem types_noLength (hc : c ∈ TYPES) : c ∉ ['h'.toUInt8, 'l'.toUInt8, 'z'.toUInt8, 't'.toUInt8] := by
  simp only [TYPES, mem_cons, not_mem_nil, or_false] at hc
  rcases hc with rfl | rfl | rfl | rfl | rfl | rfl | rfl | rfl <;> decide

theorem digit_stop (he : isdigit e) : e ≠ '*'.toUInt8 ∧ e ≠ '.'.toUInt8 ∧ (e ∈ FLAGS → e = '0'.toUInt8) := by
  refine ⟨?_, ?_, fun hf ↦ ?_⟩
  · rintro rfl
    exact absurd he (by decide)
  · rintro rfl
    exact absurd he (by decide)
  · simp only [FLAGS, mem_cons, not_mem_nil, or_false] at hf
    rcases hf with rfl | rfl | rfl | rfl | rfl
    iterate 4 exact absurd he (by decide)
    rfl

theorem int_eq {x : ℕ} (h : x < 2 ^ 31) : int x = x := by
  unfold int
  rw [Int.bmod_eq_of_le] <;> omega

theorem int_mul_add (x y z : ℤ) : int (int x * y + z) = int (x * y + z) := by
  unfold int
  rw [← Int.bmod_add_bmod, Int.bmod_mul_bmod, Int.bmod_add_bmod]

/-- `atoi` wraps as an `int` does. -/
theorem atoi_int (hd : ∀ c ∈ ds, isdigit c) (he : isdigit e = false) (n i : ℕ) :
    atoi (ds ++ e :: tail) (int n) i = (int (decimal n ds), i + ds.length) := by
  induction ds generalizing n i with
  | nil => rw [nil_append, atoi, if_neg (by simp [he])]; rfl
  | cons c ds ih =>
    have hds : ∀ c ∈ ds, isdigit c := fun c hc ↦ hd c (mem_cons_of_mem _ hc)
    have hint : int (int n * 10 + (c - '0'.toUInt8).toNat) =
        int ((n * 10 + (c - '0'.toUInt8).toNat : ℕ) : ℤ) := by
      rw [int_mul_add]
      push_cast
      rfl
    rw [cons_append, atoi, if_pos (hd c mem_cons_self), hint, ih hds, length_cons, Nat.add_assoc,
      Nat.add_comm 1]
    rfl

theorem WidthText.bounds (hw : WidthText ws wargs w) : 0 ≤ w ∧ w < 2 ^ 31 := by
  cases hw with
  | number _ _ hv => omega
  | star v =>
    have hlt := v.toInt_lt
    split_ifs <;> omega

theorem PrecisionText.lt (hp : PrecisionText ps pargs p) : p < 2 ^ 31 := by
  cases hp with
  | none => decide
  | number _ => exact Int.bmod_lt (by decide)
  | star v =>
    have hlt := v.toInt_lt
    split_ifs <;> omega

theorem parseWidth_eq (hw : WidthText ws wargs w) (he : isdigit e = false) (hs : e ≠ '*'.toUInt8)
    (hf : fmt.drop i = ws ++ e :: tail) (args : List Arg) :
    parseWidth fmt i (wargs ++ args) = some (w, i + ws.length, args) := by
  unfold parseWidth
  cases hw with
  | number hd h₀ hv =>
    cases ws with
    | nil =>
      have hb : byte fmt i = e := (byte_of_drop hf).1
      rw [hb, if_neg hs, if_neg (by simp [he])]
      rfl
    | cons d ws =>
      have hb : byte fmt i = d := (byte_of_drop hf).1
      have hd₀ := hd d mem_cons_self
      have ha : atoi (d :: ws ++ e :: tail) 0 i = _ := atoi_int hd he 0 i
      rw [hb, if_neg (digit_stop hd₀).1, if_pos hd₀, hf, ha, int_eq hv]
      rfl
  | star v =>
    have hb : byte fmt i = '*'.toUInt8 := (byte_of_drop hf).1
    rw [if_pos hb]
    rfl

theorem parsePrecision_eq (hp : PrecisionText ps pargs p) (he : isdigit e = false) (hs : e ≠ '*'.toUInt8)
    (hdot : e ≠ '.'.toUInt8) (hf : fmt.drop i = ps ++ e :: tail) (args : List Arg) :
    parsePrecision fmt i (pargs ++ args) = some (p, i + ps.length, args) := by
  unfold parsePrecision
  cases hp with
  | none =>
    have hb : byte fmt i = e := (byte_of_drop hf).1
    rw [hb, if_neg hdot]
    rfl
  | @number ds hd =>
    obtain ⟨hb, hdrop⟩ := byte_of_drop hf
    have hb' : byte fmt (i + 1) ≠ '*'.toUInt8 := by
      cases ds with
      | nil =>
        rw [(byte_of_drop hdrop).1]
        exact hs
      | cons d ds =>
        rw [(byte_of_drop hdrop).1]
        exact (digit_stop (hd d mem_cons_self)).1
    have ha : atoi (ds ++ e :: tail) 0 (i + 1) = _ := atoi_int hd he 0 (i + 1)
    rw [if_pos hb, if_neg hb', hdrop]
    simp only [append_eq, ha, length_cons, nil_append]
    rw [Nat.add_assoc, Nat.add_comm 1]
  | star v =>
    obtain ⟨hb, hdrop⟩ := byte_of_drop hf
    rw [if_pos hb, if_pos (byte_of_drop hdrop).1]
    rfl

theorem parseLength_stop (h : byte fmt i ∉ ['h'.toUInt8, 'l'.toUInt8, 'z'.toUInt8, 't'.toUInt8]) :
    parseLength fmt i = (4, i) := by
  unfold parseLength
  split
  iterate 4
    next hd => exact absurd (by decide) (notMem_of_ofUInt8 h hd)
  next => rfl

theorem parseLength_eq (hl : LengthText ls l) (hc : c ∈ TYPES) (hf : fmt.drop i = ls ++ c :: tail) :
    parseLength fmt i = (l, i + ls.length) := by
  have hstop := types_noLength hc
  cases hl with
  | none =>
    refine parseLength_stop ?_
    rw [(byte_of_drop hf).1]
    exact hstop
  | hh =>
    obtain ⟨hb, hdrop⟩ := byte_of_drop hf
    unfold parseLength
    rw [hb, (byte_of_drop hdrop).1]
    rfl
  | h =>
    obtain ⟨hb, hdrop⟩ := byte_of_drop hf
    have hne : c ≠ 'h'.toUInt8 := by
      rintro rfl
      exact hstop (by decide)
    unfold parseLength
    rw [hb, (byte_of_drop hdrop).1]
    exact if_neg hne
  | l =>
    obtain ⟨hb, hdrop⟩ := byte_of_drop hf
    have hne : c ≠ 'l'.toUInt8 := by
      rintro rfl
      exact hstop (by decide)
    unfold parseLength
    rw [hb, (byte_of_drop hdrop).1]
    exact if_neg hne
  | ll =>
    obtain ⟨hb, hdrop⟩ := byte_of_drop hf
    unfold parseLength
    rw [hb, (byte_of_drop hdrop).1]
    rfl
  | z =>
    unfold parseLength
    rw [(byte_of_drop hf).1]
    rfl
  | t =>
    unfold parseLength
    rw [(byte_of_drop hf).1]
    rfl

theorem LengthText.head (hl : LengthText ls l) (hc : c ∈ TYPES) (tail : List UInt8) :
    ∃ e t, ls ++ c :: tail = e :: t ∧ e ∈ ['h'.toUInt8, 'l'.toUInt8, 'z'.toUInt8, 't'.toUInt8] ++ TYPES := by
  cases hl with
  | none => exact ⟨_, _, rfl, mem_append_right _ hc⟩
  | _ => exact ⟨_, _, rfl, by decide⟩

theorem PrecisionText.head (hp : PrecisionText ps pargs p) (hl : LengthText ls l) (hc : c ∈ TYPES)
    (tail : List UInt8) :
    ∃ e t, ps ++ (ls ++ c :: tail) = e :: t ∧ e ∉ FLAGS ∧ isdigit e = false ∧ e ≠ '*'.toUInt8 := by
  cases hp with
  | none =>
    obtain ⟨e, t, ht, he⟩ := hl.head hc tail
    obtain ⟨hflag, hdig, hstar, -⟩ := letter_stop he
    exact ⟨e, t, ht, hflag, hdig, hstar⟩
  | _ => exact ⟨_, _, rfl, by decide⟩

theorem WidthText.head (hw : WidthText ws wargs w) (he : e ∉ FLAGS) :
    ∀ d ∈ (ws ++ e :: tail).head?, d ∉ FLAGS := by
  intro d hd
  cases hw with
  | number hdig h₀ _ =>
    cases ws with
    | nil =>
      obtain rfl : e = d := by simpa using hd
      exact he
    | cons a ws =>
      obtain rfl : a = d := by simpa using hd
      intro hf
      have hz := (digit_stop (hdig a mem_cons_self)).2.2 hf
      exact h₀ (by rw [hz]; rfl)
  | star v =>
    obtain rfl : '*'.toUInt8 = d := by simpa using hd
    decide

/-- A directive reads its own characters, whatever follows it. -/
theorem placeholder_conversion (hf : ∀ c ∈ fl, c ∈ FLAGS) (hw : WidthText ws wargs w)
    (hp : PrecisionText ps pargs p) (hl : LengthText ls l) (hc : c ∈ TYPES)
    (hfmt : fmt.drop i = conversion fl ws ps ls c ++ tail)
    (ha : convert (Flags.empty.add fl) w p l args c = some (action, args')) :
    placeholder fmt (i + 1) (wargs ++ (pargs ++ args)) =
      some (action, i + (conversion fl ws ps ls c).length, args') := by
  obtain ⟨e, t, ht, heflag, hedig, hestar⟩ := hp.head hl hc tail
  obtain ⟨e', t', ht', he'⟩ := hl.head hc tail
  obtain ⟨-, hedig', hestar', hedot'⟩ := letter_stop he'
  have h₁ : fmt.drop (i + 1) = fl ++ (ws ++ (ps ++ (ls ++ c :: tail))) := by
    have hx := (byte_of_drop (hfmt.trans (cons_append ..))).2
    simpa using hx
  have h₂ : fmt.drop (i + 1 + fl.length) = ws ++ (ps ++ (ls ++ c :: tail)) := by
    rw [← drop_drop, h₁, drop_left]
  have h₃ : fmt.drop (i + 1 + fl.length + ws.length) = ps ++ (ls ++ c :: tail) := by
    rw [← drop_drop, h₂, drop_left]
  have h₄ : fmt.drop (i + 1 + fl.length + ws.length + ps.length) = ls ++ c :: tail := by
    rw [← drop_drop, h₃, drop_left]
  have h₅ : fmt.drop (i + 1 + fl.length + ws.length + ps.length + ls.length) = c :: tail := by
    rw [← drop_drop, h₄, drop_left]
  have hflags := parseFlags_append .empty (i + 1) hf (ht ▸ hw.head heflag : ∀ d ∈ _, d ∉ FLAGS)
  have hlength := parseLength_eq hl hc h₄
  refine placeholder_eq_some.mpr ⟨w, i + 1 + fl.length + ws.length, pargs ++ args, p,
    i + 1 + fl.length + ws.length + ps.length, args, ?_, ?_, ?_, ?_⟩
  · rw [flagsEnd, h₁, hflags]
    exact parseWidth_eq hw hedig hestar (h₂.trans (by rw [ht])) _
  · exact parsePrecision_eq hp hedig' hestar' hedot' (h₃.trans (by rw [ht'])) _
  · rw [hlength, (byte_of_drop h₅).1, h₁, hflags]
    exact ha
  · rw [hlength]
    simp only [conversion, length_cons, length_append, length_nil]
    omega

theorem placeholder_directive (args : List Arg) (hf : ∀ c ∈ fl, c ∈ FLAGS) (hw : WidthText ws wargs w)
    (hc : c ∈ TYPES) {rest : List Arg} (ha : convert (Flags.empty.add fl) w (-1) 4 args c = some (action, rest)) :
    placeholder (directive fl ws c) 1 (wargs ++ args) =
      some (action, (directive fl ws c).length, rest) := by
  have hfmt : (directive fl ws c).drop 0 = conversion fl ws [] [] c ++ [] := (append_nil _).symm
  have hx : placeholder (directive fl ws c) 1 (wargs ++ args) =
      some (action, 0 + (directive fl ws c).length, rest) := placeholder_conversion hf hw .none .none hc hfmt ha
  rwa [Nat.zero_add] at hx

end OcamlRpi.Printf
