import OcamlRpi.Printf.Format

namespace OcamlRpi.Printf

open Function List

inductive Kind where
  | number
  | char
  | string
  | percent
  | unknown
deriving DecidableEq

def Action.kind : Action → Kind
  | .number .. => .number
  | .char => .char
  | .string .. => .string
  | .percent => .percent
  | .unknown => .unknown

def kindOf (c : UInt8) : Kind :=
  match Char.ofUInt8 c with
  | 'd' => .number
  | 'i' => .number
  | 'p' => .number
  | 'X' => .number
  | 'x' => .number
  | 'u' => .number
  | 'c' => .char
  | 's' => .string
  | '%' => .percent
  | _ => .unknown

/-- The arguments that the type of a placeholder takes before anything is
printed. -/
def Kind.takes : Kind → ℕ
  | .number => 1
  | .string => 1
  | _ => 0

def widthEnd (fmt : List UInt8) (i : ℕ) : ℕ :=
  if byte fmt i = '*'.toUInt8 then i + 1
  else if isdigit (byte fmt i) then (atoi (fmt.drop i) 0 i).2
  else i

def precisionEnd (fmt : List UInt8) (i : ℕ) : ℕ :=
  if byte fmt i = '.'.toUInt8 then
    if byte fmt (i + 1) = '*'.toUInt8 then i + 2 else (atoi (fmt.drop (i + 1)) 0 (i + 1)).2
  else i

def flagsEnd (fmt : List UInt8) (i : ℕ) : ℕ := (parseFlags (fmt.drop i) .empty i).2

/-- The offset of the type of the placeholder. -/
def typeAt (fmt : List UInt8) (i : ℕ) : ℕ :=
  (parseLength fmt (precisionEnd fmt (widthEnd fmt (flagsEnd fmt i)))).2

/-- The arguments that a placeholder takes before anything is printed. -/
def takes (fmt : List UInt8) (i : ℕ) : ℕ :=
  let j := flagsEnd fmt i
  let k := widthEnd fmt j
  (if byte fmt j = '*'.toUInt8 then 1 else 0) +
    (if byte fmt k = '.'.toUInt8 ∧ byte fmt (k + 1) = '*'.toUInt8 then 1 else 0) +
      (kindOf (byte fmt (typeAt fmt i))).takes

variable {fmt : List UInt8} {i j k n m length : ℕ} {args rest : List Arg} {c : UInt8}
  {flags : Flags} {width precision x : ℤ} {action : Action}

theorem vaStar_length (h : vaStar args = some (x, rest)) : args.length = rest.length + 1 := by
  unfold vaStar at h
  split at h
  · cases h
    rfl
  · cases h

theorem vaNum_length {signed : Bool} (h : vaNum signed length args = some (n, rest)) :
    args.length = rest.length + 1 := by
  unfold vaNum at h
  split at h <;> cases h <;> rfl

theorem parseWidth_end (h : parseWidth fmt i args = some (x, j, rest)) :
    j = widthEnd fmt i ∧
      args.length = rest.length + if byte fmt i = '*'.toUInt8 then 1 else 0 := by
  unfold parseWidth at h
  unfold widthEnd
  split_ifs at h ⊢
  · obtain ⟨⟨a, l⟩, ha, he⟩ := Option.map_eq_some_iff.mp h
    cases he
    exact ⟨rfl, vaStar_length ha⟩
  · cases h
    exact ⟨rfl, rfl⟩
  · cases h
    exact ⟨rfl, rfl⟩

theorem parsePrecision_end (h : parsePrecision fmt i args = some (x, j, rest)) :
    j = precisionEnd fmt i ∧
      args.length = rest.length +
        if byte fmt i = '.'.toUInt8 ∧ byte fmt (i + 1) = '*'.toUInt8 then 1 else 0 := by
  unfold parsePrecision at h
  unfold precisionEnd
  by_cases hd : byte fmt i = '.'.toUInt8
  · by_cases hs : byte fmt (i + 1) = '*'.toUInt8
    · rw [if_pos hd, if_pos hs] at h
      obtain ⟨⟨a, l⟩, ha, he⟩ := Option.map_eq_some_iff.mp h
      cases he
      simp [hd, hs, vaStar_length ha]
    · rw [if_pos hd, if_neg hs] at h
      cases h
      simp [hd, hs]
  · rw [if_neg hd] at h
    cases h
    simp [hd]

theorem number_kind {signed hex : Bool} (h : (vaNum signed length args).map (fun (num, args) ↦
    (Action.number num hex width precision flags, args)) = some (action, rest)) :
    action.kind = .number ∧ args.length = rest.length + 1 := by
  obtain ⟨⟨a, l⟩, ha, he⟩ := Option.map_eq_some_iff.mp h
  cases he
  exact ⟨rfl, vaNum_length ha⟩

theorem convert_kind (h : convert flags width precision length args c = some (action, rest)) :
    action.kind = kindOf c ∧ args.length = rest.length + (kindOf c).takes := by
  unfold convert at h
  split at h
  iterate 6
    next hc =>
      have hk : kindOf c = .number := by simp [kindOf, hc]
      rw [hk]
      exact number_kind h
  next hc =>
    have hk : kindOf c = .char := by simp [kindOf, hc]
    rw [hk]
    cases h
    exact ⟨rfl, rfl⟩
  next hc =>
    have hk : kindOf c = .string := by simp [kindOf, hc]
    rw [hk]
    split at h <;> cases h
    exact ⟨rfl, rfl⟩
  next hc =>
    have hk : kindOf c = .percent := by simp [kindOf, hc]
    rw [hk]
    cases h
    exact ⟨rfl, rfl⟩
  next =>
    have hk : kindOf c = .unknown := by
      unfold kindOf
      split <;> first | contradiction | rfl
    rw [hk]
    cases h
    exact ⟨rfl, rfl⟩

theorem placeholder_eq_some :
    placeholder fmt i args = some (action, j, rest) ↔
      ∃ width k args' precision m args'',
        parseWidth fmt (flagsEnd fmt i) args = some (width, k, args') ∧
        parsePrecision fmt k args' = some (precision, m, args'') ∧
        convert (parseFlags (fmt.drop i) .empty i).1 width precision (parseLength fmt m).1 args''
          (byte fmt (parseLength fmt m).2) = some (action, rest) ∧
        j = (parseLength fmt m).2 + 1 := by
  simp only [placeholder, flagsEnd, Option.bind_eq_bind, Option.bind_eq_some_iff, Prod.exists,
    Option.some.injEq, Prod.mk.injEq]
  constructor
  · intro h
    obtain ⟨width, k, args₁, hw, precision, m, args₂, hp, a, r, hc, rfl, rfl, rfl⟩ := h
    exact ⟨width, k, args₁, precision, m, args₂, hw, hp, hc, rfl⟩
  · intro h
    obtain ⟨width, k, args₁, precision, m, args₂, hw, hp, hc, rfl⟩ := h
    exact ⟨width, k, args₁, hw, precision, m, args₂, hp, action, rest, hc, rfl, rfl, rfl⟩

/-- Where a placeholder ends, its kind and how many arguments it takes only
depend on the format. -/
theorem placeholder_form (h : placeholder fmt i args = some (action, j, rest)) :
    j = typeAt fmt i + 1 ∧ action.kind = kindOf (byte fmt (typeAt fmt i)) ∧
      args.length = rest.length + takes fmt i := by
  obtain ⟨width, k, args', precision, m, args'', hw, hp, hc, rfl⟩ := placeholder_eq_some.mp h
  obtain ⟨rfl, hlw⟩ := parseWidth_end hw
  obtain ⟨rfl, hlp⟩ := parsePrecision_end hp
  obtain ⟨hk, hlc⟩ := convert_kind hc
  refine ⟨rfl, hk, ?_⟩
  simp only [takes, typeAt]
  omega

/-- The bytes from `i` up to `j` are none that starts a placeholder. -/
def NoPercent (fmt : List UInt8) (i j : ℕ) : Prop :=
  ∀ m, i ≤ m → m < j → byte fmt m ≠ '%'.toUInt8

/-- The byte `d` is not from `i` up to `j`. -/
def Avoids (fmt : List UInt8) (d : UInt8) (i j : ℕ) : Prop :=
  ∀ m, i ≤ m → m < j → byte fmt m ≠ d

/-- The byte `d` stands for none of the flags, digits and letters in front of
the type of a placeholder. -/
def Outside (d : UInt8) : Prop :=
  Char.ofUInt8 d ∉ ['+', '-', '#', ' ', '0', '*', '.', 'h', 'l', 'z', 't'] ∧ isdigit d = false

instance (d : UInt8) : Decidable (Outside d) := by
  unfold Outside
  infer_instance

variable {d : UInt8}

theorem Avoids.trans (h : Avoids fmt d i j) (h' : Avoids fmt d j k) : Avoids fmt d i k := by
  intro m hi hk
  by_cases hj : m < j
  · exact h m hi hj
  · exact h' m (by omega) hk

theorem Avoids.refl (fmt : List UInt8) (d : UInt8) (i : ℕ) : Avoids fmt d i i := by
  intro m hi hj
  omega

theorem Avoids.succ (h : byte fmt i ≠ d) : Avoids fmt d i (i + 1) := by
  intro m hi hj
  obtain rfl : m = i := by omega
  exact h

theorem Outside.ne (hd : Outside d) {e : Char} (h : Char.ofUInt8 c = e)
    (he : e ∈ ['+', '-', '#', ' ', '0', '*', '.', 'h', 'l', 'z', 't']) : c ≠ d := by
  intro hx
  subst hx
  exact hd.1 (h ▸ he)

theorem byte_of_drop {cs : List UInt8} (h : fmt.drop i = c :: cs) :
    byte fmt i = c ∧ fmt.drop (i + 1) = cs := by
  constructor
  · have hx : (fmt.drop i).getD 0 0 = c := by rw [h]; rfl
    simpa [byte] using hx
  · rw [← drop_drop, h, drop_one, tail_cons]

theorem atoi_avoids (hd : Outside d) {cs : List UInt8} (h : fmt.drop i = cs) :
    i ≤ (atoi cs x i).2 ∧ Avoids fmt d i (atoi cs x i).2 := by
  induction cs generalizing i x with
  | nil => exact ⟨le_rfl, .refl fmt d i⟩
  | cons c cs ih =>
    obtain ⟨hb, hdrop⟩ := byte_of_drop h
    unfold atoi
    split_ifs with hc
    · obtain ⟨hle, hn⟩ := ih (x := int (x * 10 + (c - '0'.toUInt8).toNat)) hdrop
      refine ⟨by omega, Avoids.trans (.succ ?_) hn⟩
      rw [hb]
      intro he
      subst he
      exact absurd hc (by simp [hd.2])
    · exact ⟨le_rfl, .refl fmt d i⟩

theorem parseFlags_avoids (hd : Outside d) {cs : List UInt8} (h : fmt.drop i = cs) :
    i ≤ (parseFlags cs flags i).2 ∧ Avoids fmt d i (parseFlags cs flags i).2 := by
  induction cs generalizing i flags with
  | nil => exact ⟨le_rfl, .refl fmt d i⟩
  | cons c cs ih =>
    obtain ⟨hb, hdrop⟩ := byte_of_drop h
    have step : ∀ {e : Char} {flags' : Flags}, Char.ofUInt8 c = e →
        e ∈ ['+', '-', '#', ' ', '0', '*', '.', 'h', 'l', 'z', 't'] →
        i ≤ (parseFlags cs flags' (i + 1)).2 ∧ Avoids fmt d i (parseFlags cs flags' (i + 1)).2 := by
      intro e flags' hc he
      have hi : i + 1 ≤ (parseFlags cs flags' (i + 1)).2 ∧
          Avoids fmt d (i + 1) (parseFlags cs flags' (i + 1)).2 := ih hdrop
      obtain ⟨hle, hn⟩ := hi
      refine ⟨by omega, Avoids.trans (.succ ?_) hn⟩
      rw [hb]
      exact hd.ne hc he
    unfold parseFlags
    split
    iterate 5
      next hc => exact step hc (by decide)
    next => exact ⟨le_rfl, .refl fmt d i⟩

theorem byte_ne_of_eq (hd : Outside d) {e : Char} (h : byte fmt i = e.toUInt8)
    (he : Char.ofUInt8 e.toUInt8 = e ∧ e ∈ ['+', '-', '#', ' ', '0', '*', '.', 'h', 'l', 'z', 't']) :
    byte fmt i ≠ d :=
  hd.ne (h ▸ he.1) he.2

theorem widthEnd_avoids (hd : Outside d) (fmt : List UInt8) (i : ℕ) :
    i ≤ widthEnd fmt i ∧ Avoids fmt d i (widthEnd fmt i) := by
  unfold widthEnd
  split_ifs with h
  · exact ⟨by omega, .succ (byte_ne_of_eq hd h (by decide))⟩
  · exact atoi_avoids hd rfl
  · exact ⟨le_rfl, .refl fmt d i⟩

theorem precisionEnd_avoids (hd : Outside d) (fmt : List UInt8) (i : ℕ) :
    i ≤ precisionEnd fmt i ∧ Avoids fmt d i (precisionEnd fmt i) := by
  unfold precisionEnd
  split_ifs with h hs
  · have hdot := Avoids.succ (byte_ne_of_eq hd h (by decide))
    exact ⟨by omega, hdot.trans (.succ (byte_ne_of_eq hd hs (by decide)))⟩
  · obtain ⟨hle, hn⟩ := atoi_avoids hd (x := 0) (rfl : fmt.drop (i + 1) = _)
    exact ⟨by omega, Avoids.trans (.succ (byte_ne_of_eq hd h (by decide))) hn⟩
  · exact ⟨le_rfl, .refl fmt d i⟩

theorem parseLength_avoids (hd : Outside d) (fmt : List UInt8) (i : ℕ) :
    i ≤ (parseLength fmt i).2 ∧ Avoids fmt d i (parseLength fmt i).2 := by
  unfold parseLength
  split
  next h =>
    have hi := Avoids.succ (hd.ne h (by decide))
    split_ifs with hh
    · exact ⟨by simp, hi.trans (.succ (byte_ne_of_eq hd hh (by decide)))⟩
    · exact ⟨by simp, hi⟩
  next h =>
    have hi := Avoids.succ (hd.ne h (by decide))
    split_ifs with hh
    · exact ⟨by simp, hi.trans (.succ (byte_ne_of_eq hd hh (by decide)))⟩
    · exact ⟨by simp, hi⟩
  next h => exact ⟨by simp, .succ (hd.ne h (by decide))⟩
  next h => exact ⟨by simp, .succ (hd.ne h (by decide))⟩
  next => exact ⟨le_rfl, .refl fmt d i⟩

theorem typeAt_avoids (hd : Outside d) (fmt : List UInt8) (i : ℕ) :
    i ≤ typeAt fmt i ∧ Avoids fmt d i (typeAt fmt i) := by
  obtain ⟨h₁, hn₁⟩ := parseFlags_avoids hd (rfl : fmt.drop i = _)
  obtain ⟨h₂, hn₂⟩ := widthEnd_avoids hd fmt (flagsEnd fmt i)
  obtain ⟨h₃, hn₃⟩ := precisionEnd_avoids hd fmt (widthEnd fmt (flagsEnd fmt i))
  obtain ⟨h₄, hn₄⟩ := parseLength_avoids hd fmt
    (precisionEnd fmt (widthEnd fmt (flagsEnd fmt i)))
  exact ⟨Nat.le_trans h₁ (Nat.le_trans h₂ (Nat.le_trans h₃ h₄)), hn₁.trans (hn₂.trans (hn₃.trans hn₄))⟩

theorem typeAt_noPercent (fmt : List UInt8) (i : ℕ) :
    i ≤ typeAt fmt i ∧ NoPercent fmt i (typeAt fmt i) :=
  typeAt_avoids (by decide) fmt i

/-- An unknown placeholder is rewound to its own `%`, unless another one
follows. -/
theorem rewind_eq (hi : byte fmt i = '%'.toUInt8) (hij : i ≤ j) (hn : NoPercent fmt (i + 1) (j + 1)) :
    rewind fmt j = i := by
  induction j, hij using Nat.le_induction with
  | base =>
    cases i with
    | zero => rfl
    | succ i => rw [rewind, if_pos hi]
  | succ j hij ih =>
    rw [rewind, if_neg (hn (j + 1) (by omega) (by omega))]
    exact ih fun m h h' ↦ hn m h (by omega)

end OcamlRpi.Printf
