import OcamlRpi.Stdlib.Range

namespace OcamlRpi.Stdlib

open List Support
open Printf (byte)

/-- The value of a character as a digit, in the usual notation of numbers. -/
def digitValue (c : UInt8) : Option ℕ :=
  if '0'.toUInt8 ≤ c ∧ c ≤ '9'.toUInt8 then some (c - '0'.toUInt8).toNat
  else if 'A'.toUInt8 ≤ c ∧ c ≤ 'Z'.toUInt8 then some ((c - 'A'.toUInt8).toNat + 10)
  else if 'a'.toUInt8 ≤ c ∧ c ≤ 'z'.toUInt8 then some ((c - 'a'.toUInt8).toNat + 10)
  else none

/-- `digit`, as a function of the value of the character. -/
def misread (d : ℕ) : ℕ := if d < 10 then d else d + 6

/-- What stands in front of a number in the base `b`. -/
inductive PrefixText (b : ℕ) : List UInt8 → Prop
  | none : PrefixText b []
  | lower (h : b = 16) : PrefixText b ['0'.toUInt8, 'x'.toUInt8]
  | upper (h : b = 16) : PrefixText b ['0'.toUInt8, 'X'.toUInt8]

/-- The string `s` is the number `v` in the base `b`. -/
def NumberText (b : ℕ) (v : ℤ) (s : List UInt8) : Prop :=
  ∃ pre cs, s = (if v < 0 then ['-'.toUInt8] else []) ++ (pre ++ cs) ∧ PrefixText b pre ∧
    cs.map digitValue = (numeral b v.natAbs).map some

variable {b d n p : ℕ} {c : UInt8} {s sgn pre cs : List UInt8} {ds : List ℕ}
  {neg : Bool}

theorem digit_misread (h : digitValue c = some d) : digit c = misread d := by
  unfold digitValue at h
  split_ifs at h with h₁ h₂ h₃ <;> cases h
  · have hlast : c.toNat ≤ 57 := UInt8.le_iff_toNat_le.mp h₁.2
    have hsub : (c - '0'.toUInt8).toNat = c.toNat - 48 := UInt8.toNat_sub_of_le _ _ h₁.1
    rw [digit, if_pos h₁, misread, if_pos (by omega)]
  · rw [digit, if_neg h₁, if_pos h₂, misread, if_neg (by omega)]
  · rw [digit, if_neg h₁, if_neg h₂, if_pos h₃, misread, if_neg (by omega)]

theorem map_digit (h : cs.map digitValue = ds.map some) : cs.map digit = ds.map misread := by
  induction cs generalizing ds with
  | nil =>
    cases ds with
    | nil => rfl
    | cons d ds => cases h
  | cons c cs ih =>
    cases ds with
    | nil => cases h
    | cons d ds =>
      obtain ⟨hc, hcs⟩ := cons.inj h
      rw [map_cons, map_cons, digit_misread hc, ih hcs]

theorem clamp_value_eq {v : ℤ} {m : ℕ} (hlo : LONG_MIN ≤ v) (hhi : v ≤ LONG_MAX) (hm : v.natAbs < m)
    (p : ℕ) : (clamp (if decide (v < 0) then -(m : ℤ) else m) p).value = v ↔
      v = LONG_MAX ∨ v = LONG_MIN := by
  rw [clamp_value]
  unfold LONG_MIN at hlo ⊢
  unfold LONG_MAX at hhi ⊢
  simp only [decide_eq_true_eq]
  split_ifs <;> omega

theorem le_misread (d : ℕ) : d ≤ misread d := by
  unfold misread
  split_ifs <;> omega

/-- Where all letters are taken for digits, the number comes out too large. -/
theorem value_letters {v : ℤ} (hlo : LONG_MIN ≤ v) (hhi : v ≤ LONG_MAX) (hb : 0 < b)
    (hcs : cs.map digit = (numeral b v.natAbs).map misread) (p : ℕ) :
    (clamp (if decide (v < 0) then -(value b 0 cs : ℤ) else value b 0 cs) p).value = v ↔
      (∀ d ∈ numeral b v.natAbs, d < 10) ∨ v = LONG_MAX ∨ v = LONG_MIN := by
  have hval := horner_numeral b v.natAbs
  rw [value_eq_horner, hcs]
  by_cases hl : ∀ d ∈ numeral b v.natAbs, d < 10
  · have hid : (numeral b v.natAbs).map misread = numeral b v.natAbs := by
      refine (map_congr_left fun d hd ↦ ?_).trans (map_id _)
      rw [misread, if_pos (hl d hd), id]
    have habs : (if decide (v < 0) then -(v.natAbs : ℤ) else v.natAbs) = v := by
      simp only [decide_eq_true_eq]
      split_ifs <;> omega
    rw [hid, hval, habs, clamp_eq hlo hhi]
    exact ⟨fun _ ↦ .inl hl, fun _ ↦ rfl⟩
  · have hle : Forall₂ (· ≤ ·) (numeral b v.natAbs) ((numeral b v.natAbs).map misread) := by
      rw [forall₂_map_right_iff, forall₂_same]
      exact fun d _ ↦ le_misread d
    have hne : numeral b v.natAbs ≠ (numeral b v.natAbs).map misread := by
      intro he
      apply hl
      intro d hd
      have hfix := map_inj_left.mp (he.symm.trans (map_id _).symm) d hd
      unfold misread at hfix
      split_ifs at hfix with h
      · exact h
      · simp at hfix
    have hlt := horner_lt_horner hb hle (Nat.le_refl 0) (.inr hne)
    rw [hval] at hlt
    rw [clamp_value_eq hlo hhi hlt]
    simp only [hl, false_or]

theorem PrefixText.head (hp : PrefixText b pre) (h : digit (byte cs 0) < 256) :
    digit (byte (pre ++ cs) 0) < 256 := by
  have hz : digit '0'.toUInt8 < 256 := by decide
  cases hp with
  | none => exact h
  | lower => exact hz
  | upper => exact hz

/-- A prefix is passed if a digit follows that is taken for one; otherwise
`strtol` does not get that far. -/
theorem digitsAt_number (sgn : List UInt8) (hb : 11 ≤ b) (hp : PrefixText b pre)
    (hz : byte cs 0 = '0'.toUInt8 → byte cs 1 = 0) :
    let s := sgn ++ (pre ++ cs)
    digitsAt s sgn.length b ≤ sgn.length + pre.length ∧
      (digit (byte cs 0) < b → digitsAt s sgn.length b = sgn.length + pre.length) := by
  intro s
  have hbi : ∀ i, byte s (sgn.length + i) = byte (pre ++ cs) i := byte_append_right sgn _
  have hb₀ : byte s sgn.length = byte (pre ++ cs) 0 := hbi 0
  have hprefix : ∀ x : UInt8, b = 16 → pre = ['0'.toUInt8, x] → x = 'x'.toUInt8 ∨ x = 'X'.toUInt8 →
      digitsAt s sgn.length b ≤ sgn.length + pre.length ∧
        (digit (byte cs 0) < b → digitsAt s sgn.length b = sgn.length + pre.length) := by
    rintro x rfl rfl hx
    have h₀ : byte s sgn.length = '0'.toUInt8 := hb₀
    have h₁ : byte s (sgn.length + 1) = x := hbi 1
    have h₂ : byte s (sgn.length + 2) = byte cs 0 := hbi 2
    rw [Nat.cast_ofNat, digitsAt_sixteen, if_pos h₀, h₁, h₂]
    simp only [hx, true_and, length_cons, length_nil, Nat.zero_add, Nat.reduceAdd]
    split_ifs with hd
    · exact ⟨le_rfl, fun _ ↦ rfl⟩
    · exact ⟨Nat.le_add_right _ _, fun h ↦ absurd h hd⟩
  cases hp with
  | none =>
    rw [nil_append] at hb₀
    have h₁ : byte s (sgn.length + 1) = byte cs 1 := hbi 1
    by_cases h₁₆ : b = 16
    · subst h₁₆
      rw [Nat.cast_ofNat, digitsAt_sixteen, hb₀, h₁]
      by_cases h : byte cs 0 = '0'.toUInt8
      · have hno : ¬((byte cs 1 = 'x'.toUInt8 ∨ byte cs 1 = 'X'.toUInt8) ∧
            digit (byte s (sgn.length + 2)) < 16) := by
          rw [hz h]
          exact fun hx ↦ absurd hx.1 (by decide)
        rw [if_pos h, if_neg hno]
        exact ⟨le_rfl, fun _ ↦ rfl⟩
      · rw [if_neg h]
        split_ifs with hd
        · exact ⟨le_rfl, fun _ ↦ rfl⟩
        · exact ⟨Nat.zero_le _, fun hx ↦ absurd (Nat.le_of_lt hx) hd⟩
    · rw [digitsAt_eq (by omega) (by omega), hb₀]
      split_ifs with hd
      · exact ⟨le_rfl, fun _ ↦ rfl⟩
      · exact ⟨Nat.zero_le _, fun hx ↦ absurd (Int.ofNat_lt.mpr hx) hd⟩
  | lower h => exact hprefix _ h rfl (.inl rfl)
  | upper h => exact hprefix _ h rfl (.inr rfl)

theorem signText_of (v : ℤ) : SignText (if v < 0 then ['-'.toUInt8] else []) (decide (v < 0)) := by
  by_cases h : v < 0
  · rw [if_pos h, decide_eq_true h]
    exact .minus
  · rw [if_neg h, decide_eq_false h]
    exact .none

/-- A number that starts with a zero has no other digits. -/
theorem byte_one_eq_zero {n : ℕ} (h : cs.map digitValue = (numeral b n).map some)
    (hz : byte cs 0 = '0'.toUInt8) : byte cs 1 = 0 := by
  cases cs with
  | nil => rfl
  | cons c l =>
    obtain rfl : c = '0'.toUInt8 := hz
    have hdigit : digitValue '0'.toUInt8 = some 0 := by decide
    have hhead : 0 ∈ (numeral b n).head? := by
      have hx := congrArg head? h
      rw [map_cons, head?_cons, hdigit, head?_map] at hx
      obtain ⟨d, hd, he⟩ := Option.map_eq_some_iff.mp hx.symm
      rw [hd, Option.some.inj he]
      rfl
    obtain rfl := head_numeral hhead
    have hlen := congrArg length h
    rw [length_map, length_map] at hlen
    obtain rfl : l = [] := length_eq_zero_iff.mp (Nat.succ.inj hlen)
    rfl

theorem number_ne_nil (hcs : cs.map digitValue = (numeral b n).map some) : cs ≠ [] := by
  intro h
  subst h
  exact numeral_ne_nil b n (map_eq_nil_iff.mp hcs.symm)

theorem byte_zero_mem (h : cs ≠ []) : byte cs 0 ∈ cs := by
  obtain ⟨c, l, rfl⟩ := exists_cons_of_ne_nil h
  exact mem_cons_self

theorem exists_misread (hb : 2 ≤ b) (hcs : cs.map digitValue = (numeral b n).map some) (hc : c ∈ cs) :
    ∃ d ∈ numeral b n, d < b ∧ misread d = digit c := by
  obtain ⟨d, hd, he⟩ := mem_map.mp (map_digit hcs ▸ mem_map_of_mem hc)
  exact ⟨d, hd, lt_of_mem_numeral hb hd, he⟩

theorem strtol_stops (hb : 11 ≤ b) (hb' : b ≤ 36) (hsgn : SignText sgn neg) (hpre : PrefixText b pre)
    (hhead : digit (byte cs 0) < 256) (hz : byte cs 0 = '0'.toUInt8 → byte cs 1 = 0) (hc : c ∈ cs)
    (hge : b ≤ digit c) :
    (strtol (some (sgn ++ (pre ++ cs))) b).endptr < (sgn ++ (pre ++ cs)).length := by
  obtain ⟨hle, -⟩ := digitsAt_number sgn hb hpre hz
  obtain ⟨i, hi, rfl⟩ := getElem_of_mem hc
  have hbyte : byte (sgn ++ (pre ++ cs)) (sgn.length + pre.length + i) = cs[i] := by
    rw [Nat.add_assoc, byte_append_right, byte_append_right]
    simp [byte, hi]
  have hbase : ¬((b : ℤ) = 1 ∨ (b : ℤ) < 0 ∨ 36 < (b : ℤ)) := by omega
  have hx := strtol_front hbase (forall_mem_nil _) hsgn (hpre.head hhead)
  simp only [nil_append, length_nil, Nat.zero_add] at hx
  have hstop := digitsEnd_le (by omega) (hle.trans (Nat.le_add_right _ i)) (hbyte.symm ▸ hge)
  rw [hx, out_endptr, detectBase_eq (by omega), scanDigits_ptr]
  simp only [length_append]
  omega

/-- `strtol` reads back a number in a base above 10 exactly if no digit of it is
a letter, as the letters are taken for digits from 16 on, or the number it
reads instead is beyond the end of the range that is meant. -/
theorem strtol_number_iff (hb : 11 ≤ b) (hb' : b ≤ 36) {v : ℤ} (hlo : LONG_MIN ≤ v) (hhi : v ≤ LONG_MAX)
    (hs : NumberText b v s) :
    (strtol (some s) b).value = v ∧ (strtol (some s) b).endptr = s.length ↔
      (∀ d ∈ numeral b v.natAbs, d < 10) ∨
        (v = LONG_MAX ∨ v = LONG_MIN) ∧ ∀ d ∈ numeral b v.natAbs, 10 ≤ d → d + 6 < b := by
  obtain ⟨pre, cs, rfl, hpre, hcs⟩ := hs
  have hsgn := signText_of v
  set sgn := if v < 0 then ['-'.toUInt8] else []
  have hmap := map_digit hcs
  have hne := number_ne_nil hcs
  have hhead : digit (byte cs 0) < 256 := by
    obtain ⟨d, -, hd, he⟩ := exists_misread (by omega) hcs (byte_zero_mem hne)
    rw [← he, misread]
    split_ifs <;> omega
  by_cases hr : ∀ c ∈ cs, digit c < b
  · have hsix : ∀ d ∈ numeral b v.natAbs, 10 ≤ d → d + 6 < b := by
      intro d hd h₁₀
      obtain ⟨c, hc, he⟩ := mem_map.mp (hmap.symm ▸ mem_map_of_mem hd : misread d ∈ cs.map digit)
      have hx := hr c hc
      rw [he, misread, if_neg (by omega)] at hx
      exact hx
    have hat := (digitsAt_number sgn hb hpre (byte_one_eq_zero hcs)).2 (hr _ (byte_zero_mem hne))
    have hclamp := strtol_digits [] pre [] (by omega) hb' (forall_mem_nil _) hsgn
      (by rw [append_nil]; exact hpre.head hhead) hne (by simpa using hat) hr (fun c hc ↦ absurd hc (by simp))
    rw [append_nil, nil_append] at hclamp
    rw [hclamp, clamp_endptr, value_letters hlo hhi (by omega) hmap]
    simp only [length_append, length_nil, Nat.zero_add, Nat.add_assoc, and_true]
    exact or_congr_right (and_iff_left hsix).symm
  · obtain ⟨c, hc, hge⟩ : ∃ c ∈ cs, b ≤ digit c := by
      simpa only [not_forall, not_lt, exists_prop] using hr
    have hend := strtol_stops hb hb' hsgn hpre hhead (byte_one_eq_zero hcs) hc hge
    obtain ⟨d, hd, hlt, he⟩ := exists_misread (by omega) hcs hc
    have hletter : 10 ≤ d ∧ b ≤ d + 6 := by
      rw [← he, misread] at hge
      split_ifs at hge <;> omega
    refine iff_of_false (fun h ↦ ?_) fun h ↦ ?_
    · omega
    · rcases h with h | h
      · have hx := h d hd
        omega
      · have hx := h.2 d hd hletter.1
        omega

/-- `0x9`. -/
theorem strtol_number_small :
    (strtol (some [48, 120, 57]) 16).value = 9 ∧ (strtol (some [48, 120, 57]) 16).endptr = 3 :=
  have hs : NumberText 16 9 [48, 120, 57] := ⟨[48, 120], [57], rfl, .lower rfl, by decide⟩
  (strtol_number_iff (b := 16) (by decide) (by decide) (by decide) (by decide) hs).mpr
    (.inl (by decide))

/-- `a` is no digit in the base 16. -/
theorem strtol_number_wrong : ¬ ∀ (b : ℕ) (v : ℤ) (s : List UInt8), 11 ≤ b → b ≤ 36 → LONG_MIN ≤ v →
    v ≤ LONG_MAX → NumberText b v s →
    (strtol (some s) b).value = v ∧ (strtol (some s) b).endptr = s.length := by
  intro h
  have hs : NumberText 16 10 [97] := ⟨[], [97], rfl, .none, by decide⟩
  have hx := h 16 10 [97] (by decide) (by decide) (by decide) (by decide) hs
  exact absurd hx.2 (by decide)

end OcamlRpi.Stdlib
