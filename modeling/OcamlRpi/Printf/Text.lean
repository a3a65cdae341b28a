import OcamlRpi.Printf.Placeholder

namespace OcamlRpi.Printf

open Function List

/-- The text of `cs`, of which at most `n` characters are printed. -/
def prefixText (cs : List UInt8) (n : ℕ) : List Emission :=
  if cs.length < n then cs.map .moves else (cs.take n).map .plain

def stringText (s : List UInt8) (precision : ℤ) : List Emission :=
  if precision = -1 then (s.takeWhile (· ≠ 0)).map .moves
  else prefixText (s.takeWhile (· ≠ 0)) precision.toNat

/-- What a placeholder prints, where the format goes on and which arguments
are left; `i` is the offset behind it. -/
def emits (fmt : List UInt8) (i : ℕ) (args : List Arg) :
    Action → Option (List Emission × ℕ × List Arg)
  | .number num hex width precision flags =>
    some (numberText num (if hex then 16 else 10) width precision flags, i, args)
  | .char =>
    match args with
    | .int v :: args => some ([.moves (UInt8.ofNat v.toNat)], i, args)
    | _ => none
  | .string s precision => some (stringText s precision, i, args)
  | .percent => some ([.plain '%'.toUInt8], i, args)
  | .unknown =>
    let j := rewind fmt i
    some ([⟨byte fmt j, if j = i then .swallow else .advance⟩], j + 1, args)

/-- The text `es` that the format prints from the offset `i` on, with the
arguments `rest` left at its end. -/
inductive Text (fmt : List UInt8) : ℕ → List Arg → List Emission → List Arg → Prop where
  | stop {i : ℕ} {args : List Arg} (h : byte fmt i = 0) : Text fmt i args [] args
  | literal {i : ℕ} {args rest : List Arg} {es : List Emission} (h : byte fmt i ≠ 0)
      (hc : byte fmt i ≠ '%'.toUInt8) (ht : Text fmt (i + 1) args es rest) :
      Text fmt i args (.plain (byte fmt i) :: es) rest
  | placeholder {i j k : ℕ} {args args' args'' rest : List Arg} {action : Action}
      {es fs : List Emission} (h : byte fmt i = '%'.toUInt8)
      (hp : placeholder fmt (i + 1) args = some (action, j, args'))
      (he : emits fmt j args' action = some (es, k, args'')) (ht : Text fmt k args'' fs rest) :
      Text fmt i args (es ++ fs) rest

variable {o r : Out} {s cs ds : List UInt8} {c : UInt8} {n : ℕ} {precision : ℤ}

theorem takeWhile_nil (h : s.headD 0 = 0) : s.takeWhile (· ≠ 0) = [] := by
  cases s with
  | nil => rfl
  | cons c s =>
    have hc : c = 0 := h
    simp [hc]

theorem takeWhile_cons (h : s.headD 0 ≠ 0) :
    s.takeWhile (· ≠ 0) = s.headD 0 :: s.tail.takeWhile (· ≠ 0) := by
  cases s with
  | nil => exact absurd rfl h
  | cons c s =>
    have hc : c ≠ 0 := h
    simp [hc]

theorem putString_fits (hs : o.stop < 2 ^ 32) (hn : s.length < n)
    (hf : Fits (o.stop - o.buf) ((s.takeWhile (· ≠ 0)).map .moves)) :
    putString n o s = some (o.adds (s.takeWhile (· ≠ 0))) := by
  induction n generalizing o s with
  | zero => omega
  | succ n ih =>
    unfold putString
    split_ifs with h hb
    · rw [takeWhile_nil h]
      rfl
    · rw [takeWhile_cons h] at hf ⊢
      rw [map_cons, fits_cons] at hf
      have hb' : (o.bufAdd (s.headD 0)).buf = o.buf + 1 := Out.bufAdd_buf (by omega)
      refine ih (o := o.bufAdd _) hs ?_ ?_
      · have hpos : 0 < s.length := length_pos_iff.mpr fun he ↦ h (he ▸ rfl)
        rw [length_tail]
        omega
      · rw [hb', Out.bufAdd_stop, ← Nat.sub_sub]
        exact hf.2
    · rw [takeWhile_cons h, map_cons, fits_cons] at hf
      have hx := hf.1 (by simp)
      omega

theorem putString_adds (hr : putString n o s = some r) : ∃ cs, r = o.adds cs := by
  induction n generalizing o s with
  | zero => cases hr
  | succ n ih =>
    unfold putString at hr
    split_ifs at hr
    · cases hr
      exact ⟨[], rfl⟩
    all_goals
      obtain ⟨cs, hcs⟩ := ih hr
      exact ⟨_ :: cs, hcs⟩

/-- Once the buffer is full, a string is not used up until the pointer has
wrapped. -/
theorem putString_full (h : s.headD 0 ≠ 0) (hs : 0 < o.stop) (hb : o.Full)
    (hr : putString n o s = some r) : r.Wrapped := by
  induction n generalizing o with
  | zero => cases hr
  | succ n ih =>
    rcases hb with hb | hw
    · rw [putString, if_neg h, if_neg (Nat.not_lt.mpr hb.1)] at hr
      exact ih (o := o.bufAdd _) hs (Out.Full.bufAdd (.inl hb) hs) hr
    · obtain ⟨cs, rfl⟩ := putString_adds hr
      exact hw.adds hs

theorem putString_cases (hs : 0 < o.stop) (hs' : o.stop < 2 ^ 32) (hlt : o.buf < 2 ^ 32)
    (hr : putString n o s = some r) :
    r.Wrapped ∨ Fits (o.stop - o.buf) ((s.takeWhile (· ≠ 0)).map .moves) ∧
      r = o.adds (s.takeWhile (· ≠ 0)) := by
  induction n generalizing o s with
  | zero => cases hr
  | succ n ih =>
    by_cases h : s.headD 0 = 0
    · rw [putString, if_pos h] at hr
      cases hr
      rw [takeWhile_nil h]
      exact .inr ⟨fits_nil, rfl⟩
    · by_cases hb : o.buf < o.stop
      · have hb' : (o.bufAdd (s.headD 0)).buf = o.buf + 1 := Out.bufAdd_buf (by omega)
        rw [putString, if_neg h, if_pos hb] at hr
        rw [takeWhile_cons h, map_cons, fits_cons]
        refine (ih (o := o.bufAdd _) hs hs' (by omega) hr).imp_right fun hx ↦ ?_
        rw [hb', Out.bufAdd_stop, ← Nat.sub_sub] at hx
        exact ⟨⟨fun _ ↦ by omega, hx.1⟩, hx.2⟩
      · exact .inl (putString_full h hs (.inl ⟨by omega, hlt⟩) hr)

theorem prefixText_cons :
    prefixText (c :: cs) (n + 1) =
      (if cs.length < n then .moves c else .plain c) :: prefixText cs n := by
  unfold prefixText
  rw [length_cons]
  by_cases h : cs.length < n <;> simp [h]

/-- Beyond the end of the buffer it only counts how many characters follow. -/
theorem adds_full (hb : o.stop ≤ o.buf) (hw : o.buf + cs.length < 2 ^ 32)
    (hl : cs.length = ds.length) : o.adds cs = o.adds ds := by
  induction cs generalizing o ds with
  | nil =>
    rw [length_eq_zero_iff.mp hl.symm]
  | cons c cs ih =>
    cases ds with
    | nil => cases hl
    | cons d ds =>
      have he : o.bufAdd c = o.bufAdd d := by
        simp [Out.bufAdd, Nat.not_lt.mpr hb]
      rw [length_cons] at hw
      have hb' : (o.bufAdd c).buf = o.buf + 1 := Out.bufAdd_buf (by omega)
      rw [Out.adds_cons, Out.adds_cons, ← he]
      refine ih ?_ (by omega) (by simpa using hl)
      rw [Out.bufAdd_stop]
      omega

theorem putPrefix_adds (n : ℕ) (o : Out) (s : List UInt8) : ∃ cs, putPrefix n o s = o.adds cs := by
  induction n generalizing o s with
  | zero => exact ⟨[], rfl⟩
  | succ n ih =>
    unfold putPrefix
    split_ifs
    · exact ⟨[], rfl⟩
    all_goals
      obtain ⟨cs, hcs⟩ := ih (o.bufAdd _) _
      exact ⟨_ :: cs, hcs⟩

/-- Once the buffer is full, the first character is counted `n` times. -/
theorem putPrefix_full (hb : o.stop ≤ o.buf) (hw : o.buf + n < 2 ^ 32) (h : s.headD 0 ≠ 0) :
    putPrefix n o s = o.adds (replicate n (s.headD 0)) := by
  induction n generalizing o with
  | zero => rfl
  | succ n ih =>
    have hb' : (o.bufAdd (s.headD 0)).buf = o.buf + 1 := Out.bufAdd_buf (by omega)
    rw [putPrefix, if_neg h, if_neg (by omega), ih (by rw [Out.bufAdd_stop]; omega) (by omega)]
    rfl

theorem putPrefix_wraps (hs : 0 < o.stop) (hb : o.stop ≤ o.buf) (hlt : o.buf < 2 ^ 32)
    (hw : 2 ^ 32 ≤ o.buf + n) (h : s.headD 0 ≠ 0) : (putPrefix n o s).Wrapped := by
  induction n generalizing o with
  | zero => omega
  | succ n ih =>
    rw [putPrefix, if_neg h, if_neg (by omega)]
    by_cases hx : o.buf + 1 < 2 ^ 32
    · have hb' : (o.bufAdd (s.headD 0)).buf = o.buf + 1 := Out.bufAdd_buf hx
      exact ih (o := o.bufAdd _) hs (by rw [Out.bufAdd_stop]; omega) (by omega) (by omega)
    · obtain ⟨cs, hcs⟩ := putPrefix_adds n (o.bufAdd (s.headD 0)) s
      have hz : (o.bufAdd (s.headD 0)).Wrapped := by
        refine .inl ?_
        simp only [Out.bufAdd]
        omega
      rw [hcs]
      exact hz.adds hs

theorem prefixText_length : (prefixText cs n).length = min n cs.length := by
  unfold prefixText
  split_ifs with h
  · rw [length_map]
    omega
  · rw [length_map, length_take]

theorem prefixText_fits (h : n ≤ cs.length) (m : ℕ) : Fits m (prefixText cs n) := by
  rw [prefixText, if_neg (by omega)]
  exact fits_map_plain _

/-- Where a string ends before its precision, the characters that do not fit
are counted again and again until the precision is used up. -/
theorem putPrefix_cases (hs : 0 < o.stop) (hs' : o.stop < 2 ^ 32) (hlt : o.buf < 2 ^ 32) :
    (putPrefix n o s).Wrapped ∨
      (Fits (o.stop - o.buf) (prefixText (s.takeWhile (· ≠ 0)) n) ∧
        putPrefix n o s = o.adds (chars (prefixText (s.takeWhile (· ≠ 0)) n))) ∨
      o.stop ≤ (putPrefix n o s).buf ∧ (putPrefix n o s).buf < 2 ^ 32 ∧
        o.stop ≤ o.buf + (prefixText (s.takeWhile (· ≠ 0)) n).length ∧
        o.buf + (prefixText (s.takeWhile (· ≠ 0)) n).length < (putPrefix n o s).buf := by
  induction n generalizing o s with
  | zero =>
    refine .inr (.inl ⟨prefixText_fits (Nat.zero_le _) _, ?_⟩)
    simp [prefixText, putPrefix]
  | succ n ih =>
    by_cases h : s.headD 0 = 0
    · rw [putPrefix, if_pos h, takeWhile_nil h]
      exact .inr (.inl ⟨fits_nil, rfl⟩)
    · by_cases hb : o.buf < o.stop
      · have hb' : (o.bufAdd (s.headD 0)).buf = o.buf + 1 := Out.bufAdd_buf (by omega)
        rw [putPrefix, if_neg h, if_pos hb, takeWhile_cons h, prefixText_cons]
        refine (ih (o := o.bufAdd _) hs hs' (by omega)).imp_right (Or.imp ?_ ?_)
        · intro hh
          obtain ⟨hf, hr⟩ := hh
          rw [hb', Out.bufAdd_stop, ← Nat.sub_sub] at hf
          refine ⟨fits_cons.mpr ⟨fun _ ↦ by omega, hf⟩, ?_⟩
          rw [hr, chars_cons]
          split_ifs <;> rfl
        · intro hh
          obtain ⟨hx, hx', hle, hl⟩ := hh
          rw [hb', Out.bufAdd_stop] at hle
          rw [hb'] at hl
          rw [length_cons]
          exact ⟨hx, hx', by omega, by omega⟩
      · by_cases hw : o.buf + (n + 1) < 2 ^ 32
        · have hr := putPrefix_full (by omega) hw h
          have hbuf : (putPrefix (n + 1) o s).buf = o.buf + (n + 1) := by
            rw [hr, Out.adds_buf] <;> simp only [length_replicate]
            exact hw
          by_cases hl : n + 1 ≤ (s.takeWhile (· ≠ 0)).length
          · refine .inr (.inl ⟨prefixText_fits hl _, ?_⟩)
            rw [hr]
            refine adds_full (by omega) (by simpa using hw) ?_
            rw [length_replicate, length_chars, prefixText_length]
            omega
          · refine .inr (.inr ⟨by omega, by omega, by omega, ?_⟩)
            rw [prefixText_length, hbuf]
            omega
        · exact .inl (putPrefix_wraps hs (by omega) hlt (by omega) h)

theorem putPrefix_fits (hs' : o.stop < 2 ^ 32)
    (hf : Fits (o.stop - o.buf) (prefixText (s.takeWhile (· ≠ 0)) n))
    (hw : o.buf + (prefixText (s.takeWhile (· ≠ 0)) n).length < 2 ^ 32) :
    putPrefix n o s = o.adds (chars (prefixText (s.takeWhile (· ≠ 0)) n)) := by
  induction n generalizing o s with
  | zero => simp [prefixText, putPrefix]
  | succ n ih =>
    by_cases h : s.headD 0 = 0
    · rw [putPrefix, if_pos h, takeWhile_nil h]
      rfl
    · rw [takeWhile_cons h, prefixText_cons] at hf hw ⊢
      rw [length_cons] at hw
      by_cases hb : o.buf < o.stop
      · have hb' : (o.bufAdd (s.headD 0)).buf = o.buf + 1 := Out.bufAdd_buf (by omega)
        rw [putPrefix, if_neg h, if_pos hb, ih (o := o.bufAdd _) hs' ?_ (by omega)]
        · rw [chars_cons]
          split_ifs <;> rfl
        · rw [hb', Out.bufAdd_stop, ← Nat.sub_sub]
          exact (fits_cons.mp hf).2
      · -- the first character does not matter, so the string reaches its precision
        have hl : ¬(s.tail.takeWhile (· ≠ 0)).length < n := by
          intro hl
          rw [if_pos hl] at hf
          have hx := (fits_cons.mp hf).1 (Emission.moves_effect _)
          omega
        rw [prefixText_length] at hw
        rw [putPrefix_full (by omega) (by omega) h]
        refine adds_full (by omega) (by simp; omega) ?_
        rw [length_replicate, chars_cons, length_cons, length_chars, prefixText_length]
        omega

variable {fmt : List UInt8} {i j k : ℕ} {args args' args'' rest rest' : List Arg} {action : Action}
  {es fs : List Emission} {buf size : ℕ}

theorem fits_moves {v : UInt8} (hf : Fits n [.moves v]) : 0 < n := (fits_cons.mp hf).1 (Emission.moves_effect v)

theorem perform_fits (he : emits fmt i args action = some (es, k, rest)) (hs : o.stop < 2 ^ 32)
    (hf : Fits (o.stop - o.buf) es) (hw : o.buf + es.length < 2 ^ 32) :
    ∃ N, ∀ n, N ≤ n → perform n fmt i args o action = some (k, rest, o.adds (chars es)) := by
  cases action with
  | number num hex width precision flags =>
    cases he
    refine ⟨(layout num (if hex then 16 else 10) width precision flags).digits.length, fun n hn ↦ ?_⟩
    have hb : (if hex then 16 else 10) = 10 ∨ (if hex then 16 else 10) = 16 := by
      cases hex <;> decide
    rw [perform, sprintInt_fits hb hs hf hw hn]
    rfl
  | char =>
    simp only [emits] at he
    split at he
    next v args =>
      cases he
      have hlt : o.buf < o.stop := Nat.lt_of_sub_pos (fits_moves hf)
      refine ⟨0, fun n _ ↦ ?_⟩
      rw [perform, if_pos hlt]
      rfl
    next => cases he
  | string s precision =>
    cases he
    unfold stringText at hf hw ⊢
    split_ifs at hf hw ⊢ with hp
    · refine ⟨s.length + 1, fun n hn ↦ ?_⟩
      rw [perform, if_pos hp, putString_fits hs hn hf, chars_map_moves]
      rfl
    · refine ⟨0, fun n _ ↦ ?_⟩
      rw [perform, if_neg hp, putPrefix_fits hs hf hw]
  | percent =>
    cases he
    exact ⟨0, fun n _ ↦ rfl⟩
  | unknown =>
    cases he
    have hlt : o.buf < o.stop := by
      refine Nat.lt_of_sub_pos ((fits_cons.mp hf).1 ?_)
      split_ifs <;> simp
    refine ⟨0, fun n _ ↦ ?_⟩
    simp only [perform, if_pos hlt]
    rfl

theorem format_literal (h₀ : byte fmt i ≠ 0) (hc : byte fmt i ≠ '%'.toUInt8) (n : ℕ) (args : List Arg) (o : Out) :
    format (n + 1) fmt i args o = format n fmt (i + 1) args (o.bufAdd (byte fmt i)) := by
  rw [format, if_neg h₀, if_pos hc]

theorem format_placeholder (h : byte fmt i = '%'.toUInt8) (n : ℕ) (args : List Arg) (o : Out) :
    format (n + 1) fmt i args o = (placeholder fmt (i + 1) args).bind fun p ↦
      (perform n fmt p.2.1 p.2.2 o p.1).bind fun q ↦ format n fmt q.1 q.2.1 q.2.2 := by
  have h₀ : byte fmt i ≠ 0 := by
    rw [h]
    decide
  rw [format, if_neg h₀, if_neg (not_not.mpr h)]
  rfl

theorem Text.format (ht : Text fmt i args es rest) (hs : o.stop < 2 ^ 32)
    (hf : Fits (o.stop - o.buf) es) (hw : o.buf + es.length < 2 ^ 32) :
    ∃ N, ∀ n, N ≤ n → Printf.format n fmt i args o = some (rest, o.adds (chars es)) := by
  induction ht generalizing o with
  | stop h =>
    refine ⟨1, fun n hn ↦ ?_⟩
    obtain ⟨n, rfl⟩ : ∃ m, n = m + 1 := ⟨n - 1, by omega⟩
    rw [Printf.format, if_pos h]
    rfl
  | @literal i args rest es h hc ht ih =>
    rw [length_cons] at hw
    have hb : (o.bufAdd (byte fmt i)).buf = o.buf + 1 := Out.bufAdd_buf (by omega)
    have hf' : Fits ((o.bufAdd (byte fmt i)).stop - (o.bufAdd (byte fmt i)).buf) es := by
      rw [hb, Out.bufAdd_stop, ← Nat.sub_sub]
      exact (fits_cons.mp hf).2
    obtain ⟨N, hN⟩ := ih (o := o.bufAdd (byte fmt i)) hs hf' (by omega)
    refine ⟨N + 1, fun n hn ↦ ?_⟩
    obtain ⟨n, rfl⟩ : ∃ m, n = m + 1 := ⟨n - 1, by omega⟩
    rw [format_literal h hc, hN n (by omega)]
    rfl
  | @placeholder i j k args args' args'' rest action es fs h hp he ht ih =>
    rw [length_append] at hw
    rw [fits_append] at hf
    obtain ⟨M, hM⟩ := perform_fits he hs hf.1 (by omega)
    have hb : (o.adds (chars es)).buf = o.buf + es.length := by
      rw [Out.adds_buf] <;> rw [length_chars]
      omega
    have hf' : Fits ((o.adds (chars es)).stop - (o.adds (chars es)).buf) fs := by
      rw [hb, Out.adds_stop, ← Nat.sub_sub]
      exact hf.2
    obtain ⟨N, hN⟩ := ih (by rw [Out.adds_stop]; exact hs) hf' (by omega)
    refine ⟨M + N + 1, fun n hn ↦ ?_⟩
    obtain ⟨n, rfl⟩ : ∃ m, n = m + 1 := ⟨n - 1, by omega⟩
    rw [format_placeholder h, hp, Option.bind_some, hM n (by omega), Option.bind_some, hN n (by omega),
      chars_append, Out.adds_append]

end OcamlRpi.Printf
