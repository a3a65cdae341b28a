import OcamlRpi.Printf.Text
import OcamlRpi.Support.Run

namespace OcamlRpi.Printf

open Function List

variable {fmt : List UInt8} {i j k k' n : ℕ} {args args' rest rest' : List Arg} {action action' : Action}
  {es fs : List Emission} {o r : Out} {T : ℕ}

/-- A `%` that belongs to the next directive is only taken away with room left. -/
def NoSwallow (n : ℕ) (es : List Emission) : Prop :=
  ∀ i e, es[i]? = some e → e.effect = .swallow → i < n

theorem NoSwallow.mono {m : ℕ} (h : NoSwallow n es) (hnm : n ≤ m) : NoSwallow m es :=
  fun i e he hs ↦ Nat.lt_of_lt_of_le (h i e he hs) hnm

theorem noSwallow_append (h : NoSwallow n (es ++ fs)) :
    NoSwallow n es ∧ NoSwallow (n - es.length) fs := by
  constructor
  · intro i e he
    have hi : i < es.length := (List.getElem?_eq_some_iff.mp he).1
    exact h i e (by rw [getElem?_append_left hi, he])
  · intro i e he hs
    have hx := h (es.length + i) e (by rw [getElem?_append_right (by omega)]; simpa using he) hs
    omega

theorem noSwallow_cons {e : Emission} (h : NoSwallow n (e :: es)) : NoSwallow (n - 1) es :=
  (noSwallow_append (show NoSwallow n ([e] ++ es) from h)).2

theorem perform_adds (hp : perform n fmt i args o action = some (k, rest, r)) : ∃ cs, r = o.adds cs := by
  cases action with
  | number num hex width precision flags =>
    obtain ⟨q, hq, he⟩ := Option.map_eq_some_iff.mp hp
    cases he
    refine sprintInt_adds ?_ hq
    cases hex <;> decide
  | char =>
    simp only [perform] at hp
    split at hp
    · split at hp <;> cases hp
      exact ⟨[_], rfl⟩
    · cases hp
      exact ⟨[_], rfl⟩
  | string s precision =>
    simp only [perform] at hp
    split at hp
    · obtain ⟨q, hq, he⟩ := Option.map_eq_some_iff.mp hp
      cases he
      exact putString_adds hq
    · cases hp
      exact putPrefix_adds _ _ _
  | percent =>
    cases hp
    exact ⟨[_], rfl⟩
  | unknown =>
    cases hp
    exact ⟨[_], rfl⟩

theorem perform_stop (hp : perform n fmt i args o action = some (k, rest, r)) : r.stop = o.stop := by
  obtain ⟨cs, rfl⟩ := perform_adds hp
  exact o.adds_stop cs

theorem perform_full (hp : perform n fmt i args o action = some (k, rest, r)) (hs : 0 < o.stop)
    (ho : o.Past) : r.Full := by
  obtain ⟨cs, rfl⟩ := perform_adds hp
  exact Out.Full.adds (.inl ho) hs

theorem format_adds (hr : format n fmt i args o = some (rest, r)) : ∃ cs, r = o.adds cs := by
  induction n generalizing i args o with
  | zero => cases hr
  | succ n ih =>
    unfold format at hr
    split_ifs at hr with h0 hc
    · cases hr
      exact ⟨[], rfl⟩
    · obtain ⟨cs, hcs⟩ := ih hr
      exact ⟨_ :: cs, hcs⟩
    · simp only [Option.bind_eq_bind, Option.bind_eq_some_iff, Prod.exists] at hr
      obtain ⟨action, j, args', -, k, args'', q, hq, hr⟩ := hr
      obtain ⟨cs, rfl⟩ := perform_adds hq
      obtain ⟨ds, rfl⟩ := ih hr
      exact ⟨cs ++ ds, (o.adds_append cs ds).symm⟩

theorem format_wrapped (hr : format n fmt i args o = some (rest, r)) (ho : o.Wrapped) (hs : 0 < o.stop) :
    r.Wrapped := by
  obtain ⟨cs, rfl⟩ := format_adds hr
  exact ho.adds hs

theorem format_of_nul (h : byte fmt i = 0) (hr : format n fmt i args o = some (rest, r)) :
    rest = args ∧ r = o := by
  cases n with
  | zero => cases hr
  | succ n =>
    rw [format, if_pos h] at hr
    cases hr
    exact ⟨rfl, rfl⟩

theorem format_of_literal (h₀ : byte fmt i ≠ 0) (hc : byte fmt i ≠ '%'.toUInt8)
    (hr : format n fmt i args o = some (rest, r)) :
    ∃ m, format m fmt (i + 1) args (o.bufAdd (byte fmt i)) = some (rest, r) := by
  cases n with
  | zero => cases hr
  | succ n => exact ⟨n, by rwa [format_literal h₀ hc] at hr⟩

/-- What a run that ends has done at a placeholder. -/
theorem format_of_placeholder (h : byte fmt i = '%'.toUInt8)
    (hr : format n fmt i args o = some (rest, r)) :
    ∃ m action j args' k args'' q, n = m + 1 ∧ placeholder fmt (i + 1) args = some (action, j, args') ∧
      perform m fmt j args' o action = some (k, args'', q) ∧
      format m fmt k args'' q = some (rest, r) := by
  cases n with
  | zero => cases hr
  | succ n =>
    rw [format_placeholder h] at hr
    obtain ⟨⟨action, j, args'⟩, hp, hr⟩ := Option.bind_eq_some_iff.mp hr
    obtain ⟨⟨k, args'', q⟩, hq, hr⟩ := Option.bind_eq_some_iff.mp hr
    exact ⟨n, action, j, args', k, args'', q, rfl, hp, hq, hr⟩

/-- The character of an unknown placeholder is not used up. -/
structure Stuck (fmt : List UInt8) (i k : ℕ) (action : Action) : Prop where
  kind : action.kind = .unknown
  own : rewind fmt i ≠ i
  next : k = rewind fmt i

theorem perform_cases (he : emits fmt i args action = some (es, k, rest))
    (hp : perform n fmt i args o action = some (k', rest', r)) (hs : 0 < o.stop)
    (hs' : o.stop < 2 ^ 32) (hlt : o.buf < 2 ^ 32) (hsw : NoSwallow (o.stop - o.buf) es) :
    r.Wrapped ∨
      (Fits (o.stop - o.buf) es ∧ k' = k ∧ rest' = rest ∧ r = o.adds (chars es)) ∨
      (k' = k ∧ r.Past ∧ o.stop ≤ o.buf + es.length ∧
        (rest.length < rest'.length ∨ rest' = rest ∧ o.buf + es.length < r.buf)) ∨
      Stuck fmt i k' action ∧ o.Past := by
  cases action with
  | number num hex width precision flags =>
    have hb : (if hex then 16 else 10) = 10 ∨ (if hex then 16 else 10) = 16 := by
      cases hex <;> decide
    cases he
    obtain ⟨q, hq, he⟩ := Option.map_eq_some_iff.mp hp
    cases he
    refine (sprintInt_cases hb hs hs' hlt hq).imp_right fun hx ↦ ?_
    exact .inl ⟨hx.1, rfl, rfl, hx.2⟩
  | char =>
    simp only [emits] at he
    split at he
    next v args =>
      cases he
      simp only [perform] at hp
      split_ifs at hp with hb
      · cases hp
        refine .inr (.inl ⟨?_, rfl, rfl, rfl⟩)
        exact fits_cons.mpr ⟨fun _ ↦ by omega, fits_nil⟩
      · cases hp
        have hfull : (o.bufAdd 0).Full := Out.Full.bufAdd (.inl ⟨by omega, hlt⟩) hs
        refine hfull.symm.imp_right fun hx ↦ .inr (.inl ⟨rfl, hx, ?_, .inl ?_⟩)
        · rw [length_singleton]
          omega
        · rw [length_cons]
          omega
    next => cases he
  | string s precision =>
    cases he
    simp only [perform] at hp
    unfold stringText
    split_ifs at hp ⊢ with hprec
    · obtain ⟨q, hq, he⟩ := Option.map_eq_some_iff.mp hp
      cases he
      refine (putString_cases hs hs' hlt hq).imp_right fun hx ↦ ?_
      refine .inl ⟨hx.1, rfl, rfl, ?_⟩
      rw [chars_map_moves]
      exact hx.2
    · cases hp
      refine (putPrefix_cases hs hs' hlt).imp_right (Or.imp ?_ ?_)
      · intro h
        obtain ⟨hf, hr⟩ := h
        exact ⟨hf, rfl, rfl, hr⟩
      · intro h
        obtain ⟨hb, hb', hle, hl⟩ := h
        refine .inl ⟨rfl, ⟨?_, hb'⟩, hle, .inr ⟨rfl, hl⟩⟩
        obtain ⟨cs, hcs⟩ := putPrefix_adds precision.toNat o s
        rw [hcs, Out.adds_stop, ← hcs]
        exact hb
  | percent =>
    cases he
    cases hp
    exact .inr (.inl ⟨fits_of_plain (by simp), rfl, rfl, rfl⟩)
  | unknown =>
    cases he
    simp only [perform] at hp
    by_cases hb : o.buf < o.stop
    · rw [if_pos hb] at hp
      cases hp
      refine .inr (.inl ⟨?_, rfl, rfl, rfl⟩)
      exact fits_cons.mpr ⟨fun _ ↦ by omega, fits_nil⟩
    · rw [if_neg hb] at hp
      cases hp
      have hown : rewind fmt i ≠ i := by
        intro hx
        have hz := hsw 0 _ rfl (if_pos hx)
        omega
      exact .inr (.inr (.inr ⟨⟨rfl, hown, rfl⟩, by omega, hlt⟩))

/-- A thread of control that has more arguments left than it should, with the
buffer full, keeps them. -/
theorem perform_lag (he : emits fmt i args action = some (es, k, rest))
    (hp : perform n fmt i args' o action' = some (k', rest', r)) (hk : action'.kind = action.kind)
    (hs : 0 < o.stop) (ho : o.Past) (hsw : NoSwallow 0 es) (hl : args.length < args'.length) :
    r.Wrapped ∨ (k' = k ∧ r.Past ∧ rest.length < rest'.length) ∨ Stuck fmt i k' action' := by
  have hfull := perform_full hp hs ho
  refine hfull.symm.imp_right fun hr ↦ ?_
  have hb : ¬o.buf < o.stop := Nat.not_lt.mpr ho.1
  cases action <;> cases action' <;> first | (cases hk; done) | skip
  · cases he
    obtain ⟨q, -, he⟩ := Option.map_eq_some_iff.mp hp
    cases he
    exact .inl ⟨rfl, hr, hl⟩
  · simp only [emits] at he
    split at he
    next v args =>
      cases he
      simp only [perform, if_neg hb] at hp
      cases hp
      refine .inl ⟨rfl, hr, ?_⟩
      rw [length_cons] at hl
      omega
    next => cases he
  · cases he
    simp only [perform] at hp
    split_ifs at hp
    · obtain ⟨q, -, he⟩ := Option.map_eq_some_iff.mp hp
      cases he
      exact .inl ⟨rfl, hr, hl⟩
    · cases hp
      exact .inl ⟨rfl, hr, hl⟩
  · cases he
    cases hp
    exact .inl ⟨rfl, hr, hl⟩
  · cases he
    simp only [perform, if_neg hb] at hp
    cases hp
    refine .inr ⟨rfl, fun hx ↦ ?_, rfl⟩
    have hz := hsw 0 _ rfl (if_pos hx)
    omega

/-- An unknown placeholder in a full buffer is read over and over, until the
pointer has wrapped. -/
theorem format_stuck (hi : byte fmt i = '%'.toUInt8) (hu : kindOf (byte fmt (typeAt fmt (i + 1))) = .unknown)
    (hw : rewind fmt (typeAt fmt (i + 1) + 1) = i) (hs : 0 < o.stop) (ho : o.Full)
    (hr : format n fmt i args o = some (rest, r)) : r.Wrapped := by
  induction n generalizing args o with
  | zero => cases hr
  | succ n ih =>
    rcases ho with ho | ho
    · obtain ⟨m, action, j, args', k, args'', q, hm, hp, hq, hr⟩ := format_of_placeholder hi hr
      cases hm
      obtain ⟨rfl, hk, -⟩ := placeholder_form hp
      rw [hu] at hk
      cases action <;> first | (cases hk; done) | skip
      simp only [perform, hw, if_neg (Nat.not_lt.mpr ho.1)] at hq
      cases hq
      exact ih (o := o.bufAdd _) hs (Out.Full.bufAdd (.inl ho) hs) hr
    · exact format_wrapped hr ho hs

theorem Stuck.wrapped (h : Stuck fmt j k action) (hi : byte fmt i = '%'.toUInt8)
    (hp : placeholder fmt (i + 1) args = some (action, j, args')) (hs : 0 < o.stop) (ho : o.Full)
    (hr : format n fmt k rest o = some (rest', r)) : r.Wrapped := by
  obtain ⟨rfl, hk, -⟩ := placeholder_form hp
  have hu : kindOf (byte fmt (typeAt fmt (i + 1))) = .unknown := hk.symm.trans h.kind
  obtain ⟨hle, hn⟩ := typeAt_noPercent fmt (i + 1)
  have htype : byte fmt (typeAt fmt (i + 1)) ≠ '%'.toUInt8 := by
    intro hx
    rw [hx] at hu
    cases hu
  have hnext : byte fmt (typeAt fmt (i + 1) + 1) ≠ '%'.toUInt8 := fun hx ↦ h.own (if_pos hx)
  have hown : rewind fmt (typeAt fmt (i + 1) + 1) = i :=
    rewind_eq hi (by omega) (Avoids.trans hn (Avoids.trans (.succ htype) (.succ hnext)))
  rw [h.next, hown] at hr
  exact format_stuck hi hu hown hs ho hr

theorem placeholder_same (h : placeholder fmt i args = some (action, j, rest))
    (h' : placeholder fmt i args' = some (action', k, rest')) :
    k = j ∧ action'.kind = action.kind ∧ args.length + rest'.length = rest.length + args'.length := by
  obtain ⟨rfl, hk, hl⟩ := placeholder_form h
  obtain ⟨rfl, hk', hl'⟩ := placeholder_form h'
  exact ⟨rfl, hk'.trans hk.symm, by omega⟩

/-- A run in a full buffer that is ahead of its text, or has arguments left
that it should have taken, stays so. -/
theorem Text.late (ht : Text fmt i args es rest) (hs : 0 < o.stop) (hs' : o.stop < 2 ^ 32)
    (ho : o.Past) (hsw : NoSwallow 0 es)
    (hl : args.length < args'.length ∨ args' = args ∧ T < o.buf + es.length)
    (hr : Printf.format n fmt i args' o = some (rest', r)) :
    r.Wrapped ∨ rest.length < rest'.length ∨ T < r.buf := by
  induction ht generalizing n args' o with
  | stop h =>
    obtain ⟨rfl, rfl⟩ := format_of_nul h hr
    exact .inr (hl.imp_right fun hx ↦ hx.2)
  | @literal i args rest es h hc ht ih =>
    obtain ⟨m, hr⟩ := format_of_literal h hc hr
    have hsw' : NoSwallow 0 es := noSwallow_cons hsw
    rcases ho.adds hs [byte fmt i] with ⟨hx, hb⟩ | hx
    · refine ih (o := o.bufAdd (byte fmt i)) hs hs' hx hsw' (hl.imp_right (And.imp_right ?_)) hr
      intro hT
      have hb' : (o.bufAdd (byte fmt i)).buf = o.buf + 1 := hb
      rw [length_cons] at hT
      omega
    · exact .inl (format_wrapped hr hx hs)
  | @placeholder i j k args args₁ args₂ rest action es fs h hp he ht ih =>
    obtain ⟨m, action', j', args₁', k', args₂', q, -, hp', hq, hr⟩ := format_of_placeholder h hr
    obtain ⟨rfl, hk, hlen⟩ := placeholder_same hp hp'
    obtain ⟨hsw₁, hsw₂⟩ := noSwallow_append hsw
    rw [Nat.zero_sub] at hsw₂
    have hstop := perform_stop hq
    have hwrap : q.Wrapped → r.Wrapped := fun hx ↦ format_wrapped hr hx (by omega)
    have hfull := perform_full hq hs ho
    rw [length_append] at hl
    rcases hl with hl | ⟨rfl, hT⟩
    · rcases perform_lag he hq hk hs ho hsw₁ (by omega) with hx | ⟨rfl, hx, hl⟩ | hx
      · exact .inl (hwrap hx)
      · exact ih (by omega) (by omega) hx hsw₂ (.inl hl) hr
      · exact .inl (hx.wrapped h hp' (by omega) hfull hr)
    · cases hp.symm.trans hp'
      rcases perform_cases he hq hs hs' ho.2 (hsw₁.mono (Nat.zero_le _)) with
        hx | ⟨-, rfl, rfl, rfl⟩ | ⟨rfl, hx, -, hl⟩ | ⟨hx, -⟩
      · exact .inl (hwrap hx)
      · rcases ho.adds hs (chars es) with ⟨hx, hb⟩ | hx
        · rw [length_chars] at hb
          exact ih (by omega) (by omega) hx hsw₂ (.inr ⟨rfl, by omega⟩) hr
        · exact .inl (hwrap hx)
      · exact ih (by omega) (by omega) hx hsw₂ (hl.imp_right (And.imp_right fun hb ↦ by omega)) hr
      · exact .inl (hx.wrapped h hp' (by omega) hfull hr)

/-- A run prints the whole text if nothing that matters is cut off; otherwise
`buf` wraps, or arguments are left over, or the text gets longer. -/
theorem Text.cases (ht : Text fmt i args es rest) (hs : 0 < o.stop) (hs' : o.stop < 2 ^ 32)
    (hlt : o.buf < 2 ^ 32) (hsw : NoSwallow (o.stop - o.buf) es)
    (hr : Printf.format n fmt i args o = some (rest', r)) :
    r.Wrapped ∨ (Fits (o.stop - o.buf) es ∧ r.buf = o.buf + es.length) ∨
      rest.length < rest'.length ∨ o.buf + es.length < r.buf := by
  induction ht generalizing n o with
  | stop h =>
    obtain ⟨rfl, rfl⟩ := format_of_nul h hr
    exact .inr (.inl ⟨fits_nil, rfl⟩)
  | @literal i args rest es h hc ht ih =>
    obtain ⟨m, hr⟩ := format_of_literal h hc hr
    rcases Out.adds_buf_or_wrapped hs hlt [byte fmt i] with hx | hx
    · exact .inl (format_wrapped hr hx hs)
    · have hx' : o.buf + 1 < 2 ^ 32 := hx
      have hb : (o.bufAdd (byte fmt i)).buf = o.buf + 1 := Out.bufAdd_buf hx
      have hsw' : NoSwallow ((o.bufAdd (byte fmt i)).stop - (o.bufAdd (byte fmt i)).buf) es := by
        rw [hb, Out.bufAdd_stop, ← Nat.sub_sub]
        exact noSwallow_cons hsw
      have hi := ih (o := o.bufAdd (byte fmt i)) hs hs' (by omega) hsw' hr
      rw [hb, Out.bufAdd_stop, ← Nat.sub_sub] at hi
      rw [fits_cons, length_cons]
      refine hi.imp_right (Or.imp ?_ (Or.imp_right ?_))
      · intro hh
        obtain ⟨hf, hl⟩ := hh
        exact ⟨⟨fun hne ↦ absurd rfl hne, hf⟩, by omega⟩
      · intro hl
        omega
  | @placeholder i j k args args₁ args₂ rest action es fs h hp he ht ih =>
    obtain ⟨m, action', j', args₁', k', args₂', q, -, hp', hq, hr⟩ := format_of_placeholder h hr
    cases hp.symm.trans hp'
    obtain ⟨hsw₁, hsw₂⟩ := noSwallow_append hsw
    have hstop := perform_stop hq
    have hwrap : q.Wrapped → r.Wrapped := fun hx ↦ format_wrapped hr hx (by omega)
    rw [fits_append, length_append]
    rcases perform_cases he hq hs hs' hlt hsw₁ with
      hx | ⟨hf, rfl, rfl, rfl⟩ | ⟨rfl, hx, hle, hl⟩ | ⟨hx, ho⟩
    · exact .inl (hwrap hx)
    · rcases Out.adds_buf_or_wrapped hs hlt (chars es) with hx | hx
      · exact .inl (hwrap hx)
      · have hb : (o.adds (chars es)).buf = o.buf + es.length := by
          rw [Out.adds_buf hx, length_chars]
        rw [length_chars] at hx
        have hi := ih (o := o.adds (chars es)) (by omega) (by omega) (by omega)
          (by rw [hb, hstop, ← Nat.sub_sub]; exact hsw₂) hr
        rw [hb, hstop, ← Nat.sub_sub] at hi
        refine hi.imp_right (Or.imp ?_ (Or.imp_right ?_))
        · intro hh
          obtain ⟨hf', hl⟩ := hh
          exact ⟨⟨hf, hf'⟩, by omega⟩
        · omega
    · have hsw' : NoSwallow 0 fs := hsw₂.mono (by omega)
      have hi := ht.late (T := o.buf + (es.length + fs.length)) (by omega) (by omega) hx hsw'
        (hl.imp_right (And.imp_right fun hb ↦ by omega)) hr
      exact hi.imp_right .inr
    · exact .inl (hx.wrapped h hp (by omega) (perform_full hq hs ho) hr)

/-- `vsnprintf` returns `r`, given enough steps. -/
def Returns (fmt : List UInt8) (args : List Arg) (buf size : ℕ) (r : Result) : Prop :=
  ∃ N, ∀ n, N ≤ n → vsnprintf n buf size fmt args = some r

/-- What the comment of `vsnprintf` promises for the text `es` of a format:
`vsnprintf` returns its length, takes its arguments, writes into the buffer
only, and leaves as much of the text there as has room, and a NUL. -/
def Truncates (fmt : List UInt8) (args : List Arg) (es : List Emission) (rest : List Arg)
    (buf size : ℕ) : Prop :=
  ∃ r, Returns fmt args buf size r ∧ r.ret = int es.length ∧ r.args = rest ∧
    (∀ a, r.written a ≠ none → buf ≤ a ∧ a < buf + size) ∧
    (0 < size → (∀ i, i < min (size - 1) es.length → r.written (buf + i) = (chars es)[i]?) ∧
      r.written (buf + min (size - 1) es.length) = some 0)

variable {buf size : ℕ}

theorem int_congr {x y : ℤ} (h : x % (2 ^ 32 : ℕ) = y % (2 ^ 32 : ℕ)) : int x = int y := by
  unfold int Int.bmod
  rw [h]

theorem finish_ret_mod (h : o.buf % 2 ^ 32 = (buf + k) % 2 ^ 32) : (finish buf size args o).ret = int k := by
  refine int_congr ?_
  simp only [Out.bufAdd]
  omega

theorem finish_ret (h : o.buf = buf + k) : (finish buf size args o).ret = int k :=
  finish_ret_mod (congrArg (· % 2 ^ 32) h)

theorem finish_written (hs : buf + size < 2 ^ 32) {cs : List UInt8} (hw : buf + cs.length < 2 ^ 32)
    (args : List Arg) (a : ℕ) :
    (finish buf size args ((Out.start buf size).adds cs)).written a =
      if 0 < size ∧ (a = buf + size - 1 ∨ a = buf + cs.length ∧ a < buf + size) then some 0
      else if buf ≤ a ∧ a < buf + cs.length ∧ a < buf + size then cs[a - buf]? else none := by
  have hst : (Out.start buf size).stop = buf + size := Nat.mod_eq_of_lt hs
  have hb : ((Out.start buf size).adds cs).buf = buf + cs.length := Out.adds_buf hw
  have hstop : ((Out.start buf size).adds cs).stop = buf + size := by rw [Out.adds_stop, hst]
  have hwr := Out.adds_written (o := .start buf size) (a := a) hw
  rw [hst] at hwr
  have hadd : (((Out.start buf size).adds cs).bufAdd 0).written a =
      if a = buf + cs.length ∧ a < buf + size then some 0
      else ((Out.start buf size).adds cs).written a := by
    unfold Out.bufAdd
    rw [hb, hstop]
    by_cases ha : a = buf + cs.length <;>
      by_cases hlt : buf + cs.length < buf + size <;> simp [ha, hlt]
  unfold finish
  by_cases h0 : 0 < size
  · have hlast : (((Out.start buf size).adds cs).stop + 2 ^ 32 - 1) % 2 ^ 32 = buf + size - 1 := by
      omega
    simp only [h0, if_true, hlast, true_and]
    by_cases ha : a = buf + size - 1
    · rw [ha, update_self, if_pos (.inl rfl)]
    · simp only [update_of_ne ha, hadd, hwr, ha, false_or]
      rfl
  · have hne : ¬(a = buf + cs.length ∧ a < buf + size) := by omega
    simp only [hadd, hwr, h0, false_and, if_false, if_neg hne]
    rfl

theorem finish_written_zero (h : (o.bufAdd 0).written 0 ≠ none) :
    (finish buf size args o).written 0 ≠ none := by
  simp only [finish]
  split_ifs
  · rw [update_apply]
    split_ifs
    · exact Option.some_ne_none 0
    · exact h
  · exact h

theorem int_inj {a b : ℕ} (ha : a < 2 ^ 32) (hb : b < 2 ^ 32) (h : int a = int b) : a = b := by
  have hm := congrArg (· % ((2 ^ 32 : ℕ) : ℤ)) h
  simp only [int, Int.bmod_emod] at hm
  omega

theorem room_start (hs : buf + size < 2 ^ 32) :
    (Out.start buf size).stop = buf + size ∧
      (Out.start buf size).stop - (Out.start buf size).buf = size := by
  have hst : (Out.start buf size).stop = buf + size := Nat.mod_eq_of_lt hs
  refine ⟨hst, ?_⟩
  rw [hst]
  exact Nat.add_sub_cancel_left buf size

theorem Text.returns (ht : Text fmt 0 args es rest) (hs : buf + size < 2 ^ 32) (hf : Fits size es)
    (hw : buf + es.length < 2 ^ 32) :
    Returns fmt args buf size (finish buf size rest ((Out.start buf size).adds (chars es))) := by
  obtain ⟨hst, hroom⟩ := room_start hs
  obtain ⟨N, hN⟩ := ht.format (o := .start buf size) (by omega) (by rw [hroom]; exact hf) hw
  refine ⟨N, fun n hn ↦ ?_⟩
  rw [vsnprintf, hN n hn]
  rfl

theorem Returns.unique {r r' : Result} (h : Returns fmt args buf size r)
    (h' : Returns fmt args buf size r') : r = r' := Support.result_unique h h'

theorem Text.truncates (ht : Text fmt 0 args es rest) (hs : buf + size < 2 ^ 32) (hf : Fits size es)
    (hw : buf + es.length < 2 ^ 32) : Truncates fmt args es rest buf size := by
  have hw' : buf + (chars es).length < 2 ^ 32 := by rwa [length_chars]
  have hfin := finish_written hs hw' rest
  simp only [length_chars] at hfin
  refine ⟨_, ht.returns hs hf hw, ?_, rfl, ?_, ?_⟩
  · apply finish_ret
    rw [Out.adds_buf hw', length_chars]
    rfl
  · intro a ha
    rw [hfin] at ha
    split_ifs at ha
    · omega
    · omega
    · exact absurd rfl ha
  · intro h0
    constructor
    · intro i hi
      rw [hfin, if_neg (by omega), if_pos (by omega), Nat.add_sub_cancel_left]
    · rw [hfin, if_pos]
      exact ⟨h0, by omega⟩

/-- Otherwise it breaks the promise, except perhaps where the `%` after an
unknown placeholder is cut off. -/
theorem Text.fits_of_truncates (ht : Text fmt 0 args es rest) (hs : buf + size < 2 ^ 32)
    (hb : buf ≠ 0) (hsw : NoSwallow size es) (h : Truncates fmt args es rest buf size) :
    Fits size es ∧ buf + es.length < 2 ^ 32 := by
  obtain ⟨r, ⟨N, hN⟩, hret, hargs, hin, -⟩ := h
  obtain ⟨hst, hroom⟩ := room_start hs
  have hpos : 0 < (Out.start buf size).stop := by omega
  obtain ⟨⟨args', o⟩, ho, rfl⟩ := Option.map_eq_some_iff.mp (hN N le_rfl)
  have hwrap : ¬o.Wrapped := by
    intro hw
    obtain ⟨cs, rfl⟩ := format_adds ho
    have hz := hw.written (c := 0) (by rw [Out.adds_stop]; exact hpos)
    have h0 := hin 0 (finish_written_zero hz)
    omega
  obtain ⟨cs, hcs⟩ := format_adds ho
  have hlt : buf + cs.length < 2 ^ 32 := by
    refine (Out.adds_buf_or_wrapped hpos ?_ cs).resolve_left (hcs ▸ hwrap)
    show buf < 2 ^ 32
    omega
  have hbuf : o.buf = buf + cs.length := hcs ▸ Out.adds_buf hlt
  have hlen : int cs.length = int es.length := (finish_ret hbuf).symm.trans hret
  rcases ht.cases hpos (by omega) (by show buf < 2 ^ 32; omega) (by rw [hroom]; exact hsw) ho with
    hx | ⟨hf, hx⟩ | hx | hx
  · exact absurd hx hwrap
  · rw [hroom] at hf
    have hx' : o.buf = buf + es.length := hx
    exact ⟨hf, by omega⟩
  · exact absurd (hargs ▸ hx) (Nat.lt_irrefl _)
  · have hx' : buf + es.length < o.buf := hx
    have he := int_inj (by omega) (by omega) hlen
    omega

/-- A large enough buffer gets the whole text. Any other buffer gets what it
has room for if no character is cut off whose argument has an effect, and the
whole text would not reach the end of the address space. But for a buffer at 0
and a `%` after an unknown placeholder this is also necessary. -/
theorem vsnprintf_truncates (ht : Text fmt 0 args es rest) (hs : buf + size < 2 ^ 32) :
    (es.length < size → Truncates fmt args es rest buf size) ∧
      (Fits size es ∧ buf + es.length < 2 ^ 32 → Truncates fmt args es rest buf size) ∧
      (buf ≠ 0 → NoSwallow size es → Truncates fmt args es rest buf size →
        Fits size es ∧ buf + es.length < 2 ^ 32) := by
  refine ⟨fun hl ↦ ?_, fun hf ↦ ht.truncates hs hf.1 hf.2, fun hb hsw h ↦ ?_⟩
  · exact ht.truncates hs (fits_of_length_le (Nat.le_of_lt hl)) (by omega)
  · exact ht.fits_of_truncates hs hb hsw h

theorem text_number : Text [37, 100] 0 [.int 123] [.moves 49, .moves 50, .moves 51] [] := by
  have hp : placeholder [37, 100] 1 [.int 123] =
      some (.number 123 false 0 0 { Flags.empty with sign := true }, 2, []) := rfl
  have he : emits [37, 100] 2 [] (.number 123 false 0 0 { Flags.empty with sign := true }) =
      some ([.moves 49, .moves 50, .moves 51], 2, []) := by decide +kernel
  have ht : Text [37, 100] 2 [] [] [] := .stop rfl
  exact .placeholder rfl hp he ht

theorem vsnprintf_truncates_small :
    Truncates [37, 100] [.int 123] [.moves 49, .moves 50, .moves 51] [] 4096 8 :=
  (vsnprintf_truncates text_number (by decide)).1 (by decide)

/-- Two bytes are not enough for `%d` with 123: the digit that does not fit is
never used up. -/
theorem vsnprintf_truncates_wrong : ¬ ∀ (fmt : List UInt8) (args : List Arg) (es : List Emission)
    (rest : List Arg) (buf size : ℕ), Text fmt 0 args es rest → buf + size < 2 ^ 32 →
    Truncates fmt args es rest buf size := by
  intro h
  have hsw : NoSwallow 2 [.moves 49, .moves 50, .moves 51] := by
    intro i e he hs
    have hm := mem_of_getElem? he
    simp only [mem_cons, not_mem_nil, or_false] at hm
    rcases hm with rfl | rfl | rfl <;> cases hs
  have ht := h _ _ _ _ 4096 2 text_number (by decide)
  have hf := text_number.fits_of_truncates (by decide) (by decide) hsw ht
  exact absurd (hf.1 2 (.moves 51) rfl (Emission.moves_effect 51)) (by decide)

end OcamlRpi.Printf
