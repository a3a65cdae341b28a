import OcamlRpi.Printf.Truncation

namespace OcamlRpi.Printf

open List

variable {fmt : List UInt8} {i k k' n : ℕ} {args rest rest' : List Arg} {action : Action}
  {es : List Emission} {o r : Out}

namespace Out

variable {c : UInt8} {cs : List UInt8} {a : ℕ}

theorem bufAdd_keeps (h : o.written a ≠ none) : (o.bufAdd c).written a ≠ none := by
  unfold bufAdd
  dsimp only
  split_ifs
  · rw [Function.update_apply]
    split_ifs
    · exact Option.some_ne_none c
    · exact h
  · exact h

theorem adds_keeps (h : o.written a ≠ none) (cs : List UInt8) : (o.adds cs).written a ≠ none := by
  induction cs generalizing o with
  | nil => exact h
  | cons c cs ih => exact ih (bufAdd_keeps h)

theorem adds_buf_lt (h : o.buf < 2 ^ 32) (cs : List UInt8) : (o.adds cs).buf < 2 ^ 32 := by
  induction cs generalizing o with
  | nil => exact h
  | cons c cs ih => exact ih (Nat.mod_lt _ (by decide))

/-- Behind the end of the address space the printing goes on at 0, into
everything below the end of the buffer. -/
theorem adds_wraps (hb : o.buf < 2 ^ 32) (ha : a < o.stop) (hs : o.stop < 2 ^ 32)
    (hl : 2 ^ 32 + a < o.buf + cs.length) : (o.adds cs).written a ≠ none := by
  obtain ⟨ds, es, rfl, hds⟩ : ∃ ds es, cs = ds ++ es ∧ o.buf + ds.length = 2 ^ 32 := by
    refine ⟨cs.take (2 ^ 32 - o.buf), cs.drop (2 ^ 32 - o.buf), (take_append_drop _ _).symm, ?_⟩
    rw [length_take]
    omega
  obtain ⟨fs, gs, rfl, hfs⟩ : ∃ fs gs, es = fs ++ gs ∧ fs.length = a + 1 := by
    refine ⟨es.take (a + 1), es.drop (a + 1), (take_append_drop _ _).symm, ?_⟩
    rw [length_append] at hl
    rw [length_take]
    omega
  have hzero : (o.adds ds).buf = 0 := by
    have hmod := o.adds_buf_mod ds
    have hlt := adds_buf_lt hb ds
    omega
  rw [adds_append, adds_append]
  refine adds_keeps ?_ gs
  rw [adds_written (by omega), if_pos (by rw [adds_stop]; omega), getElem?_eq_getElem (by omega)]
  exact Option.some_ne_none _

/-- The printing is still inside its buffer, and nothing is at 0. -/
structure Inside (o : Out) : Prop where
  pos : 0 < o.buf
  clean : o.written 0 = none
  le : o.buf ≤ o.stop
  lt : o.stop < 2 ^ 32

theorem Inside.adds (h : o.Inside) (hl : o.buf + cs.length ≤ o.stop) :
    (o.adds cs).Inside ∧ (o.adds cs).buf = o.buf + cs.length := by
  obtain ⟨hpos, hclean, -, hlt⟩ := h
  have hbuf : (o.adds cs).buf = o.buf + cs.length := adds_buf (by omega)
  refine ⟨⟨by omega, ?_, by rw [hbuf, adds_stop]; exact hl, by rwa [adds_stop]⟩, hbuf⟩
  rw [adds_written (by omega), if_neg (by omega)]
  exact hclean

theorem Inside.wrapped (h : o.Inside) (hw : (o.adds cs).Wrapped) : o.stop < o.buf + cs.length := by
  by_contra hl
  obtain ⟨⟨hpos, hclean, -, -⟩, -⟩ := h.adds (Nat.not_lt.mp hl)
  rcases hw with hw | hw
  · omega
  · exact hw hclean

end Out

theorem finish_keeps {a : ℕ} (h : o.written a ≠ none) (buf size : ℕ) (args : List Arg) :
    (finish buf size args o).written a ≠ none := by
  have hadd := Out.bufAdd_keeps (c := 0) h
  unfold finish
  dsimp only
  split_ifs
  · rw [Function.update_apply]
    split_ifs
    · exact Option.some_ne_none 0
    · exact hadd
  · exact hadd

/-- A placeholder whose text does not fit into the buffer is printed beyond it,
whatever becomes of its arguments there. -/
theorem perform_overflows (he : emits fmt i args action = some (es, k, rest))
    (hp : perform n fmt i args o action = some (k', rest', r)) (ho : o.Inside)
    (hl : o.stop < o.buf + es.length) : ∃ cs, r = o.adds cs ∧ o.stop < o.buf + cs.length := by
  have hs := ho.lt
  have hpos : 0 < o.stop := Nat.lt_of_lt_of_le ho.pos ho.le
  have hlt : o.buf < 2 ^ 32 := Nat.lt_of_le_of_lt ho.le hs
  have hlen : o.stop < o.buf + (chars es).length := by rwa [length_chars]
  have hwrap : ∀ cs, r = o.adds cs → r.Wrapped → ∃ cs, r = o.adds cs ∧ o.stop < o.buf + cs.length := by
    intro cs hcs hw
    exact ⟨cs, hcs, ho.wrapped (hcs ▸ hw)⟩
  cases action with
  | number num hex width precision flags =>
    have hbase : (if hex then 16 else 10) = 10 ∨ (if hex then 16 else 10) = 16 := by
      cases hex <;> decide
    cases he
    obtain ⟨q, hq, hr⟩ := Option.map_eq_some_iff.mp hp
    cases hr
    obtain ⟨cs, hcs⟩ := sprintInt_adds hbase hq
    rcases sprintInt_cases hbase hpos hs hlt hq with hw | hx
    · exact hwrap cs hcs hw
    · exact ⟨_, hx.2, hlen⟩
  | char =>
    simp only [emits] at he
    split at he
    next v args =>
      cases he
      rw [length_singleton] at hl
      rw [perform, if_neg (by omega)] at hp
      cases hp
      exact ⟨[0], rfl, by rw [length_singleton]; omega⟩
    next => cases he
  | string s precision =>
    cases he
    simp only [perform] at hp
    unfold stringText at hlen
    split_ifs at hp hlen with hprec
    · obtain ⟨q, hq, hr⟩ := Option.map_eq_some_iff.mp hp
      cases hr
      obtain ⟨cs, hcs⟩ := putString_adds hq
      rcases putString_cases hpos hs hlt hq with hw | hx
      · exact hwrap cs hcs hw
      · exact ⟨_, hx.2, by rwa [chars_map_moves] at hlen⟩
    · cases hp
      obtain ⟨cs, hcs⟩ := putPrefix_adds precision.toNat o s
      rcases putPrefix_cases hpos hs hlt with hw | hx | hx
      · exact hwrap cs hcs hw
      · exact ⟨_, hx.2, hlen⟩
      · obtain ⟨-, hlt', -, hgt⟩ := hx
        rw [length_chars] at hlen
        refine ⟨cs, hcs, ?_⟩
        by_cases hw : o.buf + cs.length < 2 ^ 32
        · rw [hcs, Out.adds_buf hw] at hgt
          omega
        · omega
  | percent =>
    cases he
    cases hp
    exact ⟨['%'.toUInt8], rfl, hl⟩
  | unknown =>
    cases he
    cases hp
    exact ⟨[_], rfl, hl⟩

/-- A text that does not fit into the buffer is printed beyond it. `P` says with
what the runs end. -/
theorem Text.overflows {P : List Arg × Out → Prop} (ht : Text fmt i args es rest) (ho : o.Inside)
    (hl : o.stop < o.buf + es.length)
    (hr : ∃ N, ∀ n, N ≤ n → ∃ q, Printf.format n fmt i args o = some q ∧ P q) :
    ∃ rest' cs, P (rest', o.adds cs) ∧ o.stop < o.buf + cs.length := by
  obtain ⟨N, hN⟩ := hr
  induction ht generalizing N o with
  | stop h =>
    have hle := ho.le
    rw [length_nil] at hl
    omega
  | @literal i args rest es h hc ht ih =>
    have hstep : ∀ n, N ≤ n →
        ∃ q, Printf.format n fmt (i + 1) args (o.adds [byte fmt i]) = some q ∧ P q := by
      intro n hn
      have hx := hN (n + 1) (by omega)
      rwa [format_literal h hc] at hx
    by_cases hfull : o.buf + [byte fmt i].length ≤ o.stop
    · obtain ⟨hin, hbuf⟩ := ho.adds hfull
      rw [length_cons] at hl
      rw [length_singleton] at hbuf
      obtain ⟨rest', cs, hP, hlen⟩ := ih hin (by rw [hbuf, Out.adds_stop]; omega) N hstep
      rw [hbuf, Out.adds_stop] at hlen
      refine ⟨rest', [byte fmt i] ++ cs, by rwa [Out.adds_append], ?_⟩
      rw [length_append, length_singleton]
      omega
    · obtain ⟨⟨rest', r⟩, hr, hP⟩ := hstep N le_rfl
      obtain ⟨cs, rfl⟩ := format_adds hr
      refine ⟨rest', [byte fmt i] ++ cs, by rwa [Out.adds_append], ?_⟩
      rw [length_append]
      omega
  | @placeholder i j k args args₁ args₂ rest action es fs h hp he ht ih =>
    have hstep : ∀ n, N ≤ n → ∃ k' args' q', perform n fmt j args₁ o action = some (k', args', q') ∧
        ∃ q, Printf.format n fmt k' args' q' = some q ∧ P q := by
      intro n hn
      obtain ⟨q, hx, hP⟩ := hN (n + 1) (by omega)
      rw [format_placeholder h, hp, Option.bind_some] at hx
      obtain ⟨⟨k', args', q'⟩, hq, hx⟩ := Option.bind_eq_some_iff.mp hx
      exact ⟨k', args', q', hq, q, hx, hP⟩
    by_cases hfits : o.buf + (chars es).length ≤ o.stop
    · obtain ⟨hin, hbuf⟩ := ho.adds hfits
      have hs := ho.lt
      rw [length_chars] at hfits hbuf
      rw [length_append] at hl
      obtain ⟨M, hM⟩ := perform_fits (o := o) he hs (fits_of_length_le (by omega)) (by omega)
      have hrest : ∀ n, max N M ≤ n →
          ∃ q, Printf.format n fmt k args₂ (o.adds (chars es)) = some q ∧ P q := by
        intro n hn
        obtain ⟨k', args', q', hq, hx⟩ := hstep n (by omega)
        cases (hM n (by omega)).symm.trans hq
        exact hx
      obtain ⟨rest', cs, hP, hlen⟩ := ih hin (by rw [hbuf, Out.adds_stop]; omega) _ hrest
      rw [hbuf, Out.adds_stop] at hlen
      refine ⟨rest', chars es ++ cs, by rwa [Out.adds_append], ?_⟩
      rw [length_append, length_chars]
      omega
    · obtain ⟨k', args', q', hq, ⟨rest', r⟩, hr, hP⟩ := hstep N le_rfl
      rw [length_chars] at hfits
      obtain ⟨cs, rfl, hlen⟩ := perform_overflows he hq ho (Nat.not_le.mp hfits)
      obtain ⟨ds, rfl⟩ := format_adds hr
      refine ⟨rest', cs ++ ds, by rwa [Out.adds_append], ?_⟩
      rw [length_append]
      omega

end OcamlRpi.Printf
