import OcamlRpi.Printf.Console

namespace OcamlRpi.Printf

open List

/-- `__sprintf_chk`: what it sends to the UART, and the result of the printing. -/
def sprintfChk (fuel str len : ℕ) (fmt : List UInt8) (args : List Arg) : Option (List UInt8 × Result) :=
  (vsnprintf fuel str len fmt args).map fun r ↦ (trace "__sprintf_chk", r)

/-- The call returns the length of the text, leaves the text and a NUL at `str`,
and writes nothing below. -/
def LeavesText (fmt : List UInt8) (args : List Arg) (es : List Emission) (str len : ℕ) : Prop :=
  ∃ r, (∃ N, ∀ n, N ≤ n → sprintfChk n str len fmt args = some (trace "__sprintf_chk", r)) ∧
    r.ret = es.length ∧ (∀ i, i < es.length → r.written (str + i) = (chars es)[i]?) ∧
    r.written (str + es.length) = some 0 ∧ ∀ a, r.written a ≠ none → str ≤ a

variable {fmt cs : List UInt8} {args rest : List Arg} {es : List Emission} {str len : ℕ} {o : Out} {r : Result}

theorem sprintfChk_returns :
    (∃ N, ∀ n, N ≤ n → sprintfChk n str len fmt args = some (trace "__sprintf_chk", r)) ↔
      Returns fmt args str len r := by
  have h : ∀ n, sprintfChk n str len fmt args = some (trace "__sprintf_chk", r) ↔
      vsnprintf n str len fmt args = some r := by
    intro n
    rw [sprintfChk, Option.map_eq_some_iff]
    constructor
    · intro hx
      obtain ⟨r', hr, he⟩ := hx
      cases he
      exact hr
    · intro hr
      exact ⟨r, hr, rfl⟩
  simp only [h, Returns]

theorem Out.adds_stop_zero (h : o.stop = 0) (cs : List UInt8) : (o.adds cs).written = o.written := by
  induction cs generalizing o with
  | nil => rfl
  | cons c cs ih =>
    have hc : (o.bufAdd c).written = o.written := by
      unfold Out.bufAdd
      dsimp only
      rw [if_neg (by omega)]
    rw [Out.adds_cons, ih (o := o.bufAdd c) h, hc]

theorem returns_form (h : Returns fmt args str len r) :
    ∃ rest cs, r = finish str len rest ((Out.start str len).adds cs) := by
  obtain ⟨N, hN⟩ := h
  obtain ⟨⟨rest, o⟩, ho, rfl⟩ := Option.map_eq_some_iff.mp (hN N le_rfl)
  obtain ⟨cs, rfl⟩ := format_adds ho
  exact ⟨rest, cs, rfl⟩

theorem finish_last (str : ℕ) (hl : 0 < len) (rest : List Arg) (cs : List UInt8) :
    (finish str len rest ((Out.start str len).adds cs)).written (((str + len) % 2 ^ 32 + 2 ^ 32 - 1) % 2 ^ 32) =
      some 0 := by
  have hstop : (((Out.start str len).adds cs).stop + 2 ^ 32 - 1) % 2 ^ 32 =
      ((str + len) % 2 ^ 32 + 2 ^ 32 - 1) % 2 ^ 32 := by
    rw [Out.adds_stop]
    rfl
  simp only [finish, if_pos hl, hstop, Function.update_self]

theorem finish_end (hl : 0 < len) (h : str + len = 2 ^ 32) (rest : List Arg) (cs : List UInt8) (a : ℕ) :
    (finish str len rest ((Out.start str len).adds cs)).written a = if a = 2 ^ 32 - 1 then some 0 else none := by
  have hz : (Out.start str len).stop = 0 := by
    show (str + len) % 2 ^ 32 = 0
    omega
  have hw : (((Out.start str len).adds cs).bufAdd 0).written = fun _ ↦ none := by
    have hx := Out.adds_stop_zero hz (cs ++ [0])
    rw [Out.adds_append] at hx
    exact hx
  have hlast : (((Out.start str len).adds cs).stop + 2 ^ 32 - 1) % 2 ^ 32 = 2 ^ 32 - 1 := by
    rw [Out.adds_stop, hz]
    rfl
  simp only [finish, if_pos hl, hw, hlast, Function.update_apply]

theorem not_leavesText_wrap (h : 2 ^ 32 < str + len) (hstr : str < 2 ^ 32) (hlen : len < 2 ^ 32) :
    ¬LeavesText fmt args es str len := by
  intro hx
  obtain ⟨r, hr, -, -, -, hbelow⟩ := hx
  obtain ⟨rest, cs, rfl⟩ := returns_form (sprintfChk_returns.mp hr)
  have hlast := finish_last str (by omega : 0 < len) rest cs
  have hle := hbelow (((str + len) % 2 ^ 32 + 2 ^ 32 - 1) % 2 ^ 32) (by rw [hlast]; exact Option.some_ne_none 0)
  omega

/-- With its end at the end of the address space only the last byte of the
object is written. -/
theorem leavesText_end (ht : Text fmt 0 args es rest) (hl : es.length < len) (h : str + len = 2 ^ 32) :
    LeavesText fmt args es str len ↔ len = 1 := by
  constructor
  · intro hx
    obtain ⟨r, hr, -, htext, hend, -⟩ := hx
    obtain ⟨rest', cs, rfl⟩ := returns_form (sprintfChk_returns.mp hr)
    have hfirst : (finish str len rest' ((Out.start str len).adds cs)).written str ≠ none := by
      cases es with
      | nil =>
        have hx : (finish str len rest' ((Out.start str len).adds cs)).written str = some 0 := hend
        rw [hx]
        exact Option.some_ne_none 0
      | cons e es =>
        have hx : (finish str len rest' ((Out.start str len).adds cs)).written str = some e.char :=
          htext 0 (Nat.succ_pos _)
        rw [hx]
        exact Option.some_ne_none _
    rw [finish_end (by omega) h] at hfirst
    by_contra hne
    exact hfirst (if_neg (by omega))
  · intro hone
    obtain rfl : es = [] := length_eq_zero_iff.mp (by omega)
    obtain ⟨N, hN⟩ := ht.format (o := .start str len) (Nat.mod_lt _ (by decide)) fits_nil (by show str + 0 < _; omega)
    have hr : Returns fmt args str len (finish str len rest ((Out.start str len).adds [])) := by
      refine ⟨N, fun n hn ↦ ?_⟩
      rw [vsnprintf, hN n hn]
      rfl
    have hret : (finish str len rest ((Out.start str len).adds [])).ret = int (0 : ℕ) := finish_ret_mod rfl
    have hwritten := finish_end (by omega) h rest []
    refine ⟨_, sprintfChk_returns.mpr hr, hret, fun i hi ↦ absurd hi (Nat.not_lt_zero i), ?_, fun a ha ↦ ?_⟩
    · rw [hwritten, length_nil, if_pos (by omega)]
    · rw [hwritten] at ha
      by_contra hlt
      exact ha (if_neg (by omega))

/-- `__sprintf_chk` is right as long as the end of the object does not leave
the address space, and the length of the text is an `int`. -/
theorem sprintfChk_iff (ht : Text fmt 0 args es rest) (hl : es.length < len) (hstr : str < 2 ^ 32)
    (hlen : len < 2 ^ 32) :
    LeavesText fmt args es str len ↔
      str + len < 2 ^ 32 ∧ es.length < 2 ^ 31 ∨ str = 2 ^ 32 - 1 ∧ len = 1 := by
  rcases Nat.lt_trichotomy (str + len) (2 ^ 32) with h | h | h
  · obtain ⟨r, hr, hret, -, hin, hwr⟩ := ht.truncates h (fits_of_length_le (Nat.le_of_lt hl)) (by omega)
    obtain ⟨htext, hend⟩ := hwr (by omega)
    have hmin : min (len - 1) es.length = es.length := by omega
    rw [hmin] at htext hend
    constructor
    · intro hx
      obtain ⟨r', hr', hret', -⟩ := hx
      obtain rfl := hr.unique (sprintfChk_returns.mp hr')
      have hint : int es.length < 2 ^ 31 := Int.bmod_lt (by decide)
      omega
    · intro hx
      have hret' : r.ret = es.length := by
        rw [hret, int_self] <;> omega
      exact ⟨r, sprintfChk_returns.mpr hr, hret', htext, hend, fun a ha ↦ (hin a ha).1⟩
  · rw [leavesText_end ht hl h]
    omega
  · exact iff_of_false (not_leavesText_wrap h hstr hlen) (by omega)

theorem sprintfChk_small : LeavesText [37, 100] [.int 123] [.moves 49, .moves 50, .moves 51] 4096 8 :=
  (sprintfChk_iff text_number (by decide) (by decide) (by decide)).mpr (.inl (by decide))

/-- With an object of unknown size at 4096 the end of the buffer is at 4095. -/
theorem sprintfChk_wrong : ¬ ∀ (fmt : List UInt8) (args rest : List Arg) (es : List Emission) (str len : ℕ),
    Text fmt 0 args es rest → es.length < len → str < 2 ^ 32 → len < 2 ^ 32 →
    LeavesText fmt args es str len := by
  intro h
  exact not_leavesText_wrap (by decide) (by decide) (by decide)
    (h _ _ _ _ 4096 (2 ^ 32 - 1) text_number (by decide) (by decide) (by decide))

end OcamlRpi.Printf
