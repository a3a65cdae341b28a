import Mathlib.Algebra.Ring.Nat
import Mathlib.Data.List.Basic
import Mathlib.Logic.Function.Basic

namespace OcamlRpi.Printf

open Function List

/-- The kernel's RAM is mapped from here on. -/
def VIRT_BASE : ℕ := 0xC0000000

/-- The `memory_regions` that are not left unmapped. -/
def Mapped (a : ℕ) : Prop := a < 0x10000000 ∨ VIRT_BASE ≤ a

/-- The pointers `buf` and `end` of the printing functions, and what they wrote
to each address. -/
structure Out where
  buf : ℕ
  stop : ℕ
  written : ℕ → Option UInt8

namespace Out

/-- The pointers at the start of `vsnprintf`. -/
def start (buf size : ℕ) : Out := ⟨buf, (buf + size) % 2 ^ 32, fun _ ↦ none⟩

/-- `buf_add(c)`. The macro evaluates `c`, with its side effects, only where
`buf < end`: its callers test this themselves where it matters. -/
def bufAdd (o : Out) (c : UInt8) : Out where
  buf := (o.buf + 1) % 2 ^ 32
  stop := o.stop
  written := if o.buf < o.stop then update o.written o.buf (some c) else o.written

def adds (o : Out) (cs : List UInt8) : Out := cs.foldl bufAdd o

variable {o : Out} {c : UInt8} {cs ds : List UInt8} {a : ℕ}

@[simp] theorem bufAdd_stop (o : Out) (c : UInt8) : (o.bufAdd c).stop = o.stop := rfl

@[simp] theorem adds_nil (o : Out) : o.adds [] = o := rfl

@[simp] theorem adds_cons (o : Out) (c : UInt8) (cs : List UInt8) :
    o.adds (c :: cs) = (o.bufAdd c).adds cs := rfl

theorem adds_append (o : Out) (cs ds : List UInt8) : o.adds (cs ++ ds) = (o.adds cs).adds ds :=
  foldl_append

@[simp] theorem adds_stop (o : Out) (cs : List UInt8) : (o.adds cs).stop = o.stop := by
  induction cs generalizing o with
  | nil => rfl
  | cons c cs ih => rw [adds_cons, ih, bufAdd_stop]

theorem bufAdd_buf (h : o.buf + 1 < 2 ^ 32) : (o.bufAdd c).buf = o.buf + 1 := Nat.mod_eq_of_lt h

theorem adds_buf (h : o.buf + cs.length < 2 ^ 32) : (o.adds cs).buf = o.buf + cs.length := by
  induction cs generalizing o with
  | nil => rfl
  | cons c cs ih =>
    rw [length_cons] at h
    have hb : (o.bufAdd c).buf = o.buf + 1 := bufAdd_buf (by omega)
    rw [adds_cons, ih (by omega), hb, length_cons]
    omega

theorem adds_buf_mod (o : Out) (cs : List UInt8) :
    (o.adds cs).buf % 2 ^ 32 = (o.buf + cs.length) % 2 ^ 32 := by
  induction cs generalizing o with
  | nil => rfl
  | cons c cs ih =>
    have hb : (o.bufAdd c).buf = (o.buf + 1) % 2 ^ 32 := rfl
    rw [adds_cons, ih, hb, length_cons]
    omega

theorem adds_written (h : o.buf + cs.length < 2 ^ 32) :
    (o.adds cs).written a =
      if o.buf ≤ a ∧ a < o.buf + cs.length ∧ a < o.stop then cs[a - o.buf]? else o.written a := by
  induction cs generalizing o with
  | nil =>
    rw [if_neg (by simp; omega), adds_nil]
  | cons c cs ih =>
    rw [length_cons] at h
    have hb : (o.bufAdd c).buf = o.buf + 1 := bufAdd_buf (by omega)
    rw [adds_cons, ih (by omega), hb, bufAdd_stop, length_cons]
    by_cases ha : a = o.buf
    · subst ha
      rw [if_neg (by omega)]
      by_cases hs : o.buf < o.stop <;> simp [bufAdd, hs]
    · have hw : (o.bufAdd c).written a = o.written a := by
        unfold bufAdd
        split_ifs <;> simp [ha]
      rw [hw]
      by_cases hlt : o.buf ≤ a
      · have hi : a - o.buf = (a - (o.buf + 1)) + 1 := by omega
        rw [hi, getElem?_cons_succ]
        congr 1
        simp only [eq_iff_iff]
        omega
      · rw [if_neg (by omega), if_neg (by omega)]

/-- The buffer pointer has wrapped to the address 0. -/
def Wrapped (o : Out) : Prop := o.buf = 0 ∨ o.written 0 ≠ none

theorem Wrapped.written (h : o.Wrapped) (hs : 0 < o.stop) : (o.bufAdd c).written 0 ≠ none := by
  unfold Out.bufAdd
  rcases h with h | h
  · simp [h, hs]
  · split_ifs
    · by_cases hb : o.buf = 0
      · simp [hb]
      · simpa [update_of_ne (Ne.symm hb)] using h
    · exact h

theorem Wrapped.bufAdd (h : o.Wrapped) (hs : 0 < o.stop) : (o.bufAdd c).Wrapped :=
  .inr (h.written hs)

theorem Wrapped.adds (h : o.Wrapped) (hs : 0 < o.stop) : (o.adds cs).Wrapped := by
  induction cs generalizing o with
  | nil => exact h
  | cons c cs ih => exact ih (h.bufAdd hs) hs

/-- The buffer is full, and the pointer has not wrapped yet. -/
def Past (o : Out) : Prop := o.stop ≤ o.buf ∧ o.buf < 2 ^ 32

def Full (o : Out) : Prop := o.Past ∨ o.Wrapped

theorem Full.bufAdd (h : o.Full) (hs : 0 < o.stop) : (o.bufAdd c).Full := by
  rcases h with ⟨hb, hlt⟩ | h
  · by_cases hx : o.buf + 1 < 2 ^ 32
    · have hb' : (o.bufAdd c).buf = o.buf + 1 := bufAdd_buf hx
      exact .inl ⟨by rw [bufAdd_stop]; omega, by omega⟩
    · refine .inr (.inl ?_)
      show (o.buf + 1) % 2 ^ 32 = 0
      omega
  · exact .inr (h.bufAdd hs)

theorem Full.adds (h : o.Full) (hs : 0 < o.stop) : (o.adds cs).Full := by
  induction cs generalizing o with
  | nil => exact h
  | cons c cs ih => exact ih (h.bufAdd hs) hs

theorem Past.adds (h : o.Past) (hs : 0 < o.stop) (cs : List UInt8) :
    (o.adds cs).Past ∧ (o.adds cs).buf = o.buf + cs.length ∨ (o.adds cs).Wrapped := by
  induction cs generalizing o with
  | nil => exact .inl ⟨h, rfl⟩
  | cons c cs ih =>
    rcases Full.bufAdd (c := c) (.inl h) hs with hx | hx
    · have hb : (o.bufAdd c).buf = o.buf + 1 := by
        have hp : o.stop ≤ (o.buf + 1) % 2 ^ 32 := hx.1
        have hlt := h.2
        show (o.buf + 1) % 2 ^ 32 = o.buf + 1
        omega
      refine (ih hx hs).imp_left fun hy ↦ ⟨hy.1, ?_⟩
      rw [adds_cons, hy.2, hb, length_cons]
      omega
    · exact .inr (hx.adds hs)

theorem adds_buf_or_wrapped (hs : 0 < o.stop) (hb : o.buf < 2 ^ 32) (cs : List UInt8) :
    (o.adds cs).Wrapped ∨ o.buf + cs.length < 2 ^ 32 := by
  induction cs generalizing o with
  | nil => exact .inr hb
  | cons c cs ih =>
    by_cases h : o.buf + 1 < 2 ^ 32
    · have hb' : (o.bufAdd c).buf = o.buf + 1 := bufAdd_buf h
      have hi := ih (o := o.bufAdd c) hs (by omega)
      rw [hb'] at hi
      refine hi.imp_right fun hx ↦ ?_
      rw [length_cons]
      omega
    · refine .inl (Wrapped.adds (o := o.bufAdd c) (.inl ?_) hs)
      show (o.buf + 1) % 2 ^ 32 = 0
      omega

end Out

/-- What the argument of a `buf_add` does besides giving a character: nothing,
or it moves on in the number, the string, the arguments or the format; or it
takes away the `%` of the directive that follows an unknown placeholder. -/
inductive Effect where
  | none
  | advance
  | swallow
deriving DecidableEq

structure Emission where
  char : UInt8
  effect : Effect
deriving DecidableEq

abbrev Emission.plain (c : UInt8) : Emission := ⟨c, .none⟩

abbrev Emission.moves (c : UInt8) : Emission := ⟨c, .advance⟩

def chars (es : List Emission) : List UInt8 := es.map Emission.char

theorem Emission.moves_effect (c : UInt8) : (Emission.moves c).effect ≠ .none := by simp

/-- No character whose argument has an effect is at `n` or beyond. -/
def Fits (n : ℕ) (es : List Emission) : Prop :=
  ∀ i e, es[i]? = some e → e.effect ≠ .none → i < n

variable {n : ℕ} {e : Emission} {es fs : List Emission}

@[simp] theorem chars_nil : chars [] = [] := rfl

@[simp] theorem chars_cons : chars (e :: es) = e.char :: chars es := rfl

@[simp] theorem chars_append : chars (es ++ fs) = chars es ++ chars fs := map_append

@[simp] theorem length_chars : (chars es).length = es.length := length_map _

theorem fits_nil : Fits n [] := by
  intro i e he
  cases he

theorem fits_cons : Fits n (e :: es) ↔ (e.effect ≠ .none → 0 < n) ∧ Fits (n - 1) es := by
  constructor
  · intro h
    refine ⟨h 0 e rfl, fun i f hf hn ↦ ?_⟩
    have hx := h (i + 1) f hf hn
    omega
  · rintro ⟨h₀, h⟩ i f hf hn
    cases i with
    | zero =>
      cases hf
      exact h₀ hn
    | succ i =>
      have hx := h i f hf hn
      omega

theorem fits_append : Fits n (es ++ fs) ↔ Fits n es ∧ Fits (n - es.length) fs := by
  induction es generalizing n with
  | nil => simp [fits_nil]
  | cons e es ih =>
    rw [cons_append, fits_cons, fits_cons, ih, length_cons, and_assoc, Nat.sub_sub, Nat.add_comm 1]

theorem fits_of_plain (h : ∀ e ∈ es, e.effect = .none) : Fits n es := by
  intro i e he hn
  exact absurd (h e (mem_of_getElem? he)) hn

theorem fits_of_length_le (h : es.length ≤ n) : Fits n es := by
  intro i e he _
  obtain ⟨hi, -⟩ := List.getElem?_eq_some_iff.mp he
  omega

end OcamlRpi.Printf
