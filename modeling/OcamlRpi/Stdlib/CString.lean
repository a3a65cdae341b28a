import OcamlRpi.Memory.Copy
import OcamlRpi.Printf.Format

namespace OcamlRpi.Stdlib

open Support List
open Memory (wrap)
open Printf (byte)

/-- The string `s` with the NUL behind it is at the address `p`. -/
def CString (m : Mem) (p : ℕ) (s : List UInt8) : Prop :=
  (∀ i, i < s.length → m (p + i) = byte s i ∧ byte s i ≠ 0) ∧ m (p + s.length) = 0

/-- `while(*s++) ++res;` As long as a loop runs, there is no result. -/
def strlenLoop : ℕ → Mem → ℕ → ℕ → Option ℕ
  | 0, _, _, _ => none
  | n + 1, m, s, res => if m s = 0 then some res else strlenLoop n m (wrap (s + 1)) (wrap (res + 1))

def strlen (n : ℕ) (m : Mem) (s : ℕ) : Option ℕ := strlenLoop n m s 0

variable {m m' : Mem} {p n res : ℕ} {c : UInt8} {cs ds : List UInt8}

theorem cstring_nil : CString m p [] ↔ m p = 0 := by
  simp [CString]

theorem cstring_cons : CString m p (c :: cs) ↔ m p = c ∧ c ≠ 0 ∧ CString m (p + 1) cs := by
  have hnext : ∀ i, p + 1 + i = p + (i + 1) := by omega
  constructor
  · intro h
    obtain ⟨hbytes, hend⟩ := h
    obtain ⟨hfirst, hne⟩ := hbytes 0 (Nat.succ_pos _)
    refine ⟨hfirst, hne, fun i hi ↦ ?_, by rwa [hnext]⟩
    rw [hnext]
    exact hbytes (i + 1) (Nat.succ_lt_succ hi)
  · intro h
    obtain ⟨hfirst, hne, hbytes, hend⟩ := h
    rw [hnext] at hend
    refine ⟨fun i hi ↦ ?_, hend⟩
    cases i with
    | zero => exact ⟨hfirst, hne⟩
    | succ i =>
      have hx := hbytes i (Nat.lt_of_succ_lt_succ hi)
      rwa [hnext] at hx

theorem CString.unique (h : CString m p cs) (h' : CString m p ds) : cs = ds := by
  induction cs generalizing p ds with
  | nil =>
    have hz := cstring_nil.mp h
    cases ds with
    | nil => rfl
    | cons d ds =>
      obtain ⟨hd, hne, -⟩ := cstring_cons.mp h'
      exact absurd (hd.symm.trans hz) hne
  | cons c cs ih =>
    obtain ⟨hc, hne, hcs⟩ := cstring_cons.mp h
    cases ds with
    | nil => exact absurd (hc.symm.trans (cstring_nil.mp h')) hne
    | cons d ds =>
      obtain ⟨hd, -, hds⟩ := cstring_cons.mp h'
      rw [← hc, ← hd, ih hcs hds]

theorem CString.congr (h : CString m p cs) (hm : ∀ x, p ≤ x → x ≤ p + cs.length → m' x = m x) :
    CString m' p cs := by
  refine ⟨fun i hi ↦ ?_, ?_⟩
  · rw [hm (p + i) (by omega) (by omega)]
    exact h.1 i hi
  · rw [hm _ (by omega) le_rfl]
    exact h.2

theorem wrap_of_lt {x : ℕ} (h : x < 2 ^ 32) : wrap x = x := Nat.mod_eq_of_lt h

theorem strlenLoop_eq (h : CString m p cs) (hp : p + cs.length < 2 ^ 32) (hr : res + cs.length < 2 ^ 32)
    (hn : cs.length < n) : strlenLoop n m p res = some (res + cs.length) := by
  induction cs generalizing p res n with
  | nil =>
    obtain ⟨n, rfl⟩ : ∃ k, n = k + 1 := ⟨n - 1, by rw [length_nil] at hn; omega⟩
    exact if_pos (cstring_nil.mp h)
  | cons c cs ih =>
    obtain ⟨hc, hne, hcs⟩ := cstring_cons.mp h
    rw [length_cons] at hp hr hn ⊢
    obtain ⟨n, rfl⟩ : ∃ k, n = k + 1 := ⟨n - 1, by omega⟩
    rw [strlenLoop, if_neg (by rwa [hc]), wrap_of_lt (by omega), wrap_of_lt (by omega),
      ih hcs (by omega) (by omega) (by omega), Nat.add_assoc, Nat.add_comm 1]

theorem strlen_eq (h : CString m p cs) (hp : p + cs.length < 2 ^ 32) (hn : cs.length < n) :
    strlen n m p = some cs.length := by
  rw [strlen, strlenLoop_eq h hp (by omega) hn, Nat.zero_add]

end OcamlRpi.Stdlib
