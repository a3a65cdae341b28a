import Mathlib.Logic.Relation
import OcamlRpi.Printf.Text
import OcamlRpi.Support.Run

namespace OcamlRpi.Printf

open List Relation

/-- The loop of `vsnprintf` between two iterations: the offset in the format,
the arguments that are left, and the output. -/
abbrev Point := ℕ × List Arg × Out

/-- The body of the loop. -/
def iteration (fuel : ℕ) (fmt : List UInt8) (p : Point) : Option Point :=
  if byte fmt p.1 ≠ '%'.toUInt8 then some (p.1 + 1, p.2.1, p.2.2.bufAdd (byte fmt p.1))
  else (placeholder fmt (p.1 + 1) p.2.1).bind fun q ↦ perform fuel fmt q.2.1 q.2.2 p.2.2 q.1

/-- The loop gets from `p` to `q` in one iteration. -/
def Passes (fmt : List UInt8) (p q : Point) : Prop :=
  byte fmt p.1 ≠ 0 ∧ ∃ N, ∀ n, N ≤ n → iteration n fmt p = some q

/-- What the placeholder whose `%` is at the offset `i` prints, where the format
goes on and which arguments are left. -/
def contribution (fmt : List UInt8) (i : ℕ) (args : List Arg) : Option (List Emission × ℕ × List Arg) :=
  (placeholder fmt (i + 1) args).bind fun q ↦ emits fmt q.2.1 q.2.2 q.1

variable {fmt : List UInt8} {i j n : ℕ} {args rest : List Arg} {o : Out} {p q r : Point}
  {es : List Emission}

theorem format_succ (n : ℕ) (fmt : List UInt8) (p : Point) :
    format (n + 1) fmt p.1 p.2.1 p.2.2 =
      if byte fmt p.1 = 0 then some p.2
      else (iteration n fmt p).bind fun q ↦ format n fmt q.1 q.2.1 q.2.2 := by
  rw [format, iteration]
  split_ifs with h hc
  · rfl
  · rfl
  · rw [Option.bind_assoc]
    rfl

theorem Passes.unique (h : Passes fmt p q) (h' : Passes fmt p r) : q = r :=
  Support.result_unique h.2 h'.2

theorem passes_literal (h₀ : byte fmt i ≠ 0) (hc : byte fmt i ≠ '%'.toUInt8) (args : List Arg) (o : Out) :
    Passes fmt (i, args, o) (i + 1, args, o.bufAdd (byte fmt i)) := by
  refine ⟨h₀, 0, fun n _ ↦ ?_⟩
  rw [iteration, if_pos hc]

theorem passes_contribution (hi : byte fmt i = '%'.toUInt8) (h : contribution fmt i args = some (es, j, rest))
    (hr : o.buf + es.length ≤ o.stop) (hs : o.stop < 2 ^ 32) :
    Passes fmt (i, args, o) (j, rest, o.adds (chars es)) := by
  obtain ⟨⟨action, k, args'⟩, hp, he⟩ := Option.bind_eq_some_iff.mp h
  obtain ⟨N, hN⟩ := perform_fits (o := o) he hs (fits_of_length_le (by omega)) (by omega)
  refine ⟨by rw [hi]; decide, N, fun n hn ↦ ?_⟩
  rw [iteration, if_neg (not_not.mpr hi), hp, Option.bind_some, hN n hn]

/-- What `vsnprintf` prints from `p` on is what it prints from `q` on. -/
theorem format_passes (h : ReflTransGen (Passes fmt) p q) :
    ∃ k N, ∀ n, N ≤ n → format (n + k) fmt p.1 p.2.1 p.2.2 = format n fmt q.1 q.2.1 q.2.2 := by
  induction h with
  | refl => exact ⟨0, 0, fun n _ ↦ rfl⟩
  | tail _ hs ih =>
    obtain ⟨k, N, hN⟩ := ih
    obtain ⟨h₀, M, hM⟩ := hs
    refine ⟨k + 1, max N M, fun n hn ↦ ?_⟩
    have hk : n + (k + 1) = n + 1 + k := by omega
    rw [hk, hN (n + 1) (by omega), format_succ, if_neg h₀, hM n (by omega), Option.bind_some]

end OcamlRpi.Printf
