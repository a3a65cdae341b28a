import Mathlib.Data.Nat.Notation

namespace OcamlRpi.Support

variable {σ : Type*} {step : σ → Option σ} {P Q R : σ → Prop} {s t : σ} {n : ℕ}

/-- The steps come to a state with `Q`, and have `P` on the way. -/
inductive Through (P : σ → Prop) (step : σ → Option σ) (Q : σ → Prop) : σ → Prop
  | here {s : σ} (h : Q s) : Through P step Q s
  | step {s t : σ} (hp : P s) (hs : step s = some t) (h : Through P step Q t) : Through P step Q s

/-- The steps from a state come to one with `Q`. -/
abbrev Leads (step : σ → Option σ) (Q : σ → Prop) : σ → Prop := Through (fun _ ↦ True) step Q

namespace Through

theorem trans (h : Through P step Q s) (hq : ∀ t, Q t → Through P step R t) : Through P step R s := by
  induction h with
  | here h => exact hq _ h
  | step hp hs _ ih => exact .step hp hs ih

theorem mono (h : Through P step Q s) (hq : ∀ t, Q t → R t) : Through P step R s :=
  h.trans fun t ht ↦ .here (hq t ht)

theorem leads (h : Through P step Q s) : Leads step Q s := by
  induction h with
  | here h => exact .here h
  | step _ hs _ ih => exact .step trivial hs ih

theorem done (h : Through P step Q s) (hp : ¬P s) : Q s := by
  cases h with
  | here h => exact h
  | step hp' => exact absurd hp' hp

/-- A loop whose passes are counted down. -/
theorem loop {I : ℕ → σ → Prop} (h : ∀ n s, I (n + 1) s → Through P step (I n) s) (hs : I n s) :
    Through P step (I 0) s := by
  induction n generalizing s with
  | zero => exact .here hs
  | succ n ih => exact (h n s hs).trans fun t ht ↦ ih ht

end Through

end OcamlRpi.Support
