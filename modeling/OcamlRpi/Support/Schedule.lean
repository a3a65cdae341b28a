import Mathlib.Data.Nat.Notation
import Mathlib.Order.Basic

namespace OcamlRpi.Support

variable {σ ε : Type*} {step : σ → ε → σ} {I G P : σ → Prop} {μ : σ → ℕ} {s : σ}
  {sched : ℕ → ε} {e : ε} {t k : ℕ}

/-- The state after some steps of a machine that does at every time what the
schedule says. -/
def after (step : σ → ε → σ) (s : σ) (sched : ℕ → ε) : ℕ → σ
  | 0 => s
  | t + 1 => step (after step s sched t) (sched t)

/-- The event `e` comes again and again. -/
def Recurs (sched : ℕ → ε) (e : ε) : Prop := ∀ t, ∃ k, sched (t + k) = e

theorem Recurs.drop (h : Recurs sched e) (t : ℕ) : Recurs (fun k ↦ sched (t + k)) e := by
  intro k
  obtain ⟨j, hj⟩ := h (t + k)
  exact ⟨j, by simpa only [Nat.add_assoc] using hj⟩

theorem after_add (step : σ → ε → σ) (s : σ) (sched : ℕ → ε) (t k : ℕ) :
    after step s sched (t + k) = after step (after step s sched t) (fun i ↦ sched (t + i)) k := by
  induction k with
  | zero => rfl
  | succ k ih =>
    rw [← Nat.add_assoc, after, after, ih]

theorem after_invariant (h₀ : I s) (hs : ∀ s t, I s → I (step s (sched t))) (t : ℕ) : I (after step s sched t) := by
  induction t with
  | zero => exact h₀
  | succ t ih => exact hs _ t ih

theorem after_of_fixed (h : ∀ t, step s (sched t) = s) (t : ℕ) : after step s sched t = s := by
  induction t with
  | zero => rfl
  | succ t ih => exact (congrArg (step · (sched t)) ih).trans (h t)

/-- Where an event changes the state, the first change comes no later. -/
theorem exists_progress (hs : ∀ t, step s (sched t) = s ∨ P (step s (sched t))) (hk : step s (sched k) ≠ s) :
    ∃ t, P (after step s sched t) := by
  induction k generalizing sched with
  | zero => exact ⟨1, (hs 0).resolve_left hk⟩
  | succ k ih =>
    rcases hs 0 with h₀ | h₀
    · have hs' (t : ℕ) : step s (sched (t + 1)) = s ∨ P (step s (sched (t + 1))) := hs (t + 1)
      obtain ⟨t, ht⟩ := ih hs' hk
      refine ⟨1 + t, ?_⟩
      have hdrop : (fun i ↦ sched (1 + i)) = fun i ↦ sched (i + 1) := funext fun i ↦ congrArg sched (Nat.add_comm 1 i)
      rw [after_add, hdrop, after, after, h₀]
      exact ht
    · exact ⟨1, h₀⟩

/-- A machine whose steps bring it closer to the goal or change nothing comes to
the goal, if as long as it is not there, an event that changes something comes
again and again. -/
theorem after_eventually (h₀ : I s) (hI : ∀ s t, I s → I (step s (sched t)))
    (hμ : ∀ s t, I s → step s (sched t) = s ∨ μ (step s (sched t)) < μ s)
    (hfair : ∀ s, I s → ¬G s → ∃ e, Recurs sched e ∧ step s e ≠ s) :
    ∃ t, G (after step s sched t) := by
  induction hn : μ s using Nat.strongRecOn generalizing s sched with
  | ind n ih =>
    by_cases hG : G s
    · exact ⟨0, hG⟩
    · obtain ⟨e, he, hne⟩ := hfair s h₀ hG
      obtain ⟨k, hk⟩ := he 0
      rw [Nat.zero_add] at hk
      obtain ⟨t, ht⟩ := exists_progress (P := fun u ↦ I u ∧ μ u < μ s)
        (fun t ↦ (hμ s t h₀).imp_right fun h ↦ ⟨hI s t h₀, h⟩) (hk ▸ hne : step s (sched k) ≠ s)
      have hfair' (u : σ) (hu : I u) (hGu : ¬G u) : ∃ e, Recurs (fun i ↦ sched (t + i)) e ∧ step u e ≠ u := by
        obtain ⟨e, he, hne⟩ := hfair u hu hGu
        exact ⟨e, he.drop t, hne⟩
      obtain ⟨j, hj⟩ := ih _ (hn ▸ ht.2) ht.1 (fun u i ↦ hI u (t + i)) (fun u i ↦ hμ u (t + i)) hfair' rfl
      exact ⟨t + j, by rwa [after_add]⟩

/-- The same where the other steps may change something, but lead away from the
goal no further, and one event brings every state closer. -/
theorem after_descends (h₀ : I s) (hI : ∀ s v, I s → I (step s v)) (hle : ∀ s v, I s → μ (step s v) ≤ μ s)
    (hlt : ∀ s, I s → ¬G s → μ (step s e) < μ s) (he : Recurs sched e) : ∃ t, G (after step s sched t) := by
  induction hn : μ s using Nat.strongRecOn generalizing s sched with
  | ind n ih =>
    obtain ⟨k, hk⟩ := he 0
    rw [Nat.zero_add] at hk
    obtain ⟨hIk, hμk⟩ : I (after step s sched k) ∧ μ (after step s sched k) ≤ μ s :=
      after_invariant (I := fun u ↦ I u ∧ μ u ≤ μ s) ⟨h₀, Nat.le_refl _⟩
        (fun u t h ↦ ⟨hI u _ h.1, Nat.le_trans (hle u _ h.1) h.2⟩) k
    by_cases hG : G (after step s sched k)
    · exact ⟨k, hG⟩
    · have hnext : after step s sched (k + 1) = step (after step s sched k) e := by rw [after, hk]
      have hless : μ (after step s sched (k + 1)) < n := by
        rw [hnext, ← hn]
        exact Nat.lt_of_lt_of_le (hlt _ hIk hG) hμk
      have hInext : I (after step s sched (k + 1)) := by
        rw [hnext]
        exact hI _ _ hIk
      obtain ⟨t, ht⟩ := ih _ hless hInext (he.drop (k + 1)) rfl
      exact ⟨k + 1 + t, by rwa [after_add]⟩

end OcamlRpi.Support
