import Mathlib.Logic.Function.Basic

namespace OcamlRpi.Support

open Function List

variable {κ β : Type*} [DecidableEq κ] {f : κ → β} {ws vs : List (κ × β)} {k : κ} {v : β}

/-- A function after writes to it, one after the other. -/
def written (f : κ → β) (ws : List (κ × β)) : κ → β := ws.foldl (fun f w ↦ update f w.1 w.2) f

theorem written_append (f : κ → β) (ws vs : List (κ × β)) : written f (ws ++ vs) = written (written f ws) vs :=
  foldl_append

theorem written_of_notMem (h : ∀ w ∈ ws, w.1 ≠ k) : written f ws k = f k := by
  induction ws generalizing f with
  | nil => rfl
  | cons w ws ih =>
    have hw := h w mem_cons_self
    exact (ih fun v hv ↦ h v (mem_cons_of_mem w hv)).trans (update_of_ne hw.symm _ _)

/-- Where all writes to a place agree, their order does not matter. -/
theorem written_of_agree (hv : ∀ w ∈ ws, w.1 = k → w.2 = v) (hk : ∃ w ∈ ws, w.1 = k) : written f ws k = v := by
  induction ws generalizing f with
  | nil => exact absurd hk (by simp)
  | cons w ws ih =>
    have hv' : ∀ w ∈ ws, w.1 = k → w.2 = v := fun u hu ↦ hv u (mem_cons_of_mem w hu)
    by_cases hlater : ∃ w ∈ ws, w.1 = k
    · exact ih hv' hlater
    · obtain ⟨u, hu, hku⟩ := hk
      obtain rfl : u = w := (mem_cons.mp hu).resolve_right fun hmem ↦ hlater ⟨u, hmem, hku⟩
      have hrest : ∀ w ∈ ws, w.1 ≠ k := fun w hw he ↦ hlater ⟨w, hw, he⟩
      have hself : update f u.1 u.2 k = u.2 := by rw [← hku, update_self]
      exact (written_of_notMem hrest).trans (hself.trans (hv u mem_cons_self hku))

end OcamlRpi.Support
