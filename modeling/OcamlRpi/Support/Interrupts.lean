import OcamlRpi.Support.Leads
import OcamlRpi.Support.Run

namespace OcamlRpi.Support

open List

variable {σ : Type*} {step take : σ → Option σ} {P : σ → Prop} {R : σ → σ → Prop} {s t₀ u : σ} {l : List Bool}

/-- A machine that takes an interrupt where the input says so, if it can. -/
def interrupted (step take : σ → Option σ) (s : σ) : Bool → Option σ
  | true => take s
  | false => step s

/-- Every interrupt is handled in states with `P`, which take none, and the
handler comes back to a state that is as good as the one it was called in. So
an interrupted run is as good as one without interrupts. -/
theorem interrupted_run (hstep : ∀ s t t', R s t → step t = some t' → ∃ s', step s = some s' ∧ R s' t')
    (htake : ∀ k s t t', run (interrupted step take) t₀ k = some t → R s t → take t = some t' → Through P step (R s) t')
    (hP : ∀ t, P t → take t = none) (hR : R s t₀) (hr : run (interrupted step take) t₀ l = some u) :
    ∃ p s', run (fun s (_ : Unit) ↦ step s) s p = some s' ∧ p.length ≤ l.length ∧ Through P step (R s') u := by
  induction l using List.reverseRecOn generalizing u with
  | nil =>
    obtain rfl := Option.some.inj hr
    exact ⟨[], s, rfl, le_rfl, .here hR⟩
  | append_singleton l b ih =>
    obtain ⟨v, hv, hu⟩ := run_concat.mp hr
    obtain ⟨p, s', hp, hlen, hthrough⟩ := ih hv
    rw [length_append, length_singleton]
    cases hthrough with
    | here hR =>
      cases b with
      | true => exact ⟨p, s', hp, hlen.trans (Nat.le_succ _), htake l s' v u hv hR hu⟩
      | false =>
        obtain ⟨s'', hs'', hR'⟩ := hstep s' v u hR hu
        exact ⟨p ++ [()], s'', run_concat.mpr ⟨s', hp, hs''⟩, by simpa using hlen, .here hR'⟩
    | step hPv hs h =>
      cases b with
      | true => exact absurd ((hP v hPv).symm.trans hu) (by simp)
      | false =>
        obtain rfl := Option.some.inj (hs.symm.trans hu)
        exact ⟨p, s', hp, hlen.trans (Nat.le_succ _), h⟩

end OcamlRpi.Support
