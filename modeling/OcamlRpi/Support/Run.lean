import Mathlib.Data.List.Infix
import Mathlib.Data.Option.Basic

namespace OcamlRpi.Support

open List

variable {σ τ ι κ ε : Type*} {step : σ → ι → Option σ} {s t u : σ} {i : ι} {l k : List ι}

/-- A loop that runs with fuel has one result, however much more it gets. -/
theorem result_unique {α : Type*} {f : ℕ → Option α} {a b : α} (ha : ∃ N, ∀ n, N ≤ n → f n = some a)
    (hb : ∃ N, ∀ n, N ≤ n → f n = some b) : a = b := by
  obtain ⟨N, hN⟩ := ha
  obtain ⟨M, hM⟩ := hb
  have h := hN (max N M) (Nat.le_max_left N M)
  exact Option.some.inj (h.symm.trans (hM (max N M) (Nat.le_max_right N M)))

/-- The state after the steps `l`, if each of them is possible in turn. -/
def run (step : σ → ι → Option σ) : σ → List ι → Option σ
  | s, [] => some s
  | s, i :: l => (step s i).bind fun t ↦ run step t l

theorem run_cons : run step s (i :: l) = some u ↔ ∃ t, step s i = some t ∧ run step t l = some u := by
  simp [run, Option.bind_eq_some_iff]

theorem run_append :
    run step s (l ++ k) = some u ↔ ∃ t, run step s l = some t ∧ run step t k = some u := by
  induction l generalizing s with
  | nil => simp [run]
  | cons i l ih =>
    rw [cons_append, run_cons]
    constructor
    · intro h
      obtain ⟨v, hv, hu⟩ := h
      obtain ⟨t, ht, hu⟩ := ih.mp hu
      exact ⟨t, run_cons.mpr ⟨v, hv, ht⟩, hu⟩
    · intro h
      obtain ⟨t, ht, hu⟩ := h
      obtain ⟨v, hv, ht⟩ := run_cons.mp ht
      exact ⟨v, hv, ih.mpr ⟨t, ht, hu⟩⟩

theorem run_concat :
    run step s (l ++ [i]) = some u ↔ ∃ t, run step s l = some t ∧ step t i = some u := by
  simp [run_append, run]

theorem run_getD (h : (run step s l).isSome) : run step s l = some ((run step s l).getD s) := by
  obtain ⟨t, ht⟩ := Option.isSome_iff_exists.mp h
  rw [ht, Option.getD_some]

theorem exists_run_getD (step : σ → ι → Option σ) (s : σ) (l : List ι) :
    ∃ k, run step s k = some ((run step s l).getD s) := by
  cases h : run step s l with
  | none => exact ⟨[], rfl⟩
  | some t => exact ⟨l, h⟩

theorem run_invariant {P : σ → Prop} (h₀ : P s) (hs : ∀ t i u, P t → step t i = some u → P u)
    (hr : run step s l = some t) : P t := by
  induction l generalizing s with
  | nil => exact Option.some.inj hr ▸ h₀
  | cons i l ih =>
    obtain ⟨u, hu, ht⟩ := run_cons.mp hr
    exact ih (hs s i u h₀ hu) ht

/-- If a step from a state with `P` leads to `P` exactly under the condition
`C`, then all states of a run have `P` exactly if all its steps meet `C`. -/
theorem run_forall_iff {I P : σ → Prop} {C : σ → ι → Prop} (hI : I s) (hP : P s)
    (hIs : ∀ t i u, I t → step t i = some u → I u)
    (hPs : ∀ t i u, I t → P t → step t i = some u → (P u ↔ C t i)) :
    (∀ p, p <+: l → ∀ t, run step s p = some t → P t) ↔
      ∀ p i, p ++ [i] <+: l → ∀ t u, run step s p = some t → step t i = some u → C t i := by
  constructor
  · intro h p i hp t u ht hu
    have hpt := h p ((prefix_append p [i]).trans hp) t ht
    have hpu := h (p ++ [i]) hp u (run_concat.mpr ⟨t, ht, hu⟩)
    exact (hPs t i u (run_invariant hI hIs ht) hpt hu).mp hpu
  · intro h p
    induction p using List.reverseRecOn with
    | nil =>
      intro _ t ht
      exact Option.some.inj ht ▸ hP
    | append_singleton p i ih =>
      intro hp u hu
      obtain ⟨t, ht, hu⟩ := run_concat.mp hu
      have hpt := ih ((prefix_append p [i]).trans hp) t ht
      exact (hPs t i u (run_invariant hI hIs ht) hpt hu).mpr (h p i hp t u ht hu)

/-- Two systems whose steps are possible together and lead to related states
run in step. -/
theorem run_rel {R : σ → τ → Prop} {step' : τ → ι → Option τ} {q : τ}
    (hs : ∀ s q i, R s q → Option.Rel R (step s i) (step' q i)) (h : R s q) (l : List ι) :
    Option.Rel R (run step s l) (run step' q l) := by
  induction l generalizing s q with
  | nil => exact .some h
  | cons i l ih =>
    have hi := hs s q i h
    simp only [run]
    generalize step s i = a at hi
    generalize step' q i = b at hi
    cases hi with
    | none => exact .none
    | some ht => exact ih ht

theorem map_eq_of_rel {R : σ → τ → Prop} {f : σ → κ} {g : τ → κ} {a : Option σ} {b : Option τ}
    (h : Option.Rel R a b) (hfg : ∀ s q, R s q → f s = g q) : a.map f = b.map g := by
  cases h with
  | none => rfl
  | some hr => exact congrArg some (hfg _ _ hr)

/-- What the steps of a run put out, one after the other. -/
def trace (step : σ → ι → Option σ) (out : σ → ι → σ → List ε) : σ → List ι → List ε
  | _, [] => []
  | s, i :: l =>
    match step s i with
    | some t => out s i t ++ trace step out t l
    | none => []

variable {out : σ → ι → σ → List ε}

theorem trace_cons (h : step s i = some t) (l : List ι) :
    trace step out s (i :: l) = out s i t ++ trace step out t l := by
  simp [trace, h]

theorem trace_append (h : run step s l = some t) (k : List ι) :
    trace step out s (l ++ k) = trace step out s l ++ trace step out t k := by
  induction l generalizing s with
  | nil =>
    obtain rfl := Option.some.inj h
    rfl
  | cons i l ih =>
    obtain ⟨u, hu, ht⟩ := run_cons.mp h
    rw [cons_append, trace_cons hu, trace_cons hu, ih ht, append_assoc]

/-- If each step is matched by a run of another system with the same output, so
is each run. -/
theorem run_simulates {R : σ → τ → Prop} {step' : τ → κ → Option τ} {out' : τ → κ → τ → List ε}
    (hs : ∀ s q i t, R s q → step s i = some t →
      ∃ m r, run step' q m = some r ∧ R t r ∧ trace step' out' q m = out s i t)
    {q : τ} (h : R s q) (hr : run step s l = some t) :
    ∃ m r, run step' q m = some r ∧ R t r ∧ trace step' out' q m = trace step out s l := by
  induction l generalizing s q with
  | nil =>
    obtain rfl := Option.some.inj hr
    exact ⟨[], q, rfl, h, rfl⟩
  | cons i l ih =>
    obtain ⟨u, hu, ht⟩ := run_cons.mp hr
    obtain ⟨m, r, hm, hR, ho⟩ := hs s q i u h hu
    obtain ⟨m', r', hm', hR', ho'⟩ := ih hR ht
    refine ⟨m ++ m', r', run_append.mpr ⟨r, hm, hm'⟩, hR', ?_⟩
    rw [trace_append hm, trace_cons hu, ho, ho']

end OcamlRpi.Support
