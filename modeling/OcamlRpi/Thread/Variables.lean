import OcamlRpi.Thread.Switch

namespace OcamlRpi.Thread

open Support

namespace World

variable {b : Boot} {w w' : World}

theorem Reachable.inv (h : Reachable b w) : ∃ l, w.Inv l := by
  obtain ⟨ops, hr⟩ := h
  refine run_invariant (P := fun w : World ↦ ∃ l, w.Inv l) ⟨[], Inv.of_init b⟩ ?_ hr
  rintro w op w' ⟨l, hI⟩ hc
  obtain ⟨l', hI', -⟩ := step_inv hI hc
  exact ⟨l', hI'⟩

/-- In every reachable state the current thread is the one on whose stack the
machine runs, and the others still have what they left behind. When `schedule`
returns, and it always does, a thread finds its own variables. -/
theorem variables_follow_threads (h : Reachable b w) :
    (w.machine.currThread ∈ w.created ∧
      ∀ t ∈ w.created, w.OnStack t w.machine.sp ↔ t = w.machine.currThread) ∧
    (∀ t ∈ w.created, t ≠ w.machine.currThread →
      (w.machine.threads t).saved = w.lastVars t ∧ (w.machine.threads t).stack = w.lastSp t) ∧
    (∀ op w', w.step op = some w' → op.Schedules →
      w'.machine.vars = w'.lastVars w'.machine.currThread) ∧
    (w.Room → ∃ w', w.step .schedule = some w') ∧
    ∀ fn th stack, w.Room → w.Fresh th stack → th ≠ 0 → stack ≠ 0 →
      ∃ w', w.step (.create fn th stack) = some w' := by
  obtain ⟨l, hI⟩ := h.inv
  refine ⟨⟨hI.curr_mem, fun t ht ↦ hI.onStack_iff ht⟩, ?_, ?_, ?_, ?_⟩
  · intro t ht hne
    have hl := (List.mem_cons.mp (hI.created.mem_iff.mpr ht)).resolve_left hne
    exact ⟨(hI.suspended t hl).vars, (hI.suspended t hl).stack⟩
  · intro op w' hc hop
    obtain ⟨-, -, hv⟩ := step_inv hI hc
    exact hv hop
  · intro hr
    obtain ⟨m, -, hm, -⟩ := hI.schedule hr
    exact ⟨{ w.note with machine := m }, by simp [step, hr, hm]⟩
  · intro fn th stack hr hf h0 hs
    obtain ⟨m, -, hm, -⟩ := hI.create fn h0 hf hs hr
    exact ⟨{ w.note.add th stack with machine := m }, by simp [step, hr, hf, h0, hs, hm]⟩

theorem variables_follow_threads_small :
    let w := after .small [.create 9 4200 65536,
      .compute { Vars.fresh with bottomOfStack := 7 } 1114000 (fun _ ↦ none), .schedule]
    (w.machine.currThread = 4096 ∧ (w.machine.threads 4200).saved.bottomOfStack = 7) ∧
      ∀ t ∈ w.created, t ≠ w.machine.currThread →
        (w.machine.threads t).saved = w.lastVars t ∧ (w.machine.threads t).stack = w.lastSp t :=
  ⟨by decide +kernel, (variables_follow_threads (reachable_after _ _)).2.1⟩

end World

end OcamlRpi.Thread
