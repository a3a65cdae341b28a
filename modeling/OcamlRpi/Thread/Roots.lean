import OcamlRpi.Thread.Variables

namespace OcamlRpi.Thread

open Support Function List

/-- A call that `caml_thread_scan_roots` makes: of `action` on the field
`backtrace_last_exn` of a thread and its value, of `do_local_roots`, or of the
previous hook. -/
inductive Call where
  | action (th v : ℕ)
  | doLocalRoots (bottomOfStack lastRetaddr gcRegs localRoots : ℕ)
  | hook (f : ℕ)
deriving DecidableEq

def Vars.localRootsCall (v : Vars) : Call :=
  .doLocalRoots v.bottomOfStack v.lastRetaddr v.gcRegs v.localRoots

/-- The thread with what `action` left in its root. -/
def Descriptor.moved (d : Descriptor) (f : ℕ → ℕ) : Descriptor :=
  { d with saved := { d.saved with backtraceLastExn := f d.saved.backtraceLastExn } }

namespace Machine

/-- The body of the loop. `action th` tells what the collector makes of the
value in the root of `th`. -/
def scanThread (s : Machine) (action : ℕ → ℕ → ℕ) (th : ℕ) : Machine × List Call :=
  let v := (s.threads th).saved.backtraceLastExn
  let s := { s with threads := update s.threads th ((s.threads th).moved (action th)) }
  let saved := (s.threads th).saved
  let roots := if th ≠ s.currThread ∧ saved.bottomOfStack ≠ 0 then [saved.localRootsCall] else []
  (s, .action th v :: roots)

def scanLoop (action : ℕ → ℕ → ℕ) : ℕ → Machine → ℕ → Option (Machine × List Call)
  | 0, _, _ => none
  | fuel + 1, s, th =>
    let r := s.scanThread action th
    let next := (r.1.threads th).next
    if next ≠ r.1.currThread then
      (scanLoop action fuel r.1 next).map fun r' ↦ (r'.1, r.2 ++ r'.2)
    else some r

/-- `caml_thread_scan_roots`. -/
def scanRoots (s : Machine) (action : ℕ → ℕ → ℕ) (prevHook fuel : ℕ) : Option (Machine × List Call) :=
  (scanLoop action fuel s s.currThread).map fun r ↦
    (r.1, r.2 ++ if prevHook ≠ 0 then [.hook prevHook] else [])

end Machine

/-- The steps of the threads, and collections between them. -/
inductive GcOp where
  | mutator (op : Op)
  | collect (action : ℕ → ℕ → ℕ)

instance (op : Op) : Decidable op.Schedules :=
  match op with
  | .compute .. => inferInstanceAs (Decidable False)
  | .schedule => inferInstanceAs (Decidable True)
  | .create .. => inferInstanceAs (Decidable (_ ∧ _))

namespace World

/-- What the threads left behind in their roots moves with the roots. -/
def collected (w : World) (m : Machine) : World :=
  { w with
    machine := m
    lastVars := fun t ↦
      { w.lastVars t with backtraceLastExn := (m.threads t).saved.backtraceLastExn } }

/-- A thread only calls `schedule` with `caml_bottom_of_stack` set. -/
def gcStep (w : World) : GcOp → Option World
  | .mutator op =>
    if op.Schedules ∧ w.machine.vars.bottomOfStack = 0 then none else w.step op
  | .collect action =>
    (w.machine.scanRoots action 0 w.created.length).map fun r ↦ w.collected r.1

def GcReachable (b : Boot) (w : World) : Prop := ∃ ops, run gcStep (init b) ops = some w

/-- The state after the steps `ops`, or the first one where one of them is not
possible. -/
def gcAfter (b : Boot) (ops : List GcOp) : World := (run gcStep (init b) ops).getD (init b)

end World

variable {s : Machine} {action : ℕ → ℕ → ℕ} {l rem : List ℕ} {t th fuel : ℕ}

namespace Machine

/-- The machine after the roots of the threads in `l` were moved. -/
def marked (s : Machine) (action : ℕ → ℕ → ℕ) (l : List ℕ) : Machine :=
  { s with threads := fun t ↦ if t ∈ l then (s.threads t).moved (action t) else s.threads t }

def threadCalls (s : Machine) (t : ℕ) : List Call :=
  let saved := (s.threads t).saved
  .action t saved.backtraceLastExn ::
    if t ≠ s.currThread ∧ saved.bottomOfStack ≠ 0 then [saved.localRootsCall] else []

theorem scanThread_eq (s : Machine) (action : ℕ → ℕ → ℕ) (th : ℕ) :
    s.scanThread action th = (s.marked action [th], s.threadCalls th) := by
  have hu : update s.threads th ((s.threads th).moved (action th)) =
      fun t ↦ if t ∈ [th] then (s.threads t).moved (action t) else s.threads t := by
    ext1 t
    by_cases ht : t = th
    · subst ht
      simp
    · simp [ht]
  simp only [scanThread, threadCalls, marked, update_self]
  rw [hu]
  rfl

@[simp] theorem marked_next (s : Machine) (action : ℕ → ℕ → ℕ) (l : List ℕ) (t : ℕ) :
    ((s.marked action l).threads t).next = (s.threads t).next := by
  simp only [marked]
  split_ifs <;> rfl

theorem marked_of_notMem (ht : t ∉ l) : (s.marked action l).threads t = s.threads t :=
  if_neg ht

theorem threadCalls_marked (ht : t ∉ l) : (s.marked action l).threadCalls t = s.threadCalls t := by
  unfold threadCalls
  rw [marked_of_notMem ht]
  rfl

theorem marked_marked (h : th ∉ rem) :
    (s.marked action [th]).marked action rem = s.marked action (th :: rem) := by
  simp only [marked, mk.injEq, true_and, and_true]
  ext1 t
  by_cases ht : t = th
  · subst ht
    simp [h]
  · simp [ht]

theorem scanLoop_eq (hc : IsChain (fun a b ↦ (s.threads a).next = b) (th :: (rem ++ [s.currThread])))
    (hd : (th :: rem).Nodup) (hr : s.currThread ∉ rem) (hf : rem.length < fuel) :
    scanLoop action fuel s th = some (s.marked action (th :: rem), (th :: rem).flatMap s.threadCalls) := by
  induction rem generalizing s th fuel with
  | nil =>
    obtain ⟨fuel, rfl⟩ := Nat.exists_eq_add_one_of_ne_zero (Nat.ne_of_gt hf)
    have hn : (s.threads th).next = s.currThread := by simpa using hc
    have hcurr : (s.marked action [th]).currThread = s.currThread := rfl
    simp [scanLoop, scanThread_eq, hn, hcurr]
  | cons u rem ih =>
    obtain ⟨fuel, rfl⟩ := Nat.exists_eq_add_one_of_ne_zero (Nat.ne_of_gt (Nat.zero_lt_of_lt hf))
    obtain ⟨hn, hc⟩ := isChain_cons_cons.mp hc
    obtain ⟨hth, hd⟩ := nodup_cons.mp hd
    have hu : u ≠ s.currThread := fun he ↦ hr (he ▸ mem_cons_self)
    let s₁ := s.marked action [th]
    have hc₁ : IsChain (fun a b ↦ (s₁.threads a).next = b) (u :: (rem ++ [s₁.currThread])) := by
      simp only [s₁, marked_next]
      exact hc
    have hrec := ih hc₁ hd (fun hm ↦ hr (mem_cons_of_mem u hm)) (Nat.lt_of_succ_lt_succ hf)
    have hcalls : (u :: rem).flatMap s₁.threadCalls = (u :: rem).flatMap s.threadCalls := by
      apply flatMap_congr
      intro t ht
      apply threadCalls_marked
      intro hm
      exact hth (mem_singleton.mp hm ▸ ht)
    have hcurr : (s.marked action [th]).currThread = s.currThread := rfl
    rw [scanLoop, scanThread_eq]
    simp only [marked_next, hn, hcurr, if_pos hu]
    rw [hrec, hcalls, marked_marked hth]
    rfl

end Machine

namespace World

variable {b : Boot} {w w' : World} {op : Op}

theorem Inv.scanRoots (h : w.Inv l) (action : ℕ → ℕ → ℕ) (prevHook : ℕ) (hf : w.created.length ≤ fuel) :
    w.machine.scanRoots action prevHook fuel = some (w.machine.marked action (w.machine.currThread :: l),
      (w.machine.currThread :: l).flatMap w.machine.threadCalls ++
        if prevHook ≠ 0 then [.hook prevHook] else []) := by
  obtain ⟨hd, hc⟩ := Links.ring_cons.mp h.ring
  have hlen : l.length < fuel := by
    have hl := h.created.length_eq
    rw [length_cons] at hl
    omega
  have hnext : IsChain (fun a b ↦ (w.machine.threads a).next = b)
      (w.machine.currThread :: (l ++ [w.machine.currThread])) := hc.imp fun _ _ hj ↦ hj.1
  rw [Machine.scanRoots, Machine.scanLoop_eq hnext hd (nodup_cons.mp hd).1 hlen]
  rfl

theorem Inv.collected (h : w.Inv l) (action : ℕ → ℕ → ℕ) (k : List ℕ) :
    (w.collected (w.machine.marked action k)).Inv l := by
  have hprev : ∀ t, ((w.machine.marked action k).threads t).prev = (w.machine.threads t).prev := by
    intro t
    simp only [Machine.marked]
    split_ifs <;> rfl
  have hstack : ∀ t, ((w.machine.marked action k).threads t).stack = (w.machine.threads t).stack := by
    intro t
    simp only [Machine.marked]
    split_ifs <;> rfl
  have hsaved : ∀ t, ((w.machine.marked action k).threads t).saved = { (w.machine.threads t).saved with
      backtraceLastExn := ((w.machine.marked action k).threads t).saved.backtraceLastExn } := by
    intro t
    simp only [Machine.marked]
    split_ifs <;> rfl
  refine ⟨?_, h.created, h.pos, h.active, h.apart, ?_⟩
  · apply h.ring.congr
    intro t _
    exact ⟨Machine.marked_next _ _ _ t, hprev t⟩
  · intro t ht
    have hs := h.suspended t ht
    refine ⟨?_, (hstack t).trans hs.stack, hs.lo, hs.frame⟩
    have hv := hs.vars
    exact (hsaved t).trans (by rw [hv]; rfl)

/-- A thread that waits after a step waited before with the same variables, or
has just called `schedule`. -/
theorem step_left (h : w.Inv l) (hc : w.step op = some w') (ht : t ∈ w'.created)
    (hne : t ≠ w'.machine.currThread) :
    (t ∈ w.created ∧ t ≠ w.machine.currThread ∧ w'.lastVars t = w.lastVars t) ∨
      (op.Schedules ∧ w'.lastVars t = w.machine.vars) := by
  cases op with
  | compute vars sp frames =>
    simp only [step] at hc
    split_ifs at hc
    obtain rfl := Option.some.inj hc
    exact .inl ⟨ht, hne, rfl⟩
  | schedule =>
    simp only [step] at hc
    split_ifs at hc
    obtain ⟨m, hm, rfl⟩ := Option.map_eq_some_iff.mp hc
    by_cases htc : t = w.machine.currThread
    · exact .inr ⟨trivial, by simp [note, h.runner_eq, htc]⟩
    · exact .inl ⟨ht, htc, by simp [note, h.runner_eq, htc]⟩
  | create fn th stack =>
    simp only [step] at hc
    split_ifs at hc with hn hr
    · have hm : w.machine.camlThreadCreate fn th stack = some w.machine := by
        rcases hn with hn | hn <;> simp [Machine.camlThreadCreate, hn]
      rw [hm] at hc
      obtain rfl := Option.some.inj hc
      exact .inl ⟨ht, hne, rfl⟩
    · obtain ⟨h0, hs⟩ := not_or.mp hn
      obtain ⟨m, hm, rfl⟩ := Option.map_eq_some_iff.mp hc
      have hl : (w.link fn th stack).Inv (th :: l) := h.linked h0 hr.2
      obtain ⟨sp, -, hm'⟩ := hl.schedule_next (h.room_link fn h0 hr.2 hr.1)
      rw [Machine.camlThreadCreate, if_neg h0, if_neg hs] at hm
      have hmt : m.currThread = th := Option.some.inj (hm.symm.trans hm') ▸ rfl
      have htn : t ≠ th := hmt ▸ hne
      have htm : t ∈ w.created := (mem_cons.mp ht).resolve_left htn
      by_cases htc : t = w.machine.currThread
      · subst htc
        exact .inr ⟨⟨h0, hs⟩, by simp [note, add, h.runner_eq, htn]⟩
      · exact .inl ⟨htm, htc, by simp [note, add, h.runner_eq, htn, htc]⟩

theorem gcStep_inv {o : GcOp} (h : ∃ l, w.Inv l ∧ ∀ t ∈ l, (w.lastVars t).bottomOfStack ≠ 0)
    (hc : w.gcStep o = some w') : ∃ l, w'.Inv l ∧ ∀ t ∈ l, (w'.lastVars t).bottomOfStack ≠ 0 := by
  obtain ⟨l, hI, hl⟩ := h
  cases o with
  | mutator op =>
    simp only [gcStep] at hc
    split_ifs at hc with hb
    obtain ⟨l', hI', -⟩ := step_inv hI hc
    refine ⟨l', hI', ?_⟩
    intro t ht
    rcases step_left hI hc (hI'.mem_created ht) (hI'.ne_curr ht) with ⟨htm, hne, hv⟩ | ⟨hop, hv⟩
    · have htl := (mem_cons.mp (hI.created.mem_iff.mpr htm)).resolve_left hne
      rw [hv]
      exact hl t htl
    · rw [hv]
      exact fun h0 ↦ hb ⟨hop, h0⟩
  | collect action =>
    simp only [gcStep, hI.scanRoots action 0 (Nat.le_refl _), Option.map_some] at hc
    obtain rfl := Option.some.inj hc
    exact ⟨l, hI.collected action _, hl⟩

theorem GcReachable.inv (h : GcReachable b w) :
    ∃ l, w.Inv l ∧ ∀ t ∈ l, (w.lastVars t).bottomOfStack ≠ 0 := by
  obtain ⟨ops, hr⟩ := h
  refine run_invariant (P := fun w : World ↦ ∃ l, w.Inv l ∧ ∀ t ∈ l, (w.lastVars t).bottomOfStack ≠ 0)
    ⟨[], Inv.of_init b, by simp⟩ ?_ hr
  intro w o w' hw hc
  exact gcStep_inv hw hc

/-- A collection finds the root of every thread, and the stack and the local
roots of every thread that does not run, as that thread left them. -/
theorem roots_scanned_once (h : GcReachable b w) (action : ℕ → ℕ → ℕ) (prevHook : ℕ) :
    w.OnStack w.machine.currThread w.machine.sp ∧
    ∃ l, (w.machine.currThread :: l).Perm w.created ∧ (w.machine.currThread :: l).Nodup ∧
      ∀ fuel, w.created.length ≤ fuel → w.machine.scanRoots action prevHook fuel =
        some (w.machine.marked action w.created,
          .action w.machine.currThread (w.machine.threads w.machine.currThread).saved.backtraceLastExn ::
            l.flatMap (fun t ↦ [.action t (w.machine.threads t).saved.backtraceLastExn,
              .doLocalRoots (w.lastVars t).bottomOfStack (w.lastVars t).lastRetaddr
                (w.lastVars t).gcRegs (w.lastVars t).localRoots]) ++
            if prevHook ≠ 0 then [.hook prevHook] else []) := by
  obtain ⟨l, hI, hl⟩ := h.inv
  refine ⟨hI.active, l, hI.created, hI.ring.nodup, ?_⟩
  intro fuel hf
  have hmarked : w.machine.marked action (w.machine.currThread :: l) = w.machine.marked action w.created := by
    simp only [Machine.marked, hI.created.mem_iff]
  have hcurr : w.machine.threadCalls w.machine.currThread =
      [.action w.machine.currThread (w.machine.threads w.machine.currThread).saved.backtraceLastExn] := by
    simp [Machine.threadCalls]
  have hothers : l.flatMap w.machine.threadCalls =
      l.flatMap (fun t ↦ [.action t (w.machine.threads t).saved.backtraceLastExn,
        (w.lastVars t).localRootsCall]) := by
    apply flatMap_congr
    intro t ht
    have hs := hI.suspended t ht
    have hb := hl t ht
    simp only [Machine.threadCalls, hs.vars, if_pos (And.intro (hI.ne_curr ht) hb)]
  rw [hI.scanRoots action prevHook hf, hmarked, flatMap_cons, hcurr, hothers]
  rfl

theorem roots_scanned_once_small :
    let running := fun v sp ↦ GcOp.mutator (.compute { Vars.fresh with bottomOfStack := v } sp fun _ ↦ none)
    let w := gcAfter .small
      [running 7 15000, .mutator (.create 9 4200 65536), running 8 1114000, .mutator .schedule]
    (w.machine.scanRoots (fun _ v ↦ v) 5 2).map Prod.snd =
        some [.action 4096 1, .action 4200 1, .doLocalRoots 8 1 0 0, .hook 5] ∧
      ∃ l, (w.machine.currThread :: l).Perm w.created ∧ (w.machine.currThread :: l).Nodup := by
  intro running w
  obtain ⟨-, l, hp, hd, -⟩ := roots_scanned_once (w := w) (exists_run_getD _ _ _) (fun _ v ↦ v) 5
  exact ⟨by decide +kernel, l, hp, hd⟩

end World

end OcamlRpi.Thread
