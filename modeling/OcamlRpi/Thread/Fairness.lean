import OcamlRpi.Support.RoundRobin
import OcamlRpi.Thread.Variables

namespace OcamlRpi.Thread

open Support Function List
open RoundRobin (Event Move)

/-- The thread that `schedule` goes on with: the next one in the ring, which is
the new one when `caml_thread_create` calls it. -/
def Op.next (w : World) : Op → ℕ
  | .create _ th _ => th
  | _ => (w.machine.threads w.machine.currThread).next

namespace World

variable {b : Boot} {w w' : World} {l q : List ℕ} {t u th stack fn sp : ℕ} {op : Op} {ops : List Op}

/-- What `schedule` came to in a step from `w` to `w'`. The threads are told by
the stack on which the machine runs. Another thread than before was popped from
the frame at its last stack pointer, which tells whether it had run before. -/
def turn (w w' : World) : Event ℕ :=
  if w'.runner = w.runner then .resumed w'.runner
  else
    match w'.machine.frames (w'.lastSp w'.runner) with
    | some (.starter _ _) => .started w'.runner
    | _ => .resumed w'.runner

def events (w : World) (op : Op) (w' : World) : List (Event ℕ) :=
  match op with
  | .compute .. => []
  | .schedule => [w.turn w']
  | .create _ th stack => if th = 0 ∨ stack = 0 then [] else [.created w.runner th, w.turn w']

theorem events_create (hn : ¬(th = 0 ∨ stack = 0)) :
    w.events (.create fn th stack) w' = [.created w.runner th, w.turn w'] :=
  if_neg hn

theorem turn_resumed (hn : w'.runner ≠ w.runner)
    (hf : w'.machine.frames (w'.lastSp w'.runner) = some .schedule) : w.turn w' = .resumed w'.runner := by
  rw [turn, if_neg hn, hf]

theorem turn_started (hn : w'.runner ≠ w.runner)
    (hf : w'.machine.frames (w'.lastSp w'.runner) = some (.starter th fn)) : w.turn w' = .started w'.runner := by
  rw [turn, if_neg hn, hf]

/-- A thread that is in a call of `schedule`, not one that has yet to start. -/
def Waits (w : World) (t : ℕ) : Prop := w.machine.frames (w.lastSp t) = some .schedule

/-- The queue `q` is the ring, read from the running thread. -/
def Queued (w : World) (q : List ℕ) : Prop :=
  ∃ l, q = w.machine.currThread :: l ∧ w.Inv l ∧ ∀ t ∈ l, w.Waits t

namespace Inv

/-- The frame that is popped stays where it is. -/
theorem switch_frame (h : w.Inv (t :: l)) (hr : w.Room) (sp : ℕ) :
    ({ w.note with machine := w.machine.switched t sp } : World).machine.frames
      (({ w.note with machine := w.machine.switched t sp } : World).lastSp t) = w.machine.frames (w.lastSp t) := by
  have hne := h.ne_curr mem_cons_self
  have hfr := h.frame_ne hr mem_cons_self
  simp [Machine.switched, note, h.runner_eq, hne, hfr]

theorem waits_switch (h : w.Inv (t :: l)) (hr : w.Room) (hw : ∀ u ∈ l, w.Waits u)
    (hu : u ∈ l ++ [w.machine.currThread]) :
    ({ w.note with machine := w.machine.switched t sp } : World).Waits u := by
  rcases mem_append.mp hu with hu | hu
  · have hut := mem_cons_of_mem t hu
    have huc := h.ne_curr hut
    have hf := h.frame_ne hr hut
    have hu := hw u hu
    simpa [Waits, Machine.switched, note, h.runner_eq, huc, hf] using hu
  · obtain rfl := mem_singleton.mp hu
    simp [Waits, Machine.switched, note, h.runner_eq]

theorem waits_link (h : w.Inv l) (fn : ℕ) (hf : w.Fresh th stack) (ht : t ∈ l) (hw : w.Waits t) :
    (w.link fn th stack).Waits t := by
  have hs := h.suspended t ht
  have htm := h.mem_created ht
  have htn : t ≠ th := fun he ↦ hf.1 (he ▸ htm)
  have hfr : (w.machine.linkThread fn th stack).frames (w.lastSp t) = w.machine.frames (w.lastSp t) := by
    apply Machine.linkThread_frames
    have hlt := hs.lastSp_lt
    have hlo := hs.lo
    rcases hf.2.2 t htm with ha | ha <;> omega
  have hsp : (w.link fn th stack).lastSp t = w.lastSp t := update_of_ne htn _ _
  unfold Waits
  rw [hsp]
  exact hfr.trans hw

end Inv

theorem queued_init (b : Boot) : (init b).Queued [b.th] := by
  have hc : (init b).machine.currThread = b.th := by
    simp [init, Machine.ocamlThreadInit, b.no_thread]
  refine ⟨[], by rw [hc], Inv.of_init b, ?_⟩
  intro t ht
  cases ht

theorem queued_schedule (h : w.Inv (t :: l)) (hr : w.Room) (hw : ∀ u ∈ l, w.Waits u) {m : Machine}
    (hm : w.machine.schedule = some m) :
    ({ w.note with machine := m } : World).Queued (t :: l ++ [w.machine.currThread]) ∧
      ({ w.note with machine := m } : World).runner = t ∧
      m.frames (({ w.note with machine := m } : World).lastSp t) = w.machine.frames (w.lastSp t) := by
  obtain ⟨sp, hos, hm'⟩ := h.schedule_next hr
  rw [hm'] at hm
  obtain rfl := Option.some.inj hm
  have hI := h.switch hr hos
  refine ⟨⟨_, rfl, hI, ?_⟩, hI.runner_eq, h.switch_frame hr sp⟩
  intro u hu
  exact h.waits_switch hr hw hu

theorem queued_compute {vars : Vars} {sp : ℕ} {frames : ℕ → Option Frame} (h : w.Queued q)
    (hc : w.step (.compute vars sp frames) = some w') : w'.Queued q := by
  obtain ⟨l, rfl, hI, hw⟩ := h
  have hI' := hI.compute hc
  simp only [step, hI.runner_eq] at hc
  split_ifs at hc
  obtain rfl := Option.some.inj hc
  refine ⟨l, rfl, hI', fun t ht ↦ ?_⟩
  have hs := hI.suspended t ht
  unfold Waits
  rw [← hw t ht]
  apply if_neg
  intro hx
  obtain ⟨hlo, hhi⟩ := hx
  exact hI.addr_ne (hI.mem_created ht) hI.curr_mem (hI.ne_curr ht) hs.lo hs.lastSp_lt hlo hhi rfl

theorem step_queued (h : w.Queued q) (hc : w.step op = some w') :
    (∃ m r, run RoundRobin.step q m = some r ∧ w'.Queued r ∧ RoundRobin.log q m = w.events op w') ∧
      (op.Schedules → w'.runner = op.next w) := by
  cases op with
  | compute vars sp frames => exact ⟨⟨[], _, rfl, queued_compute h hc, rfl⟩, False.elim⟩
  | schedule =>
    obtain ⟨l, rfl, hI, hw⟩ := h
    simp only [step] at hc
    split_ifs at hc with hr
    obtain ⟨m, hm, rfl⟩ := Option.map_eq_some_iff.mp hc
    cases l with
    | nil =>
      rw [hI.schedule_alone] at hm
      obtain rfl := Option.some.inj hm
      have hI' := hI.note_alone
      have hnext : (w.machine.threads w.machine.currThread).next = w.machine.currThread :=
        (Links.ring_singleton.mp hI.ring).1
      have hturn : w.turn { w.note with machine := w.machine } = .resumed w.machine.currThread := by
        rw [turn, hI'.runner_eq, hI.runner_eq, if_pos rfl]
      refine ⟨⟨[.yield], _, rfl, ⟨[], rfl, hI', ?_⟩, ?_⟩, fun _ ↦ hI'.runner_eq.trans hnext.symm⟩
      · intro t ht
        cases ht
      · rw [events, hturn]
        rfl
    | cons t l =>
      obtain ⟨hq, ht, hf⟩ := queued_schedule hI hr (fun u hu ↦ hw u (mem_cons_of_mem t hu)) hm
      have hne : ({ w.note with machine := m } : World).runner ≠ w.runner := by
        rw [ht, hI.runner_eq]
        exact hI.ne_curr mem_cons_self
      have hnext : (w.machine.threads w.machine.currThread).next = t := (Links.Ring.joined (l := []) hI.ring).1
      refine ⟨⟨[.yield], _, rfl, hq, ?_⟩, fun _ ↦ ht.trans hnext.symm⟩
      rw [events, turn_resumed hne, ht]
      · rfl
      · rw [ht]
        exact hf.trans (hw t mem_cons_self)
  | create fn th stack =>
    obtain ⟨l, rfl, hI, hw⟩ := h
    simp only [step] at hc
    split_ifs at hc with hn hr
    · have hm : w.machine.camlThreadCreate fn th stack = some w.machine := by
        rcases hn with hn | hn <;> simp [Machine.camlThreadCreate, hn]
      rw [hm] at hc
      obtain rfl := Option.some.inj hc
      exact ⟨⟨[], _, rfl, ⟨l, rfl, hI, hw⟩, (if_pos hn).symm⟩, fun hs ↦ absurd hn (not_or.mpr hs)⟩
    · obtain ⟨h0, hs⟩ := not_or.mp hn
      obtain ⟨m, hm, rfl⟩ := Option.map_eq_some_iff.mp hc
      rw [Machine.camlThreadCreate, if_neg h0, if_neg hs] at hm
      have hl : (w.link fn th stack).Inv (th :: l) := hI.linked h0 hr.2
      have hroom := hI.room_link fn h0 hr.2 hr.1
      have hwait : ∀ u ∈ l, (w.link fn th stack).Waits u := fun u hu ↦ hI.waits_link fn hr.2 hu (hw u hu)
      obtain ⟨hq, ht, hf⟩ := queued_schedule hl hroom hwait hm
      rw [hI.note_link h0 hr.2] at hq ht hf
      have hne : ({ w.note.add th stack with machine := m } : World).runner ≠ w.runner := by
        rw [hI.runner_eq]
        exact fun he ↦ hr.2.1 ((ht.symm.trans he) ▸ hI.curr_mem)
      have hstart : (w.link fn th stack).machine.frames ((w.link fn th stack).lastSp th) = some (.starter th fn) := by
        simp [link, add, Machine.linkThread]
      have hturn := turn_started hne ((congrArg _ (congrArg _ ht)).trans (hf.trans hstart))
      refine ⟨⟨[.spawn th], _, rfl, hq, ?_⟩, fun _ ↦ ht⟩
      rw [events_create hn, hI.runner_eq, hturn]
      exact congrArg (fun u ↦ [Event.created _ th, .started u]) ht.symm

theorem run_queued (h : w.Queued q) (hr : run step w ops = some w') :
    ∃ m r, run RoundRobin.step q m = some r ∧ w'.Queued r ∧
      RoundRobin.log q m = trace step events w ops := by
  apply run_simulates (R := fun w q ↦ w.Queued q) _ h hr
  intro w q op w' hq hc
  exact (step_queued hq hc).1

/-- The running thread and those that wait for it are one circular list of all
the threads. A call of `schedule` goes on with the next one of it, and from each
time that a thread is resumed to the next all the others have their turn. -/
theorem threads_take_turns (hr : run step (init b) ops = some w) :
    (∃ l, (links w.machine.threads).Ring (w.machine.currThread :: l) ∧
      (w.machine.currThread :: l).Perm w.created) ∧
    (∀ t ∈ w.created, (w.machine.threads (w.machine.threads t).next).prev = t ∧
      (w.machine.threads (w.machine.threads t).prev).next = t) ∧
    (∀ u, u ∈ w.created ↔ u = b.th ∨ ∃ c, .created c u ∈ trace step events (init b) ops) ∧
    (∀ op w', w.step op = some w' → op.Schedules → w'.runner = op.next w) ∧
    ∀ t pre mid post,
      trace step events (init b) ops = pre ++ .resumed t :: (mid ++ .resumed t :: post) →
      .resumed t ∉ mid →
      (∀ u, (u = b.th ∨ ∃ c, .created c u ∈ pre) → u ≠ t → mid.count (.resumed u) = 1) ∧
      ∀ c u, .created c u ∈ mid → mid.count (.started u) = 1 ∧
        ∃ x y, mid = x ++ .created c u :: .started u :: y := by
  obtain ⟨ms, q, hm, ⟨l, rfl, hI, hw⟩, hlog⟩ := run_queued (queued_init b) hr
  refine ⟨⟨l, hI.ring, hI.created⟩, ?_, ?_, ?_, ?_⟩
  · intro t ht
    have htl := hI.created.mem_iff.mpr ht
    exact ⟨hI.ring.prev_next htl, hI.ring.next_prev htl⟩
  · intro u
    have hp := hI.created.symm.trans (RoundRobin.run_perm hm)
    rw [hp.mem_iff, mem_append, mem_singleton, RoundRobin.mem_created, hlog, or_comm]
  · intro op w' hc hs
    exact (step_queued ⟨l, rfl, hI, hw⟩ hc).2 hs
  · intro t pre mid post he hn
    rw [← hlog] at he
    have hf := RoundRobin.fair hm hI.ring.nodup he hn
    simpa only [mem_singleton] using hf

theorem threads_take_turns_small :
    let ops := [.create 9 4200 65536, .schedule, .schedule, .schedule]
    trace step events (init .small) ops =
        [.created 4096 4200, .started 4200, .resumed 4096, .resumed 4200, .resumed 4096] ∧
      [Event.resumed 4200].count (.resumed 4200) = 1 := by
  intro ops
  have hr : run step (init .small) ops = some (after .small ops) := run_after (by decide +kernel)
  have ht : trace step events (init .small) ops =
      [.created 4096 4200, .started 4200, .resumed 4096, .resumed 4200, .resumed 4096] := by
    decide +kernel
  have hf := (threads_take_turns hr).2.2.2.2 4096 [.created 4096 4200, .started 4200] [.resumed 4200] [] ht
  exact ⟨ht, (hf (by decide)).1 4200 (.inr ⟨4096, by decide⟩) (by decide)⟩

end World

end OcamlRpi.Thread
