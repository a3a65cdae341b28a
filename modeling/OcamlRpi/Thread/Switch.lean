import OcamlRpi.Support.Ring
import OcamlRpi.Thread.World

namespace OcamlRpi.Thread

open Support Function List

def links (threads : ℕ → Descriptor) : Links ℕ := ⟨fun t ↦ (threads t).next, fun t ↦ (threads t).prev⟩

variable {w w' : World} {l : List ℕ} {t th stack fn sp : ℕ} {vars : Vars} {frames : ℕ → Option Frame}

namespace Machine

/-- The machine after `schedule`, called with the stack pointer `s.sp`,
went on to the thread `t` with the stack pointer `sp`. -/
def switched (s : Machine) (t sp : ℕ) : Machine :=
  let curr := s.currThread
  { s with
    currThread := t
    threads := update s.threads curr { s.threads curr with saved := s.vars, stack := s.sp - SWITCH_FRAME }
    vars := (s.threads t).saved
    sp := sp
    frames := update s.frames (s.sp - SWITCH_FRAME) (some .schedule) }

theorem links_linkThread {s : Machine} {d : Descriptor} (hc : th ≠ s.currThread)
    (hn : th ≠ (s.threads s.currThread).next) (hd : d.prev = th) :
    links (s.linkThread fn th stack).threads =
      (links (update s.threads th d)).insertAfter s.currThread th := by
  ext x
  all_goals
    simp only [links, linkThread, Links.insertAfter, Links.link, update_apply, if_neg hc.symm]
    by_cases hxt : x = th
    · simp [hxt, hc, hn, hd]
    · by_cases hxc : x = s.currThread <;> by_cases hxn : x = (s.threads s.currThread).next <;> grind

theorem linkThread_old (s : Machine) (fn stack : ℕ) (ht : t ≠ th) :
    ((s.linkThread fn th stack).threads t).saved = (s.threads t).saved ∧
      ((s.linkThread fn th stack).threads t).stack = (s.threads t).stack := by
  simp only [linkThread, update_apply, if_neg ht]
  constructor <;> grind

theorem linkThread_new {s : Machine} (fn stack : ℕ) (hc : th ≠ s.currThread)
    (hn : th ≠ (s.threads s.currThread).next) :
    ((s.linkThread fn th stack).threads th).saved = .fresh ∧
      ((s.linkThread fn th stack).threads th).stack =
        stack + THREAD_STACK_SIZE - STARTER_FRAME - SWITCH_FRAME := by
  simp [linkThread, update_apply, hc, hc.symm, hn]

theorem linkThread_frames {a : ℕ} (s : Machine) (fn th : ℕ)
    (ha : a < stack ∨ stack + THREAD_STACK_SIZE ≤ a) :
    (s.linkThread fn th stack).frames a = s.frames a := by
  have hne : a ≠ stack + THREAD_STACK_SIZE - STARTER_FRAME - SWITCH_FRAME := by
    simp only [THREAD_STACK_SIZE, STARTER_FRAME, SWITCH_FRAME] at ha ⊢
    omega
  simp [linkThread, hne]

end Machine

namespace World

/-- A thread that does not run left its variables in its descriptor and a
frame at its saved stack pointer. -/
structure Suspended (w : World) (t : ℕ) : Prop where
  vars : (w.machine.threads t).saved = w.lastVars t
  stack : (w.machine.threads t).stack = w.lastSp t
  lo : w.stackLo t ≤ w.lastSp t
  frame : (w.machine.frames (w.lastSp t) = some .schedule ∧ w.OnStack t (w.lastSp t + SWITCH_FRAME)) ∨
    ∃ fn, w.machine.frames (w.lastSp t) = some (.starter t fn) ∧
      w.OnStack t (w.lastSp t + SWITCH_FRAME + STARTER_FRAME)

/-- The current thread is the one on whose stack the machine runs, and the
other threads, which are suspended, follow it in the ring. -/
structure Inv (w : World) (l : List ℕ) : Prop where
  ring : (links w.machine.threads).Ring (w.machine.currThread :: l)
  created : (w.machine.currThread :: l).Perm w.created
  pos : 0 ∉ w.created
  active : w.OnStack w.machine.currThread w.machine.sp
  apart : ∀ t ∈ w.created, ∀ u ∈ w.created, t ≠ u →
    w.stackHi t ≤ w.stackLo u ∨ w.stackHi u ≤ w.stackLo t
  suspended : ∀ t ∈ l, w.Suspended t

/-- The world in which `caml_thread_create` calls `schedule`. -/
def link (w : World) (fn th stack : ℕ) : World :=
  { w.add th stack with machine := w.machine.linkThread fn th stack }

theorem Suspended.congr (h : w.Suspended t)
    (hs : (w'.machine.threads t).saved = (w.machine.threads t).saved)
    (hk : (w'.machine.threads t).stack = (w.machine.threads t).stack)
    (hf : w'.machine.frames (w.lastSp t) = w.machine.frames (w.lastSp t))
    (hv : w'.lastVars t = w.lastVars t) (hp : w'.lastSp t = w.lastSp t)
    (hlo : w'.stackLo t = w.stackLo t) (hhi : w'.stackHi t = w.stackHi t) : w'.Suspended t := by
  refine ⟨?_, ?_, ?_, ?_⟩
  · rw [hs, h.vars, hv]
  · rw [hk, h.stack, hp]
  · rw [hlo, hp]
    exact h.lo
  · simp only [OnStack, hp, hf, hlo, hhi]
    exact h.frame

theorem Suspended.lastSp_lt (h : w.Suspended t) : w.lastSp t < w.stackHi t := by
  rcases h.frame with ⟨-, hs⟩ | ⟨fn, -, hs⟩ <;>
    simp only [OnStack, SWITCH_FRAME, STARTER_FRAME] at hs <;> omega

namespace Inv

theorem curr_mem (h : w.Inv l) : w.machine.currThread ∈ w.created :=
  h.created.mem_iff.mp mem_cons_self

theorem mem_created (h : w.Inv l) (ht : t ∈ l) : t ∈ w.created :=
  h.created.mem_iff.mp (mem_cons_of_mem _ ht)

theorem ne_curr (h : w.Inv l) (ht : t ∈ l) : t ≠ w.machine.currThread :=
  fun he ↦ (nodup_cons.mp h.ring.nodup).1 (he ▸ ht)

theorem onStack_iff (h : w.Inv l) (ht : t ∈ w.created) :
    w.OnStack t w.machine.sp ↔ t = w.machine.currThread := by
  have ha := h.active
  constructor
  · intro hs
    by_contra hne
    simp only [OnStack] at ha hs
    rcases h.apart t ht _ h.curr_mem hne with hx | hx <;> omega
  · intro he
    subst he
    exact ha

theorem runner_eq (h : w.Inv l) : w.runner = w.machine.currThread := by
  unfold runner
  cases hf : w.created.find? (fun t ↦ w.OnStack t w.machine.sp) with
  | none =>
    have hx := find?_eq_none.mp hf _ h.curr_mem
    simp [h.active] at hx
  | some t =>
    have hs : w.OnStack t w.machine.sp := by simpa using find?_some hf
    exact (h.onStack_iff (mem_of_find?_eq_some hf)).mp hs

theorem addr_ne {a b u : ℕ} (h : w.Inv l) (ht : t ∈ w.created) (hu : u ∈ w.created) (hne : t ≠ u)
    (ha : w.stackLo t ≤ a) (ha' : a < w.stackHi t) (hb : w.stackLo u ≤ b) (hb' : b < w.stackHi u) :
    a ≠ b := by
  rcases h.apart t ht u hu hne with hx | hx <;> omega

theorem of_init (b : Boot) : (World.init b).Inv [] := by
  have hm : b.machine.ocamlThreadInit b.th b.machine.sp = { b.machine with
      currThread := b.th
      threads := update b.machine.threads b.th
        ⟨b.th, b.th, b.machine.sp, .fresh, (b.machine.threads b.th).stack⟩ } := by
    rw [Machine.ocamlThreadInit, if_neg (not_not.mpr b.no_thread)]
  refine ⟨?_, ?_, ?_, ?_, ?_, ?_⟩
  · simp only [World.init, hm]
    refine Links.ring_singleton.mpr ?_
    simp [Links.Joined, links]
  · simp [World.init, hm]
  · simpa [World.init] using b.th_ne.symm
  · simp only [World.init, hm]
    exact ⟨b.sp_gt, b.sp_le⟩
  · intro t ht u hu hne
    simp only [World.init, mem_singleton] at ht hu
    exact absurd (ht.trans hu.symm) hne
  · simp

theorem compute (h : w.Inv l) (hc : w.step (.compute vars sp frames) = some w') : w'.Inv l := by
  simp only [step, h.runner_eq] at hc
  split_ifs at hc with hs
  obtain rfl := Option.some.inj hc
  refine ⟨h.ring, h.created, h.pos, hs, h.apart, ?_⟩
  intro t ht
  have ht' := h.suspended t ht
  refine ht'.congr rfl rfl (if_neg ?_) rfl rfl rfl rfl
  intro hx
  obtain ⟨hlo, hhi⟩ := hx
  exact h.addr_ne (h.mem_created ht) h.curr_mem (h.ne_curr ht) ht'.lo ht'.lastSp_lt hlo hhi rfl

theorem schedule_alone (h : w.Inv []) : w.machine.schedule = some w.machine := by
  have hn := (Links.ring_singleton.mp h.ring).1
  simp only [links] at hn
  simp [Machine.schedule, hn]

theorem frame_ne (h : w.Inv l) (hr : w.Room) (ht : t ∈ l) : w.lastSp t ≠ w.machine.sp - SWITCH_FRAME := by
  have hs := h.suspended t ht
  have ha := h.active
  simp only [Room, h.runner_eq, SWITCH_FRAME] at hr
  refine h.addr_ne (h.mem_created ht) h.curr_mem (h.ne_curr ht) hs.lo hs.lastSp_lt ?_ ?_ <;>
    simp only [SWITCH_FRAME, OnStack] at * <;> omega

theorem schedule_next (h : w.Inv (t :: l)) (hr : w.Room) :
    ∃ sp, w.OnStack t sp ∧ w.machine.schedule = some (w.machine.switched t sp) := by
  have hs := h.suspended t mem_cons_self
  have hne := h.ne_curr mem_cons_self
  have hn : (w.machine.threads w.machine.currThread).next = t := (Links.Ring.joined (l := []) h.ring).1
  have hc : w.machine.currThread ≠ 0 := fun h0 ↦ h.pos (h0 ▸ h.curr_mem)
  have hfr := h.frame_ne hr mem_cons_self
  rcases hs.frame with ⟨hf, hos⟩ | ⟨fn, hf, hos⟩
  · refine ⟨_, hos, ?_⟩
    simp [Machine.schedule, hc, hn, hne.symm, Machine.saveVars, Machine.switchThread, hs.stack, hfr, hf, hne,
      Machine.resume, Machine.scheduleRest, Machine.loadVars, Machine.switched]
  · refine ⟨_, hos, ?_⟩
    simp [Machine.schedule, hc, hn, hne.symm, Machine.saveVars, Machine.switchThread, hs.stack, hfr, hf, hne,
      Machine.resume, Machine.starter, Machine.loadVars, Machine.switched]

/-- The running thread goes to the end of the ring, with its frame on its stack. -/
theorem switch (h : w.Inv (t :: l)) (hr : w.Room) (hos : w.OnStack t sp) :
    ({ w.note with machine := w.machine.switched t sp } : World).Inv (l ++ [w.machine.currThread]) := by
  refine ⟨?_, ?_, h.pos, hos, h.apart, ?_⟩
  · have hrot : (links w.machine.threads).Ring (t :: l ++ [w.machine.currThread]) :=
      Links.Ring.rotate (l := [_]) h.ring
    refine hrot.congr fun u _ ↦ ?_
    by_cases hu : u = w.machine.currThread <;> simp [links, Machine.switched, hu]
  · have hp : (w.machine.currThread :: t :: l).Perm (t :: l ++ [w.machine.currThread]) :=
      (perm_append_comm : ([_] ++ _).Perm _)
    exact hp.symm.trans h.created
  · intro u hu
    rcases mem_append.mp hu with hu | hu
    · have hut := mem_cons_of_mem t hu
      have huc := h.ne_curr hut
      refine (h.suspended u hut).congr ?_ ?_ (update_of_ne (h.frame_ne hr hut) _ _) ?_ ?_ rfl rfl
      · simp [Machine.switched, huc]
      · simp [Machine.switched, huc]
      · simp [note, h.runner_eq, huc]
      · simp [note, h.runner_eq, huc]
    · obtain rfl := mem_singleton.mp hu
      have ha := h.active
      simp only [Room, h.runner_eq] at hr
      refine ⟨?_, ?_, ?_, .inl ⟨?_, ?_⟩⟩
      · simp [Machine.switched, note, h.runner_eq]
      · simp [Machine.switched, note, h.runner_eq]
      · simp only [note, h.runner_eq, update_self]
        exact Nat.le_sub_of_add_le hr
      · simp [Machine.switched, note, h.runner_eq]
      · simp only [note, h.runner_eq, update_self, OnStack] at *
        omega

theorem note_alone (h : w.Inv []) : ({ w.note with machine := w.machine } : World).Inv [] := by
  refine ⟨h.ring, h.created, h.pos, h.active, h.apart, ?_⟩
  intro t ht
  cases ht

/-- `schedule` always finds a thread to go on with, and that thread gets its
variables back. -/
theorem schedule (h : w.Inv l) (hr : w.Room) :
    ∃ m l', w.machine.schedule = some m ∧ ({ w.note with machine := m } : World).Inv l' ∧
      m.vars = w.note.lastVars m.currThread := by
  cases l with
  | nil => exact ⟨w.machine, [], h.schedule_alone, h.note_alone, by simp [note, h.runner_eq]⟩
  | cons t l =>
    obtain ⟨sp, hos, hm⟩ := h.schedule_next hr
    have ht := h.suspended t mem_cons_self
    have htc := h.ne_curr mem_cons_self
    refine ⟨_, l ++ [w.machine.currThread], hm, h.switch hr hos, ?_⟩
    simp [Machine.switched, note, h.runner_eq, htc, ht.vars]

theorem linked (h : w.Inv l) (h0 : th ≠ 0) (hf : w.Fresh th stack) :
    (w.link fn th stack).Inv (th :: l) := by
  have hc : th ≠ w.machine.currThread := fun he ↦ hf.1 (he ▸ h.curr_mem)
  have hn : th ≠ (w.machine.threads w.machine.currThread).next := by
    intro he
    have hm : th ∈ w.machine.currThread :: l := he ▸ h.ring.next_mem
    exact hf.1 (h.created.mem_iff.mp hm)
  refine ⟨?_, ?_, ?_, ?_, ?_, ?_⟩
  · have hth : th ∉ w.machine.currThread :: l := fun hm ↦ hf.1 (h.created.mem_iff.mp hm)
    let d : Descriptor := ⟨th, th, 0, .fresh, 0⟩
    have hl : (links (update w.machine.threads th d)).Ring (w.machine.currThread :: l) := by
      refine h.ring.congr fun u hu ↦ ?_
      have hut : u ≠ th := fun he ↦ hth (he ▸ hu)
      simp [links, hut]
    have hs : (links (update w.machine.threads th d)).Ring [th] := by
      refine Links.ring_singleton.mpr ?_
      simp [Links.Joined, links, d]
    have hi := hl.insertAfter hs (disjoint_singleton.mpr hth)
    rw [← Machine.links_linkThread hc hn rfl] at hi
    exact hi
  · exact (Perm.swap _ _ _).trans (h.created.cons th)
  · simpa [link, add, h0.symm] using h.pos
  · simpa [OnStack, link, add, Machine.linkThread, hc.symm] using h.active
  · intro t ht u hu htu
    have hold : ∀ v ∈ w.created, v ≠ th := fun v hv he ↦ hf.1 (he ▸ hv)
    rcases mem_cons.mp ht with ht | ht <;> rcases mem_cons.mp hu with hu | hu
    · exact absurd (ht.trans hu.symm) htu
    · have hu' := hold u hu
      simpa [link, add, ht, hu', or_comm] using hf.2.2 u hu
    · have ht' := hold t ht
      simpa [link, add, hu, ht'] using hf.2.2 t ht
    · have ht' := hold t ht
      have hu' := hold u hu
      simpa [link, add, ht', hu'] using h.apart t ht u hu htu
  · intro t ht
    rcases mem_cons.mp ht with rfl | ht
    · have hnew := Machine.linkThread_new fn stack hc hn
      refine ⟨?_, ?_, ?_, .inr ⟨fn, ?_, ?_⟩⟩
      · simpa [link, add] using hnew.1
      · simpa [link, add] using hnew.2
      · simp only [link, add, update_self, THREAD_STACK_SIZE, STARTER_FRAME, SWITCH_FRAME]
        omega
      · simp [link, add, Machine.linkThread]
      · simp only [OnStack, link, add, update_self, THREAD_STACK_SIZE, STARTER_FRAME, SWITCH_FRAME]
        omega
    · have hs := h.suspended t ht
      have htm := h.mem_created ht
      have htn : t ≠ th := fun he ↦ hf.1 (he ▸ htm)
      have hold := Machine.linkThread_old w.machine fn stack htn
      refine hs.congr hold.1 hold.2 (Machine.linkThread_frames _ _ _ ?_) ?_ ?_ ?_ ?_
      · have hlt := hs.lastSp_lt
        have hlo := hs.lo
        rcases hf.2.2 t htm with ha | ha <;> omega
      all_goals simp [link, add, htn]

theorem note_link (h : w.Inv l) (h0 : th ≠ 0) (hf : w.Fresh th stack) :
    (w.link fn th stack).note = w.note.link fn th stack := by
  have hc : th ≠ w.machine.currThread := fun he ↦ hf.1 (he ▸ h.curr_mem)
  have hr : (w.link fn th stack).runner = w.machine.currThread := (h.linked h0 hf).runner_eq
  unfold note
  rw [hr, h.runner_eq]
  simp only [link, add, Machine.linkThread, update_comm hc]

theorem room_link (h : w.Inv l) (fn : ℕ) (h0 : th ≠ 0) (hf : w.Fresh th stack) (hr : w.Room) :
    (w.link fn th stack).Room := by
  have hl : (w.link fn th stack).Inv (th :: l) := h.linked h0 hf
  have hc : w.machine.currThread ≠ th := fun he ↦ hf.1 (he ▸ h.curr_mem)
  unfold Room at hr ⊢
  rw [hl.runner_eq]
  rw [h.runner_eq] at hr
  simpa [link, add, Machine.linkThread, hc] using hr

theorem create (h : w.Inv l) (fn : ℕ) (h0 : th ≠ 0) (hf : w.Fresh th stack) (hs : stack ≠ 0) (hr : w.Room) :
    ∃ m l', w.machine.camlThreadCreate fn th stack = some m ∧
      ({ w.note.add th stack with machine := m } : World).Inv l' ∧
      m.vars = (w.note.add th stack).lastVars m.currThread := by
  have hl : (w.link fn th stack).Inv (th :: l) := h.linked h0 hf
  obtain ⟨m, l', hm, hi, hv⟩ := hl.schedule (h.room_link fn h0 hf hr)
  rw [h.note_link h0 hf] at hi hv
  refine ⟨m, l', ?_, hi, hv⟩
  rw [Machine.camlThreadCreate, if_neg h0, if_neg hs]
  exact hm

end Inv

theorem step_inv {op : Op} (h : w.Inv l) (hc : w.step op = some w') :
    ∃ l', w'.Inv l' ∧ (op.Schedules → w'.machine.vars = w'.lastVars w'.machine.currThread) := by
  cases op with
  | compute vars sp frames => exact ⟨l, h.compute hc, False.elim⟩
  | schedule =>
    simp only [step] at hc
    split_ifs at hc with hr
    obtain ⟨m, l', hm, hi, hv⟩ := h.schedule hr
    rw [hm] at hc
    obtain rfl := Option.some.inj hc
    exact ⟨l', hi, fun _ ↦ hv⟩
  | create fn th stack =>
    simp only [step] at hc
    split_ifs at hc with hn hr
    · have hm : w.machine.camlThreadCreate fn th stack = some w.machine := by
        rcases hn with hn | hn <;> simp [Machine.camlThreadCreate, hn]
      rw [hm] at hc
      obtain rfl := Option.some.inj hc
      exact ⟨l, h, fun hx ↦ absurd hn (not_or.mpr hx)⟩
    · obtain ⟨h0, hs⟩ := not_or.mp hn
      obtain ⟨m, l', hm, hi, hv⟩ := h.create fn h0 hr.2 hs hr.1
      rw [hm] at hc
      obtain rfl := Option.some.inj hc
      exact ⟨l', hi, fun _ ↦ hv⟩

end World
end OcamlRpi.Thread
