import Mathlib.Logic.Relation
import OcamlRpi.Thread.Frames

namespace OcamlRpi.Thread

open Support Arm Function List

/-- How a thread that does not run will go on: it returns from the call of
`switch_thread` it made, or it starts. -/
inductive Context where
  | called (c : Cpu)
  | fresh (fn stack : BitVec 32)

/-- The bytes on the stack of the thread that its first instructions pop. -/
def Context.frame : Context → ℕ
  | called _ => SWITCH_FRAME
  | fresh .. => SWITCH_FRAME + STARTER_FRAME

/-- The instructions of `switch_thread`, and of `starter_stub` for a new thread. -/
def Context.length : Context → ℕ
  | called _ => 7
  | fresh .. => 9

/-- The processor, the descriptors of the threads, and where their stacks lie.
The threads that do not run were left as `left` says. -/
structure Threads where
  cpu : Cpu
  curr : BitVec 32
  ids : List (BitVec 32)
  lo : BitVec 32 → ℕ
  hi : BitVec 32 → ℕ
  left : BitVec 32 → Context

namespace Threads

/-- `th->next` -/
def follows (s : Threads) (th : BitVec 32) : BitVec 32 := s.cpu.mem.word (th + Field.next.offset)

/-- `th->stack` -/
def saved (s : Threads) (th : BitVec 32) : BitVec 32 := s.cpu.mem.word (th + Field.stack.offset)

/-- The running thread may change all memory but the links of the threads and
what the others need to go on: their saved stack pointers and their frames. -/
structure Respects (s : Threads) (m : Mem) : Prop where
  next : ∀ t ∈ s.ids, m.word (t + Field.next.offset) = s.follows t
  stack : ∀ t ∈ s.ids, t ≠ s.curr → m.word (t + Field.stack.offset) = s.saved t
  frame : ∀ t ∈ s.ids, t ≠ s.curr → Kept s.cpu.mem m (s.saved t).toNat (s.left t).frame

/-- The blocks that `malloc` and `stat_alloc` return for a new thread lie apart
from each other, from the descriptors and from the stacks. -/
structure Room (s : Threads) (th stack : BitVec 32) : Prop where
  th_top : th.toNat + DESCRIPTOR_SIZE ≤ 2 ^ 32
  stack_top : stack.toNat + THREAD_STACK_SIZE ≤ 2 ^ 32
  apart : th.toNat + DESCRIPTOR_SIZE ≤ stack.toNat ∨ stack.toNat + THREAD_STACK_SIZE ≤ th.toNat
  clear : ∀ t ∈ s.ids, Clear th stack t
  th_regions : ∀ t ∈ s.ids, s.hi t ≤ th.toNat ∨ th.toNat + DESCRIPTOR_SIZE ≤ s.lo t
  regions : ∀ t ∈ s.ids, s.hi t ≤ stack.toNat ∨ stack.toNat + THREAD_STACK_SIZE ≤ s.lo t

/-- The threads with a new one. -/
def add (s : Threads) (th fn stack : BitVec 32) (c : Cpu) : Threads where
  cpu := c
  curr := s.curr
  ids := th :: s.ids
  lo := update s.lo th stack.toNat
  hi := update s.hi th (stack.toNat + THREAD_STACK_SIZE)
  left := update s.left th (.fresh fn stack)

/-- `schedule` calls `switch_thread(&curr_thread->stack, curr_thread->next->stack)`,
with room on the stack for the frame. -/
structure Calls (base : BitVec 32) (s : Threads) : Prop where
  pc : s.cpu.pc = base
  old : s.cpu.r .r0 = s.curr + Field.stack.offset
  new : s.cpu.r .r1 = s.saved (s.follows s.curr)
  other : s.follows s.curr ≠ s.curr
  room : s.lo s.curr + SWITCH_FRAME ≤ s.cpu.sp.toNat
  top : s.cpu.sp.toNat ≤ s.hi s.curr

/-- The threads when the next one runs. -/
def go (s : Threads) (c : Cpu) : Threads :=
  { s with cpu := c, curr := s.follows s.curr, left := update s.left s.curr (.called s.cpu) }

/-- One thread at a time runs, until it calls `switch_thread`. -/
inductive Step (base starter : BitVec 32) : Threads → Threads → Prop
  | work {s : Threads} {c : Cpu} (keeps : s.Respects c.mem) : Step base starter s { s with cpu := c }
  | create {s : Threads} {th fn stack : BitVec 32} {c : Cpu} (room : s.Room th stack)
      (mem : c.mem = camlThreadCreateMem base starter s.cpu.mem s.curr th fn stack) :
      Step base starter s (s.add th fn stack c)
  | switch {s : Threads} {c : Cpu} (calls : s.Calls base)
      (run : steps (code base) (s.left (s.follows s.curr)).length s.cpu = some c) :
      Step base starter s (s.go c)

/-- `ocaml_thread_init` has linked the one descriptor to itself. -/
structure Alone (s : Threads) : Prop where
  ids : s.ids = [s.curr]
  next : s.follows s.curr = s.curr
  top : s.curr.toNat + DESCRIPTOR_SIZE ≤ 2 ^ 32
  apart : s.hi s.curr ≤ s.curr.toNat ∨ s.curr.toNat + DESCRIPTOR_SIZE ≤ s.lo s.curr

def Reachable (base starter : BitVec 32) (s : Threads) : Prop :=
  ∃ s₀ : Threads, s₀.Alone ∧ Relation.ReflTransGen (Step base starter) s₀ s

end Threads

/-- The processor `c` goes on as the context says. -/
def Context.Resumes (starter th : BitVec 32) (c : Cpu) : Context → Prop
  | .called c₀ => (∀ i ∈ coreRegs, c.r i = c₀.r i) ∧ (∀ i ∈ doubleRegs, c.d i = c₀.d i) ∧
      c.sp = c₀.sp ∧ c.pc = c₀.lr
  | .fresh fn stack => c.pc = starter ∧ c.r .r0 = th ∧ c.r .r1 = fn ∧
      c.sp = stack + .ofNat 32 THREAD_STACK_SIZE

/-- What is at the saved stack pointer `a` of a thread. -/
def Context.Held (base starter th : BitVec 32) (m : Mem) (a : BitVec 32) : Context → Prop
  | .called c => a = c.sp - 104 ∧ SWITCH_FRAME ≤ c.sp.toNat ∧ Saved m a c.r c.d
  | .fresh fn stack => a = frameTop stack ∧ stack.toNat + THREAD_STACK_SIZE ≤ 2 ^ 32 ∧
      Saved m a (freshRegs (stubOf base)) (fun _ ↦ 0) ∧ m.loadWords (a + 104) 5 = [th, fn, 2, 3, starter]

namespace Threads

/-- The thread `t` left its frame on its own stack. -/
structure Ready (base starter : BitVec 32) (s : Threads) (t : BitVec 32) : Prop where
  lo : s.lo t ≤ (s.saved t).toNat
  hi : (s.saved t).toNat + (s.left t).frame ≤ s.hi t
  held : (s.left t).Held base starter t s.cpu.mem (s.saved t)

structure Inv (base starter : BitVec 32) (s : Threads) : Prop where
  curr : s.curr ∈ s.ids
  next : ∀ t ∈ s.ids, s.follows t ∈ s.ids
  top : ∀ t ∈ s.ids, t.toNat + DESCRIPTOR_SIZE ≤ 2 ^ 32
  descriptors : ∀ t ∈ s.ids, ∀ u ∈ s.ids, t ≠ u →
    t.toNat + DESCRIPTOR_SIZE ≤ u.toNat ∨ u.toNat + DESCRIPTOR_SIZE ≤ t.toNat
  regions : ∀ t ∈ s.ids, ∀ u ∈ s.ids, t ≠ u → s.hi t ≤ s.lo u ∨ s.hi u ≤ s.lo t
  mixed : ∀ t ∈ s.ids, ∀ u ∈ s.ids, s.hi t ≤ u.toNat ∨ u.toNat + DESCRIPTOR_SIZE ≤ s.lo t
  ready : ∀ t ∈ s.ids, t ≠ s.curr → s.Ready base starter t

end Threads

variable {base starter th fn stack t a : BitVec 32} {s s' : Threads} {m m' : Mem} {c c' : Cpu} {x : Context}
  {r : Reg → BitVec 32} {d : Fin 32 → BitVec 64}

theorem Context.Held.frame_le (h : x.Held base starter th m a) : a.toNat + x.frame ≤ 2 ^ 32 := by
  cases x with
  | called c =>
    obtain ⟨rfl, hroom, -⟩ := h
    have hlt := c.sp.isLt
    unfold Context.frame SWITCH_FRAME at *
    bv_omega
  | fresh fn stack =>
    obtain ⟨rfl, htop, -⟩ := h
    obtain ⟨-, hhi⟩ := frameTop_toNat htop
    simp only [Context.frame, SWITCH_FRAME, STARTER_FRAME]
    omega

theorem Context.Held.congr (h : x.Held base starter th m a) (hk : Kept m m' a.toNat x.frame) :
    x.Held base starter th m' a := by
  have hle := h.frame_le
  cases x with
  | called c =>
    obtain ⟨ha, hroom, hs⟩ := h
    exact ⟨ha, hroom, hs.congr hle hk⟩
  | fresh fn stack =>
    obtain ⟨ha, htop, hs, hl⟩ := h
    simp only [Context.frame, STARTER_FRAME] at hk hle
    refine ⟨ha, htop, hs.congr (by omega) fun x hx hx' ↦ hk x hx (by omega), ?_⟩
    have hat : (a + 104).toNat = a.toNat + 104 := by
      simp only [SWITCH_FRAME] at hle
      bv_omega
    rw [Mem.loadWords_congr (by simp only [SWITCH_FRAME] at hle; omega) fun x hx hx' ↦
      hk x (by omega) (by simp only [SWITCH_FRAME]; omega)]
    exact hl

/-- `switch_thread` with a new stack that holds a frame. -/
theorem switched_resumes (hc : c.pc = base) (hs : Saved c.mem a r d) (ha : c.r .r1 = a)
    (hk : Kept c.mem (savedMem c) a.toNat SWITCH_FRAME) (hle : a.toNat + SWITCH_FRAME ≤ 2 ^ 32) :
    ∃ c₁, steps (code base) 7 c = some c₁ ∧ (∀ i ∈ coreRegs, c₁.r i = r i) ∧ (∀ i ∈ doubleRegs, c₁.d i = d i) ∧
      c₁.sp = a + 104 ∧ c₁.pc = r .lr ∧ c₁.mem = savedMem c := by
  have hsp : (stored c).sp = a := by rw [stored_sp, ha]
  have hframe : Saved (stored c).mem (stored c).sp r d := by
    rw [hsp, stored_mem]
    exact hs.congr hle hk
  refine ⟨switched c, steps_switchThread hc, ?_, ?_, ?_, ?_, switched_mem c⟩
  · intro i hi
    rw [switched_eq]
    exact resumed_r hframe hi
  · intro i hi
    rw [switched_eq]
    exact resumed_d hframe hi
  · rw [switched_eq, resumed_sp, hsp]
  · rw [switched_eq]
    exact resumed_pc hframe

theorem starterStub_spec (hc : c.pc = stubOf base) (hl : c.mem.loadWords c.sp 5 = [th, fn, 2, 3, starter]) :
    ∃ c', steps (code base) 2 c = some c' ∧ c'.pc = starter ∧ c'.r .r0 = th ∧ c'.r .r1 = fn ∧
      c'.sp = c.sp + 20 ∧ c'.mem = c.mem := by
  have hs : ∀ i ∈ starterStub.dropLast, i.Straight := by simp [starterStub, Instr.Straight]
  have hrun := Loaded.steps (hc ▸ loaded_starterStub base : Loaded (code base) c.pc starterStub) hs
  obtain ⟨c', hrun', h₁, h₂, h₃, h₄⟩ := steps_starterStub hc hl
  refine ⟨c', hrun', h₁, h₂, h₃, h₄, ?_⟩
  rw [← Option.some.inj (hrun.symm.trans hrun')]
  rfl

/-- The thread whose context is at the new stack pointer goes on. -/
theorem Context.Held.resumes (h : x.Held base starter th c.mem a) (hc : c.pc = base) (ha : c.r .r1 = a)
    (hk : Kept c.mem (savedMem c) a.toNat x.frame) :
    ∃ c', steps (code base) x.length c = some c' ∧ x.Resumes starter th c' ∧ c'.mem = savedMem c := by
  have hle := h.frame_le
  cases x with
  | called c₀ =>
    obtain ⟨rfl, hroom, hs⟩ := h
    obtain ⟨c', hrun, hr, hd, hsp, hpc, hm⟩ := switched_resumes hc hs ha hk hle
    refine ⟨c', hrun, ⟨hr, hd, ?_, hpc⟩, hm⟩
    rw [hsp]
    bv_omega
  | fresh fn stack =>
    have hl := (h.congr hk).2.2.2
    obtain ⟨rfl, htop, hs, -⟩ := h
    simp only [Context.frame] at hk hle
    obtain ⟨c₁, hrun, -, -, hsp, hpc, hm⟩ :=
      switched_resumes hc hs ha (fun x hx hx' ↦ hk x hx (by omega)) (by omega)
    rw [← hm, ← hsp] at hl
    obtain ⟨c', hrun', hpc', hr0, hr1, hsp', hm'⟩ := starterStub_spec hpc hl
    refine ⟨c', ?_, ⟨hpc', hr0, hr1, ?_⟩, hm'.trans hm⟩
    · exact (steps_add (n := 2) hrun).trans hrun'
    · rw [hsp', hsp]
      unfold frameTop THREAD_STACK_SIZE STARTER_FRAME SWITCH_FRAME
      bv_omega

theorem field_toNat (ht : t.toNat + DESCRIPTOR_SIZE ≤ 2 ^ 32) (f : Field) :
    (t + f.offset).toNat = t.toNat + f.offset.toNat := by
  have hf := offset_le f
  unfold DESCRIPTOR_SIZE at ht
  bv_omega

theorem setField_word (ht : t.toNat + DESCRIPTOR_SIZE ≤ 2 ^ 32) {f : Field} {v b : BitVec 32}
    (h : b.toNat + 4 ≤ t.toNat + f.offset.toNat ∨ t.toNat + f.offset.toNat + 4 ≤ b.toNat) :
    (setField m t f v).word b = m.word b := by
  have hat := field_toNat ht f
  exact Mem.word_congr fun x hx hx' ↦ Mem.setWord_of_apart (by omega)

/-- The descriptor behind the current one is not read again after the first
store that could change it. -/
theorem linkDescriptor_eq {curr n top : BitVec 32} (hn : m.word (curr + Field.next.offset) = n)
    (hth : th.toNat + DESCRIPTOR_SIZE ≤ 2 ^ 32) (hcurr : Clear th stack curr) :
    linkDescriptor m curr th top = setField (setField (setField (setField (setField m th .stack top)
      th .next n) th .prev curr) n .prev th) curr .next th := by
  have hc := hcurr.th
  unfold DESCRIPTOR_SIZE at hc
  have hkeeps : ∀ (m : Mem) (f : Field) (v : BitVec 32),
      (setField m th f v).word (curr + Field.next.offset) = m.word (curr + Field.next.offset) := by
    intro m f v
    have hf := offset_le f
    apply setField_word hth
    rw [add_next]
    omega
  simp only [linkDescriptor, hkeeps, hn]

/-- The links of a new thread, and what `caml_thread_create` leaves alone. -/
theorem camlThreadCreateMem_links {curr n : BitVec 32} (base starter fn : BitVec 32) (h : Blocks m curr th stack)
    (hn : m.word (curr + Field.next.offset) = n) :
    let m' := camlThreadCreateMem base starter m curr th fn stack
    m'.word (th + Field.next.offset) = n ∧ m'.word (curr + Field.next.offset) = th ∧
      ∀ x, (x < th.toNat ∨ th.toNat + DESCRIPTOR_SIZE ≤ x) →
        (x < stack.toNat ∨ stack.toNat + THREAD_STACK_SIZE ≤ x) → (x < curr.toNat ∨ curr.toNat + 4 ≤ x) →
        (x < n.toNat + 4 ∨ n.toNat + 8 ≤ x) → m' x = m x := by
  obtain ⟨m₂, hbuild, -, -, hframe⟩ := buildFrame_spec base starter
    (initDescriptor m th (stack + .ofNat 32 THREAD_STACK_SIZE)) th fn h.stack_top
  obtain ⟨hlo, hhi⟩ := frameTop_toNat h.stack_top
  have hrun : camlThreadCreateMem base starter m curr th fn stack =
      linkDescriptor m₂ curr th (frameTop stack) := by
    unfold camlThreadCreateMem
    dsimp only
    rw [hbuild]
  have hold : ∀ x, (x < th.toNat ∨ th.toNat + DESCRIPTOR_SIZE ≤ x) →
      (x < stack.toNat ∨ stack.toNat + THREAD_STACK_SIZE ≤ x) → m₂ x = m x := by
    intro x hx hx'
    rw [hframe x (by omega), initDescriptor_of_apart h.th_top hx]
  obtain ⟨hc, hc_th, hc_stack⟩ := h.clear_curr
  obtain ⟨hnt, hn_th, hn_stack⟩ := hn ▸ h.clear_next
  have hth := h.th_top
  have hnext : m₂.word (curr + Field.next.offset) = n := by
    rw [← hn, add_next]
    exact Mem.word_congr fun x hx hx' ↦ hold x (by unfold DESCRIPTOR_SIZE at *; omega)
      (by unfold DESCRIPTOR_SIZE at *; omega)
  have hprev : Field.prev.offset.toNat = 4 := rfl
  have hzero : Field.next.offset.toNat = 0 := rfl
  dsimp only
  rw [hrun, linkDescriptor_eq hnext h.th_top ⟨hc, hc_th, hc_stack⟩]
  refine ⟨?_, Mem.word_setWord _ _ _, ?_⟩
  · have hat := field_toNat hth .next
    unfold DESCRIPTOR_SIZE at hc_th hn_th
    rw [setField_word hc (by omega), setField_word hnt (by omega), setField_word hth (by omega)]
    exact Mem.word_setWord _ _ _
  · intro x hx hx' hxc hxn
    have hnp := field_toNat hnt .prev
    rw [setField, Mem.setWord_of_apart (by rw [add_next]; omega), setField,
      Mem.setWord_of_apart (by omega), setField_of_apart hth hx, setField_of_apart hth hx,
      setField_of_apart hth hx, hold x hx hx']

namespace Threads

theorem Ready.of_kept (h : s.Ready base starter t) (hlo : s'.lo t = s.lo t) (hhi : s'.hi t = s.hi t)
    (hleft : s'.left t = s.left t) (hs : s'.saved t = s.saved t)
    (hk : Kept s.cpu.mem s'.cpu.mem (s.saved t).toNat (s.left t).frame) : s'.Ready base starter t := by
  refine ⟨?_, ?_, ?_⟩
  · rw [hlo, hs]
    exact h.lo
  · rw [hs, hleft, hhi]
    exact h.hi
  · rw [hs, hleft]
    exact h.held.congr hk

theorem Inv.of_alone (h : s.Alone) : s.Inv base starter := by
  have hids : ∀ t, t ∈ s.ids ↔ t = s.curr := by simp [h.ids]
  constructor
  · exact (hids _).mpr rfl
  · intro t ht
    rw [(hids t).mp ht, h.next]
    exact (hids _).mpr rfl
  · intro t ht
    rw [(hids t).mp ht]
    exact h.top
  · intro t ht u hu hne
    exact absurd (((hids t).mp ht).trans ((hids u).mp hu).symm) hne
  · intro t ht u hu hne
    exact absurd (((hids t).mp ht).trans ((hids u).mp hu).symm) hne
  · intro t ht u hu
    rw [(hids t).mp ht, (hids u).mp hu]
    exact h.apart
  · intro t ht hne
    exact absurd ((hids t).mp ht) hne

theorem Inv.work (h : s.Inv base starter) (hc : s.Respects c.mem) : Inv base starter { s with cpu := c } := by
  refine ⟨h.curr, ?_, h.top, h.descriptors, h.regions, h.mixed, ?_⟩
  · intro t ht
    have hn : follows { s with cpu := c } t = s.follows t := hc.next t ht
    rw [hn]
    exact h.next t ht
  · intro t ht hne
    exact (h.ready t ht hne).of_kept rfl rfl rfl (hc.stack t ht hne) (hc.frame t ht hne)

/-- What a call of `switch_thread` leaves alone. -/
theorem Calls.kept (h : s.Inv base starter) (hc : s.Calls base) {a n : ℕ}
    (hstack : a + n ≤ s.lo s.curr ∨ s.hi s.curr ≤ a)
    (hslot : a + n ≤ s.curr.toNat + 44 ∨ s.curr.toNat + 48 ≤ a) : Kept s.cpu.mem (savedMem s.cpu) a n := by
  have hroom := hc.room
  have htop := hc.top
  have hr0 : (s.cpu.r .r0).toNat = s.curr.toNat + 44 := by
    rw [hc.old, field_toNat (h.top _ h.curr)]
    rfl
  exact Spares.kept ⟨by omega, by omega, by omega⟩

theorem Calls.word (h : s.Inv base starter) (hc : s.Calls base) (ht : t ∈ s.ids) {f : Field}
    (hf : t ≠ s.curr ∨ f.offset.toNat + 4 ≤ 44) :
    (savedMem s.cpu).word (t + f.offset) = s.cpu.mem.word (t + f.offset) := by
  have hat := field_toNat (h.top t ht) f
  have hle := offset_le f
  have hmixed := h.mixed s.curr h.curr t ht
  have hslot : t.toNat + f.offset.toNat + 4 ≤ s.curr.toNat + 44 ∨
      s.curr.toNat + 48 ≤ t.toNat + f.offset.toNat := by
    rcases eq_or_ne t s.curr with he | hne
    · have hlt := hf.resolve_left (not_not.mpr he)
      rw [he]
      omega
    · have hx := h.descriptors t ht s.curr h.curr hne
      unfold DESCRIPTOR_SIZE at hx
      omega
  unfold DESCRIPTOR_SIZE at hmixed
  have hk := hc.kept h (a := t.toNat + f.offset.toNat) (n := 4) (by omega) hslot
  exact Mem.word_congr fun x hx hx' ↦ hk x (by omega) (by omega)

theorem Calls.frame (h : s.Inv base starter) (hc : s.Calls base) (ht : t ∈ s.ids) (hne : t ≠ s.curr) :
    Kept s.cpu.mem (savedMem s.cpu) (s.saved t).toNat (s.left t).frame := by
  obtain ⟨hlo, hhi, -⟩ := h.ready t ht hne
  have hregion := h.regions t ht s.curr h.curr hne
  have hmixed := h.mixed t ht s.curr h.curr
  unfold DESCRIPTOR_SIZE at hmixed
  exact hc.kept h (by omega) (by omega)

theorem Inv.switch (h : s.Inv base starter) (hc : s.Calls base) (hm : c.mem = savedMem s.cpu) :
    (s.go c).Inv base starter := by
  have hmem : (s.go c).cpu.mem = savedMem s.cpu := hm
  refine ⟨h.next _ h.curr, ?_, h.top, h.descriptors, h.regions, h.mixed, ?_⟩
  · intro t ht
    have hn : (s.go c).follows t = s.follows t := by
      rw [follows, hmem]
      exact hc.word h ht (.inr (by decide))
    rw [hn]
    exact h.next t ht
  · intro t ht hne
    rcases eq_or_ne t s.curr with rfl | hne'
    · have hroom := hc.room
      have htop := hc.top
      have hmixed := h.mixed _ ht _ ht
      have hr0 : (s.cpu.r .r0).toNat = s.curr.toNat + 44 := by
        rw [hc.old, field_toNat (h.top _ ht)]
        rfl
      have hsaved : (s.go c).saved s.curr = s.cpu.sp - 104 := by
        rw [saved, hmem, ← hc.old]
        exact savedMem_word s.cpu
      have hleft : (s.go c).left s.curr = .called s.cpu := update_self ..
      obtain ⟨-, hat⟩ := sp_toNat (c := s.cpu) (by unfold SWITCH_FRAME at hroom; omega)
      unfold DESCRIPTOR_SIZE at hmixed
      refine ⟨?_, ?_, ?_⟩
      · rw [hsaved, hat]
        exact Nat.le_sub_of_add_le hroom
      · rw [hsaved, hat, hleft]
        have hhi : (s.go c).hi s.curr = s.hi s.curr := rfl
        simp only [Context.frame, SWITCH_FRAME] at hroom ⊢
        omega
      · rw [hsaved, hleft]
        refine ⟨rfl, by omega, ?_⟩
        rw [hmem]
        exact saved_savedMem (by omega) (by omega)
    · have hleft : (s.go c).left t = s.left t := update_of_ne hne' _ _
      have hr := h.ready t ht hne'
      refine Ready.of_kept hr (show (s.go c).lo t = s.lo t from rfl) rfl hleft ?_ ?_
      · rw [saved, hmem]
        exact hc.word h ht (.inl hne')
      · rw [hmem]
        exact hc.frame h ht hne'

theorem add_left (s : Threads) (th fn stack : BitVec 32) (c : Cpu) :
    (s.add th fn stack c).left th = .fresh fn stack := update_self ..

/-- The parts of the memory that belong to the old threads are not changed by
`caml_thread_create`, but for two links. -/
theorem Inv.create {c : Cpu} (h : s.Inv base starter) (hr : s.Room th stack)
    (hm : c.mem = camlThreadCreateMem base starter s.cpu.mem s.curr th fn stack) :
    (s.add th fn stack c).Inv base starter := by
  have hb : Blocks s.cpu.mem s.curr th stack :=
    ⟨hr.th_top, hr.stack_top, hr.apart, hr.clear _ h.curr, hr.clear _ (h.next _ h.curr)⟩
  obtain ⟨hsaved, hframe, hwords⟩ := camlThreadCreateMem_spec base starter fn hb
  obtain ⟨hnext_th, hnext_curr, hold⟩ := camlThreadCreateMem_links base starter fn hb rfl
  rw [← hm] at hsaved hframe hwords hnext_th hnext_curr hold
  have hne : ∀ t ∈ s.ids, t ≠ th := by
    intro t ht he
    have hx := (hr.clear t ht).th
    unfold DESCRIPTOR_SIZE at hx
    subst he
    omega
  have hlo : ∀ t ∈ s.ids, (s.add th fn stack c).lo t = s.lo t := fun t ht ↦ update_of_ne (hne t ht) _ _
  have hhi : ∀ t ∈ s.ids, (s.add th fn stack c).hi t = s.hi t := fun t ht ↦ update_of_ne (hne t ht) _ _
  have hleft : ∀ t ∈ s.ids, (s.add th fn stack c).left t = s.left t := fun t ht ↦ update_of_ne (hne t ht) _ _
  have hlo_th : (s.add th fn stack c).lo th = stack.toNat := update_self ..
  have hhi_th : (s.add th fn stack c).hi th = stack.toNat + THREAD_STACK_SIZE := update_self ..
  have hleft_th := add_left s th fn stack c
  -- a word of an old descriptor other than the two links
  have hword : ∀ t ∈ s.ids, ∀ f : Field, (t ≠ s.curr ∨ 4 ≤ f.offset.toNat) → f ≠ .prev →
      c.mem.word (t + f.offset) = s.cpu.mem.word (t + f.offset) := by
    intro t ht f hf hprev
    have hat := field_toNat (h.top t ht) f
    have hle := offset_le f
    have hx := hr.clear t ht
    obtain ⟨-, hx_th, hx_stack⟩ := hx
    have hoff : f.offset.toNat + 4 ≤ 4 ∨ 8 ≤ f.offset.toNat := by
      cases f <;> first | exact absurd rfl hprev | decide
    have hc : t.toNat + f.offset.toNat + 4 ≤ s.curr.toNat ∨ s.curr.toNat + 4 ≤ t.toNat + f.offset.toNat := by
      rcases eq_or_ne t s.curr with rfl | hne
      · have hx := hf.resolve_left (not_not.mpr rfl)
        omega
      · have hx := h.descriptors t ht _ h.curr hne
        unfold DESCRIPTOR_SIZE at hx
        omega
    have hn : t.toNat + f.offset.toNat + 4 ≤ (s.follows s.curr).toNat + 4 ∨
        (s.follows s.curr).toNat + 8 ≤ t.toNat + f.offset.toNat := by
      rcases eq_or_ne t (s.follows s.curr) with rfl | hne
      · omega
      · have hx := h.descriptors t ht _ (h.next _ h.curr) hne
        unfold DESCRIPTOR_SIZE at hx
        omega
    unfold DESCRIPTOR_SIZE at hx_th hx_stack
    apply Mem.word_congr
    intro x hx hx'
    exact hold x (by unfold DESCRIPTOR_SIZE; omega) (by omega) (by omega)
      (by unfold follows at hn; omega)
  have hsaved_old : ∀ t ∈ s.ids, (s.add th fn stack c).saved t = s.saved t := fun t ht ↦
    hword t ht .stack (.inr (by decide)) nofun
  refine ⟨mem_cons_of_mem th h.curr, ?_, ?_, ?_, ?_, ?_, ?_⟩
  · intro t ht
    rcases mem_cons.mp ht with rfl | ht
    · have hf : (s.add t fn stack c).follows t = s.follows s.curr := hnext_th
      rw [hf]
      exact mem_cons_of_mem t (h.next _ h.curr)
    · rcases eq_or_ne t s.curr with rfl | hne'
      · have hf : (s.add th fn stack c).follows s.curr = th := hnext_curr
        rw [hf]
        exact mem_cons_self
      · have hf : (s.add th fn stack c).follows t = s.follows t := hword t ht .next (.inl hne') nofun
        rw [hf]
        exact mem_cons_of_mem th (h.next t ht)
  · intro t ht
    rcases mem_cons.mp ht with rfl | ht
    · exact hr.th_top
    · exact h.top t ht
  · intro t ht u hu htu
    rcases mem_cons.mp ht with rfl | ht' <;> rcases mem_cons.mp hu with rfl | hu'
    · exact absurd rfl htu
    · exact (hr.clear u hu').th.symm
    · exact (hr.clear t ht').th
    · exact h.descriptors t ht' u hu' htu
  · intro t ht u hu htu
    rcases mem_cons.mp ht with rfl | ht' <;> rcases mem_cons.mp hu with rfl | hu'
    · exact absurd rfl htu
    · rw [hlo_th, hhi_th, hlo u hu', hhi u hu']
      exact (hr.regions u hu').symm
    · rw [hlo_th, hhi_th, hlo t ht', hhi t ht']
      exact hr.regions t ht'
    · rw [hlo t ht', hhi t ht', hlo u hu', hhi u hu']
      exact h.regions t ht' u hu' htu
  · intro t ht u hu
    rcases mem_cons.mp ht with rfl | ht' <;> rcases mem_cons.mp hu with rfl | hu'
    · rw [hlo_th, hhi_th]
      exact hr.apart.symm
    · rw [hlo_th, hhi_th]
      exact (hr.clear u hu').stack.symm
    · rw [hlo t ht', hhi t ht']
      exact hr.th_regions t ht'
    · rw [hlo t ht', hhi t ht']
      exact h.mixed t ht' u hu'
  · intro t ht hcurr
    rcases mem_cons.mp ht with rfl | ht
    · have hs : (s.add t fn stack c).saved t = frameTop stack := hsaved
      obtain ⟨hlow, hhigh⟩ := frameTop_toNat hr.stack_top
      refine ⟨?_, ?_, ?_⟩
      · rw [hs, hlo_th]
        exact hlow
      · rw [hs, hhi_th, hleft_th]
        exact Nat.le_of_eq hhigh
      · rw [hs, hleft_th]
        exact ⟨rfl, hr.stack_top, hframe, hwords⟩
    · have hready := h.ready t ht hcurr
      apply hready.of_kept (hlo t ht) (hhi t ht) (hleft t ht) (hsaved_old t ht)
      intro x hx hx'
      obtain ⟨hlow, hhigh, -⟩ := hready
      have h₁ := hr.th_regions t ht
      have h₂ := hr.regions t ht
      have h₃ := h.mixed t ht _ h.curr
      have h₄ := h.mixed t ht _ (h.next _ h.curr)
      unfold DESCRIPTOR_SIZE at h₃ h₄
      exact hold x (by omega) (by omega) (by omega) (by unfold follows at h₄; omega)

theorem Calls.resumes (h : s.Inv base starter) (hc : s.Calls base) :
    ∃ c, steps (code base) (s.left (s.follows s.curr)).length s.cpu = some c ∧
      (s.left (s.follows s.curr)).Resumes starter (s.follows s.curr) c ∧ c.mem = savedMem s.cpu := by
  have hmem := h.next _ h.curr
  exact (h.ready _ hmem hc.other).held.resumes hc.pc hc.new (hc.frame h hmem hc.other)

theorem Step.inv (hs : Step base starter s s') (h : s.Inv base starter) : s'.Inv base starter := by
  cases hs with
  | work keeps => exact h.work keeps
  | create room mem => exact h.create room mem
  | switch calls run =>
    obtain ⟨c, hrun, -, hm⟩ := calls.resumes h
    obtain rfl := Option.some.inj (run.symm.trans hrun)
    exact h.switch calls hm

theorem Reachable.inv (h : Reachable base starter s) : s.Inv base starter := by
  obtain ⟨s₀, h₀, hr⟩ := h
  induction hr with
  | refl => exact Inv.of_alone h₀
  | tail _ hs ih => exact hs.inv ih

/-- Every call of `switch_thread`, in every run, ends where the next thread goes
on: behind its own call, with the registers and the stack pointer it had there,
or, if it is new, at `starter`. -/
theorem threads_resume (h : Reachable base starter s) (hc : s.Calls base) :
    let t := s.follows s.curr
    t ∈ s.ids ∧ ∃ c, steps (code base) (s.left t).length s.cpu = some c ∧ (s.left t).Resumes starter t c ∧
      Reachable base starter (s.go c) ∧ (s.go c).left s.curr = .called s.cpu := by
  have hI := h.inv
  obtain ⟨c, hrun, hres, -⟩ := hc.resumes hI
  obtain ⟨s₀, h₀, hr⟩ := h
  exact ⟨hI.next _ hI.curr, c, hrun, hres, ⟨s₀, h₀, hr.tail (.switch hc hrun)⟩, update_self ..⟩

/-- A program with its descriptor at 8192 and its stack below 16384. -/
def single : Threads where
  cpu := calling 16384 0 0 (Mem.setWord (fun _ ↦ 0) 8192 8192)
  curr := 8192
  ids := [8192]
  lo _ := 12288
  hi _ := 16384
  left _ := .fresh 0 0

/-- It creates a thread, which then starts. -/
theorem threads_resume_small : ∃ s c, Threads.Calls 32768 s ∧ steps (code 32768) 9 s.cpu = some c ∧
    c.pc = 36864 ∧ c.r .r0 = 4096 ∧ c.r .r1 = 9 := by
  have halone : single.Alone := ⟨rfl, Mem.word_setWord _ _ _, by decide, .inr (by decide)⟩
  have hroom : single.Room 4096 1048576 := by
    refine ⟨by decide, by decide, .inl (by decide), ?_, ?_, ?_⟩
    all_goals
      intro t ht
      obtain rfl := mem_singleton.mp ht
    · exact ⟨by decide, .inr (by decide), .inl (by decide)⟩
    · exact .inr (by decide)
    · exact .inl (by decide)
  obtain ⟨m, hm⟩ : ∃ m, camlThreadCreateMem 32768 36864 single.cpu.mem 8192 4096 9 1048576 = m := ⟨_, rfl⟩
  obtain ⟨a, ha⟩ : ∃ a, m.word (4096 + Field.stack.offset) = a := ⟨_, rfl⟩
  have hstep : Step 32768 36864 single (single.add 4096 9 1048576 (calling 16384 8236 a m)) :=
    .create hroom hm.symm
  have hnext : m.word (8192 + Field.next.offset) = 4096 := by
    have hb : Blocks single.cpu.mem 8192 4096 1048576 :=
      ⟨hroom.th_top, hroom.stack_top, hroom.apart, hroom.clear _ mem_cons_self, by
        rw [show single.cpu.mem.word (8192 + Field.next.offset) = 8192 from halone.next]
        exact hroom.clear _ mem_cons_self⟩
    have hlinks := camlThreadCreateMem_links 32768 36864 9 hb rfl
    rw [hm] at hlinks
    exact hlinks.2.1
  have hcalls : (single.add 4096 9 1048576 (calling 16384 8236 a m)).Calls 32768 := by
    have hf : (single.add 4096 9 1048576 (calling 16384 8236 a m)).follows 8192 = 4096 := hnext
    refine ⟨rfl, rfl, ?_, ?_, ?_, ?_⟩
    · rw [show (single.add 4096 9 1048576 (calling 16384 8236 a m)).curr = 8192 from rfl, hf]
      exact ha.symm
    · rw [show (single.add 4096 9 1048576 (calling 16384 8236 a m)).curr = 8192 from rfl, hf]
      decide
    · change 12288 + 104 ≤ 16384
      decide
    · change 16384 ≤ 16384
      decide
  obtain ⟨-, c, hrun, hres, -⟩ := threads_resume ⟨_, halone, .single hstep⟩ hcalls
  have hf : (single.add 4096 9 1048576 (calling 16384 8236 a m)).follows
      (single.add 4096 9 1048576 (calling 16384 8236 a m)).curr = 4096 := hnext
  rw [hf] at hrun hres
  have hleft : (single.add 4096 9 1048576 (calling 16384 8236 a m)).left 4096 = .fresh 9 1048576 :=
    add_left ..
  rw [hleft] at hrun hres
  exact ⟨_, c, hcalls, hrun, hres.1, hres.2.1, hres.2.2.1⟩

end Threads

end OcamlRpi.Thread
