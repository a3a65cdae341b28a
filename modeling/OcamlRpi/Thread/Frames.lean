import OcamlRpi.Support.Arm
import OcamlRpi.Thread.Schedule

namespace OcamlRpi.Thread

open Support Arm Function List

/-- `r4-r12,r14` -/
def coreRegs : List Reg := [.r4, .r5, .r6, .r7, .r8, .r9, .r10, .r11, .r12, .lr]

/-- `d8-d15` -/
def doubleRegs : List (Fin 32) := [8, 9, 10, 11, 12, 13, 14, 15]

def switchThread : List Instr :=
  [.vpush doubleRegs, .push coreRegs, .str .sp .r0, .mov .sp .r1, .pop coreRegs, .vpop doubleRegs, .bx .lr]

def starterStub : List Instr := [.pop [.r0, .r1, .r2, .r3, .lr], .bx .lr]

/-- The part of `boot.S` from `switch_thread`, at the address `base`, on. -/
def code (base : BitVec 32) : BitVec 32 → Option Instr := program base (switchThread ++ starterStub)

/-- The address of `starter_stub`. -/
def stubOf (base : BitVec 32) : BitVec 32 := base + 28

/-- The fields of `struct caml_thread_struct`, in their order. -/
inductive Field where
  | next
  | prev
  | topOfStack
  | bottomOfStack
  | lastRetaddr
  | gcRegs
  | exceptionPointer
  | localRoots
  | backtracePos
  | backtraceBuffer
  | backtraceLastExn
  | stack

def Field.offset (f : Field) : BitVec 32 := .ofNat 32 (4 * f.ctorIdx)

def setField (m : Mem) (th : BitVec 32) (f : Field) (v : BitVec 32) : Mem := m.setWord (th + f.offset) v

/-- What is pushed to the stack of a new thread. -/
def frameWords (starter stub th fn : BitVec 32) : List (BitVec 32) :=
  [starter, 3, 2, fn, th, 0, 0, 0, 0, 0, 0, 0, 0, 0, 0, 0, 0, 0, 0, 0, 0, stub, 12, 11, 10, 9, 8, 7, 6, 5, 4]

def buildFrame (base starter : BitVec 32) (m : Mem) (th fn top : BitVec 32) : Mem × BitVec 32 :=
  (frameWords starter (stubOf base) th fn).foldl Mem.pushWord (m, top)

/-- The fields but `stack` and the links. -/
def initDescriptor (m : Mem) (th top : BitVec 32) : Mem :=
  let m := setField m th .bottomOfStack 0
  let m := setField m th .topOfStack top
  let m := setField m th .lastRetaddr 1
  let m := setField m th .gcRegs 0
  let m := setField m th .exceptionPointer 0
  let m := setField m th .localRoots 0
  let m := setField m th .backtracePos 0
  let m := setField m th .backtraceBuffer 0
  setField m th .backtraceLastExn (.ofNat 32 VAL_UNIT)

/-- `th->stack = top`, and the new thread is put behind the current one. -/
def linkDescriptor (m : Mem) (curr th top : BitVec 32) : Mem :=
  let m := setField m th .stack top
  let m := setField m th .next (m.word (curr + Field.next.offset))
  let m := setField m th .prev curr
  let m := setField m (m.word (curr + Field.next.offset)) .prev th
  setField m curr .next th

/-- `caml_thread_create`, from where `malloc` and `stat_alloc` have returned
`th` and `stack` up to the call of `schedule`. -/
def camlThreadCreateMem (base starter : BitVec 32) (m : Mem) (curr th fn stack : BitVec 32) : Mem :=
  let top := stack + .ofNat 32 THREAD_STACK_SIZE
  let m := initDescriptor m th top
  let (m, top) := buildFrame base starter m th fn top
  linkDescriptor m curr th top

/-- The frame at `a` has the registers that `switch_thread` saves. -/
structure Saved (m : Mem) (a : BitVec 32) (r : Reg → BitVec 32) (d : Fin 32 → BitVec 64) : Prop where
  core : m.loadWords a 10 = coreRegs.map r
  double : m.loadWords (a + 40) 16 = halves (doubleRegs.map d)

/-- The memory when `switch_thread` changes the stack. -/
def savedMem (c : Cpu) : Mem :=
  let m := c.mem.storeWords (c.sp - 64) (halves (doubleRegs.map c.d))
  let m := m.storeWords (c.sp - 104) (coreRegs.map c.r)
  m.setWord (c.r .r0) (c.sp - 104)

/-- The processor when it has changed the stack, and after the return. -/
def stored (c : Cpu) : Cpu :=
  [.vpush doubleRegs, .push coreRegs, .str .sp .r0, .mov .sp .r1].foldl Instr.exec c

def resumed (c : Cpu) : Cpu := [.pop coreRegs, .vpop doubleRegs, .bx .lr].foldl Instr.exec c

def switched (c : Cpu) : Cpu := switchThread.foldl Instr.exec c

/-- The `n` bytes at `a` are the same in both memories. -/
def Kept (m m' : Mem) (a n : ℕ) : Prop := ∀ x, a ≤ x → x < a + n → m' x = m x

/-- The stack has room for the frame, and neither that nor the word to which
the stack pointer is saved lies among the `n` bytes at `a`. -/
structure Spares (c : Cpu) (a n : ℕ) : Prop where
  room : SWITCH_FRAME ≤ c.sp.toNat
  frame : a + n ≤ c.sp.toNat - SWITCH_FRAME ∨ c.sp.toNat ≤ a
  slot : a + n ≤ (c.r .r0).toNat ∨ (c.r .r0).toNat + 4 ≤ a

def DESCRIPTOR_SIZE : ℕ := 48

/-- The descriptor `d` lies apart from the new descriptor and from the new stack. -/
structure Clear (th stack d : BitVec 32) : Prop where
  top : d.toNat + DESCRIPTOR_SIZE ≤ 2 ^ 32
  th : d.toNat + DESCRIPTOR_SIZE ≤ th.toNat ∨ th.toNat + DESCRIPTOR_SIZE ≤ d.toNat
  stack : d.toNat + DESCRIPTOR_SIZE ≤ stack.toNat ∨ stack.toNat + THREAD_STACK_SIZE ≤ d.toNat

/-- `malloc` and `stat_alloc` returned two new blocks, `th` and `stack`. -/
structure Blocks (m : Mem) (curr th stack : BitVec 32) : Prop where
  th_top : th.toNat + DESCRIPTOR_SIZE ≤ 2 ^ 32
  stack_top : stack.toNat + THREAD_STACK_SIZE ≤ 2 ^ 32
  apart : th.toNat + DESCRIPTOR_SIZE ≤ stack.toNat ∨ stack.toNat + THREAD_STACK_SIZE ≤ th.toNat
  clear_curr : Clear th stack curr
  clear_next : Clear th stack (m.word (curr + Field.next.offset))

/-- The registers in the frame of a new thread. -/
def freshRegs (stub : BitVec 32) : Reg → BitVec 32
  | .lr => stub
  | i => .ofNat 32 i.ctorIdx

/-- The lowest word of the two frames of a new thread. -/
def frameTop (stack : BitVec 32) : BitVec 32 :=
  stack + .ofNat 32 (THREAD_STACK_SIZE - STARTER_FRAME - SWITCH_FRAME)

/-- From `c`, the processor comes to `starter(th, fn)`, with nothing on the stack. -/
def Starts (base starter : BitVec 32) (c : Cpu) (th fn stack : BitVec 32) : Prop :=
  ∃ c', steps (code base) 9 c = some c' ∧ c'.pc = starter ∧ c'.r .r0 = th ∧ c'.r .r1 = fn ∧
    c'.sp = stack + .ofNat 32 THREAD_STACK_SIZE

/-- From `c'`, the processor returns from the call of `switch_thread` at `c`. -/
def Returns (base : BitVec 32) (c c' : Cpu) : Prop :=
  ∃ c₁, steps (code base) 7 c' = some c₁ ∧ (∀ i ∈ coreRegs, c₁.r i = c.r i) ∧
    (∀ i ∈ doubleRegs, c₁.d i = c.d i) ∧ c₁.sp = c.sp ∧ c₁.pc = c.lr

variable {base starter curr th fn stack : BitVec 32} {m : Mem} {c : Cpu} {x : ℕ}
  {r : Reg → BitVec 32} {d : Fin 32 → BitVec 64}

theorem loaded_switchThread (base : BitVec 32) : Loaded (code base) base switchThread := by
  have h := loaded_program base [] (switchThread ++ starterStub) (by decide)
  rw [length_nil, Nat.mul_zero, BitVec.add_zero] at h
  exact h.left

theorem loaded_starterStub (base : BitVec 32) : Loaded (code base) (stubOf base) starterStub :=
  loaded_program base switchThread starterStub (by decide)

theorem steps_switchThread (hc : c.pc = base) : steps (code base) 7 c = some (switched c) := by
  subst hc
  have hs : ∀ i ∈ switchThread.dropLast, i.Straight := by simp [switchThread, Instr.Straight]
  exact Loaded.steps (loaded_switchThread c.pc) hs

theorem stored_mem (c : Cpu) : (stored c).mem = savedMem c := by
  have hsp : c.sp - 64 - 40 = c.sp - 104 := by bv_omega
  simp [stored, Instr.exec, savedMem, coreRegs, doubleRegs, Cpu.sp] at hsp ⊢
  rw [hsp]

theorem stored_sp (c : Cpu) : (stored c).sp = c.r .r1 := by
  simp [stored, Instr.exec, coreRegs, doubleRegs, Cpu.sp]

theorem switched_eq (c : Cpu) : switched c = resumed (stored c) := by
  have hcode : switchThread = [.vpush doubleRegs, .push coreRegs, .str .sp .r0, .mov .sp .r1] ++
      [.pop coreRegs, .vpop doubleRegs, .bx .lr] := rfl
  rw [switched, hcode, foldl_append]
  rfl

theorem resumed_mem (c : Cpu) : (resumed c).mem = c.mem := rfl

theorem switched_mem (c : Cpu) : (switched c).mem = savedMem c := by
  rw [switched_eq, resumed_mem, stored_mem]

theorem savedMem_word (c : Cpu) : (savedMem c).word (c.r .r0) = c.sp - 104 := Mem.word_setWord _ _ _

theorem sp_toNat (hroom : 104 ≤ c.sp.toNat) :
    (c.sp - 64).toNat = c.sp.toNat - 64 ∧ (c.sp - 104).toNat = c.sp.toNat - 104 := by
  bv_omega

theorem savedMem_of_apart (hroom : SWITCH_FRAME ≤ c.sp.toNat)
    (hx : x < c.sp.toNat - SWITCH_FRAME ∨ c.sp.toNat ≤ x)
    (hslot : x < (c.r .r0).toNat ∨ (c.r .r0).toNat + 4 ≤ x) : savedMem c x = c.mem x := by
  unfold SWITCH_FRAME at hroom hx
  obtain ⟨h₁, h₂⟩ := sp_toNat hroom
  have hlen : (halves (doubleRegs.map c.d)).length = 16 := length_halves _
  have hcore : (coreRegs.map c.r).length = 10 := rfl
  have hlt := c.sp.isLt
  unfold savedMem
  rw [Mem.setWord_of_apart hslot, Mem.storeWords_of_apart (by omega) (by omega),
    Mem.storeWords_of_apart (by omega) (by omega)]

theorem Spares.kept {a n : ℕ} (h : Spares c a n) : Kept c.mem (savedMem c) a n := by
  intro x hx hx'
  have hf := h.frame
  have hs := h.slot
  exact savedMem_of_apart h.room (by omega) (by omega)

theorem saved_savedMem (hroom : SWITCH_FRAME ≤ c.sp.toNat)
    (hslot : (c.r .r0).toNat + 4 ≤ c.sp.toNat - SWITCH_FRAME ∨ c.sp.toNat ≤ (c.r .r0).toNat) :
    Saved (savedMem c) (c.sp - 104) c.r c.d := by
  unfold SWITCH_FRAME at hroom hslot
  obtain ⟨h₁, h₂⟩ := sp_toNat hroom
  have hat : c.sp - 104 + 40 = c.sp - 64 := by bv_omega
  have hlen : (halves (doubleRegs.map c.d)).length = 16 := length_halves _
  have hcore : (coreRegs.map c.r).length = 10 := rfl
  have hlt := c.sp.isLt
  constructor
  · unfold savedMem
    rw [Mem.loadWords_congr (by omega) fun x hx hx' ↦ Mem.setWord_of_apart (by omega)]
    exact Mem.loadWords_storeWords (by omega)
  · unfold savedMem
    rw [hat, Mem.loadWords_congr (by omega) fun x hx hx' ↦ Mem.setWord_of_apart (by omega),
      Mem.loadWords_congr (by omega) fun x hx hx' ↦ Mem.storeWords_of_apart (by omega) (by omega)]
    exact hlen ▸ Mem.loadWords_storeWords (by omega)

theorem Saved.congr {m' : Mem} {a : BitVec 32} (h : Saved m a r d) (ha : a.toNat + SWITCH_FRAME ≤ 2 ^ 32)
    (hm : Kept m m' a.toNat SWITCH_FRAME) : Saved m' a r d := by
  unfold SWITCH_FRAME Kept at *
  have h₁ : (a + 40).toNat = a.toNat + 40 := by bv_omega
  constructor
  · rw [Mem.loadWords_congr (by omega) fun x hx hx' ↦ hm x hx (by omega)]
    exact h.core
  · rw [Mem.loadWords_congr (by omega) fun x hx hx' ↦ hm x (by omega) (by omega)]
    exact h.double

theorem resumed_r {i : Reg} (h : Saved c.mem c.sp r d) (hi : i ∈ coreRegs) : (resumed c).r i = r i := by
  have hne : i ≠ .sp := by
    rintro rfl
    simp [coreRegs] at hi
  have hr : (resumed c).r i = assign c.r coreRegs (c.mem.loadWords c.sp 10) i := by
    change update (update _ _ _) _ _ i = _
    rw [update_of_ne hne, update_of_ne hne]
    rfl
  rw [hr, h.core, assign_map, if_pos hi]

theorem resumed_sp (c : Cpu) : (resumed c).sp = c.sp + 104 := by
  have hsp : c.sp + 40 + 64 = c.sp + 104 := by bv_omega
  simp [resumed, Instr.exec, coreRegs, doubleRegs, Cpu.sp] at hsp ⊢
  rw [hsp]

theorem resumed_d {i : Fin 32} (h : Saved c.mem c.sp r d) (hi : i ∈ doubleRegs) : (resumed c).d i = d i := by
  have hd : (resumed c).d i = assign c.d doubleRegs (doubles (c.mem.loadWords (c.sp + 40) 16)) i := rfl
  rw [hd, h.double, doubles_halves, assign_map, if_pos hi]

theorem resumed_pc (h : Saved c.mem c.sp r d) : (resumed c).pc = r .lr :=
  resumed_r h (by decide)

theorem frameTop_toNat (hs : stack.toNat + THREAD_STACK_SIZE ≤ 2 ^ 32) :
    stack.toNat ≤ (frameTop stack).toNat ∧
      (frameTop stack).toNat + 124 = stack.toNat + THREAD_STACK_SIZE := by
  unfold frameTop THREAD_STACK_SIZE STARTER_FRAME SWITCH_FRAME at *
  bv_omega

theorem buildFrame_spec (base starter : BitVec 32) (m : Mem) (th fn : BitVec 32)
    (hs : stack.toNat + THREAD_STACK_SIZE ≤ 2 ^ 32) :
    ∃ m', buildFrame base starter m th fn (stack + .ofNat 32 THREAD_STACK_SIZE) = (m', frameTop stack) ∧
      Saved m' (frameTop stack) (freshRegs (stubOf base)) (fun _ ↦ 0) ∧
      m'.loadWords (frameTop stack + 104) 5 = [th, fn, 2, 3, starter] ∧
      ∀ x, x < (frameTop stack).toNat ∨ stack.toNat + THREAD_STACK_SIZE ≤ x → m' x = m x := by
  obtain ⟨hlo, hhi⟩ := frameTop_toNat hs
  have htop : frameTop stack + .ofNat 32 (4 * 31) = stack + .ofNat 32 THREAD_STACK_SIZE := by
    unfold frameTop THREAD_STACK_SIZE STARTER_FRAME SWITCH_FRAME at *
    bv_omega
  have hlen : (frameWords starter (stubOf base) th fn).length = 31 := rfl
  obtain ⟨m', hrun, hload, hframe⟩ :=
    Mem.pushWords_spec m (frameTop stack) (frameWords starter (stubOf base) th fn) (by omega)
  rw [hlen, htop] at hrun
  -- the frame for `switch_thread` is below the one for `starter_stub`
  have hsplit : m'.loadWords (frameTop stack) (10 + (16 + 5)) =
      coreRegs.map (freshRegs (stubOf base)) ++ (halves (doubleRegs.map fun _ ↦ 0) ++ [th, fn, 2, 3, starter]) :=
    hload
  have hnext : frameTop stack + 40 + 64 = frameTop stack + 104 := by bv_omega
  rw [Mem.loadWords_add] at hsplit
  obtain ⟨hcore, hrest⟩ := append_inj hsplit (Mem.length_loadWords _ _ _)
  rw [Mem.loadWords_add] at hrest
  obtain ⟨hdouble, hstarter⟩ := append_inj hrest (Mem.length_loadWords _ _ _)
  exact ⟨m', hrun, ⟨hcore, hdouble⟩, hnext ▸ hstarter, fun x hx ↦ hframe x (by omega)⟩

theorem offset_le (f : Field) : f.offset.toNat ≤ 44 := by
  cases f <;> decide

theorem add_next (d : BitVec 32) : d + Field.next.offset = d := BitVec.add_zero d

theorem setField_of_apart {f : Field} {v : BitVec 32} (h : th.toNat + DESCRIPTOR_SIZE ≤ 2 ^ 32)
    (hx : x < th.toNat ∨ th.toNat + DESCRIPTOR_SIZE ≤ x) : setField m th f v x = m x := by
  have hf := offset_le f
  unfold DESCRIPTOR_SIZE at *
  have hat : (th + f.offset).toNat = th.toNat + f.offset.toNat := by bv_omega
  exact Mem.setWord_of_apart (by omega)

theorem initDescriptor_of_apart {top : BitVec 32} (h : th.toNat + DESCRIPTOR_SIZE ≤ 2 ^ 32)
    (hx : x < th.toNat ∨ th.toNat + DESCRIPTOR_SIZE ≤ x) : initDescriptor m th top x = m x := by
  simp only [initDescriptor, setField_of_apart h hx]

/-- What the links and the saved stack pointer are set to, and that nothing
else changes in the memory of the stack. -/
theorem linkDescriptor_spec {n : BitVec 32} (top : BitVec 32) (h : m.word (curr + Field.next.offset) = n)
    (hth : th.toNat + DESCRIPTOR_SIZE ≤ 2 ^ 32)
    (ha : th.toNat + DESCRIPTOR_SIZE ≤ stack.toNat ∨ stack.toNat + THREAD_STACK_SIZE ≤ th.toNat)
    (hcurr : Clear th stack curr) (hnext : Clear th stack n) :
    (linkDescriptor m curr th top).word (th + Field.stack.offset) = top ∧
      Kept m (linkDescriptor m curr th top) stack.toNat THREAD_STACK_SIZE := by
  obtain ⟨hc, hc_th, hc_stack⟩ := hcurr
  obtain ⟨hn, hn_th, hn_stack⟩ := hnext
  obtain ⟨m₃, hm₃⟩ : ∃ m₃, setField m th .stack top = m₃ := ⟨_, rfl⟩
  obtain ⟨m₅, hm₅⟩ : ∃ m₅, setField (setField m₃ th .next n) th .prev curr = m₅ := ⟨_, rfl⟩
  -- the descriptor of the new thread is the only one that has changed so far
  have h₃ : ∀ x, x < th.toNat ∨ th.toNat + DESCRIPTOR_SIZE ≤ x → m₃ x = m x := fun x hx ↦
    hm₃ ▸ setField_of_apart hth hx
  have h₅ : ∀ x, x < th.toNat ∨ th.toNat + DESCRIPTOR_SIZE ≤ x → m₅ x = m x := by
    intro x hx
    rw [← hm₅, setField_of_apart hth hx, setField_of_apart hth hx, h₃ x hx]
  have hlink : ∀ m' : Mem, (∀ x, x < th.toNat ∨ th.toNat + DESCRIPTOR_SIZE ≤ x → m' x = m x) →
      m'.word (curr + Field.next.offset) = n := by
    intro m' hm'
    rw [← h, add_next]
    refine Mem.word_congr fun x hx hx' ↦ hm' x ?_
    unfold DESCRIPTOR_SIZE at *
    omega
  have hrun : linkDescriptor m curr th top = setField (setField m₅ n .prev th) curr .next th := by
    unfold linkDescriptor
    dsimp only
    rw [hm₃, hlink m₃ h₃, hm₅, hlink m₅ h₅]
  rw [hrun]
  constructor
  · have hat : (th + Field.stack.offset).toNat = th.toNat + 44 := by
      have ho : Field.stack.offset = 44 := rfl
      unfold DESCRIPTOR_SIZE at hth
      bv_omega
    have htop : m₃.word (th + Field.stack.offset) = top := hm₃ ▸ Mem.word_setWord _ _ _
    rw [← htop]
    refine Mem.word_congr fun x hx hx' ↦ ?_
    have ho : (th + Field.prev.offset).toNat = th.toNat + 4 := by
      have ho : Field.prev.offset = 4 := rfl
      unfold DESCRIPTOR_SIZE at hth
      bv_omega
    unfold DESCRIPTOR_SIZE at hc_th hn_th
    rw [setField_of_apart hc (by unfold DESCRIPTOR_SIZE; omega),
      setField_of_apart hn (by unfold DESCRIPTOR_SIZE; omega), ← hm₅]
    unfold setField
    rw [Mem.setWord_of_apart (by omega), add_next, Mem.setWord_of_apart (by omega)]
  · intro x hx hx'
    rw [setField_of_apart hc (by omega), setField_of_apart hn (by omega), h₅ x (by omega)]

/-- `th->stack` points to the two frames when `schedule` is called. -/
theorem camlThreadCreateMem_spec (base starter fn : BitVec 32) (h : Blocks m curr th stack) :
    let m' := camlThreadCreateMem base starter m curr th fn stack
    m'.word (th + Field.stack.offset) = frameTop stack ∧
      Saved m' (frameTop stack) (freshRegs (stubOf base)) (fun _ ↦ 0) ∧
      m'.loadWords (frameTop stack + 104) 5 = [th, fn, 2, 3, starter] := by
  obtain ⟨m₂, hbuild, hsaved, hstarter, hframe⟩ := buildFrame_spec base starter
    (initDescriptor m th (stack + .ofNat 32 THREAD_STACK_SIZE)) th fn h.stack_top
  obtain ⟨hlo, hhi⟩ := frameTop_toNat h.stack_top
  have hrun : camlThreadCreateMem base starter m curr th fn stack =
      linkDescriptor m₂ curr th (frameTop stack) := by
    unfold camlThreadCreateMem
    dsimp only
    rw [hbuild]
  have hnext : m₂.word (curr + Field.next.offset) = m.word (curr + Field.next.offset) := by
    obtain ⟨-, hc_th, hc_stack⟩ := h.clear_curr
    rw [add_next]
    refine Mem.word_congr fun x hx hx' ↦ ?_
    have hx₁ : x < stack.toNat ∨ stack.toNat + THREAD_STACK_SIZE ≤ x := by
      unfold DESCRIPTOR_SIZE at hc_stack
      omega
    have hx₂ : x < th.toNat ∨ th.toNat + DESCRIPTOR_SIZE ≤ x := by
      unfold DESCRIPTOR_SIZE at *
      omega
    rw [hframe x (by omega), initDescriptor_of_apart h.th_top hx₂]
  obtain ⟨hstack, hkept⟩ :=
    linkDescriptor_spec (frameTop stack) hnext h.th_top h.apart h.clear_curr h.clear_next
  have hs : (frameTop stack).toNat + SWITCH_FRAME ≤ 2 ^ 32 := by
    have htop := h.stack_top
    unfold SWITCH_FRAME
    omega
  have hnew : (frameTop stack + 104).toNat = (frameTop stack).toNat + 104 := by
    have htop := h.stack_top
    bv_omega
  dsimp only
  rw [hrun]
  refine ⟨hstack, hsaved.congr hs fun x hx hx' ↦ hkept x (by omega) ?_, ?_⟩
  · unfold SWITCH_FRAME at hx'
    omega
  · have htop := h.stack_top
    rw [Mem.loadWords_congr (by omega) fun x hx hx' ↦ hkept x (by omega) (by omega)]
    exact hstarter

theorem steps_starterStub (hc : c.pc = stubOf base) (hl : c.mem.loadWords c.sp 5 = [th, fn, 2, 3, starter]) :
    ∃ c', steps (code base) 2 c = some c' ∧ c'.pc = starter ∧ c'.r .r0 = th ∧ c'.r .r1 = fn ∧
      c'.sp = c.sp + 20 := by
  have hs : ∀ i ∈ starterStub.dropLast, i.Straight := by simp [starterStub, Instr.Straight]
  refine ⟨_, Loaded.steps (hc ▸ loaded_starterStub base) hs, ?_⟩
  have hpop : c.mem.loadWords (c.r .sp) 5 = [th, fn, 2, 3, starter] := hl
  simp [starterStub, Instr.exec, hpop, assign, Cpu.sp]

theorem starts (h : Blocks m curr th stack) (hc : c.pc = base)
    (hr : c.r .r1 = (camlThreadCreateMem base starter m curr th fn stack).word (th + Field.stack.offset))
    (hk : Kept (camlThreadCreateMem base starter m curr th fn stack) c.mem stack.toNat THREAD_STACK_SIZE)
    (hs : Spares c stack.toNat THREAD_STACK_SIZE) : Starts base starter c th fn stack := by
  obtain ⟨htop, hsaved, hstarter⟩ := camlThreadCreateMem_spec base starter fn h
  obtain ⟨hlo, hhi⟩ := frameTop_toNat h.stack_top
  have hsp : (stored c).sp = frameTop stack := by rw [stored_sp, hr, htop]
  have hkept : Kept (camlThreadCreateMem base starter m curr th fn stack) (stored c).mem
      stack.toNat THREAD_STACK_SIZE := fun x hx hx' ↦ by
    rw [stored_mem, hs.kept x hx hx', hk x hx hx']
  have hnew := h.stack_top
  have hframe : Saved (stored c).mem (stored c).sp (freshRegs (stubOf base)) (fun _ ↦ 0) := by
    rw [hsp]
    refine hsaved.congr (by unfold SWITCH_FRAME; omega) fun x hx hx' ↦ hkept x (by omega) ?_
    unfold SWITCH_FRAME at hx'
    omega
  have hat : (frameTop stack + 104).toNat = (frameTop stack).toNat + 104 := by bv_omega
  have hpop : (resumed (stored c)).mem.loadWords (resumed (stored c)).sp 5 = [th, fn, 2, 3, starter] := by
    rw [resumed_sp, hsp, resumed_mem,
      Mem.loadWords_congr (by omega) fun x hx hx' ↦ hkept x (by omega) (by omega), hstarter]
  obtain ⟨c', hrun, hpc, hr0, hr1, hsp'⟩ := steps_starterStub (resumed_pc hframe) hpop
  refine ⟨c', ?_, hpc, hr0, hr1, ?_⟩
  · rw [steps_add (n := 2) (steps_switchThread hc), switched_eq, hrun]
  · rw [hsp', resumed_sp, hsp]
    unfold frameTop THREAD_STACK_SIZE STARTER_FRAME SWITCH_FRAME
    bv_omega

theorem returns {c' : Cpu} (hc' : c'.pc = base) (hroom : SWITCH_FRAME ≤ c.sp.toNat)
    (hslot : (c.r .r0).toNat + 4 ≤ c.sp.toNat - SWITCH_FRAME ∨ c.sp.toNat ≤ (c.r .r0).toNat)
    (hr : c'.r .r1 = (switched c).mem.word (c.r .r0))
    (hk : Kept (switched c).mem c'.mem (c.sp.toNat - SWITCH_FRAME) SWITCH_FRAME)
    (hs : Spares c' (c.sp.toNat - SWITCH_FRAME) SWITCH_FRAME) : Returns base c c' := by
  rw [switched_mem] at hr hk
  have hsp : (stored c').sp = c.sp - 104 := by rw [stored_sp, hr, savedMem_word]
  have hat : (c.sp - 104).toNat = c.sp.toNat - SWITCH_FRAME := by
    unfold SWITCH_FRAME at *
    bv_omega
  have hframe : Saved (stored c').mem (stored c').sp c.r c.d := by
    rw [hsp]
    refine (saved_savedMem hroom hslot).congr ?_ fun x hx hx' ↦ ?_
    · have hlt := c.sp.isLt
      omega
    · rw [stored_mem, hs.kept x (by omega) (by omega), hk x (by omega) (by omega)]
  have hrun := steps_switchThread hc'
  rw [switched_eq] at hrun
  refine ⟨_, hrun, fun i hi ↦ resumed_r hframe hi, fun i hi ↦ resumed_d hframe hi, ?_, resumed_pc hframe⟩
  rw [resumed_sp, hsp]
  bv_omega

/-- The two frames lie in the block of the stack. -/
theorem buildFrame_inside (hs : stack.toNat + THREAD_STACK_SIZE ≤ 2 ^ 32)
    (hx : (buildFrame base starter m th fn (stack + .ofNat 32 THREAD_STACK_SIZE)).1 x ≠ m x) :
    stack.toNat ≤ x ∧ x < stack.toNat + THREAD_STACK_SIZE := by
  obtain ⟨m', hrun, -, -, hframe⟩ := buildFrame_spec base starter m th fn hs
  obtain ⟨hlo, -⟩ := frameTop_toNat hs
  rw [hrun] at hx
  by_contra hout
  exact hx (hframe x (by omega))

/-- The frame that `caml_thread_create` builds is the one that `switch_thread`
and `starter_stub` take from the stack, and so is the one that `switch_thread`
leaves there. -/
theorem frames_agree (base starter : BitVec 32) :
    (∀ m curr th fn stack c, Blocks m curr th stack → c.pc = base →
      c.r .r1 = (camlThreadCreateMem base starter m curr th fn stack).word (th + Field.stack.offset) →
      Kept (camlThreadCreateMem base starter m curr th fn stack) c.mem stack.toNat THREAD_STACK_SIZE →
      Spares c stack.toNat THREAD_STACK_SIZE →
      Starts base starter c th fn stack ∧
        ∀ m x, (buildFrame base starter m th fn (stack + .ofNat 32 THREAD_STACK_SIZE)).1 x ≠ m x →
          stack.toNat ≤ x ∧ x < stack.toNat + THREAD_STACK_SIZE) ∧
    ∀ c, c.pc = base → SWITCH_FRAME ≤ c.sp.toNat →
      ((c.r .r0).toNat + 4 ≤ c.sp.toNat - SWITCH_FRAME ∨ c.sp.toNat ≤ (c.r .r0).toNat) →
      ∃ c₁, steps (code base) 7 c = some c₁ ∧ ∀ c₂, c₂.pc = base → c₂.r .r1 = c₁.mem.word (c.r .r0) →
        Kept c₁.mem c₂.mem (c.sp.toNat - SWITCH_FRAME) SWITCH_FRAME →
        Spares c₂ (c.sp.toNat - SWITCH_FRAME) SWITCH_FRAME → Returns base c c₂ := by
  constructor
  · intro m curr th fn stack c h hc hr hk hs
    exact ⟨starts h hc hr hk hs, fun m x ↦ buildFrame_inside h.stack_top⟩
  · intro c hc hroom hslot
    exact ⟨switched c, steps_switchThread hc, fun c₂ hc₂ hr hk hs ↦ returns hc₂ hroom hslot hr hk hs⟩

/-- The processor at a call of `switch_thread(slot, new)`. -/
def calling (sp slot new : BitVec 32) (m : Mem) : Cpu where
  r
    | .r0 => slot
    | .r1 => new
    | .sp => sp
    | _ => 7
  d _ := 7
  pc := 32768
  mem := m

/-- A thread created in empty memory starts, and the thread that has created
it, with its stack below 16384, is returned to. -/
theorem frames_agree_small : ∃ m s, Starts 32768 36864 (calling 16384 8236 s m) 4096 9 1048576 ∧
    ∃ m', Returns 32768 (calling 16384 8236 s m) (calling 65536 4140 16280 m') := by
  obtain ⟨hstart, hreturn⟩ := frames_agree 32768 36864
  have hb : Blocks (fun _ ↦ 0) 8192 4096 1048576 := by
    refine ⟨?_, ?_, ?_, ⟨?_, ?_, ?_⟩, ⟨?_, ?_, ?_⟩⟩
    all_goals decide
  have hspares : ∀ s m, Spares (calling 16384 8236 s m) 1048576 THREAD_STACK_SIZE := fun s m ↦
    ⟨by change 104 ≤ 16384; decide, .inr (by change 16384 ≤ 1048576; decide),
      .inr (by change 8240 ≤ 1048576; decide)⟩
  have hback : ∀ m, Spares (calling 65536 4140 16280 m) 16280 SWITCH_FRAME := fun m ↦
    ⟨by change 104 ≤ 65536; decide, .inl (by change 16384 ≤ 65432; decide),
      .inr (by change 4144 ≤ 16280; decide)⟩
  obtain ⟨m, hm⟩ : ∃ m, camlThreadCreateMem 32768 36864 (fun _ ↦ 0) 8192 4096 9 1048576 = m := ⟨_, rfl⟩
  obtain ⟨s, hs⟩ : ∃ s, m.word (4096 + Field.stack.offset) = s := ⟨_, rfl⟩
  have hfirst := hstart (fun _ ↦ 0) 8192 4096 9 1048576 (calling 16384 8236 s m) hb rfl
    (by rw [hm, hs]; rfl) (hm ▸ fun _ _ _ ↦ rfl) (hspares s m)
  obtain ⟨c₁, hrun, hret⟩ := hreturn (calling 16384 8236 s m) rfl (by change 104 ≤ 16384; decide)
    (.inl (by change 8240 ≤ 16280; decide))
  have hc₁ : c₁ = switched (calling 16384 8236 s m) :=
    Option.some.inj (hrun.symm.trans (steps_switchThread rfl))
  have hsub : (16384 : BitVec 32) - 104 = 16280 := by decide
  have hsp : c₁.mem.word 8236 = 16280 := by
    rw [hc₁, switched_mem, ← hsub]
    exact savedMem_word (calling 16384 8236 s m)
  exact ⟨m, s, hfirst.1, c₁.mem, hret _ rfl hsp.symm (fun _ _ _ ↦ rfl) (hback c₁.mem)⟩

end OcamlRpi.Thread
