import Mathlib.Tactic.IntervalCases
import OcamlRpi.Boot.Paging

namespace OcamlRpi.Boot

open Support Armv6 Function List
open Arm (Reg)

/-- Symbols of the linker script and C functions that `boot.S` names. -/
structure Symbols where
  fiqStackEnd : BitVec 32
  irqStackEnd : BitVec 32
  svcStackEnd : BitVec 32
  abtStackEnd : BitVec 32
  undStackEnd : BitVec 32
  stackEnd : BitVec 32
  bssStart : BitVec 32
  bssEnd : BitVec 32
  kernelConstructors : BitVec 32
  kernelMain : BitVec 32

/-- Set the stack of a mode, and stay in it. -/
def setStack (m : Mode) (top : BitVec 32) : List Instr :=
  [.mrs .r4,
    .alu .bic .r4 .r4 (.imm 0x1f),
    .alu .orr .r5 .r4 (.imm (m.bits.setWidth 32)),
    .msr .r5,
    load .sp top]

/-- The stacks in the order in which they are set. The kernel goes on in system mode. -/
def stackTops (s : Symbols) : List (Mode × BitVec 32) :=
  [(.fiq, s.fiqStackEnd), (.irq, s.irqStackEnd), (.svc, s.svcStackEnd), (.abt, s.abtStackEnd),
    (.und, s.undStackEnd), (.sys, s.stackEnd)]

def setStacks (ps : List (Mode × BitVec 32)) : List Instr := ps.flatMap fun p ↦ setStack p.1 p.2

def clearBss (a : BitVec 32) (s : Symbols) : List Instr :=
  [load .r4 s.bssStart,
    load .r9 s.bssEnd,
    load .r5 0,
    load .r6 0,
    load .r7 0,
    load .r8 0,
    .stmia .r4 [.r5, .r6, .r7, .r8],
    .cmp .r4 (.reg .r9),
    .blo (addr a 36)]

def enableFpu : List Instr :=
  [load .r5 0,
    .mrc .cpacr .r5,
    .alu .orr .r5 .r5 (.imm 0x300000),
    .alu .orr .r5 .r5 (.imm 0xC00000),
    .mcr .cpacr .r5,
    load .r5 0x40000000,
    .mcr .fpexc .r5]

/-- Pin 16 becomes an output. -/
def okOutput : List Instr :=
  [load .r4 0xE0200000,
    .ldr .r6 .r4 4,
    load .r5 1,
    .alu .lsl .r5 .r5 (.imm 18),
    .alu .orr .r6 .r6 (.reg .r5),
    .str .r6 .r4 4]

/-- Turn the OK LED on at the offset 40, or off at 28. -/
def okLed (offset : BitVec 32) : List Instr :=
  [load .r5 1,
    .alu .lsl .r5 .r5 (.imm 16),
    .str .r5 .r4 offset]

def callKernel (s : Symbols) : List Instr :=
  [.stmdb .sp [.r0, .r1, .r2],
    load .r3 s.kernelConstructors,
    .blx .r3,
    .ldmia .sp [.r0, .r1, .r2],
    load .r3 s.kernelMain,
    .blx .r3]

/-- `boot.S` from `higher_half`, at the address `a`, to `abort`, which it runs into. -/
def startKernel (a : BitVec 32) (s : Symbols) : List Instr :=
  setStacks (stackTops s) ++ clearBss a s ++ enableFpu ++ (okOutput ++ okLed 40) ++ callKernel s ++ (okOutput ++ okLed 28)

variable {s : Symbols} {c c' : Cpu} {code : BitVec 32 → Option Instr} {a v top : BitVec 32} {m : Mode} {n : ℕ} {p : Psr}

theorem ofBits_bits (m : Mode) : Mode.ofBits m.bits = some m := by
  cases m <;> decide

theorem word_ift (p : Psr) : p.word.extractLsb' 5 3 = p.ift := by
  have h : p.word.extractLsb' 5 3 = p.control.extractLsb' 5 3 := BitVec.extractLsb'_append_eq_of_add_le (by decide)
  rw [h]
  exact BitVec.extractLsb'_append_eq_left

theorem withControl_mode (p : Psr) (m : Mode) :
    p.withControl (p.word &&& ~~~0x1f ||| m.bits.setWidth 32) = { p with mode := m } := by
  have hbits : (p.word &&& ~~~0x1f ||| m.bits.setWidth 32).extractLsb' 0 5 = m.bits := by
    refine BitVec.eq_of_getLsbD_eq fun i hi ↦ ?_
    interval_cases i <;> simp
  have hift : (p.word &&& ~~~0x1f ||| m.bits.setWidth 32).extractLsb' 5 3 = p.word.extractLsb' 5 3 := by
    refine BitVec.eq_of_getLsbD_eq fun i hi ↦ ?_
    interval_cases i <;> simp
  rw [Psr.withControl, hbits, hift, word_ift, ofBits_bits]
  rfl

/-- The mode `m` with the stack `top`, and otherwise the registers as before. -/
structure Stacked (m : Mode) (top : BitVec 32) (c c' : Cpu) : Prop where
  cpsr : c'.cpsr = { c.cpsr with mode := m }
  sp : c'.r (m.bank .sp, .sp) = top
  regs : ∀ x, x.2 ∉ [Reg.r4, .r5] → x ≠ (m.bank .sp, .sp) → c'.r x = c.r x
  spsr : c'.spsr = c.spsr
  cp : c'.cp = c.cp
  mem : c'.mem = c.mem
  bus : c'.bus = c.bus

theorem setStack_pass (m : Mode) (top : BitVec 32) (c : Cpu) : Stacked m top c ((setStack m top).foldl Instr.exec c) := by
  obtain ⟨c', hc'⟩ : ∃ c', ((setStack m top).take 4).foldl Instr.exec c = c' := ⟨_, rfl⟩
  have hcpsr : c'.cpsr = { c.cpsr with mode := m } := by
    rw [← withControl_mode c.cpsr m, ← hc']
    rfl
  have hr (x : Mode × Reg) (hx : x.2 ∉ [Reg.r4, .r5]) : c'.r x = c.r x := by
    simp only [mem_cons, not_mem_nil, or_false, not_or] at hx
    rw [← hc', foldl_r (by simp [setStack, Instr.writes, hx])]
  have hlast : (setStack m top).foldl Instr.exec c = (load .sp top).exec c' := hc' ▸ rfl
  have hkey : c'.key .sp = (m.bank .sp, .sp) := by rw [Cpu.key, hcpsr]
  rw [hlast]
  refine ⟨hcpsr, ?_, fun x hx hsp ↦ ?_, hc' ▸ rfl, hc' ▸ rfl, hc' ▸ rfl, hc' ▸ rfl⟩
  · rw [← hkey]
    exact Cpu.get_set_self c' .sp top
  · rw [← hr x hx]
    exact update_of_ne (hkey ▸ hsp) _ _

def spOf (p : Mode × BitVec 32) : Mode × Reg := (p.1.bank .sp, .sp)

/-- The stacks `ps` are set, and the mode is `m`. -/
structure Stacks (ps : List (Mode × BitVec 32)) (m : Mode) (c c' : Cpu) : Prop where
  cpsr : c'.cpsr = { c.cpsr with mode := m }
  sp : ∀ p ∈ ps, c'.r (spOf p) = p.2
  regs : ∀ x, x.2 ∉ [Reg.r4, .r5] → x ∉ ps.map spOf → c'.r x = c.r x
  mem : c'.mem = c.mem

theorem setStacks_pass {ps : List (Mode × BitVec 32)} (hps : (ps.map spOf).Nodup) (c : Cpu) :
    Stacks ps (ps.foldl (fun _ p ↦ p.1) c.cpsr.mode) c ((setStacks ps).foldl Instr.exec c) := by
  induction ps generalizing c with
  | nil => exact ⟨rfl, nofun, fun _ _ _ ↦ rfl, rfl⟩
  | cons p ps ih =>
    rw [map_cons, nodup_cons] at hps
    have h := setStack_pass p.1 p.2 c
    rw [setStacks, flatMap_cons, foldl_append, ← setStacks]
    generalize (setStack p.1 p.2).foldl Instr.exec c = c₁ at h ⊢
    have hm : p.1 = c₁.cpsr.mode := by rw [h.cpsr]
    rw [foldl_cons, hm]
    obtain ⟨hcpsr, hsp, hregs, hmem⟩ := ih hps.2 c₁
    refine ⟨by rw [hcpsr, h.cpsr], fun q hq ↦ ?_, fun x hx hx' ↦ ?_, hmem.trans h.mem⟩
    · obtain rfl | hq := mem_cons.mp hq
      · exact (hregs _ (by simp [spOf]) hps.1).trans h.sp
      · exact hsp q hq
    · rw [map_cons, mem_cons, not_or] at hx'
      exact (hregs x hx hx'.2).trans (h.regs x hx hx'.1)

/-- One pass through the loop that clears the bss, up to its branch. -/
theorem clear_pass (c : Cpu) (hp : c.pc = addr a 36) (h₀ : ∀ x ∈ [Reg.r5, .r6, .r7, .r8], c.get x = 0) :
    let c' := [Instr.stmia .r4 [.r5, .r6, .r7, .r8], .cmp .r4 (.reg .r9)].foldl Instr.exec c
    c'.pc = addr a 38 ∧ Same [.r4] c c' ∧ c'.get .r4 = c.get .r4 + 16 ∧
      c'.mem = c.mem.storeWords (c.get .r4) (replicate 4 0) ∧ c'.cpsr.c = decide (c.get .r9 ≤ c.get .r4 + 16) := by
  have h₀' : [Reg.r5, .r6, .r7, .r8].map c.get = replicate 4 0 := map_eq_replicate_iff.mpr h₀
  refine ⟨foldl_pc (by simp [Instr.Straight]) hp, same_block (by simp [Instr.KeepsMode, Instr.writes]) c, ?_, ?_, ?_⟩
  · simp [Instr.exec, Instr.effect, Cpu.set, Cpu.get, Cpu.key, Cpu.put, Psr.compare]
  · rw [← h₀']
    rfl
  · simp [Instr.exec, Instr.effect, Cpu.set, Cpu.get, Cpu.key, Cpu.put, Psr.compare, Operand.eval]
    rfl

/-- The bss is cleared in pieces of 16 bytes, and at least one of them. -/
theorem bss_loop (hl : Loaded code a (startKernel a s)) (hp : c.pc = addr a 36)
    (h₀ : ∀ x ∈ [Reg.r5, .r6, .r7, .r8], c.get x = 0)
    (hlo : n = 0 ∨ (c.get .r4).toNat + 16 * n < (c.get .r9).toNat)
    (hhi : (c.get .r9).toNat ≤ (c.get .r4).toNat + 16 * (n + 1)) (hlt : (c.get .r4).toNat + 16 * (n + 1) < 2 ^ 32) :
    Leads (step code) (fun c' ↦ c'.pc = addr a 39 ∧ Same [.r4] c c' ∧
      c'.mem = c.mem.storeWords (c.get .r4) (replicate (4 * (n + 1)) 0)) c := by
  have h₁₆ : (c.get .r4 + 16).toNat = (c.get .r4).toNat + 16 := by bv_omega
  induction n generalizing c with
  | zero =>
    obtain ⟨hp', hs, h₄, hm, hc⟩ := clear_pass c hp h₀
    have hle : c.get .r9 ≤ c.get .r4 + 16 := by
      rw [BitVec.le_def, h₁₆]
      exact hhi
    refine hl.block hp rfl (by simp [Instr.Straight]) (hl.blo hp' rfl (.here ?_))
    rw [hc, if_pos (by simpa using hle)]
    exact ⟨rfl, hs.goto _, hm⟩
  | succ n ih =>
    obtain ⟨hp', hs, h₄, hm, hc⟩ := clear_pass c hp h₀
    have hle : ¬c.get .r9 ≤ c.get .r4 + 16 := by
      rw [BitVec.le_def, h₁₆]
      omega
    refine hl.block hp rfl (by simp [Instr.Straight]) (hl.blo hp' rfl ?_)
    rw [hc, if_neg (by simpa using hle)]
    generalize [Instr.stmia .r4 [.r5, .r6, .r7, .r8], .cmp .r4 (.reg .r9)].foldl Instr.exec c = c' at *
    have hreplicate : replicate (4 * (n + 1 + 1)) (0 : BitVec 32) = replicate 4 0 ++ replicate (4 * (n + 1)) 0 := by
      rw [replicate_append_replicate, Nat.mul_succ, Nat.add_comm]
    have hat : (c'.goto (addr a 36)).get .r4 = c.get .r4 + 16 := h₄
    have h₉ : (c'.goto (addr a 36)).get .r9 = c.get .r9 := hs.get (by decide)
    refine (ih rfl (fun x hx ↦ ?_) ?_ ?_ ?_ ?_).mono fun u hu ↦ ⟨hu.1, (hs.goto _).trans hu.2.1, ?_⟩
    · have hx' : x ∉ [Reg.r4] := fun h ↦ by simp_all
      rw [Cpu.get_goto, hs.get hx', h₀ x hx]
    · rw [hat, h₉, h₁₆]
      omega
    · rw [hat, h₉, h₁₆]
      omega
    · rw [hat, h₁₆]
      omega
    · rw [hat]
      bv_omega
    · rw [hu.2.2, hat, hreplicate, Mem.storeWords_append, ← hm]
      rfl

/-- The layout that the linker script gives to the stacks, behind a bss that is
not empty. -/
structure Linked (s : Symbols) : Prop where
  bss : s.bssStart.toNat < s.bssEnd.toNat
  bssStart : s.bssStart.toNat % 4 = 0
  bssEnd : s.bssEnd.toNat % 4096 = 0
  stack : s.stackEnd.toNat = s.bssEnd.toNat + 1024 * 1024
  fiq : s.fiqStackEnd.toNat = s.stackEnd.toNat + 16384
  irq : s.irqStackEnd.toNat = s.fiqStackEnd.toNat + 16384
  svc : s.svcStackEnd.toNat = s.irqStackEnd.toNat + 16384
  abt : s.abtStackEnd.toNat = s.svcStackEnd.toNat + 16384
  und : s.undStackEnd.toNat = s.abtStackEnd.toNat + 16384
  top : s.undStackEnd.toNat ≤ 0xE0000000

/-- What the constructors get: the arguments of the kernel are on the stack, the
bss is zero, and nothing else was written but two registers of the GPIO. -/
structure Cleared (a : BitVec 32) (s : Symbols) (c c' : Cpu) : Prop where
  pc : c'.pc = s.kernelConstructors
  lr : c'.get .lr = addr a 58
  cpsr : c'.cpsr.mode = .sys ∧ c'.cpsr.ift = c.cpsr.ift
  sp : c'.get .sp = s.stackEnd - 12
  tops : ∀ p ∈ (stackTops s).dropLast, c'.r (p.1, .sp) = p.2
  args : c'.mem.loadWords (s.stackEnd - 12) 3 = [c.get .r0, c.get .r1, c.get .r2]
  bss : ∀ x, s.bssStart.toNat ≤ x → x < s.bssEnd.toNat → c'.mem x = 0
  mem : ∀ x, x < s.bssStart.toNat ∨ s.bssEnd.toNat + 12 ≤ x → x < s.stackEnd.toNat - 12 ∨ s.stackEnd.toNat ≤ x →
    x < 0xE0200004 ∨ 0xE0200008 ≤ x → x < 0xE0200028 ∨ 0xE020002C ≤ x → c'.mem x = c.mem x

/-- What the constructors leave alone. -/
structure Constructed (c c' : Cpu) : Prop where
  pc : c'.pc = c.get .lr
  cpsr : c'.cpsr.mode = c.cpsr.mode ∧ c'.cpsr.ift = c.cpsr.ift
  sp : c'.get .sp = c.get .sp
  regs : ∀ x, x.1 ≠ .usr → c'.r x = c.r x
  args : c'.mem.loadWords (c.get .sp) 3 = c.mem.loadWords (c.get .sp) 3

/-- The call of `kernel_main`. -/
structure Ready (a : BitVec 32) (s : Symbols) (c c' : Cpu) : Prop where
  pc : c'.pc = s.kernelMain
  lr : c'.get .lr = addr a 61
  cpsr : c'.cpsr.mode = .sys ∧ c'.cpsr.ift = c.cpsr.ift
  sp : c'.get .sp = s.stackEnd
  tops : ∀ p ∈ (stackTops s).dropLast, c'.r (p.1, .sp) = p.2
  args : ∀ x ∈ [Reg.r0, .r1, .r2], c'.get x = c.get x

/-- The arguments are taken back from the stack. -/
theorem args_pass {v : BitVec 32} {x y z : BitVec 32} (c : Cpu) (hw : c.mem.loadWords (c.get .sp) 3 = [x, y, z]) :
    let c' := [.ldmia .sp [.r0, .r1, .r2], load .r3 v].foldl Instr.exec c
    Same [.r0, .r1, .r2, .r3, .sp] c c' ∧ c'.get .r0 = x ∧ c'.get .r1 = y ∧ c'.get .r2 = z ∧ c'.get .r3 = v ∧
      c'.get .sp = c.get .sp + 12 := by
  rw [Cpu.get, Cpu.key] at hw
  refine ⟨same_block (by simp [load, Instr.KeepsMode, Instr.writes]) c, ?_⟩
  simp [load, Instr.exec, Instr.effect, Cpu.set, Cpu.get, Cpu.key, Operand.eval, Alu.eval, hw, assign]

theorem stackTops_banked {p : Mode × BitVec 32} (hp : p ∈ (stackTops s).dropLast) :
    p.1 ≠ .usr ∧ spOf p = (p.1, .sp) := by
  simp only [stackTops, dropLast_cons_cons, dropLast_singleton, mem_cons, not_mem_nil, or_false] at hp
  obtain rfl | rfl | rfl | rfl | rfl := hp <;> exact ⟨nofun, rfl⟩

theorem kernel_called (hl : Loaded code a (startKernel a s)) (hc : Cleared a s c c') {u : Cpu} (hu : Constructed c' u) :
    Leads (step code) (Ready a s c) u := by
  have hp : u.pc = addr a 58 := hu.pc.trans hc.lr
  have hw : u.mem.loadWords (u.get .sp) 3 = [c.get .r0, c.get .r1, c.get .r2] := by
    rw [hu.sp, hu.args, hc.sp, hc.args]
  have hs : ∀ i ∈ [.ldmia .sp [.r0, .r1, .r2], load .r3 s.kernelMain], i.Straight := by simp [load, Instr.Straight]
  obtain ⟨hsame, h₀, h₁, h₂, h₃, hsp⟩ := args_pass (v := s.kernelMain) u hw
  have hp' := foldl_pc hs hp
  have hm : u.cpsr.mode = .sys := hu.cpsr.1.trans hc.cpsr.1
  have hk : ∀ i ∈ [.ldmia .sp [.r0, .r1, .r2], load .r3 s.kernelMain], i.KeepsMode := by simp [load, Instr.KeepsMode]
  have hother (m : Mode) (hne : m ≠ .usr) := foldl_other (c := u) (z := (m, .sp)) hk (hm ▸ hne.symm) hne
  refine hl.block hp rfl hs (hl.exec hp' rfl (.here ?_))
  generalize [.ldmia .sp [.r0, .r1, .r2], load .r3 s.kernelMain].foldl Instr.exec u = u' at *
  have hget (x : Reg) (hx : x ≠ .lr) : ((Instr.blx .r3).exec u').get x = u'.get x := Cpu.get_set_of_ne hx u' _
  refine ⟨h₃, ?_, ⟨?_, ?_⟩, ?_, fun p hp ↦ ?_, fun x hx ↦ ?_⟩
  · have hlr : u'.pc + 4 = addr a 61 := by
      rw [hp', addr_succ]
      rfl
    exact (Cpu.get_set_self u' .lr _).trans hlr
  · exact hsame.mode.trans (hu.cpsr.1.trans hc.cpsr.1)
  · exact hsame.ift.trans (hu.cpsr.2.trans hc.cpsr.2)
  · rw [hget _ (by decide), hsp, hu.sp, hc.sp]
    bv_omega
  · obtain ⟨hne, -⟩ := stackTops_banked hp
    have hr : ((Instr.blx .r3).exec u').r (p.1, .sp) = u'.r (p.1, .sp) := Cpu.set_r (by simp) u' _
    rw [hr, hother p.1 hne, hu.regs _ hne, hc.tops p hp]
  · simp only [mem_cons, not_mem_nil, or_false] at hx
    obtain rfl | rfl | rfl := hx
    · rw [hget _ (by decide), h₀]
    · rw [hget _ (by decide), h₁]
    · rw [hget _ (by decide), h₂]

/-- `boot.S` behind the loop that clears the bss, up to the call of the constructors. -/
def prepare (s : Symbols) : List Instr :=
  enableFpu ++ okOutput ++ okLed 40 ++ [.stmdb .sp [.r0, .r1, .r2], load .r3 s.kernelConstructors]

theorem prepare_pass (s : Symbols) (c : Cpu) :
    let c' := (prepare s).foldl Instr.exec c
    Same [.r3, .r4, .r5, .r6, .sp] c c' ∧ c'.get .r3 = s.kernelConstructors ∧ c'.get .sp = c.get .sp - 12 ∧
      ∃ v w, c'.mem = ((c.mem.storeWords 0xE0200004 [v]).storeWords 0xE0200028 [w]).storeWords (c.get .sp - 12)
        [c.get .r0, c.get .r1, c.get .r2] := by
  refine ⟨same_block ?_ c, ?_⟩
  · simp [prepare, enableFpu, okOutput, okLed, load, Instr.KeepsMode, Instr.writes]
  · simp [prepare, enableFpu, okOutput, okLed, load, Instr.exec, Instr.effect, Cpu.set, Cpu.get, Cpu.put, Cpu.key,
      Operand.eval, Alu.eval]
    exact ⟨_, _, rfl⟩

/-- The constants of the loop that clears the bss. -/
theorem bss_pass (s : Symbols) (c : Cpu) :
    let c' := ((clearBss a s).take 6).foldl Instr.exec c
    Same [.r4, .r5, .r6, .r7, .r8, .r9] c c' ∧ c'.get .r4 = s.bssStart ∧ c'.get .r9 = s.bssEnd ∧
      (∀ x ∈ [Reg.r5, .r6, .r7, .r8], c'.get x = 0) ∧ c'.mem = c.mem := by
  refine ⟨same_block (by simp [clearBss, load, Instr.KeepsMode, Instr.writes]) c, ?_, ?_, ?_, rfl⟩
  all_goals simp [clearBss, load, Instr.exec, Instr.effect, Cpu.set, Cpu.get, Cpu.key, Operand.eval, Alu.eval]

theorem kernel_constructed (hl : Loaded code a (startKernel a s)) (hs : Linked s) (hp : c.pc = a) :
    Leads (step code) (Cleared a s c) c := by
  have hp₀ : c.pc = addr a 0 := hp.trans (addr_zero a).symm
  have hst₀ : ∀ i ∈ setStacks (stackTops s), i.Straight := by
    simp [setStacks, stackTops, setStack, load, Instr.Straight]
  have hp₁ := foldl_pc hst₀ hp₀
  have hnd : ((stackTops s).map spOf).Nodup := by simp [stackTops, spOf, Mode.bank]
  have h₁ := setStacks_pass hnd c
  refine hl.block hp₀ rfl hst₀ ?_
  generalize (setStacks (stackTops s)).foldl Instr.exec c = c₁ at *
  have hst₁ : ∀ i ∈ (clearBss a s).take 6, i.Straight := by simp [clearBss, load, Instr.Straight]
  have hp₂ := foldl_pc hst₁ hp₁
  obtain ⟨h₂, h₄, h₉, hzero, hm₂⟩ := bss_pass (a := a) s c₁
  refine hl.block hp₁ rfl hst₁ ?_
  generalize ((clearBss a s).take 6).foldl Instr.exec c₁ = c₂ at *
  obtain ⟨hbss, hbssStart, hbssEnd, hstack, hfiq, hirq, hsvc, habt, hund, htop⟩ := hs
  obtain ⟨n, hn, hlo, hhi⟩ : ∃ n, (n = 0 ∨ s.bssStart.toNat + 16 * n < s.bssEnd.toNat) ∧
      s.bssEnd.toNat ≤ s.bssStart.toNat + 16 * (n + 1) ∧ s.bssStart.toNat + 16 * (n + 1) ≤ s.bssEnd.toNat + 12 :=
    ⟨(s.bssEnd.toNat - s.bssStart.toNat - 1) / 16, by omega, by omega, by omega⟩
  refine (bss_loop (n := n) hl hp₂ hzero (by rwa [h₄, h₉]) (by rwa [h₄, h₉]) (by rw [h₄]; omega)).trans fun c₃ hc₃ ↦ ?_
  obtain ⟨hp₃, h₃, hm₃⟩ := hc₃
  have hst₃ : ∀ i ∈ prepare s, i.Straight := by
    simp [prepare, enableFpu, okOutput, okLed, load, Instr.Straight]
  have hp₄ := foldl_pc hst₃ hp₃
  obtain ⟨h₅, hr₃, hsp, v, w, hm₄⟩ := prepare_pass s c₃
  refine hl.block hp₃ rfl hst₃ (hl.exec hp₄ rfl (.here ?_))
  have hk : ∀ i ∈ prepare s, i.KeepsMode := by
    simp [prepare, enableFpu, okOutput, okLed, load, Instr.KeepsMode]
  have hother (m : Mode) (hm : c₃.cpsr.mode.bank .sp ≠ m) (hne : m ≠ .usr) :=
    foldl_other (c := c₃) (z := (m, .sp)) hk hm hne
  generalize (prepare s).foldl Instr.exec c₃ = c₄ at *
  have hget (x : Reg) (hx : x ≠ .lr) : ((Instr.blx .r3).exec c₄).get x = c₄.get x := Cpu.get_set_of_ne hx c₄ _
  have hmode : c₃.cpsr.mode = .sys := by
    rw [h₃.mode, h₂.mode, h₁.cpsr]
    rfl
  have hift : c₃.cpsr.ift = c.cpsr.ift := by rw [h₃.ift, h₂.ift, h₁.cpsr]
  have hsp₃ : c₃.get .sp = s.stackEnd := by
    rw [h₃.get (by decide), h₂.get (by decide), Cpu.get, Cpu.key, h₁.cpsr]
    exact h₁.sp (.sys, s.stackEnd) (by simp [stackTops])
  have hargs (x : Reg) (hx : x ∈ [Reg.r0, .r1, .r2]) : c₃.get x = c.get x := by
    simp only [mem_cons, not_mem_nil, or_false] at hx
    have hx₄ : x ∉ [Reg.r4, .r5, .r6, .r7, .r8, .r9] := by
      obtain rfl | rfl | rfl := hx <;> decide
    have hkey : (c.key x).2 ∉ [Reg.r4, .r5] ∧ (c.key x).2 ≠ .sp ∧ c₁.key x = c.key x := by
      obtain rfl | rfl | rfl := hx <;> exact ⟨by simp [Cpu.key], by simp [Cpu.key], rfl⟩
    rw [h₃.get (fun h ↦ hx₄ (by simp_all)), h₂.get hx₄, Cpu.get, hkey.2.2, h₁.regs _ hkey.1, Cpu.get]
    intro hmem
    obtain ⟨p, -, hp⟩ := mem_map.mp hmem
    exact hkey.2.1 (hp ▸ rfl)
  have h₁₂ : (s.stackEnd - 12).toNat = s.stackEnd.toNat - 12 := by bv_omega
  have hlen : (replicate (4 * (n + 1)) (0 : BitVec 32)).length = 4 * (n + 1) := length_replicate
  rw [hsp₃, hargs .r0 (by decide), hargs .r1 (by decide), hargs .r2 (by decide)] at hm₄
  have hframe (x : ℕ) (hx : x < s.stackEnd.toNat - 12 ∨ s.stackEnd.toNat ≤ x) (hx₁ : x < 0xE0200004 ∨ 0xE0200008 ≤ x)
      (hx₂ : x < 0xE0200028 ∨ 0xE020002C ≤ x) : c₄.mem x = c₃.mem x := by
    rw [hm₄, Mem.storeWords_of_apart (by rw [h₁₂]; simp; omega) (by rw [h₁₂]; simp; omega),
      Mem.storeWords_of_apart (by simp) hx₂, Mem.storeWords_of_apart (by simp) hx₁]
  refine ⟨hr₃, ?_, ⟨?_, ?_⟩, ?_, fun p hp ↦ ?_, ?_, fun x hx hx' ↦ ?_, fun x hx hx' hx₁ hx₂ ↦ ?_⟩
  · have hlr : c₄.pc + 4 = addr a 58 := by
      rw [hp₄, addr_succ]
      rfl
    exact (Cpu.get_set_self c₄ .lr _).trans hlr
  · exact h₅.mode.trans hmode
  · exact h₅.ift.trans hift
  · rw [hget _ (by decide), hsp, hsp₃]
  · obtain ⟨hne, hspOf⟩ := stackTops_banked hp
    have hr : ((Instr.blx .r3).exec c₄).r (p.1, .sp) = c₄.r (p.1, .sp) := Cpu.set_r (by simp) c₄ _
    rw [hr, hother p.1 (by rw [hmode]; exact hne.symm) hne, h₃.regs _ (by simp), h₂.regs _ (by simp), ← hspOf,
      h₁.sp p (mem_of_mem_dropLast hp)]
  · have hload : c₄.mem.loadWords (s.stackEnd - 12) [c.get .r0, c.get .r1, c.get .r2].length = _ :=
      hm₄ ▸ Mem.loadWords_storeWords (by rw [h₁₂]; simp; omega)
    exact hload
  · refine (hframe x (by omega) (by omega) (by omega)).trans ?_
    rw [hm₃, h₄]
    exact Mem.storeWords_zero (by omega) hx (by omega)
  · refine (hframe x hx' hx₁ hx₂).trans ?_
    rw [hm₃, h₄, Mem.storeWords_of_apart (by rw [hlen]; omega) (by rw [hlen]; omega), hm₂, h₁.mem]

/-- The constructors are called, and when they return the kernel is, with the
arguments that the firmware passed. -/
theorem kernel_started (hl : Loaded code a (startKernel a s)) (hs : Linked s) (hp : c.pc = a) :
    Leads (step code) (Cleared a s c) c ∧
      ((∀ u, Cleared a s c u → Leads (step code) (Constructed u) u) → Leads (step code) (Ready a s c) c) := by
  have h := kernel_constructed hl hs hp
  exact ⟨h, fun hc ↦ h.trans fun u hu ↦ (hc u hu).trans fun w hw ↦ kernel_called hl hu hw⟩

/-- A kernel with a page of bss, and with constructors behind `boot.S`. -/
def small : Symbols :=
  ⟨0xC0115000, 0xC0119000, 0xC011D000, 0xC0121000, 0xC0125000, 0xC0111000, 0xC0010000, 0xC0011000, 0xC0008184, 0xC000A000⟩

/-- Its code. The constructors just return. -/
def smallCode : BitVec 32 → Option Instr := program 0xC000806C (startKernel 0xC000806C small ++ [.bx .lr])

theorem small_constructed {u : Cpu} (hl : Loaded smallCode 0xC000806C (startKernel 0xC000806C small ++ [.bx .lr]))
    (hu : Cleared 0xC000806C small c u) : Leads (step smallCode) (Constructed u) u := by
  have hat : small.kernelConstructors = addr 0xC000806C 70 := by decide
  exact hl.exec (hu.pc.trans hat) rfl (.here ⟨rfl, ⟨rfl, rfl⟩, rfl, fun _ _ ↦ rfl, rfl⟩)

theorem kernel_started_small :
    let c := (reset fun _ ↦ 1).goto 0xC000806C
    Leads (step smallCode) (Cleared 0xC000806C small c) c ∧ Leads (step smallCode) (Ready 0xC000806C small c) c := by
  have hcode : Loaded smallCode 0xC000806C (startKernel 0xC000806C small ++ [.bx .lr]) := loaded_program _ (by decide)
  have hl : Loaded smallCode 0xC000806C (startKernel 0xC000806C small) := fun k i hi ↦
    hcode k i ((getElem?_append_left (List.getElem?_eq_some_iff.mp hi).1).trans hi)
  obtain ⟨hcleared, hready⟩ := kernel_started (c := (reset fun _ ↦ 1).goto 0xC000806C) hl
    ⟨by decide, by decide, by decide, rfl, rfl, rfl, rfl, rfl, rfl, by decide⟩ rfl
  exact ⟨hcleared, hready fun u hu ↦ small_constructed hcode hu⟩

end OcamlRpi.Boot
