import OcamlRpi.Support.Exceptions

namespace OcamlRpi.Entry

open Support Armv6 Function List
open Arm (Reg)

/-- `r0` to `r14`. -/
def userRegs : List Reg :=
  [.r0, .r1, .r2, .r3, .r4, .r5, .r6, .r7, .r8, .r9, .r10, .r11, .r12, .sp, .lr]

def save (offset : BitVec 32) : List Instr :=
  [.alu .sub .lr .lr (.imm offset),
    .stmdb .sp [.lr],
    .stmdbUser .sp userRegs,
    .alu .sub .sp .sp (.imm 60),
    .alu .mov .r0 .r0 (.reg .sp)]

def restore : List Instr :=
  [.ldmiaUser .sp userRegs,
    .alu .add .sp .sp (.imm 60),
    .ldmiaPc]

/-- The functions called from `entry.S`. -/
structure Handlers where
  exceptionResetHandler : BitVec 32
  exceptionUndefinedHandler : BitVec 32
  exceptionSyscallHandler : BitVec 32
  exceptionPrefetchAbortHandler : BitVec 32
  exceptionDataAbortHandler : BitVec 32
  exceptionIrqHandler : BitVec 32
  exceptionFiqHandler : BitVec 32
  abort : BitVec 32

/-- The entry of an exception that does not return. -/
def fatal (offset handler abort : BitVec 32) : List Instr := save offset ++ [.bl handler, .b abort]

def exceptionReset (h : Handlers) : List Instr := fatal 4 h.exceptionResetHandler h.abort

def exceptionUndefined (h : Handlers) : List Instr := fatal 4 h.exceptionUndefinedHandler h.abort

def exceptionSyscall (h : Handlers) : List Instr := fatal 0 h.exceptionSyscallHandler h.abort

def exceptionPrefetchAbort (h : Handlers) : List Instr := fatal 4 h.exceptionPrefetchAbortHandler h.abort

def exceptionDataAbort (h : Handlers) : List Instr := fatal 8 h.exceptionDataAbortHandler h.abort

def exceptionReserved (h : Handlers) : List Instr := [.b h.abort]

def exceptionIrq (h : Handlers) : List Instr := save 4 ++ .bl h.exceptionIrqHandler :: restore

def exceptionFiq (h : Handlers) : List Instr := fatal 4 h.exceptionFiqHandler h.abort

/-- The table at the address `t`. The words it loads `pc` from come next, and
then the entries. -/
def exceptionTable (t : BitVec 32) : List Instr := [16, 23, 30, 37, 44, 51, 52, 61].map fun k ↦ .b (addr t k)

def entries (h : Handlers) : List Instr :=
  exceptionReset h ++ exceptionUndefined h ++ exceptionSyscall h ++ exceptionPrefetchAbort h ++
    exceptionDataAbort h ++ exceptionReserved h ++ exceptionIrq h ++ exceptionFiq h

/-- `entry.S` is at the address `t`. -/
structure Text (code : BitVec 32 → Option Instr) (t : BitVec 32) (h : Handlers) : Prop where
  table : Loaded code t (exceptionTable t)
  entries : Loaded code (addr t 16) (entries h)

/-- What `save` leaves on the stack of the exception's mode. -/
structure Saved (v : BitVec 32) (c c' : Cpu) : Prop where
  r0 : c'.get .r0 = c'.get .sp
  sp : c'.get .sp = c.get .sp - 64
  frame : c'.mem.loadWords (c'.get .sp) 16 = userRegs.map (fun i ↦ c.r (.usr, i)) ++ [v]
  mem : ∀ x, x < (c.get .sp).toNat - 64 ∨ (c.get .sp).toNat ≤ x → c'.mem x = c.mem x
  regs : ∀ x, x ∉ [(.usr, .r0), c.key .sp, c.key .lr] → c'.r x = c.r x
  cpsr : c'.cpsr = c.cpsr
  spsr : c'.spsr = c.spsr
  cp : c'.cp = c.cp
  vfp : c'.vfp = c.vfp

variable {c c' : Cpu} {code : BitVec 32 → Option Instr} {t a : BitVec 32} {h : Handlers} {offset : BitVec 32} {m : Mode}

/-- The registers that a mode has of its own. -/
def Banked (c : Cpu) : Prop := c.key .sp = (c.cpsr.mode, .sp) ∧ c.key .lr = (c.cpsr.mode, .lr) ∧ c.cpsr.mode ≠ .usr

theorem save_mem (offset : BitVec 32) (hb : Banked c) : ((save offset).foldl Instr.exec c).mem =
    (c.mem.storeWords (c.get .sp - 4) [c.get .lr - offset]).storeWords (c.get .sp - 64)
      (userRegs.map fun i ↦ c.r (.usr, i)) := by
  obtain ⟨h₁, h₂, h₃⟩ := hb
  have hu (f : Mode × Reg → BitVec 32) (x : Reg) (v : BitVec 32) (i : Reg) :
      update f (c.cpsr.mode, x) v (.usr, i) = f (.usr, i) :=
    update_of_ne (fun he ↦ h₃ (congrArg Prod.fst he).symm) _ _
  have ha : c.r (c.cpsr.mode, .sp) - 4 - .ofNat 32 (4 * userRegs.length) = c.r (c.cpsr.mode, .sp) - 64 := by
    simp [userRegs]
    bv_omega
  simp [save, Instr.exec, Instr.effect, Cpu.set, Cpu.get, Cpu.put, Operand.eval, Alu.eval, Cpu.key] at *
  simp [h₁, h₂, hu, ha]

theorem save_r (offset : BitVec 32) (hb : Banked c) : ((save offset).foldl Instr.exec c).r =
    update (update (update c.r (c.key .lr) (c.get .lr - offset)) (c.key .sp) (c.get .sp - 64)) (.usr, .r0)
      (c.get .sp - 64) := by
  obtain ⟨h₁, h₂, h₃⟩ := hb
  have ha : c.r (c.cpsr.mode, .sp) - 4#32 - 60#32 = c.r (c.cpsr.mode, .sp) - 64#32 := by bv_omega
  simp [save, Instr.exec, Instr.effect, Cpu.set, Cpu.get, Cpu.put, Operand.eval, Alu.eval, Cpu.key] at *
  simp [h₁, h₂]
  rw [ha]
  rfl

theorem save_saved (offset : BitVec 32) (hb : Banked c) (hsp : 64 ≤ (c.get .sp).toNat) :
    Saved (c.get .lr - offset) c ((save offset).foldl Instr.exec c) := by
  have hm := save_mem offset hb
  have hr := save_r offset hb
  obtain ⟨hcpsr, hspsr, hcp, hvfp⟩ : let c' := (save offset).foldl Instr.exec c
      c'.cpsr = c.cpsr ∧ c'.spsr = c.spsr ∧ c'.cp = c.cp ∧ c'.vfp = c.vfp := ⟨rfl, rfl, rfl, rfl⟩
  have hne : c.key .sp ≠ (.usr, .r0) := fun he ↦ by cases congrArg Prod.snd he
  have hget : ((save offset).foldl Instr.exec c).get .sp = c.get .sp - 64 := by
    rw [Cpu.get, Cpu.key, hcpsr, ← Cpu.key, hr, update_of_ne hne, update_self]
  have ha₁ : (c.get .sp - 64).toNat = (c.get .sp).toNat - 64 := by bv_omega
  have ha₂ : (c.get .sp - 4).toNat = (c.get .sp).toNat - 4 := by bv_omega
  have ha₃ : c.get .sp - 64 + .ofNat 32 (4 * 15) = c.get .sp - 4 := by bv_omega
  have hlt := (c.get .sp).isLt
  have hlen : (userRegs.map fun i ↦ c.r (.usr, i)).length = 15 := rfl
  generalize (save offset).foldl Instr.exec c = c' at *
  refine ⟨?_, hget, ?_, fun x hx ↦ ?_, fun x hx ↦ ?_, hcpsr, hspsr, hcp, hvfp⟩
  · rw [hget, Cpu.get, hr]
    exact update_self _ _ _
  · have hwords : (Mem.storeWords _ (c.get .sp - 64) (userRegs.map fun i ↦ c.r (.usr, i))).loadWords _ _ = _ :=
      Mem.loadWords_storeWords (m := c.mem.storeWords (c.get .sp - 4) [c.get .lr - offset]) (by rw [hlen]; omega)
    have hlast : (c'.mem.word (c.get .sp - 4)) = c.get .lr - offset := by
      rw [hm, Mem.word_congr fun x hx hx' ↦ Mem.storeWords_of_apart (by rw [hlen]; omega) (by rw [hlen]; omega)]
      exact Mem.word_setWord _ _ _
    rw [hget, Mem.loadWords_add _ _ 15 1, ha₃, ← hlen, hm, hwords, ← hm, Mem.loadWords, hlast]
    rfl
  · rw [hm, Mem.storeWords_of_apart (by rw [hlen]; omega) (by rw [hlen]; omega),
      Mem.storeWords_of_apart (by rw [length_singleton]; omega) (by rw [length_singleton]; omega)]
  · simp at hx
    rw [hr, update_of_ne hx.1, update_of_ne hx.2.1, update_of_ne hx.2.2]

section

variable (h : Handlers) (e : Exception)

/-- Where the entry of an exception is. -/
def entry : ℕ :=
  match e with
  | .undefined => 23
  | .syscall => 30
  | .prefetchAbort => 37
  | .dataAbort => 44
  | .irq => 52
  | .fiq => 61

def adjusts : BitVec 32 :=
  match e with
  | .syscall => 0
  | .dataAbort => 8
  | _ => 4

def handler : BitVec 32 :=
  match e with
  | .undefined => h.exceptionUndefinedHandler
  | .syscall => h.exceptionSyscallHandler
  | .prefetchAbort => h.exceptionPrefetchAbortHandler
  | .dataAbort => h.exceptionDataAbortHandler
  | .irq => h.exceptionIrqHandler
  | .fiq => h.exceptionFiqHandler

def leaves : List Instr := if e = .irq then restore else [.b h.abort]

/-- The address in the frame: the instruction, or the next one after a syscall. In
Thumb state that of an undefined instruction is wrong by two. -/
def returns (c : Cpu) : BitVec 32 :=
  match e with
  | .undefined => if c.cpsr.thumb then c.pc - 2 else c.pc
  | .syscall => c.pc + if c.cpsr.thumb then 2 else 4
  | _ => c.pc

/-- The words of the frame: the registers of the user's bank, and where they were left. -/
def frameWords (c : Cpu) : List (BitVec 32) := userRegs.map (fun i ↦ c.r (.usr, i)) ++ [returns e c]

/-- The stack of an exception's mode has room for the frame, and is aligned as the
CPU demands. -/
structure HasStack (c : Cpu) : Prop where
  room : 64 ≤ (c.r (e.mode, .sp)).toNat
  aligned : (c.r (e.mode, .sp)).toNat % 4 = 0

end

variable {e : Exception}

theorem exceptionTable_vector (t : BitVec 32) (e : Exception) : (exceptionTable t)[e.vector]? = some (.b (addr t (entry e))) := by
  cases e <;> rfl

theorem Text.entry (hx : Text code t h) (e : Exception) :
    Loaded code (addr t (entry e)) (save (adjusts e) ++ .bl (handler h e) :: leaves h e) := by
  have hs : Loaded code (addr (addr t 16) (Entry.entry e - 16)) (save (adjusts e) ++ .bl (handler h e) :: leaves h e) :=
    hx.entries.slice (by cases e <;> rfl)
  rwa [addr_add, Nat.add_sub_cancel' (by cases e <;> decide)] at hs

/-- The handler of an exception that was raised in the state `c`. -/
structure Entered (h : Handlers) (t : BitVec 32) (e : Exception) (c c' : Cpu) : Prop where
  pc : c'.pc = handler h e
  cpsr : c'.cpsr = { e.masks c.cpsr with mode := e.mode }
  spsr : c'.spsr = update c.spsr e.mode c.cpsr
  lr : c'.get .lr = addr t (Entry.entry e + 6)
  sp : c'.get .sp = c.r (e.mode, .sp) - 64
  r0 : c'.get .r0 = c'.get .sp
  frame : c'.mem.loadWords (c'.get .sp) 16 = frameWords e c
  mem : ∀ x, x < (c.r (e.mode, .sp)).toNat - 64 ∨ (c.r (e.mode, .sp)).toNat ≤ x → c'.mem x = c.mem x
  regs : ∀ x, x ∉ [(.usr, .r0), (e.mode, .sp), (e.mode, .lr)] → c'.r x = c.r x
  cp : c'.cp = c.cp
  vfp : c'.vfp = c.vfp

theorem save_straight (offset : BitVec 32) : ∀ i ∈ save offset, i.Straight := by
  simp [save, Instr.Straight]

theorem save_cpsr (offset : BitVec 32) : ∀ i ∈ save offset, ∀ c, (i.exec c).cpsr = c.cpsr := by
  intro i hi c
  simp only [save, mem_cons, not_mem_nil, or_false] at hi
  obtain rfl | rfl | rfl | rfl | rfl := hi <;> rfl

/-- In the mode of an exception, at its entry. -/
structure Raised (t : BitVec 32) (e : Exception) (c c' : Cpu) : Prop where
  pc : c'.pc = addr t (entry e)
  cpsr : c'.cpsr = { e.masks c.cpsr with mode := e.mode }
  spsr : c'.spsr = update c.spsr e.mode c.cpsr
  regs : c'.r = update c.r (e.mode, .lr) (c.pc + e.offset c.cpsr)
  cp : c'.cp = c.cp
  vfp : c'.vfp = c.vfp
  mem : c'.mem = c.mem

theorem Raised.key (hc : Raised t e c c') : c'.key .sp = (e.mode, .sp) ∧ c'.key .lr = (e.mode, .lr) := by
  rw [Cpu.key, Cpu.key, hc.cpsr]
  cases e <;> exact ⟨rfl, rfl⟩

theorem Raised.banked (hc : Raised t e c c') : Banked c' := by
  refine ⟨?_, ?_, ?_⟩
  · rw [hc.key.1, hc.cpsr]
  · rw [hc.key.2, hc.cpsr]
  · rw [hc.cpsr]
    cases e <;> exact nofun

theorem Raised.sp (hc : Raised t e c c') : c'.get .sp = c.r (e.mode, .sp) := by
  rw [Cpu.get, hc.key.1, hc.regs]
  exact update_of_ne (by simp) _ _

theorem Raised.lr (hc : Raised t e c c') : c'.get .lr = c.pc + e.offset c.cpsr := by
  rw [Cpu.get, hc.key.2, hc.regs, update_self]

theorem return_address (c : Cpu) (e : Exception) : c.pc + e.offset c.cpsr - adjusts e = returns e c := by
  cases e with
  | undefined =>
    simp only [Exception.offset, adjusts, returns]
    split <;> bv_omega
  | syscall => exact BitVec.sub_zero _
  | prefetchAbort | dataAbort | irq | fiq => exact BitVec.add_sub_cancel _ _

theorem entered (hx : Text code t h) (e : Exception) (hsp : 64 ≤ (c.r (e.mode, .sp)).toNat) :
    Through (·.Handling e.mode) (step code) (Entered h t e c) (c.raise t e) := by
  have hl := hx.entry e
  refine hx.table.exec_through rfl (exceptionTable_vector t e) (raise_handling c t e) ?_
  have hc₂ : Raised t e c ((Instr.b (addr t (entry e))).exec (c.raise t e)) := ⟨rfl, rfl, rfl, rfl, rfl, rfl, rfl⟩
  have hm₂ : ((Instr.b (addr t (entry e))).exec (c.raise t e)).Handling e.mode := raise_handling c t e
  generalize (Instr.b (addr t (entry e))).exec (c.raise t e) = c₂ at hc₂ hm₂ ⊢
  have hp₂ : c₂.pc = addr (addr t (entry e)) 0 := hc₂.pc.trans (addr_zero _).symm
  have hs := save_saved (adjusts e) hc₂.banked (hc₂.sp ▸ hsp)
  have hp₃ := foldl_pc (save_straight (adjusts e)) hp₂
  refine hl.block_through hp₂ rfl (save_straight _) (fun i hi c hm ↦ ?_) hm₂ ?_
  · rwa [Cpu.Handling, Cpu.Masked, save_cpsr _ i hi c]
  generalize (save (adjusts e)).foldl Instr.exec c₂ = c₃ at hs hp₃ ⊢
  refine hl.exec_through hp₃ rfl (by rwa [Cpu.Handling, Cpu.Masked, hs.cpsr]) (.here ?_)
  have hne : e.mode ≠ .usr := by cases e <;> decide
  have hret := return_address c e
  have hget (x : Reg) (hx : x ≠ .lr) : ((Instr.bl (handler h e)).exec c₃).get x = c₃.get x :=
    Cpu.get_set_of_ne hx c₃ _
  have hkey : c₃.key .lr = (e.mode, .lr) := by rw [Cpu.key, hs.cpsr, ← Cpu.key, hc₂.key.2]
  refine ⟨rfl, hs.cpsr.trans hc₂.cpsr, hs.spsr.trans hc₂.spsr, ?_, ?_, ?_, ?_, fun x hx ↦ ?_, fun x hx ↦ ?_,
    hs.cp.trans hc₂.cp, hs.vfp.trans hc₂.vfp⟩
  · have hlr : c₃.pc + 4 = addr t (entry e + 6) := by
      rw [hp₃, addr_add, addr_succ]
      rfl
    exact (Cpu.get_set_self c₃ _ _).trans hlr
  · rw [hget _ (by decide), hs.sp, hc₂.sp]
  · rw [hget _ (by decide), hget _ (by decide), hs.r0]
  · have hu (i : Reg) : c₂.r (.usr, i) = c.r (.usr, i) := by
      rw [hc₂.regs]
      exact update_of_ne (fun he ↦ hne (congrArg Prod.fst he).symm) _ _
    rw [hget _ (by decide), frameWords, ← hret, ← hc₂.lr, ← funext hu]
    exact hs.frame
  · rw [← hc₂.mem, ← hs.mem x (by rwa [hc₂.sp])]
    rfl
  · simp only [mem_cons, not_mem_nil, or_false, not_or] at hx
    have hx₂ : x ∉ [(.usr, .r0), c₂.key .sp, c₂.key .lr] := by simpa [hc₂.key] using hx
    have hx₃ : update c₃.r (c₃.key .lr) (c₃.pc + 4) x = c₃.r x := update_of_ne (hkey ▸ hx.2.2) _ _
    exact hx₃.trans ((hs.regs x hx₂).trans (hc₂.regs ▸ update_of_ne hx.2.2 _ _))

/-- FIQ mode has registers of its own in place of `r8` to `r12`, which the frame
does not have. -/
theorem get_user (hm : c.cpsr.mode ≠ .fiq) {i : Reg} (hi : i ≠ .sp ∧ i ≠ .lr) : c.get i = c.r (.usr, i) := by
  have hbank : c.cpsr.mode.bank i = .usr := by
    cases i <;> simp_all [Mode.bank]
  rw [Cpu.get, Cpu.key, hbank]

theorem frameWords_eq (e : Exception) (hm : c.cpsr.mode ≠ .fiq) :
    frameWords e c = (userRegs.take 13).map c.get ++ [c.r (.usr, .sp), c.r (.usr, .lr), returns e c] := by
  have huser : ∀ i ∈ userRegs.take 13, i ≠ .sp ∧ i ≠ .lr := by decide
  rw [map_congr_left fun i hi ↦ get_user hm (huser i hi)]
  rfl

/-- Whatever raises an exception, its handler gets all registers of the program
and the address where it was. -/
theorem exception_frame (hx : Text code t h) (hs : HasStack e c) :
    Leads (step code) (Entered h t e c) (c.raise t e) ∧ (c.cpsr.mode ≠ .fiq →
      frameWords e c = (userRegs.take 13).map c.get ++ [c.r (.usr, .sp), c.r (.usr, .lr), returns e c]) :=
  ⟨(entered hx e hs.room).leads, frameWords_eq e⟩

/-- A handler that counts its calls. -/
def count : List Instr :=
  [.alu .mov .r1 .r1 (.imm 0x2000),
    .ldr .r2 .r1 0,
    .alu .add .r2 .r2 (.imm 1),
    .str .r2 .r1 0]

/-- A program that idles at the address 0, and a handler at the address 4. -/
def idleCode : BitVec 32 → Option Instr := program 0
  (.b 0 :: (count ++ [.bx .lr, .b 0, .b 0]) ++
    (exceptionTable 32 ++ (replicate 8 (.b 0) ++ entries ⟨4, 4, 4, 4, 4, 4, 4, 4⟩)))

def idle : Cpu :=
  let p : Psr := ⟨false, false, false, false, 0, 0, .sys⟩
  ⟨fun _ ↦ 0x1000, p, fun _ ↦ p, 0, fun _ ↦ 0, ⟨fun _ ↦ 0, 0⟩, fun _ ↦ 0, []⟩

theorem idle_text : Text idleCode 32 ⟨4, 4, 4, 4, 4, 4, 4, 4⟩ := by
  have hl : Loaded idleCode 0 _ := loaded_program 0 (by decide)
  exact ⟨hl.slice (k := 8) rfl, hl.slice (k := 24) rfl⟩

theorem exception_frame_small :
    Leads (step idleCode) (Entered ⟨4, 4, 4, 4, 4, 4, 4, 4⟩ 32 .undefined idle) (idle.raise 32 .undefined) ∧
      (Mode.sys ≠ .fiq → frameWords .undefined idle = replicate 13 0x1000 ++ [0x1000, 0x1000, 0]) :=
  @exception_frame idle idleCode 32 _ .undefined idle_text ⟨by decide, by decide⟩

end OcamlRpi.Entry
