import OcamlRpi.Entry.Vectors

namespace OcamlRpi.Entry

open Support Armv6 Function List
open Arm (Reg)

variable {c c' s u : Cpu} {code : BitVec 32 → Option Instr} {t : BitVec 32} {h : Handlers} {K : Set ℕ} {l : List Bool}

/-- What a C function leaves alone that was called with the frame of an
exception on the stack. It may write to the memory `K` and to the registers that
the frame has, but not to those of the VFP. -/
structure Returned (K : Set ℕ) (c c' : Cpu) : Prop where
  pc : c'.pc = c.get .lr
  handling : c'.Handling .irq
  sp : c'.get .sp = c.get .sp
  regs : ∀ x, x.1 ≠ .usr → x ≠ (.irq, .lr) → c'.r x = c.r x
  spsr : c'.spsr = c.spsr
  cp : c'.cp = c.cp
  vfp : c'.vfp = c.vfp
  mem : ∀ x, x ∉ K ∨ (c.get .sp).toNat ≤ x ∧ x < (c.get .sp).toNat + 64 → c'.mem x = c.mem x

/-- Whenever the interrupt handler is called in a run from `c`, it returns. It is
always called with the same stack. -/
def Handles (code : BitVec 32 → Option Instr) (t : BitVec 32) (h : Handlers) (K : Set ℕ) (c : Cpu) : Prop :=
  ∀ l s u, run (interrupted (step code) (Cpu.interrupt · t)) c l = some s → ¬s.Masked →
    s.r (.irq, .sp) = c.r (.irq, .sp) → Entered h t .irq s u →
      Through (·.Handling .irq) (step code) (Returned K u) u

theorem mem_userRegs (x : Reg) : x ∈ userRegs := by
  cases x <;> simp [userRegs]

theorem Entered.spsr_of_ne {m : Mode} (hc : Entered h t .irq c s) (hm : m ≠ .irq) : s.spsr m = c.spsr m := by
  rw [hc.spsr]
  exact update_of_ne hm _ _

theorem Returned.frame (hc : Entered h t .irq c s) (hu : Returned K s u) (hsp : 64 ≤ (c.r (.irq, .sp)).toNat) :
    u.mem.loadWords (u.get .sp) 15 = userRegs.map (fun i ↦ c.r (.usr, i)) ∧ u.mem.word (u.get .sp + 60) = c.pc := by
  have ha : (s.get .sp).toNat = (c.r (.irq, .sp)).toNat - 64 := by
    rw [hc.sp, Exception.mode]
    bv_omega
  have hlt := (c.r (.irq, .sp)).isLt
  have hw : u.mem.loadWords (u.get .sp) (15 + 1) = userRegs.map (fun i ↦ c.r (.usr, i)) ++ [c.pc] := by
    rw [hu.sp, Mem.loadWords_congr (by omega) fun x hx hx' ↦ hu.mem x (.inr ⟨hx, hx'⟩)]
    exact hc.frame
  rw [Mem.loadWords_add] at hw
  obtain ⟨h₁, h₂⟩ := append_inj hw (Mem.length_loadWords _ _ _)
  exact ⟨h₁, (cons.inj h₂).1⟩

theorem bank_irq_sp : (Mode.irq.bank .sp, Reg.sp) = (.irq, .sp) := rfl

section

variable (hu : u.cpsr.mode = .irq)

include hu

theorem get_irq_sp : u.get .sp = u.r (.irq, .sp) := by
  rw [Cpu.get, Cpu.key, hu, bank_irq_sp]

theorem restore_pc : (restore.foldl Instr.exec u).pc = u.mem.word (u.get .sp + 60) := by
  have hsp (ws : List (BitVec 32)) : assign u.r (userRegs.map fun i ↦ (.usr, i)) ws (.irq, .sp) = u.r (.irq, .sp) :=
    assign_of_notMem (by simp)
  rw [get_irq_sp hu]
  simp only [restore, foldl_cons, foldl_nil, Instr.exec, Instr.effect, Instr.target, Cpu.set, Operand.eval, Alu.eval]
  congr 1
  simp only [Cpu.get, Cpu.key, hu, bank_irq_sp, update_self, hsp]

theorem restore_regs (x : Mode × Reg) : (restore.foldl Instr.exec u).r x =
    if x = (.irq, .sp) then u.get .sp + 64
    else assign u.r (userRegs.map fun i ↦ (.usr, i)) (u.mem.loadWords (u.get .sp) 15) x := by
  have hsp (ws : List (BitVec 32)) : assign u.r (userRegs.map fun i ↦ (.usr, i)) ws (.irq, .sp) = u.r (.irq, .sp) :=
    assign_of_notMem (by simp)
  simp only [restore, foldl_cons, foldl_nil, Instr.exec, Instr.effect, Cpu.set, Cpu.get, Cpu.key, Operand.eval,
    Alu.eval, hu, bank_irq_sp, hsp, update_idem, update_apply, if_true]
  congr 1
  bv_omega

end

/-- The CPU when `restore` has returned to the program. -/
theorem restored (hx : Text code t h) (hc : Entered h t .irq c s) (hu : Returned K s u)
    (hsp : 64 ≤ (c.r (.irq, .sp)).toNat)
    (hK : ∀ x, (c.r (.irq, .sp)).toNat - 64 ≤ x → x < (c.r (.irq, .sp)).toNat → x ∈ K) :
    Through (·.Handling .irq) (step code) (Alike K c) u := by
  have hl := hx.entry .irq
  have hp : u.pc = addr (addr t (entry .irq)) 6 := by rw [hu.pc, hc.lr, addr_add]
  obtain ⟨hframe, hret⟩ := hu.frame hc hsp
  have hm := hu.handling.1
  have hsp₆ : ∀ i ∈ restore.take 2, i.Straight := by simp [restore, Instr.Straight]
  have hp₈ := foldl_pc hsp₆ hp
  refine hl.block_through hp rfl hsp₆ (fun i hi c hc ↦ ?_) hu.handling (hl.exec_through hp₈ rfl hu.handling (.here ?_))
  · simp only [restore, take_succ_cons, take_zero, mem_cons, not_mem_nil, or_false] at hi
    obtain rfl | rfl := hi <;> exact hc
  change Alike K c (restore.foldl Instr.exec u)
  have hcpsr : u.spsr u.cpsr.mode = c.cpsr := by
    rw [hm, hu.spsr, hc.spsr]
    exact update_self _ _ _
  have hmem (x : ℕ) (hx : x ∉ K) : u.mem x = c.mem x := by
    rw [hu.mem x (.inl hx)]
    refine hc.mem x ?_
    by_contra hne
    rw [not_or, Nat.not_lt, Nat.not_le] at hne
    exact hx (hK x hne.1 hne.2)
  refine ⟨hcpsr, (restore_pc hm).trans hret, hu.cp.trans hc.cp, hu.vfp.trans hc.vfp, fun x hx ↦ ?_,
    fun m hm' ↦ ?_, hmem⟩
  · rw [restore_regs hm, hframe]
    split
    · next he =>
      rw [he, hu.sp, hc.sp, Exception.mode]
      bv_omega
    · next hne =>
      obtain ⟨m, i⟩ := x
      by_cases hmu : m = .usr
      · have hmem : (m, i) ∈ userRegs.map fun i ↦ (Mode.usr, i) := hmu ▸ mem_map_of_mem (mem_userRegs i)
        have hmap : userRegs.map (fun i ↦ c.r (.usr, i)) = (userRegs.map fun i ↦ (Mode.usr, i)).map c.r := by
          rw [map_map]
          rfl
        rw [hmap, assign_map, if_pos hmem]
      · rw [assign_of_notMem (by simp [Ne.symm hmu]), hu.regs _ hmu hx]
        exact hc.regs _ (by simp_all [Exception.mode])
  · rw [← hc.spsr_of_ne hm']
    exact congrFun hu.spsr m

/-- An interrupt leaves the program as it was. -/
theorem irq_handled (hx : Text code t h)
    (hh : ∀ u, Entered h t .irq c u → Through (·.Handling .irq) (step code) (Returned K u) u)
    (hsp : 64 ≤ (c.r (.irq, .sp)).toNat)
    (hK : ∀ x, (c.r (.irq, .sp)).toNat - 64 ≤ x → x < (c.r (.irq, .sp)).toNat → x ∈ K) :
    Through (·.Handling .irq) (step code) (Alike K c) (c.raise t .irq) := by
  refine (entered hx .irq hsp).trans fun s hs ↦ ?_
  exact (hh s hs).trans fun u hu ↦ restored hx hs hu hsp hK

/-- The steps of a program without interrupts. -/
def undisturbed (code : BitVec 32 → Option Instr) (c : Cpu) (_ : Unit) : Option Cpu := step code c

/-- A program that runs outside IRQ mode and reads nothing of what the handler
writes does the same however often it is interrupted. -/
theorem interrupts_transparent (hx : Text code t h) (hs : HasStack .irq c) (hh : Handles code t h K c)
    (hK : ∀ x, (c.r (.irq, .sp)).toNat - 64 ≤ x → x < (c.r (.irq, .sp)).toNat → x ∈ K)
    (hprog : ∀ p s, run (undisturbed code) c p = some s → s.cpsr.mode ≠ .irq ∧ ∀ i, code s.pc = some i → i.Avoids K s)
    (hr : run (interrupted (step code) (Cpu.interrupt · t)) c l = some u) :
    ∃ p s, run (undisturbed code) c p = some s ∧ p.length ≤ l.length ∧ Leads (step code) (Alike K s) u ∧
      (u.cpsr.mode ≠ .irq → Alike K s u) := by
  let R (s u : Cpu) : Prop := Alike K s u ∧ s.r (.irq, .sp) = c.r (.irq, .sp) ∧ ∃ p, run (undisturbed code) c p = some s
  have hstep (s u u' : Cpu) (hR : R s u) (hu : step code u = some u') : ∃ s', step code s = some s' ∧ R s' u' := by
    obtain ⟨ha, htop, p, hp⟩ := hR
    obtain ⟨hm, havoid⟩ := hprog p s hp
    obtain ⟨i, hi, rfl⟩ := Option.map_eq_some_iff.mp hu
    rw [ha.pc] at hi
    have hs : step code s = some (i.exec s) := by
      rw [step, hi]
      rfl
    have htop' : (i.exec s).r (.irq, .sp) = c.r (.irq, .sp) := (exec_other (Mode.bank_ne_irq hm .sp) (by decide) i).trans htop
    exact ⟨i.exec s, hs, ha.exec hm (havoid i hi), htop', p ++ [()], run_concat.mpr ⟨s, hp, hs⟩⟩
  have htake (k : List Bool) (s u u' : Cpu) (hk : run (interrupted (step code) (Cpu.interrupt · t)) c k = some u)
      (hR : R s u) (hu : u.interrupt t = some u') : Through (·.Handling .irq) (step code) (R s) u' := by
    obtain ⟨ha, htop, hp⟩ := hR
    obtain ⟨hmask, rfl⟩ : ¬u.Masked ∧ u.raise t .irq = u' := by simpa [Cpu.interrupt] using hu
    have hu : u.r (.irq, .sp) = c.r (.irq, .sp) := (ha.regs _ (by simp)).trans htop
    exact (irq_handled hx (fun v hv ↦ hh k u v hk hmask hu hv) (hu ▸ hs.room) (hu ▸ hK)).mono fun v hv ↦
      ⟨ha.trans hv, htop, hp⟩
  obtain ⟨p, s, hp, hlen, hthrough⟩ := interrupted_run hstep htake (fun u hu ↦ interrupt_of_handling hu t)
    ⟨alike_refl K c, rfl, [], rfl⟩ hr
  refine ⟨p, s, hp, hlen, hthrough.leads.mono fun _ h ↦ h.1, fun hm ↦ ?_⟩
  exact (hthrough.done fun h ↦ hm h.1).1

/-- What `count` and the entry of the interrupt write. -/
def idleWrites : Set ℕ := {x | 0xFC0 ≤ x ∧ x < 0x1000 ∨ 0x2000 ≤ x ∧ x < 0x2004}

theorem count_mem (c : Cpu) : (count.foldl Instr.exec c).mem = c.mem.storeWords 0x2000 [c.mem.word 0x2000 + 1] := by
  simp [count, Instr.exec, Instr.effect, Cpu.set, Cpu.get, Cpu.put, Cpu.key, Operand.eval, Alu.eval]

/-- The handler that counts its calls writes to the same word always. -/
theorem count_returned (hm : c.Handling .irq) (hsp : c.get .sp = 0xFC0) :
    Returned idleWrites c ((Instr.bx .lr).exec (count.foldl Instr.exec c)) := by
  have hmem := count_mem c
  have hk : ∀ i ∈ count, i.KeepsMode := by simp [count, Instr.KeepsMode]
  have hs : Same [.r1, .r2] c (count.foldl Instr.exec c) :=
    same_block (by simp [count, Instr.KeepsMode, Instr.writes]) c
  have hother (x : Mode × Reg) (hx : x.1 ≠ .usr) : (count.foldl Instr.exec c).r x = c.r x := by
    by_cases h : x.2 ∈ [Reg.r1, .r2]
    · refine foldl_other hk (fun he ↦ hx ?_) hx
      simp only [mem_cons, not_mem_nil, or_false] at h
      obtain h | h := h <;> exact he.symm.trans (by rw [h]; rfl)
    · exact hs.regs x h
  obtain ⟨hcp, hvfp, hcpsr⟩ : let c' := count.foldl Instr.exec c
      c'.cp = c.cp ∧ c'.vfp = c.vfp ∧ c'.cpsr = c.cpsr := ⟨rfl, rfl, rfl⟩
  generalize count.foldl Instr.exec c = c' at *
  refine ⟨hs.get (by decide), ?_, hs.get (by decide), fun x hx _ ↦ hother x hx, hs.spsr, hcp, hvfp, fun x hx ↦ ?_⟩
  · change c'.Handling .irq
    rwa [Cpu.Handling, Cpu.Masked, hcpsr]
  · refine (congrFun hmem x).trans (Mem.storeWords_of_apart (by simp) ?_)
    rw [hsp] at hx
    simp [idleWrites] at hx ⊢
    omega

theorem idle_handles : Handles idleCode 32 ⟨4, 4, 4, 4, 4, 4, 4, 4⟩ idleWrites idle := by
  intro l s u _ _ hsp hu
  have hl : Loaded idleCode 0 _ := loaded_program 0 (by decide)
  have hm : u.Handling .irq := by
    rw [Cpu.Handling, Cpu.Masked, hu.cpsr]
    exact raise_handling s 32 .irq
  have htop : u.get .sp = 0xFC0 := by
    rw [hu.sp, Exception.mode, hsp]
    rfl
  have hst : ∀ i ∈ count, i.Straight := by simp [count, Instr.Straight]
  have hp₁ : u.pc = addr 0 1 := hu.pc
  have hp := foldl_pc hst hp₁
  refine hl.block_through hp₁ rfl hst (fun i hi c hc ↦ ?_) hm ?_
  · simp only [count, mem_cons, not_mem_nil, or_false] at hi
    obtain rfl | rfl | rfl | rfl := hi <;> exact hc
  · exact hl.exec_through hp rfl hm (.here (count_returned hm htop))

theorem idle_program {p : List Unit} (hs : run (undisturbed idleCode) idle p = some s) :
    s.cpsr.mode ≠ .irq ∧ ∀ i, idleCode s.pc = some i → i.Avoids idleWrites s := by
  obtain ⟨hp, hm⟩ : s.pc = 0 ∧ s.cpsr.mode = .sys := by
    refine run_invariant (P := fun s ↦ s.pc = 0 ∧ s.cpsr.mode = .sys) ⟨rfl, rfl⟩ (fun t _ u ht hu ↦ ?_) hs
    have hu' : (Instr.b 0).exec t = u := by
      rw [undisturbed, step, ht.1] at hu
      exact Option.some.inj hu
    exact hu' ▸ ⟨rfl, ht.2⟩
  refine ⟨by rw [hm]; decide, fun i hi a ha ↦ ?_⟩
  rw [hp] at hi
  obtain rfl : Instr.b 0 = i := Option.some.inj hi
  cases ha

/-- One interrupt, which is handled and counted. -/
theorem interrupts_transparent_small :
    ∃ u p s, run (interrupted (step idleCode) (Cpu.interrupt · 32)) idle (false :: true :: replicate 17 false) = some u ∧
      u.mem.word 0x2000 = 1 ∧ run (undisturbed idleCode) idle p = some s ∧ p.length ≤ 19 ∧ Alike idleWrites s u := by
  obtain ⟨u, hu⟩ : ∃ u, run (interrupted (step idleCode) (Cpu.interrupt · 32)) idle
      (false :: true :: replicate 17 false) = some u := ⟨_, rfl⟩
  have hcount : (run (interrupted (step idleCode) (Cpu.interrupt · 32)) idle (false :: true :: replicate 17 false)).map
      (fun u ↦ (u.mem.word 0x2000, u.cpsr.mode)) = some (1, .sys) := by decide
  rw [hu, Option.map_some, Option.some.injEq, Prod.mk.injEq] at hcount
  obtain ⟨p, s, hp, hlen, -, hdone⟩ := interrupts_transparent idle_text ⟨by decide, by decide⟩ idle_handles
    (fun x hx hx' ↦ .inl ⟨hx, hx'⟩) (fun p s hs ↦ idle_program hs) hu
  exact ⟨u, p, s, hu, hcount.1, hp, hlen, hdone (by rw [hcount.2]; decide)⟩

end OcamlRpi.Entry
