import Mathlib.Data.Set.Basic
import OcamlRpi.Support.Armv6
import OcamlRpi.Support.Interrupts

namespace OcamlRpi.Support

open Function List

variable {ι β : Type*} [DecidableEq ι] {f g : ι → β} {is : List ι} {vs : List β} {i : ι}

theorem assign_congr (h : f i = g i) : assign f is vs i = assign g is vs i := by
  induction is generalizing f g vs with
  | nil => exact h
  | cons j is ih =>
    cases vs with
    | nil => exact h
    | cons v vs =>
      refine ih ?_
      by_cases hi : i = j
      · rw [hi, update_self, update_self]
      · rw [update_of_ne hi, update_of_ne hi, h]

namespace Mem

variable {m m' : Mem} {a : BitVec 32} {ws : List (BitVec 32)} {x n : ℕ}

theorem storeWords_congr (h : m' x = m x) : m'.storeWords a ws x = m.storeWords a ws x := by
  induction ws generalizing m m' a with
  | nil => exact h
  | cons w ws ih =>
    refine ih ?_
    simp only [setWord, store]
    split_ifs <;> first | rfl | exact h

theorem loadWords_congr' (h : ∀ k < n, m'.word (a + .ofNat 32 (4 * k)) = m.word (a + .ofNat 32 (4 * k))) :
    m'.loadWords a n = m.loadWords a n := by
  refine ext_getElem? fun k ↦ ?_
  by_cases hk : k < n
  · rw [getElem?_loadWords _ _ hk, getElem?_loadWords _ _ hk, h k hk]
  · rw [getElem?_eq_none (by rw [length_loadWords]; omega), getElem?_eq_none (by rw [length_loadWords]; omega)]

end Mem

namespace Armv6

open Arm

/-- The exceptions but reset. The kernel is little endian, and its handlers are in
ARM state. -/
inductive Exception where
  | undefined | syscall | prefetchAbort | dataAbort | irq | fiq
deriving DecidableEq

namespace Exception

def mode : Exception → Mode
  | undefined => .und
  | syscall => .svc
  | prefetchAbort | dataAbort => .abt
  | irq => .irq
  | fiq => .fiq

/-- Where the vector is in the table. -/
def vector : Exception → ℕ
  | undefined => 1
  | syscall => 2
  | prefetchAbort => 3
  | dataAbort => 4
  | irq => 6
  | fiq => 7

/-- How far `lr` is from the instruction, which is the next one for an interrupt. -/
def offset (p : Psr) : Exception → BitVec 32
  | undefined | syscall => if p.thumb then 2 else 4
  | dataAbort => 8
  | prefetchAbort | irq | fiq => 4

/-- The interrupts, and aborts that are imprecise, are masked. -/
def masks (e : Exception) (p : Psr) : Psr :=
  { p with
    rest := if e = undefined ∨ e = syscall then p.rest else p.rest ||| 1
    ift := if e = fiq then 0b110 else p.ift &&& 0b010 ||| 0b100 }

end Exception

namespace Cpu

variable (c : Cpu)

def raise (vbar : BitVec 32) (e : Exception) : Cpu :=
  { c with
    r := update c.r (e.mode, .lr) (c.pc + e.offset c.cpsr)
    spsr := update c.spsr e.mode c.cpsr
    cpsr := { e.masks c.cpsr with mode := e.mode }
    pc := addr vbar e.vector }

def Masked : Prop := c.cpsr.ift.getLsbD 2

instance : Decidable c.Masked := inferInstanceAs (Decidable (_ = true))

/-- In the handler of an exception, which interrupts cannot interrupt. -/
def Handling (m : Mode) : Prop := c.cpsr.mode = m ∧ c.Masked

def interrupt (vbar : BitVec 32) : Option Cpu := if c.Masked then none else some (c.raise vbar .irq)

end Cpu

/-- The words that an instruction reads. -/
def Instr.reads (c : Cpu) : Instr → List (BitVec 32)
  | ldr _ n offset => [c.get n + offset]
  | ldmia n is | ldmiaUser n is => (range is.length).map fun k ↦ c.get n + .ofNat 32 (4 * k)
  | ldmiaPc => [c.get .sp]
  | _ => []

def Instr.Avoids (K : Set ℕ) (c : Cpu) (i : Instr) : Prop :=
  ∀ a ∈ i.reads c, ∀ x ∈ K, x < a.toNat ∨ a.toNat + 4 ≤ x

/-- The same outside the memory `K`, up to what an interrupt leaves in its mode. -/
structure Alike (K : Set ℕ) (s t : Cpu) : Prop where
  cpsr : t.cpsr = s.cpsr
  pc : t.pc = s.pc
  cp : t.cp = s.cp
  vfp : t.vfp = s.vfp
  regs : ∀ x, x ≠ (.irq, .lr) → t.r x = s.r x
  spsr : ∀ m, m ≠ .irq → t.spsr m = s.spsr m
  mem : ∀ x, x ∉ K → t.mem x = s.mem x

variable {K : Set ℕ} {s t c : Cpu} {i : Instr} {a v : BitVec 32} {m : Mode} {x y : Reg}

theorem raise_handling (c : Cpu) (a : BitVec 32) (e : Exception) : (c.raise a e).Handling e.mode := by
  refine ⟨rfl, ?_⟩
  change (if e = .fiq then 0b110 else c.cpsr.ift &&& 0b010 ||| 0b100 : BitVec 3).getLsbD 2 = true
  split <;> simp

theorem interrupt_of_handling (hc : c.Handling m) (a : BitVec 32) : c.interrupt a = none := if_pos hc.2

theorem Mode.bank_ne_irq (h : m ≠ .irq) (x : Reg) : m.bank x ≠ .irq := by
  cases m <;> cases x <;> simp_all [Mode.bank]

theorem Alike.key (h : Alike K s t) (x : Reg) : t.key x = s.key x := by rw [Cpu.key, Cpu.key, h.cpsr]

theorem Alike.get (h : Alike K s t) (hm : s.cpsr.mode ≠ .irq) (x : Reg) : t.get x = s.get x := by
  rw [Cpu.get, Cpu.get, h.key]
  refine h.regs _ fun he ↦ Mode.bank_ne_irq hm x ?_
  exact congrArg Prod.fst he

theorem Alike.word (h : Alike K s t) (ha : ∀ x ∈ K, x < a.toNat ∨ a.toNat + 4 ≤ x) : t.mem.word a = s.mem.word a := by
  refine Mem.word_congr fun x hx hx' ↦ h.mem x fun hK ↦ ?_
  have := ha x hK
  omega

theorem Alike.eval (h : Alike K s t) (hm : s.cpsr.mode ≠ .irq) (o : Operand) : o.eval t = o.eval s := by
  cases o with
  | imm v => rfl
  | reg x => exact h.get hm x

theorem Alike.target (h : Alike K s t) (hm : s.cpsr.mode ≠ .irq) (hi : i.Avoids K s) : i.target t = i.target s := by
  cases i with
  | bne a | blo a => rw [Instr.target, Instr.target, h.cpsr, h.pc]
  | blx n | bx n => exact h.get hm n
  | ldmiaPc =>
    rw [Instr.target, Instr.target, h.get hm]
    exact h.word (hi _ (mem_singleton_self _))
  | b a | bl a => rfl
  | _ =>
    rw [Instr.target, Instr.target, h.pc]
    all_goals nofun

theorem Alike.trans {u : Cpu} (h : Alike K s t) (h' : Alike K t u) : Alike K s u where
  cpsr := h'.cpsr.trans h.cpsr
  pc := h'.pc.trans h.pc
  cp := h'.cp.trans h.cp
  vfp := h'.vfp.trans h.vfp
  regs x hx := (h'.regs x hx).trans (h.regs x hx)
  spsr m hm := (h'.spsr m hm).trans (h.spsr m hm)
  mem x hx := (h'.mem x hx).trans (h.mem x hx)

theorem alike_refl (K : Set ℕ) (s : Cpu) : Alike K s s :=
  ⟨rfl, rfl, rfl, rfl, fun _ _ ↦ rfl, fun _ _ ↦ rfl, fun _ _ ↦ rfl⟩

theorem Alike.set (h : Alike K s t) (d : Reg) (v : BitVec 32) : Alike K (s.set d v) (t.set d v) where
  cpsr := h.cpsr
  pc := h.pc
  cp := h.cp
  vfp := h.vfp
  regs x hx := by
    change update t.r (t.key d) v x = update s.r (s.key d) v x
    rw [h.key, update_apply, update_apply, h.regs x hx]
  spsr := h.spsr
  mem := h.mem

theorem Alike.put (h : Alike K s t) (a : BitVec 32) (ws : List (BitVec 32)) : Alike K (s.put a ws) (t.put a ws) where
  cpsr := h.cpsr
  pc := h.pc
  cp := h.cp
  vfp := h.vfp
  regs := h.regs
  spsr := h.spsr
  mem x hx := Mem.storeWords_congr (h.mem x hx)

theorem Alike.assign (h : Alike K s t) (is : List (Mode × Reg)) (ws : List (BitVec 32)) :
    Alike K { s with r := assign s.r is ws } { t with r := assign t.r is ws } where
  cpsr := h.cpsr
  pc := h.pc
  cp := h.cp
  vfp := h.vfp
  regs x hx := assign_congr (h.regs x hx)
  spsr := h.spsr
  mem := h.mem

theorem Alike.setCpsr (h : Alike K s t) (p : Psr) : Alike K { s with cpsr := p } { t with cpsr := p } :=
  ⟨rfl, h.pc, h.cp, h.vfp, h.regs, h.spsr, h.mem⟩

theorem Alike.loadWords (h : Alike K s t) {n : ℕ} (ha : ∀ b ∈ (range n).map fun k ↦ a + .ofNat 32 (4 * k),
    ∀ x ∈ K, x < b.toNat ∨ b.toNat + 4 ≤ x) : t.mem.loadWords a n = s.mem.loadWords a n :=
  Mem.loadWords_congr' fun _ hk ↦ h.word (ha _ (mem_map_of_mem (mem_range.mpr hk)))

theorem Alike.effect (h : Alike K s t) (hm : s.cpsr.mode ≠ .irq) (hi : i.Avoids K s) :
    Alike K (i.effect s) (i.effect t) := by
  have hget := h.get hm
  cases i with
  | alu f d n o => simpa only [Instr.effect, hget, h.eval hm o] using h.set d _
  | subs d n o =>
    simp only [Instr.effect, hget, h.eval hm o, h.cpsr]
    exact (h.set d _).setCpsr _
  | cmp n o =>
    simp only [Instr.effect, hget, h.eval hm o, h.cpsr]
    exact h.setCpsr _
  | ldr d n offset =>
    simp only [Instr.effect, hget, h.word (hi _ (mem_singleton_self _))]
    exact h.set d _
  | str d n offset => simpa only [Instr.effect, hget] using h.put _ _
  | ldmia n is =>
    simp only [Instr.effect, hget, h.loadWords hi, funext h.key]
    exact (h.assign _ _).set n _
  | stmia n is =>
    simp only [Instr.effect, hget, funext hget]
    exact (h.put _ _).set n _
  | stmdb n is =>
    simp only [Instr.effect, hget, funext hget]
    exact (h.put _ _).set n _
  | ldmiaUser n is =>
    simp only [Instr.effect, hget, h.loadWords hi]
    exact h.assign _ _
  | stmdbUser n is =>
    have hu : (fun x ↦ t.r (.usr, x)) = fun x ↦ s.r (.usr, x) := funext fun x ↦ h.regs _ (by simp)
    simp only [Instr.effect, hget, hu]
    exact h.put _ _
  | mrs d => simpa only [Instr.effect, h.cpsr] using h.set d _
  | msr n =>
    simp only [Instr.effect, hget, h.cpsr]
    exact h.setCpsr _
  | mrc n d => simpa only [Instr.effect, h.cp] using h.set d _
  | mcr n d =>
    simp only [Instr.effect, hget, h.cp]
    exact ⟨h.cpsr, h.pc, rfl, h.vfp, h.regs, h.spsr, h.mem⟩
  | bl a | blx n => simpa only [Instr.effect, h.pc] using h.set .lr _
  | b a | bne a | blo a | bx a => exact h
  | ldmiaPc =>
    simp only [Instr.effect, hget, h.cpsr, h.spsr _ hm]
    exact (h.set .sp _).setCpsr _

theorem Alike.exec (h : Alike K s t) (hm : s.cpsr.mode ≠ .irq) (hi : i.Avoids K s) : Alike K (i.exec s) (i.exec t) where
  cpsr := (h.effect hm hi).cpsr
  pc := h.target hm hi
  cp := (h.effect hm hi).cp
  vfp := (h.effect hm hi).vfp
  regs := (h.effect hm hi).regs
  spsr := (h.effect hm hi).spsr
  mem := (h.effect hm hi).mem

end Armv6

end OcamlRpi.Support
