import OcamlRpi.Support.Arm
import OcamlRpi.Support.Leads

namespace OcamlRpi.Support.Armv6

open Function List Arm

inductive Mode where
  | usr | fiq | irq | svc | abt | und | sys
deriving DecidableEq

def Mode.bits : Mode → BitVec 5
  | usr => 0x10
  | fiq => 0x11
  | irq => 0x12
  | svc => 0x13
  | abt => 0x17
  | und => 0x1b
  | sys => 0x1f

def Mode.ofBits (w : BitVec 5) : Option Mode := [usr, fiq, irq, svc, abt, und, sys].find? (·.bits = w)

/-- The mode whose copy of a register is used. -/
def Mode.bank (m : Mode) : Reg → Mode
  | .sp | .lr => if m = sys then usr else m
  | .r8 | .r9 | .r10 | .r11 | .r12 => if m = fiq then fiq else usr
  | _ => usr

/-- A program status register: the flags, the bits that mask interrupts and
select Thumb, and the mode. -/
structure Psr where
  n : Bool
  z : Bool
  c : Bool
  v : Bool
  rest : BitVec 20
  ift : BitVec 3
  mode : Mode

def Psr.thumb (p : Psr) : Bool := p.ift.getLsbD 0

def Psr.control (p : Psr) : BitVec 8 := p.ift ++ p.mode.bits

def Psr.word (p : Psr) : BitVec 32 :=
  (BitVec.ofBool p.n ++ BitVec.ofBool p.z ++ BitVec.ofBool p.c ++ BitVec.ofBool p.v ++ p.rest) ++ p.control

/-- What is written to the field `_c`. Bits that are no mode are not modelled. -/
def Psr.withControl (p : Psr) (w : BitVec 32) : Psr :=
  { p with ift := w.extractLsb' 5 3, mode := (Mode.ofBits (w.extractLsb' 0 5)).getD p.mode }

def Psr.compare (p : Psr) (a b : BitVec 32) : Psr :=
  { p with n := (a - b).msb, z := a = b, c := b ≤ a, v := a.msb ≠ b.msb ∧ (a - b).msb ≠ a.msb }

inductive CpReg where
  | ttbr0 | ttbr1 | ttbcr | dacr | control | cpacr | fpexc
deriving DecidableEq

/-- The registers of the VFP, which no instruction below touches. -/
structure Vfp where
  s : Fin 32 → BitVec 32
  fpscr : BitVec 32

/-- `bus` has the stores that were made, the latest first. -/
structure Cpu where
  r : Mode × Reg → BitVec 32
  cpsr : Psr
  spsr : Mode → Psr
  pc : BitVec 32
  cp : CpReg → BitVec 32
  vfp : Vfp
  mem : Mem
  bus : List (BitVec 32 × List (BitVec 32))

namespace Cpu

variable (c : Cpu)

def key (i : Reg) : Mode × Reg := (c.cpsr.mode.bank i, i)

def get (i : Reg) : BitVec 32 := c.r (c.key i)

def set (i : Reg) (v : BitVec 32) : Cpu := { c with r := update c.r (c.key i) v }

def goto (a : BitVec 32) : Cpu := { c with pc := a }

def put (a : BitVec 32) (ws : List (BitVec 32)) : Cpu :=
  { c with mem := c.mem.storeWords a ws, bus := (a, ws) :: c.bus }

end Cpu

inductive Operand where
  | imm (v : BitVec 32)
  | reg (i : Reg)

def Operand.eval (c : Cpu) : Operand → BitVec 32
  | imm v => v
  | reg i => c.get i

inductive Alu where
  | mov | add | sub | and | orr | bic | lsl

def Alu.eval (a b : BitVec 32) : Alu → BitVec 32
  | mov => b
  | add => a + b
  | sub => a - b
  | and => a &&& b
  | orr => a ||| b
  | bic => a &&& ~~~b
  | lsl => a <<< b.toNat

/-- `ldmia`, `stmia` and `stmdb` write the base register back, and those with
the suffix `^`, of the user's registers, do not. A constant of the literal pool
is an immediate operand. -/
inductive Instr where
  | alu (f : Alu) (d n : Reg) (o : Operand)
  | subs (d n : Reg) (o : Operand)
  | cmp (n : Reg) (o : Operand)
  | ldr (d n : Reg) (offset : BitVec 32)
  | str (d n : Reg) (offset : BitVec 32)
  | ldmia (n : Reg) (is : List Reg)
  | stmia (n : Reg) (is : List Reg)
  | stmdb (n : Reg) (is : List Reg)
  | ldmiaUser (n : Reg) (is : List Reg)
  | stmdbUser (n : Reg) (is : List Reg)
  | mrs (d : Reg)
  | msr (n : Reg)
  | mrc (n : CpReg) (d : Reg)
  | mcr (n : CpReg) (d : Reg)
  | b (a : BitVec 32)
  | bne (a : BitVec 32)
  | blo (a : BitVec 32)
  | bl (a : BitVec 32)
  | blx (n : Reg)
  | bx (n : Reg)
  | ldmiaPc

namespace Instr

def effect (c : Cpu) : Instr → Cpu
  | alu f d n o => c.set d (f.eval (c.get n) (o.eval c))
  | subs d n o => { c.set d (c.get n - o.eval c) with cpsr := c.cpsr.compare (c.get n) (o.eval c) }
  | cmp n o => { c with cpsr := c.cpsr.compare (c.get n) (o.eval c) }
  | ldr d n offset => c.set d (c.mem.word (c.get n + offset))
  | str d n offset => c.put (c.get n + offset) [c.get d]
  | ldmia n is =>
    let c' := { c with r := assign c.r (is.map c.key) (c.mem.loadWords (c.get n) is.length) }
    c'.set n (c.get n + .ofNat 32 (4 * is.length))
  | stmia n is => (c.put (c.get n) (is.map c.get)).set n (c.get n + .ofNat 32 (4 * is.length))
  | stmdb n is =>
    let a := c.get n - .ofNat 32 (4 * is.length)
    (c.put a (is.map c.get)).set n a
  | ldmiaUser n is =>
    { c with r := assign c.r (is.map fun i ↦ (.usr, i)) (c.mem.loadWords (c.get n) is.length) }
  | stmdbUser n is => c.put (c.get n - .ofNat 32 (4 * is.length)) (is.map fun i ↦ c.r (.usr, i))
  | mrs d => c.set d c.cpsr.word
  | msr n => { c with cpsr := c.cpsr.withControl (c.get n) }
  | mrc n d => c.set d (c.cp n)
  | mcr n d => { c with cp := update c.cp n (c.get d) }
  | bl _ | blx _ => c.set .lr (c.pc + 4)
  | b _ | bne _ | blo _ | bx _ => c
  | ldmiaPc => { c.set .sp (c.get .sp + 4) with cpsr := c.spsr c.cpsr.mode }

def target (c : Cpu) : Instr → BitVec 32
  | b a | bl a => a
  | bne a => if c.cpsr.z then c.pc + 4 else a
  | blo a => if c.cpsr.c then c.pc + 4 else a
  | blx n | bx n => c.get n
  | ldmiaPc => c.mem.word (c.get .sp)
  | _ => c.pc + 4

def exec (c : Cpu) (i : Instr) : Cpu := { i.effect c with pc := i.target c }

/-- The next instruction is the one behind it. -/
def Straight : Instr → Prop
  | b _ | bne _ | blo _ | bl _ | blx _ | bx _ | ldmiaPc => False
  | _ => True

def writes : Instr → List Reg
  | alu _ d _ _ | subs d _ _ | ldr d _ _ | mrs d | mrc _ d => [d]
  | ldmia n is => n :: is
  | stmia n _ | stmdb n _ => [n]
  | ldmiaUser _ is => is
  | bl _ | blx _ => [.lr]
  | ldmiaPc => [.sp]
  | _ => []

/-- Neither the mode nor the interrupt masks change. -/
def KeepsMode : Instr → Prop
  | msr _ | ldmiaPc => False
  | _ => True

end Instr

/-- Only the registers `is` and the flags differ, whatever became of the memory. -/
structure Same (is : List Reg) (c c' : Cpu) : Prop where
  mode : c'.cpsr.mode = c.cpsr.mode
  ift : c'.cpsr.ift = c.cpsr.ift
  regs : ∀ x, x.2 ∉ is → c'.r x = c.r x
  spsr : c'.spsr = c.spsr

def step (code : BitVec 32 → Option Instr) (c : Cpu) : Option Cpu := (code c.pc).map (Instr.exec c)

/-- The address of the `k`-th instruction from `a` on. -/
def addr (a : BitVec 32) (k : ℕ) : BitVec 32 := a + .ofNat 32 (4 * k)

/-- The instructions `is` are at the address `a`. -/
def Loaded (code : BitVec 32 → Option Instr) (a : BitVec 32) (is : List Instr) : Prop :=
  ∀ k i, is[k]? = some i → code (addr a k) = some i

/-- The code that has `is` at the address `a`, and nothing else. -/
def program (a : BitVec 32) (is : List Instr) (b : BitVec 32) : Option Instr :=
  if (b - a).toNat % 4 = 0 then is[(b - a).toNat / 4]? else none

variable {code : BitVec 32 → Option Instr} {a v w : BitVec 32} {c c' c'' : Cpu} {i j : Instr}
  {is pre blk post : List Instr} {xs ys : List Reg} {k : ℕ} {m : Mode} {p : Psr} {x y : Reg} {P Q : Cpu → Prop}

@[simp] theorem Cpu.get_goto (c : Cpu) (a : BitVec 32) (x : Reg) : (c.goto a).get x = c.get x := rfl

@[simp] theorem Cpu.get_set_self (c : Cpu) (x : Reg) (v : BitVec 32) : (c.set x v).get x = v := update_self _ _ _

@[simp] theorem Cpu.get_set_of_ne (h : y ≠ x) (c : Cpu) (v : BitVec 32) : (c.set x v).get y = c.get y :=
  update_of_ne (fun he ↦ h (congrArg Prod.snd he)) _ _

theorem addr_zero (a : BitVec 32) : addr a 0 = a := BitVec.add_zero a

theorem addr_succ (a : BitVec 32) (k : ℕ) : addr a k + 4 = addr a (k + 1) := by
  unfold addr
  bv_omega

theorem addr_add (a : BitVec 32) (k n : ℕ) : addr (addr a k) n = addr a (k + n) := by
  unfold addr
  bv_omega

theorem Instr.Straight.target (h : i.Straight) (c : Cpu) : i.target c = c.pc + 4 := by
  cases i with
  | b | bne | blo | bl | blx | bx | ldmiaPc => exact absurd h id
  | _ => rfl

theorem Instr.Straight.pc (h : i.Straight) (c : Cpu) : (i.exec c).pc = c.pc + 4 := h.target c

theorem loaded_program (a : BitVec 32) (h : 4 * is.length ≤ 2 ^ 32) : Loaded (program a is) a is := by
  intro k i hi
  have hk := (List.getElem?_eq_some_iff.mp hi).1
  have hsub : (addr a k - a).toNat = 4 * k := by
    unfold addr
    bv_omega
  rw [program, hsub, if_pos (Nat.mul_mod_right 4 k), Nat.mul_div_cancel_left k (by decide), hi]

theorem Loaded.exec_through (h : Loaded code a is) (hp : c.pc = addr a k) (hi : is[k]? = some i) (hP : P c)
    (hq : Through P (step code) Q (i.exec c)) : Through P (step code) Q c := by
  refine .step hP ?_ hq
  rw [step, hp, h k i hi]
  rfl

theorem Loaded.exec (h : Loaded code a is) (hp : c.pc = addr a k) (hi : is[k]? = some i)
    (hq : Leads (step code) Q (i.exec c)) : Leads (step code) Q c := h.exec_through hp hi trivial hq

theorem assign_of_notMem {ι β : Type*} [DecidableEq ι] {f : ι → β} {is : List ι} {vs : List β} {i : ι} (h : i ∉ is) :
    assign f is vs i = f i := by
  induction is generalizing f vs with
  | nil => rfl
  | cons j is ih =>
    cases vs with
    | nil => rfl
    | cons v vs => rw [assign, ih (not_mem_of_not_mem_cons h), update_of_ne (ne_of_not_mem_cons h)]

theorem Cpu.set_r {z : Mode × Reg} (h : z.2 ≠ x) (c : Cpu) (v : BitVec 32) : (c.set x v).r z = c.r z :=
  update_of_ne (fun he ↦ h (congrArg Prod.snd he)) _ _

theorem exec_r {z : Mode × Reg} (h : z.2 ∉ i.writes) (c : Cpu) : (i.exec c).r z = c.r z := by
  cases i with
  | alu _ d | subs d | ldr d | mrs d | mrc _ d => exact Cpu.set_r (ne_of_not_mem_cons h) c _
  | bl | blx => exact Cpu.set_r (ne_of_not_mem_cons h) c _
  | ldmiaPc => exact Cpu.set_r (ne_of_not_mem_cons h) c _
  | stmia n js | stmdb n js => exact Cpu.set_r (ne_of_not_mem_cons h) (c.put _ _) _
  | ldmia n js =>
    refine (Cpu.set_r (ne_of_not_mem_cons h) _ _).trans (assign_of_notMem fun he ↦ ?_)
    obtain ⟨y, hy, rfl⟩ := mem_map.mp he
    exact h (mem_cons_of_mem n hy)
  | ldmiaUser n js =>
    refine assign_of_notMem fun he ↦ ?_
    obtain ⟨y, hy, rfl⟩ := mem_map.mp he
    exact h hy
  | _ => rfl

theorem foldl_r {z : Mode × Reg} (h : ∀ i ∈ blk, z.2 ∉ i.writes) (c : Cpu) : (blk.foldl Instr.exec c).r z = c.r z := by
  induction blk generalizing c with
  | nil => rfl
  | cons i blk ih => rw [foldl_cons, ih fun j hj ↦ h j (mem_cons_of_mem i hj), exec_r (h i mem_cons_self)]

theorem Cpu.set_other {z : Mode × Reg} (h : c.cpsr.mode.bank z.2 ≠ z.1) (d : Reg) (v : BitVec 32) :
    (c.set d v).r z = c.r z := by
  refine update_of_ne (fun he ↦ h ?_) _ _
  rw [he]
  rfl

/-- The registers that other modes have of their own are left alone. -/
theorem exec_other {z : Mode × Reg} (h : c.cpsr.mode.bank z.2 ≠ z.1) (hu : z.1 ≠ .usr) (i : Instr) :
    (i.exec c).r z = c.r z := by
  cases i with
  | ldmia n is =>
    refine (Cpu.set_other (c := { c with r := assign c.r _ _ }) h n _).trans (assign_of_notMem fun he ↦ h ?_)
    obtain ⟨y, -, rfl⟩ := mem_map.mp he
    rfl
  | ldmiaUser n is =>
    refine assign_of_notMem fun he ↦ hu ?_
    obtain ⟨y, -, rfl⟩ := mem_map.mp he
    rfl
  | alu f d | subs d | ldr d | mrs d | mrc _ d => exact Cpu.set_other h d _
  | stmia n | stmdb n => exact Cpu.set_other (c := c.put _ _) h n _
  | bl a | blx n => exact Cpu.set_other h .lr _
  | ldmiaPc => exact Cpu.set_other h .sp _
  | _ => rfl

theorem Instr.KeepsMode.same (h : i.KeepsMode) (c : Cpu) : Same i.writes c (i.exec c) := by
  refine ⟨?_, ?_, fun x hx ↦ exec_r hx c, ?_⟩
  all_goals
    cases i with
    | msr | ldmiaPc => exact absurd h id
    | _ => rfl

theorem Same.get (h : Same xs c c') (hx : x ∉ xs) : c'.get x = c.get x := by
  rw [Cpu.get, Cpu.key, h.mode]
  exact h.regs _ hx

theorem Same.mono (h : Same xs c c') (his : xs ⊆ ys) : Same ys c c' where
  mode := h.mode
  ift := h.ift
  regs x hx := h.regs x fun hi ↦ hx (his hi)
  spsr := h.spsr

theorem Same.trans (h : Same xs c c') (h' : Same xs c' c'') : Same xs c c'' where
  mode := h'.mode.trans h.mode
  ift := h'.ift.trans h.ift
  regs x hx := (h'.regs x hx).trans (h.regs x hx)
  spsr := h'.spsr.trans h.spsr

theorem Same.goto (h : Same xs c c') (v : BitVec 32) : Same xs c (c'.goto v) :=
  ⟨h.mode, h.ift, h.regs, h.spsr⟩

theorem same_refl (xs : List Reg) (c : Cpu) : Same xs c c := ⟨rfl, rfl, fun _ _ ↦ rfl, rfl⟩

theorem same_block (h : ∀ i ∈ blk, i.KeepsMode ∧ i.writes ⊆ xs) (c : Cpu) : Same xs c (blk.foldl Instr.exec c) := by
  induction blk generalizing c with
  | nil => exact same_refl xs c
  | cons i blk ih =>
    obtain ⟨hk, hw⟩ := h i mem_cons_self
    exact ((hk.same c).mono hw).trans (ih (fun j hj ↦ h j (mem_cons_of_mem i hj)) (i.exec c))

theorem foldl_other {z : Mode × Reg} (hk : ∀ i ∈ blk, i.KeepsMode) (h : c.cpsr.mode.bank z.2 ≠ z.1) (hu : z.1 ≠ .usr) :
    (blk.foldl Instr.exec c).r z = c.r z := by
  induction blk generalizing c with
  | nil => rfl
  | cons i blk ih =>
    have hm := ((hk i mem_cons_self).same c).mode
    rw [foldl_cons, ih (fun j hj ↦ hk j (mem_cons_of_mem i hj)) (hm ▸ h), exec_other h hu]

theorem Loaded.slice (h : Loaded code a is) (hb : (is.drop k).take blk.length = blk) : Loaded code (addr a k) blk := by
  intro n i hi
  rw [addr_add]
  refine h (k + n) i ?_
  have hn : n < blk.length := (List.getElem?_eq_some_iff.mp hi).1
  rw [← hi, ← getElem?_drop, ← getElem?_take_of_lt hn, hb]

theorem Loaded.bne (h : Loaded code a is) (hp : c.pc = addr a k) (hi : is[k]? = some (.bne v))
    (hq : Leads (step code) Q (c.goto (if c.cpsr.z then addr a (k + 1) else v))) : Leads (step code) Q c := by
  refine h.exec hp hi ?_
  rwa [← addr_succ, ← hp] at hq

theorem Loaded.blo (h : Loaded code a is) (hp : c.pc = addr a k) (hi : is[k]? = some (.blo v))
    (hq : Leads (step code) Q (c.goto (if c.cpsr.c then addr a (k + 1) else v))) : Leads (step code) Q c := by
  refine h.exec hp hi ?_
  rwa [← addr_succ, ← hp] at hq

theorem foldl_pc (hs : ∀ i ∈ blk, i.Straight) (hp : c.pc = addr a k) :
    (blk.foldl Instr.exec c).pc = addr a (k + blk.length) := by
  induction blk generalizing c k with
  | nil => exact hp
  | cons i blk ih =>
    have hpc : (i.exec c).pc = addr a (k + 1) := by
      rw [(hs i mem_cons_self).pc, hp, addr_succ]
    rw [foldl_cons, ih (fun j hj ↦ hs j (mem_cons_of_mem i hj)) hpc, length_cons, Nat.add_right_comm,
      Nat.add_assoc]

/-- The instructions of a straight piece of code are executed one after the other. -/
theorem Loaded.block_through (h : Loaded code a is) (hp : c.pc = addr a k)
    (hb : (is.drop k).take blk.length = blk) (hs : ∀ i ∈ blk, i.Straight) (hP : ∀ i ∈ blk, ∀ c, P c → P (i.exec c))
    (hc : P c) (hq : Through P (step code) Q (blk.foldl Instr.exec c)) : Through P (step code) Q c := by
  induction blk generalizing c k with
  | nil => exact hq
  | cons i blk ih =>
    obtain ⟨hi, hrest⟩ : is[k]? = some i ∧ (is.drop (k + 1)).take blk.length = blk := by
      rw [length_cons] at hb
      cases hd : is.drop k with
      | nil =>
        rw [hd] at hb
        cases hb
      | cons j l =>
        rw [hd, take_succ_cons, cons.injEq] at hb
        have hj := congrArg head? hd
        rw [head?_drop, head?_cons] at hj
        have hl := congrArg tail hd
        rw [tail_drop, tail_cons] at hl
        exact ⟨hb.1 ▸ hj, hl ▸ hb.2⟩
    have hpc : (i.exec c).pc = addr a (k + 1) := by
      rw [(hs i mem_cons_self).pc, hp, addr_succ]
    exact h.exec_through hp hi hc (ih hpc hrest (fun j hj ↦ hs j (mem_cons_of_mem i hj))
      (fun j hj ↦ hP j (mem_cons_of_mem i hj)) (hP i mem_cons_self c hc) hq)

theorem Loaded.block (h : Loaded code a is) (hp : c.pc = addr a k) (hb : (is.drop k).take blk.length = blk)
    (hs : ∀ i ∈ blk, i.Straight) (hq : Leads (step code) Q (blk.foldl Instr.exec c)) : Leads (step code) Q c :=
  h.block_through hp hb hs (fun _ _ _ ↦ id) trivial hq

/-- A loop that ends when the counter `d` gets to zero. `E n` is what `n` passes do. -/
theorem Loaded.countdown (h : Loaded code a is) (hi : is[k]? = some (.bne v)) {d : Reg}
    {E : ℕ → Cpu → Cpu → Prop} (hE : ∀ c, E 0 c c)
    (hbody : ∀ c, c.pc = v → Leads (step code) (fun t ↦ t.pc = addr a k ∧ t.get d = c.get d - 1 ∧
      t.cpsr.z = decide (c.get d = 1) ∧ ∀ w n u, E n (t.goto w) u → E (n + 1) c u) c)
    {n : ℕ} (hn : n + 1 < 2 ^ 32) (hp : c.pc = v) (hd : c.get d = .ofNat 32 (n + 1)) :
    Leads (step code) (fun t ↦ t.pc = addr a (k + 1) ∧ E (n + 1) c t) c := by
  induction n generalizing c with
  | zero =>
    refine (hbody c hp).trans fun t ht ↦ ?_
    obtain ⟨hpt, -, hz, ht⟩ := ht
    refine h.bne hpt hi (.here ?_)
    rw [hz, hd, if_pos (by decide)]
    exact ⟨rfl, ht _ 0 _ (hE _)⟩
  | succ n ih =>
    refine (hbody c hp).trans fun t ht ↦ ?_
    obtain ⟨hpt, hdt, hz, ht⟩ := ht
    have hne : ¬c.get d = 1 := by
      rw [hd]
      bv_omega
    have hd' : (t.goto v).get d = .ofNat 32 (n + 1) := by
      rw [Cpu.get_goto, hdt, hd]
      bv_omega
    refine h.bne hpt hi ?_
    rw [hz, if_neg (by simpa using hne)]
    exact (ih (by omega) rfl hd').mono fun u hu ↦ ⟨hu.1, ht v (n + 1) u hu.2⟩

end OcamlRpi.Support.Armv6
