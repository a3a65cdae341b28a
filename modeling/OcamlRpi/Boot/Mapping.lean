import OcamlRpi.Support.Armv6

namespace OcamlRpi.Boot

open Support Armv6 Function List
open Arm (Reg)

def PHYS_TO_VIRT : BitVec 32 := 0xC0000000

/-- An entry of `memory_regions`. -/
structure MemoryRegion where
  start : BitVec 32
  incr : BitVec 32
  count : BitVec 32

def memoryRegions : List MemoryRegion :=
  [⟨0x0004140E, 0x01000000, 16⟩,
    ⟨0x00000000, 0x00000000, 176⟩,
    ⟨0x0004140E, 0x01000000, 16⟩,
    ⟨0x1004040A, 0x01000000, 16⟩,
    ⟨0x20040402, 0x01000000, 32⟩]

def regionWords : List MemoryRegion → List (BitVec 32)
  | [] => []
  | g :: gs => g.start :: g.incr :: g.count :: regionWords gs

/-- `mov` of an immediate, or `ldr` of a constant. -/
def load (d : Reg) (v : BitVec 32) : Instr := .alu .mov d d (.imm v)

def enableMmu : List Instr :=
  [load .r3 0x4000,
    .mcr .ttbr0 .r3,
    .mcr .ttbr1 .r3,
    load .r4 2,
    .mcr .ttbcr .r4,
    load .r4 0x55555555,
    .mcr .dacr .r4,
    load .r5 0xCF7FCBF8,
    load .r6 0x00801807,
    .mrc .control .r4,
    .alu .and .r4 .r4 (.reg .r5),
    .alu .orr .r4 .r4 (.reg .r6),
    .mcr .control .r4]

/-- `boot.S` from `Start`, at the address `a`, to the jump to `higher_half`.
`memory_regions` is at the address `regions` as long as the MMU is off. -/
def mapKernel (a regions higherHalf : BitVec 32) : List Instr :=
  [load .r3 0x4000,
    load .r4 regions,
    load .r5 5,
    -- .L1, loop over the regions
    .ldmia .r4 [.r6, .r7, .r8],
    -- .L2, loop over the count
    load .r9 16,
    -- .L3, loop over the 16 copies
    .stmia .r3 [.r6],
    .subs .r9 .r9 (.imm 1),
    .bne (addr a 5),
    .alu .add .r6 .r6 (.reg .r7),
    .subs .r8 .r8 (.imm 1),
    .bne (addr a 4),
    .subs .r5 .r5 (.imm 1),
    .bne (addr a 3)] ++ enableMmu ++ [.b higherHalf]

/-- `n` entries, each 16 times. -/
def sections (v incr : BitVec 32) : ℕ → List (BitVec 32)
  | 0 => []
  | n + 1 => replicate 16 v ++ sections (v + incr) incr n

def pageTable (gs : List MemoryRegion) : List (BitVec 32) := gs.flatMap fun g ↦ sections g.start g.incr g.count.toNat

/-- The words `ws` were stored at `r3`. -/
structure Filled (is : List Reg) (ws : List (BitVec 32)) (c c' : Cpu) : Prop extends Same is c c' where
  dst : c'.get .r3 = c.get .r3 + .ofNat 32 (4 * ws.length)
  mem : c'.mem = c.mem.storeWords (c.get .r3) ws

variable {is js : List Reg} {ws vs : List (BitVec 32)} {c c' c'' : Cpu} {x : Reg} {a regions higherHalf : BitVec 32}
  {code : BitVec 32 → Option Instr} {n : ℕ} {gs : List MemoryRegion}

theorem Filled.mono (h : Filled is ws c c') (his : is ⊆ js) : Filled js ws c c' :=
  ⟨h.toSame.mono his, h.dst, h.mem⟩

theorem Filled.trans (h : Filled is ws c c') (h' : Filled is vs c' c'') : Filled is (ws ++ vs) c c'' where
  toSame := h.toSame.trans h'.toSame
  dst := by
    rw [h'.dst, h.dst, length_append]
    bv_omega
  mem := by rw [h'.mem, h.mem, h.dst, Mem.storeWords_append]

theorem Filled.goto (h : Filled is ws c c') (v : BitVec 32) : Filled is ws c (c'.goto v) :=
  ⟨h.toSame.goto v, h.dst, h.mem⟩

theorem filled_nil (h : Same is c c') (h₃ : .r3 ∉ is) (hm : c'.mem = c.mem) : Filled is [] c c' := by
  refine ⟨h, ?_, hm⟩
  rw [h.get h₃]
  exact (BitVec.add_zero _).symm

/-- One pass through `.L3`, up to its branch. -/
theorem copy_pass (c : Cpu) (hp : c.pc = addr a 5) :
    let c' := [.stmia .r3 [.r6], .subs .r9 .r9 (.imm 1)].foldl Instr.exec c
    c'.pc = addr a 7 ∧ Filled [.r3, .r9] [c.get .r6] c c' ∧ c'.get .r9 = c.get .r9 - 1 ∧
      c'.cpsr.z = decide (c.get .r9 = 1) := by
  refine ⟨foldl_pc (by simp [Instr.Straight]) hp, ⟨same_block (by simp [Instr.KeepsMode, Instr.writes]) c, ?_, rfl⟩,
    ?_, ?_⟩
  · simp [Instr.exec, Instr.effect, Cpu.set, Cpu.get, Cpu.key, Cpu.put, Psr.compare]
  · simp [Instr.exec, Instr.effect, Cpu.set, Cpu.get, Cpu.key, Cpu.put, Psr.compare, Operand.eval]
  · simp [Instr.exec, Instr.effect, Cpu.set, Cpu.get, Cpu.key, Cpu.put, Psr.compare, Operand.eval]
    rfl

/-- `.L3` stores an entry as often as `r9` says. -/
theorem copies (hl : Loaded code a (mapKernel a regions higherHalf)) (hn : n + 1 < 2 ^ 32)
    (hp : c.pc = addr a 5) (h₉ : c.get .r9 = .ofNat 32 (n + 1)) :
    Leads (step code) (fun c' ↦ c'.pc = addr a 8 ∧ Filled [.r3, .r9] (replicate (n + 1) (c.get .r6)) c c') c := by
  refine hl.countdown (k := 7) rfl (E := fun n c c' ↦ Filled [.r3, .r9] (replicate n (c.get .r6)) c c')
    (fun c ↦ ⟨same_refl _ c, (BitVec.add_zero _).symm, rfl⟩) (fun c hp ↦ ?_) hn hp h₉
  obtain ⟨hp', hf, h₉', hz⟩ := copy_pass c hp
  refine hl.block hp rfl (by simp [Instr.Straight]) (.here ⟨hp', h₉', hz, fun w n u hu ↦ ?_⟩)
  rw [(hf.goto w).get (by decide)] at hu
  exact (hf.goto w).trans hu

/-- One pass through `.L2` behind its inner loop. -/
theorem section_pass (c : Cpu) (hp : c.pc = addr a 8) :
    let c' := [.alu .add .r6 .r6 (.reg .r7), .subs .r8 .r8 (.imm 1)].foldl Instr.exec c
    c'.pc = addr a 10 ∧ Filled [.r6, .r8] [] c c' ∧ c'.get .r6 = c.get .r6 + c.get .r7 ∧
      c'.get .r8 = c.get .r8 - 1 ∧ c'.cpsr.z = decide (c.get .r8 = 1) := by
  refine ⟨foldl_pc (by simp [Instr.Straight]) hp,
    filled_nil (same_block (by simp [Instr.KeepsMode, Instr.writes]) c) (by decide) rfl, ?_, ?_, ?_⟩
  · simp [Instr.exec, Instr.effect, Cpu.set, Cpu.get, Cpu.key, Psr.compare, Operand.eval, Alu.eval]
  · simp [Instr.exec, Instr.effect, Cpu.set, Cpu.get, Cpu.key, Psr.compare, Operand.eval]
  · simp [Instr.exec, Instr.effect, Cpu.set, Cpu.get, Cpu.key, Psr.compare, Operand.eval]
    rfl

theorem load_same (c : Cpu) (d : Reg) (v : BitVec 32) (hp : c.pc = addr a n) :
    let c' := (load d v).exec c
    c'.pc = addr a (n + 1) ∧ Same [d] c c' ∧ c'.mem = c.mem ∧ c'.get d = v := by
  refine ⟨?_, Instr.KeepsMode.same (i := load d v) trivial c, rfl, Cpu.get_set_self c d v⟩
  rw [← addr_succ, ← hp]
  rfl

theorem load_pass (c : Cpu) (d : Reg) (v : BitVec 32) (hp : c.pc = addr a n) (hd : d ≠ .r3) :
    let c' := (load d v).exec c
    c'.pc = addr a (n + 1) ∧ Filled [d] [] c c' ∧ c'.get d = v := by
  obtain ⟨hp', hs, hm, hget⟩ := load_same c d v hp
  exact ⟨hp', filled_nil hs (by simpa using hd.symm) hm, hget⟩

/-- `.L2` stores the entries of one region. -/
theorem sections_stored (hl : Loaded code a (mapKernel a regions higherHalf)) (hn : n + 1 < 2 ^ 32)
    (hp : c.pc = addr a 4) (h₈ : c.get .r8 = .ofNat 32 (n + 1)) :
    Leads (step code) (fun c' ↦ c'.pc = addr a 11 ∧
      Filled [.r3, .r6, .r8, .r9] (sections (c.get .r6) (c.get .r7) (n + 1)) c c') c := by
  refine hl.countdown (k := 10) rfl
    (E := fun n c c' ↦ Filled [.r3, .r6, .r8, .r9] (sections (c.get .r6) (c.get .r7) n) c c')
    (fun c ↦ ⟨same_refl _ c, (BitVec.add_zero _).symm, rfl⟩) (fun c hp ↦ ?_) hn hp h₈
  obtain ⟨hp₁, hf₁, h₉⟩ := load_pass c .r9 16 hp (by decide)
  refine hl.exec hp rfl ((copies hl (by decide) hp₁ h₉).trans fun c₂ hc₂ ↦ ?_)
  obtain ⟨hp₂, hf₂⟩ := hc₂
  obtain ⟨hp₃, hf₃, h₆, h₈, hz⟩ := section_pass c₂ hp₂
  have hf₂' := (hf₁.mono (by decide)).trans hf₂
  rw [hf₁.get (by decide)] at hf₂'
  refine hl.block hp₂ rfl (by simp [Instr.Straight]) (.here ⟨hp₃, ?_, ?_, fun w n u hu ↦ ?_⟩)
  · rw [h₈, hf₂'.get (by decide)]
  · rw [hz, hf₂'.get (by decide)]
  · have hf : Filled [.r3, .r6, .r8, .r9] _ _ _ := hf₂'.mono (by decide)
    rw [Cpu.get_goto, Cpu.get_goto, h₆, hf₃.get (by decide), hf₂'.get (by decide), hf₂'.get (by decide)] at hu
    exact (hf.trans ((hf₃.mono (by decide)).goto w)).trans hu

theorem region_pass (c : Cpu) (g : MemoryRegion) (hp : c.pc = addr a 3)
    (hw : c.mem.loadWords (c.get .r4) 3 = [g.start, g.incr, g.count]) :
    let c' := (Instr.ldmia .r4 [.r6, .r7, .r8]).exec c
    c'.pc = addr a 4 ∧ Filled [.r4, .r6, .r7, .r8] [] c c' ∧ c'.get .r4 = c.get .r4 + 12 ∧
      c'.get .r6 = g.start ∧ c'.get .r7 = g.incr ∧ c'.get .r8 = g.count := by
  have hs := Instr.KeepsMode.same (i := .ldmia .r4 [.r6, .r7, .r8]) trivial c
  rw [Cpu.get, Cpu.key] at hw
  refine ⟨?_, filled_nil hs (by decide) rfl, ?_⟩
  · rw [← addr_succ, ← hp]
    rfl
  · simp [Instr.exec, Instr.effect, Cpu.set, Cpu.get, Cpu.key, hw, assign]

theorem count_pass (c : Cpu) (hp : c.pc = addr a 11) :
    let c' := (Instr.subs .r5 .r5 (.imm 1)).exec c
    c'.pc = addr a 12 ∧ Filled [.r5] [] c c' ∧ c'.get .r5 = c.get .r5 - 1 ∧
      c'.cpsr.z = decide (c.get .r5 = 1) := by
  have hs := Instr.KeepsMode.same (i := .subs .r5 .r5 (.imm 1)) trivial c
  refine ⟨?_, filled_nil hs (by decide) rfl, ?_, rfl⟩
  · rw [← addr_succ, ← hp]
    rfl
  · simp [Instr.exec, Instr.effect, Cpu.set, Cpu.get, Cpu.key, Psr.compare, Operand.eval]

theorem length_sections (v incr : BitVec 32) (n : ℕ) : (sections v incr n).length = 16 * n := by
  induction n generalizing v with
  | zero => rfl
  | succ n ih =>
    rw [sections, length_append, length_replicate, ih]
    omega

theorem pageTable_cons (g : MemoryRegion) (gs : List MemoryRegion) :
    pageTable (g :: gs) = sections g.start g.incr g.count.toNat ++ pageTable gs := flatMap_cons

/-- One pass through `.L1`, up to its branch. -/
theorem region_stored {g : MemoryRegion} (hl : Loaded code a (mapKernel a regions higherHalf)) (hg : g.count ≠ 0)
    (hp : c.pc = addr a 3) (hw : c.mem.loadWords (c.get .r4) 3 = [g.start, g.incr, g.count]) :
    Leads (step code) (fun c' ↦ c'.pc = addr a 12 ∧
      Filled [.r3, .r4, .r5, .r6, .r7, .r8, .r9] (sections g.start g.incr g.count.toNat) c c' ∧
        c'.get .r4 = c.get .r4 + 12 ∧ c'.get .r5 = c.get .r5 - 1 ∧ c'.cpsr.z = decide (c.get .r5 = 1)) c := by
  obtain ⟨n, hn⟩ : ∃ n, g.count.toNat = n + 1 :=
    Nat.exists_eq_succ_of_ne_zero fun h ↦ hg (BitVec.eq_of_toNat_eq h)
  have hcount : g.count = .ofNat 32 (n + 1) := by rw [← hn, BitVec.ofNat_toNat, BitVec.setWidth_eq]
  obtain ⟨hp₁, hf₁, h₄, h₆, h₇, h₈⟩ := region_pass c g hp hw
  refine hl.exec hp rfl ((sections_stored hl (hn ▸ g.count.isLt) hp₁ (h₈.trans hcount)).trans fun c₂ hc₂ ↦ ?_)
  obtain ⟨hp₂, hf₂⟩ := hc₂
  obtain ⟨hp₃, hf₃, h₅, hz⟩ := count_pass c₂ hp₂
  have hf : Filled [.r3, .r4, .r5, .r6, .r7, .r8, .r9] (sections g.start g.incr (n + 1)) c c₂ := by
    rw [h₆, h₇] at hf₂
    have hf₁' : Filled [.r3, .r4, .r5, .r6, .r7, .r8, .r9] _ _ _ := hf₁.mono (by decide)
    exact hf₁'.trans (hf₂.mono (by decide))
  have hf' := hf.trans (hf₃.mono (by decide))
  rw [append_nil, ← hn] at hf'
  refine hl.exec hp₂ rfl (.here ⟨hp₃, hf', ?_, ?_, ?_⟩)
  · rw [hf₃.get (by decide), hf₂.get (by decide), h₄]
  · rw [h₅, hf₂.get (by decide), hf₁.get (by decide)]
  · rw [hz, hf₂.get (by decide), hf₁.get (by decide)]

/-- `.L1` stores the entries of all regions. -/
theorem regions_stored (hl : Loaded code a (mapKernel a regions higherHalf)) (hgs : gs ≠ [])
    (hn : ∀ g ∈ gs, g.count ≠ 0) (hlen : gs.length < 2 ^ 32) (hp : c.pc = addr a 3)
    (h₅ : c.get .r5 = .ofNat 32 gs.length)
    (hw : c.mem.loadWords (c.get .r4) (3 * gs.length) = regionWords gs)
    (hend : (c.get .r3).toNat + 4 * (pageTable gs).length ≤ (c.get .r4).toNat)
    (hend' : (c.get .r4).toNat + 12 * gs.length < 2 ^ 32) :
    Leads (step code) (fun c' ↦ c'.pc = addr a 13 ∧
      Filled [.r3, .r4, .r5, .r6, .r7, .r8, .r9] (pageTable gs) c c') c := by
  induction gs generalizing c with
  | nil => exact absurd rfl hgs
  | cons g gs ih =>
    rw [length_cons] at hlen h₅ hw hend'
    rw [pageTable_cons, length_append, length_sections] at hend
    rw [Nat.mul_succ, Nat.add_comm, Mem.loadWords_add] at hw
    obtain ⟨hw₁, hw₂⟩ : _ = [g.start, g.incr, g.count] ∧ _ := append_inj hw (Mem.length_loadWords _ _ _)
    refine (region_stored hl (hn g mem_cons_self) hp hw₁).trans fun c' hc' ↦ ?_
    obtain ⟨hp', hf, h₄', h₅', hz⟩ := hc'
    refine hl.bne hp' rfl ?_
    rw [pageTable_cons]
    cases gs with
    | nil =>
      rw [hz, h₅, if_pos (by decide)]
      refine .here ⟨rfl, ?_⟩
      rw [pageTable, flatMap_nil, append_nil]
      exact hf.goto _
    | cons g' gs =>
      have hne : ¬c.get .r5 = 1 := by
        rw [h₅, length_cons]
        rw [length_cons] at hlen
        bv_omega
      have h₅'' : (c'.goto (addr a 3)).get .r5 = .ofNat 32 (g' :: gs).length := by
        rw [Cpu.get_goto, h₅', h₅]
        bv_omega
      have h₄'' : (c.get .r4 + 12).toNat = (c.get .r4).toNat + 12 := by bv_omega
      rw [hz, if_neg (by simpa using hne)]
      refine (ih (cons_ne_nil _ _) (fun g hg ↦ hn g (mem_cons_of_mem _ hg)) (by omega) rfl h₅'' ?_ ?_ ?_).mono
        fun u hu ↦ ⟨hu.1, (hf.goto (addr a 3)).trans hu.2⟩
      · rw [Cpu.get_goto, h₄', ← hw₂]
        refine Mem.loadWords_congr (by omega) fun x hx hx' ↦ ?_
        have hx₀ : (c.get .r3).toNat + 4 * (sections g.start g.incr g.count.toNat).length ≤ x := by
          rw [length_sections]
          omega
        exact (congrFun hf.mem x).trans (Mem.storeWords_of_apart (by rw [length_sections]; omega) (.inr hx₀))
      · rw [Cpu.get_goto, Cpu.get_goto, hf.dst, h₄', h₄'', length_sections]
        bv_omega
      · rw [Cpu.get_goto, h₄', h₄'']
        omega

end OcamlRpi.Boot
