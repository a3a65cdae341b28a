import OcamlRpi.Boot.Mapping
import OcamlRpi.Support.Mmu

namespace OcamlRpi.Boot

open Support Armv6 Function List
open Arm (Reg)

/-- Read and write for the kernel, nothing for the user. -/
def privileged : BitVec 3 := 0b001

def writeBack : BitVec 5 := 0b00111

def writeThrough : BitVec 5 := 0b00010

def device : BitVec 5 := 0b00000

/-- The map of the memory that `boot.S` describes at `memory_regions`. -/
def kernelPage (va : BitVec 32) : Option Page :=
  if va < 0x10000000 then some ⟨va, privileged, writeBack, false⟩
  else if va < 0xC0000000 then none
  else if va < 0xD0000000 then some ⟨va - PHYS_TO_VIRT, privileged, writeBack, false⟩
  else if va < 0xE0000000 then some ⟨va - PHYS_TO_VIRT, privileged, writeThrough, false⟩
  else some ⟨va - PHYS_TO_VIRT, privileged, device, false⟩

variable {c c' : Cpu} {code : BitVec 32 → Option Instr} {a regions higherHalf va v incr : BitVec 32}
  {gs hs : List MemoryRegion} {g : MemoryRegion} {k n : ℕ} {m : Mem}

theorem getElem?_sections (h : k < 16 * n) : (sections v incr n)[k]? = some (v + .ofNat 32 (k / 16) * incr) := by
  induction n generalizing v k with
  | zero => omega
  | succ n ih =>
    rw [sections, getElem?_append, length_replicate]
    split
    · next hk =>
      rw [getElem?_replicate_of_lt hk, Nat.div_eq_of_lt hk]
      simp
    · next hk =>
      have hdiv : k / 16 = (k - 16) / 16 + 1 := by omega
      rw [ih (by omega), hdiv, BitVec.ofNat_add, BitVec.add_mul]
      congr 1
      simp
      bv_omega

theorem length_pageTable (gs : List MemoryRegion) :
    (pageTable gs).length = 16 * (gs.map fun g ↦ g.count.toNat).sum := by
  induction gs with
  | nil => rfl
  | cons g gs ih => rw [pageTable_cons, length_append, length_sections, ih, map_cons, sum_cons, Nat.mul_add]

theorem pageTable_append (gs hs : List MemoryRegion) : pageTable (gs ++ hs) = pageTable gs ++ pageTable hs :=
  flatMap_append

theorem getElem?_pageTable (h : k < 16 * g.count.toNat) :
    (pageTable (gs ++ g :: hs))[16 * (gs.map fun g ↦ g.count.toNat).sum + k]? =
      some (g.start + .ofNat 32 (k / 16) * g.incr) := by
  rw [pageTable_append, pageTable_cons, ← length_pageTable, getElem?_append_right (Nat.le_add_right _ _),
    Nat.add_sub_cancel_left, getElem?_append_left (by rwa [length_sections]), getElem?_sections h]

/-- The table is at `0x4000`. -/
structure Walks (m : Mem) (c : Cpu) : Prop where
  ttbr0 : c.cp .ttbr0 = 0x4000
  ttbr1 : c.cp .ttbr1 = 0x4000
  dacr : c.cp .dacr = 0x55555555
  mem : c.mem = m.storeWords 0x4000 (pageTable memoryRegions)

/-- Before the region `k` there are `n` supersections. -/
structure RegionAt (k n : ℕ) (g : MemoryRegion) : Prop where
  split : memoryRegions = memoryRegions.take k ++ g :: memoryRegions.drop (k + 1)
  before : ((memoryRegions.take k).map fun g ↦ g.count.toNat).sum = n

theorem Walks.entry (h : Walks m c) (hg : RegionAt k n g) (hlo : n ≤ va.toNat / 2 ^ 24)
    (hhi : va.toNat / 2 ^ 24 < n + g.count.toNat) :
    c.entry va = g.start + .ofNat 32 (va.toNat / 2 ^ 24 - n) * g.incr := by
  have hlen : (pageTable memoryRegions).length = 4096 := by
    rw [length_pageTable]
    rfl
  have hva : va >>> 20 <<< 2 = .ofNat 32 (4 * (va.toNat / 2 ^ 20)) := by
    refine BitVec.eq_of_toNat_eq ?_
    simp [Nat.shiftRight_eq_div_pow, Nat.shiftLeft_eq, Nat.mul_comm]
  have hi : va.toNat / 2 ^ 20 = 16 * n + (va.toNat / 2 ^ 20 - 16 * n) := by omega
  have hdiv : (va.toNat / 2 ^ 20 - 16 * n) / 16 = va.toNat / 2 ^ 24 - n := by omega
  have hat : (pageTable memoryRegions)[va.toNat / 2 ^ 20]? =
      some ((m.storeWords 0x4000 (pageTable memoryRegions)).word (0x4000 + .ofNat 32 (4 * (va.toNat / 2 ^ 20)))) :=
    Mem.word_storeWords (by rw [hlen]; decide) (by rw [hlen]; omega)
  rw [← h.mem, ← hva, ← c.entry_same (by decide) h.ttbr0 h.ttbr1, hg.split, hi, ← hg.before,
    getElem?_pageTable (by rw [hg.before]; omega), hg.before, hdiv] at hat
  exact (Option.some.inj hat).symm

theorem toNat_append (x : BitVec 8) (y : BitVec 24) : (x ++ y).toNat = 2 ^ 24 * x.toNat + y.toNat := by
  rw [BitVec.toNat_append, ← Nat.shiftLeft_add_eq_or_of_lt y.isLt, Nat.shiftLeft_eq, Nat.mul_comm]

theorem append_add_sections (x : BitVec 8) (y : BitVec 24) (k : ℕ) :
    (x ++ y : BitVec 32) + .ofNat 32 k * 0x01000000 = (x + .ofNat 8 k) ++ y := by
  refine BitVec.eq_of_toNat_eq ?_
  rw [toNat_append, BitVec.toNat_add, toNat_append, BitVec.toNat_mul, BitVec.toNat_add, BitVec.toNat_ofNat,
    BitVec.toNat_ofNat]
  have := y.isLt
  have := x.isLt
  simp
  omega

theorem append_offset (x : BitVec 8) (hn : n ≤ va.toNat / 2 ^ 24) :
    ((x + .ofNat 8 (va.toNat / 2 ^ 24 - n)) ++ va.extractLsb' 0 24 : BitVec 32) =
      va + ((x - .ofNat 8 n) ++ 0#24 : BitVec 32) := by
  refine BitVec.eq_of_toNat_eq ?_
  rw [toNat_append, BitVec.toNat_add, BitVec.toNat_add, toNat_append, BitVec.toNat_sub, BitVec.toNat_ofNat,
    BitVec.toNat_ofNat, BitVec.extractLsb'_toNat]
  have := x.isLt
  have := va.isLt
  simp
  omega

/-- The supersections of a region. -/
theorem Walks.translate {x : BitVec 8} {y : BitVec 24} (h : Walks m c) (hg : RegionAt k n g)
    (hlo : n ≤ va.toNat / 2 ^ 24) (hhi : va.toNat / 2 ^ 24 < n + g.count.toNat) (hstart : g.start = x ++ y) (hincr : g.incr = 0x01000000)
    (ht : y.extractLsb' 0 2 = 2) (hs : y.getLsbD 18) :
    c.translate va = some ⟨va + ((x - .ofNat 8 n) ++ 0#24 : BitVec 32), y.extractLsb' 15 1 ++ y.extractLsb' 10 2,
      y.extractLsb' 12 3 ++ y.extractLsb' 2 2, y.getLsbD 4⟩ := by
  have he : c.entry va = (x + .ofNat 8 (va.toNat / 2 ^ 24 - n)) ++ y := by
    rw [h.entry hg hlo hhi, hstart, hincr, append_add_sections]
  have hd : (c.cp .dacr).extractLsb' 0 2 = 1 := by
    rw [h.dacr]
    rfl
  rw [Cpu.translate_supersection he ht hs hd, append_offset x hlo]

theorem Walks.kernelPage (h : Walks m c) (va : BitVec 32) : c.translate va = kernelPage va := by
  have hlt := va.isLt
  have hsub : va - PHYS_TO_VIRT = va + 0x40000000 := by
    unfold PHYS_TO_VIRT
    bv_omega
  unfold Boot.kernelPage
  rw [hsub]
  split_ifs with h₁ h₂ h₃ h₄
  · have hva : va.toNat < 0x10000000 := h₁
    have ht := h.translate (k := 0) (n := 0) (x := 0) (y := 0x04140E) ⟨rfl, rfl⟩ (show 0 ≤ va.toNat / 2 ^ 24 by omega)
      (show _ < 0 + 16 by omega) rfl rfl rfl rfl
    simpa [privileged, writeBack] using ht
  · have hva : 0x10000000 ≤ va.toNat := Nat.le_of_not_lt h₁
    have hva' : va.toNat < 0xC0000000 := h₂
    refine Cpu.translate_fault ?_
    rw [h.entry (k := 1) (n := 16) ⟨rfl, rfl⟩ (show 16 ≤ va.toNat / 2 ^ 24 by omega)
      (show _ < 16 + 176 by omega)]
    simp
  · have hva : 0xC0000000 ≤ va.toNat := Nat.le_of_not_lt h₂
    have hva' : va.toNat < 0xD0000000 := h₃
    have ht := h.translate (k := 2) (n := 192) (x := 0) (y := 0x04140E) ⟨rfl, rfl⟩ (show 192 ≤ va.toNat / 2 ^ 24 by omega)
      (show _ < 192 + 16 by omega) rfl rfl rfl rfl
    simpa [privileged, writeBack] using ht
  · have hva : 0xD0000000 ≤ va.toNat := Nat.le_of_not_lt h₃
    have hva' : va.toNat < 0xE0000000 := h₄
    have ht := h.translate (k := 3) (n := 208) (x := 0x10) (y := 0x04040A) ⟨rfl, rfl⟩ (show 208 ≤ va.toNat / 2 ^ 24 by omega)
      (show _ < 208 + 16 by omega) rfl rfl rfl rfl
    simpa [privileged, writeThrough] using ht
  · have hva : 0xE0000000 ≤ va.toNat := Nat.le_of_not_lt h₄
    have ht := h.translate (k := 4) (n := 224) (x := 0x20) (y := 0x040402) ⟨rfl, rfl⟩ (show 224 ≤ va.toNat / 2 ^ 24 by omega)
      (show _ < 224 + 32 by omega) rfl rfl rfl rfl
    simpa [privileged, device] using ht

/-- The CPU at `higher_half`, started as `c`. -/
structure Mapped (c c' : Cpu) : Prop where
  mode : c'.cpsr.mode = c.cpsr.mode
  regs : ∀ x, x.2 ∉ [Reg.r3, .r4, .r5, .r6, .r7, .r8, .r9] → c'.r x = c.r x
  mem : ∀ x, x < 0x4000 ∨ 0x8000 ≤ x → c'.mem x = c.mem x
  paged : c'.Paged
  translate : ∀ va, c'.translate va = kernelPage va

theorem mmu_pass (c : Cpu) :
    let c' := enableMmu.foldl Instr.exec c
    Same [.r3, .r4, .r5, .r6] c c' ∧ c'.mem = c.mem ∧ c'.cp .ttbr0 = 0x4000 ∧ c'.cp .ttbr1 = 0x4000 ∧
      c'.cp .dacr = 0x55555555 ∧ c'.cp .control = c.cp .control &&& 0xCF7FCBF8 ||| 0x00801807 := by
  refine ⟨same_block (by simp [enableMmu, load, Instr.KeepsMode, Instr.writes]) c, rfl, ?_⟩
  simp [enableMmu, load, Instr.exec, Instr.effect, Cpu.set, Cpu.get, Cpu.key, Operand.eval, Alu.eval]

theorem control_paged (v : BitVec 32) : (v &&& 0xCF7FCBF8 ||| 0x00801807) &&& 0x30800001 = 0x00800001 := by
  rw [BitVec.and_or_distrib_right, BitVec.and_assoc]
  simp

/-- The kernel comes to `higher_half` with the memory mapped as described. -/
theorem start_maps (hl : Loaded code a (mapKernel a regions higherHalf)) (hp : c.pc = a)
    (hw : c.mem.loadWords regions (3 * memoryRegions.length) = regionWords memoryRegions)
    (hlo : 0x8000 ≤ regions.toNat) (hhi : regions.toNat + 12 * memoryRegions.length < 2 ^ 32) :
    Leads (step code) (fun c' ↦ c'.pc = higherHalf ∧ Mapped c c') c := by
  obtain ⟨hp₁, hs₁, hm₁, h₃⟩ := load_same c .r3 0x4000 (hp.trans (addr_zero a).symm)
  obtain ⟨hp₂, hs₂, hm₂, h₄⟩ := load_same _ .r4 regions hp₁
  obtain ⟨hp₃, hs₃, hm₃, h₅⟩ := load_same _ .r5 5 hp₂
  refine hl.exec (hp.trans (addr_zero a).symm) rfl (hl.exec hp₁ rfl (hl.exec hp₂ rfl ?_))
  generalize (load .r5 5).exec _ = c₃ at *
  have h₃' : c₃.get .r3 = 0x4000 := by rw [hs₃.get (by decide), hs₂.get (by decide), h₃]
  have h₄' : c₃.get .r4 = regions := by rw [hs₃.get (by decide), h₄]
  have hm : c₃.mem = c.mem := hm₃.trans (hm₂.trans hm₁)
  have hlen : (pageTable memoryRegions).length = 4096 := by
    rw [length_pageTable]
    rfl
  have hs : Same [.r3, .r4, .r5, .r6, .r7, .r8, .r9] c c₃ :=
    ((hs₁.mono (by decide)).trans (hs₂.mono (by decide))).trans (hs₃.mono (by decide))
  have hne : memoryRegions ≠ [] := by decide
  refine (regions_stored hl hne (by decide) (by decide) hp₃ h₅ ?_ ?_ ?_).trans fun c₄ hc₄ ↦ ?_
  · rwa [h₄', hm]
  · rw [h₃', h₄', hlen]
    exact hlo
  · rwa [h₄']
  obtain ⟨hp₄, hf⟩ := hc₄
  have hst : ∀ i ∈ enableMmu, i.Straight := by simp [enableMmu, load, Instr.Straight]
  have hp₅ := foldl_pc hst hp₄
  refine hl.block hp₄ rfl hst (hl.exec hp₅ rfl (.here ⟨rfl, ?_⟩))
  obtain ⟨hs₅, hm₅, h₀, h₁, hd, hctl⟩ := mmu_pass c₄
  generalize enableMmu.foldl Instr.exec c₄ = c₅ at *
  have hmem : c₅.mem = c.mem.storeWords 0x4000 (pageTable memoryRegions) := by rw [hm₅, hf.mem, h₃', hm]
  have hs₄ := (hs.trans hf.toSame).trans (hs₅.mono (by decide))
  refine ⟨hs₄.mode, hs₄.regs, fun x hx ↦ ?_, ?_, Walks.kernelPage (m := c.mem) ⟨h₀, h₁, hd, hmem⟩⟩
  · have happart : c.mem.storeWords 0x4000 (pageTable memoryRegions) x = c.mem x :=
      Mem.storeWords_of_apart (by rw [hlen]; decide) (by rw [hlen]; exact hx)
    exact (congrFun hmem x).trans happart
  · exact (congrArg (· &&& 0x30800001) hctl).trans (control_paged _)

/-- The CPU when the kernel is loaded to `0x8000` and started. -/
def reset (m : Mem) : Cpu :=
  let p : Psr := ⟨false, false, false, false, 0, 0b110, .svc⟩
  let r : Mode × Reg → BitVec 32
    | (_, .r1) => 0x00000C42
    | (_, .r2) => 0x00000100
    | _ => 0
  ⟨r, p, fun _ ↦ p, 0x8000, fun _ ↦ 0, ⟨fun _ ↦ 0, 0⟩, m, []⟩

theorem start_maps_small :
    let c := reset (Mem.storeWords (fun _ ↦ 0) 0x10000 (regionWords memoryRegions))
    Leads (step (program 0x8000 (mapKernel 0x8000 0x10000 0xC000806C)))
      (fun c' ↦ c'.pc = 0xC000806C ∧ Mapped c c') c :=
  start_maps (loaded_program 0x8000 (by decide)) rfl (Mem.loadWords_storeWords (by decide)) (by decide) (by decide)

end OcamlRpi.Boot
