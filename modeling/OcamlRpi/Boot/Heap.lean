import OcamlRpi.Boot.Paging
import OcamlRpi.Memory.Program

namespace OcamlRpi.Boot

open Support Armv6 Memory List

/-- The size that `kernel_main` hands to `memory_init` with `_end`:
`mem_size - ((intptr_t)_end - 0xC0000000)`. -/
def heapSize (kernelEnd memSize : BitVec 32) : BitVec 32 := memSize - (kernelEnd - PHYS_TO_VIRT)

/-- The kernel ends in the mapped memory, and leaves room for a heap in a memory
of at most 512 MB. -/
structure Layout where
  kernelEnd : BitVec 32
  memSize : BitVec 32
  mapped : PHYS_TO_VIRT ≤ kernelEnd
  room : (kernelEnd - PHYS_TO_VIRT).toNat + 66 ≤ memSize.toNat
  le_device : memSize.toNat ≤ 0x20000000

namespace Layout

variable (k : Layout)

/-- The end of the kernel in the physical memory. -/
def physEnd : ℕ := (k.kernelEnd - PHYS_TO_VIRT).toNat

theorem kernelEnd_eq : k.kernelEnd.toNat = 0xC0000000 + k.physEnd := by
  have h := k.mapped
  have hp : PHYS_TO_VIRT.toNat = 0xC0000000 := rfl
  rw [physEnd, BitVec.toNat_sub_of_le h, hp]
  have := BitVec.le_def.mp h
  omega

theorem heapSize_eq : (heapSize k.kernelEnd k.memSize).toNat = k.memSize.toNat - k.physEnd := by
  have h := k.room
  rw [heapSize, BitVec.toNat_sub_of_le (BitVec.le_def.mpr (by omega))]
  rfl

theorem heapSize_lt : (heapSize k.kernelEnd k.memSize).toNat < 2 ^ 31 := by
  have h := k.le_device
  rw [heapSize_eq]
  omega

theorem heap_top : k.kernelEnd.toNat + (heapSize k.kernelEnd k.memSize).toNat ≤ 2 ^ 32 := by
  have h := k.le_device
  have hroom : k.physEnd + 66 ≤ k.memSize.toNat := k.room
  rw [heapSize_eq, kernelEnd_eq]
  omega

theorem heap_room : alignDown (k.kernelEnd.toNat + 3) + 60 ≤
    alignDown (k.kernelEnd.toNat + (heapSize k.kernelEnd k.memSize).toNat) := by
  have hroom : k.physEnd + 66 ≤ k.memSize.toNat := k.room
  rw [heapSize_eq, kernelEnd_eq]
  simp only [alignDown, ALIGN]
  omega

/-- The region that `memory_init` is called with. -/
def heap : Region where
  mem := k.kernelEnd.toNat
  size := (heapSize k.kernelEnd k.memSize).toNat
  size_lt := k.heapSize_lt
  top := k.heap_top
  room := k.heap_room

/-- 256 MB, of which the kernel takes two. -/
def small : Layout := ⟨0xC0200000, 0x10000000, by decide, by decide, by decide⟩

end Layout

/-- The byte at `va` is in the physical memory between `lo` and `hi`, and not in a
device. -/
def InRam (c : Cpu) (lo hi va : ℕ) : Prop :=
  ∃ p, c.translate (.ofNat 32 va) = some p ∧ p.memory ≠ device ∧ p.phys.toNat + 0xC0000000 = va ∧
    lo ≤ p.phys.toNat ∧ p.phys.toNat < hi

variable {c c' : Cpu} {k : Layout} {h : Client} {A : Arena} {r : Region} {b : Handle} {i : ℕ}
  {va a regions higherHalf : BitVec 32} {code : BitVec 32 → Option Instr}

theorem kernelPage_ram (hlo : PHYS_TO_VIRT ≤ va) (hhi : va < 0xE0000000) :
    ∃ p, kernelPage va = some p ∧ p.memory ≠ device ∧ p.phys = va - PHYS_TO_VIRT := by
  have h₁ : ¬va < 0x10000000 := by
    unfold PHYS_TO_VIRT at hlo
    bv_omega
  have h₂ : ¬va < 0xC0000000 := BitVec.not_lt.mpr hlo
  rw [kernelPage, if_neg h₁, if_neg h₂, if_pos hhi]
  split_ifs
  · exact ⟨_, rfl, (by decide : writeBack ≠ device), rfl⟩
  · exact ⟨_, rfl, (by decide : writeThrough ≠ device), rfl⟩

theorem Layout.inRam (hc : Mapped c c') (hlo : k.heap.mem ≤ i) (hhi : i < k.heap.mem + k.heap.size) :
    InRam c' k.physEnd k.memSize.toNat i := by
  have hdev := k.le_device
  have hroom : k.physEnd + 66 ≤ k.memSize.toNat := k.room
  have hmem : k.heap.mem = 0xC0000000 + k.physEnd := k.kernelEnd_eq
  have hsize : k.heap.size = k.memSize.toNat - k.physEnd := k.heapSize_eq
  have hi : (BitVec.ofNat 32 i).toNat = i := Nat.mod_eq_of_lt (by omega)
  have hvirt : PHYS_TO_VIRT.toNat = 0xC0000000 := rfl
  have hle : PHYS_TO_VIRT ≤ .ofNat 32 i := BitVec.le_def.mpr (by omega)
  have hlt : BitVec.ofNat 32 i < 0xE0000000 := BitVec.lt_def.mpr (show _ < 0xE0000000 by omega)
  obtain ⟨p, hp, hd, hphys⟩ := kernelPage_ram hle hlt
  have hto : p.phys.toNat = i - 0xC0000000 := by rw [hphys, BitVec.toNat_sub_of_le hle, hi, hvirt]
  exact ⟨p, (hc.translate _).trans hp, hd, by omega, by omega, by omega⟩

/-- A byte of a block is in the region that the heap was given. -/
theorem in_region (hI : h.Inv r A) (hb : b ∈ h.live) (hs : b.size ≤ MAX_REQUEST) (hi : i < b.size) :
    r.mem ≤ b.ptr + i ∧ b.ptr + i < r.mem + r.size := by
  obtain ⟨k, hk, hp, hstop⟩ := hI.mem_payload hb hs hi
  have hbounds := hI.wf.addr_bounds (Arena.mem_used.mp hk).1
  have hr := r.bounds
  rw [hI.lo, hI.hi] at hbounds
  rw [Block.payload] at hp
  omega

/-- With the page table of `boot.S` and the heap of `kernel_main`, every byte of
every block is a byte of the physical memory, and none of the kernel, its stacks
or the page table below it. -/
theorem heap_in_ram (hl : Loaded code a (mapKernel a regions higherHalf)) (hp : c.pc = a)
    (hw : c.mem.loadWords regions (3 * memoryRegions.length) = regionWords memoryRegions)
    (hlo : 0x8000 ≤ regions.toNat) (hhi : regions.toNat + 12 * memoryRegions.length < 2 ^ 32) :
    Leads (step code) (fun c' ↦ c'.pc = higherHalf ∧ ∀ (k : Layout) m h, Client.CallReachable k.heap m h →
      ∀ b ∈ h.live, b.size ≤ MAX_REQUEST → ∀ i < b.size, InRam c' k.physEnd k.memSize.toNat (b.ptr + i)) c := by
  refine (start_maps hl hp hw hlo hhi).mono fun c' ⟨hpc, hc⟩ ↦ ⟨hpc, fun k m h hr b hb hs i hi ↦ ?_⟩
  obtain ⟨A, hI⟩ := hr.inv
  obtain ⟨hle, hlt⟩ := in_region hI hb hs hi
  exact k.inRam hc hle hlt

/-- A block of 100 bytes in the heap of a kernel of 2 MB. -/
theorem heap_in_ram_small :
    let c := reset (Mem.storeWords (fun _ ↦ 0) 0x10000 (regionWords memoryRegions))
    let h := Client.afterCalls Layout.small.heap (fun _ ↦ 0) [.basic (.malloc 100)]
    h.live.map (fun b ↦ (b.ptr, b.size)) = [(0xC0200020, 100)] ∧
      Leads (step (program 0x8000 (mapKernel 0x8000 0x10000 0xC000806C)))
        (fun c' ↦ c'.pc = 0xC000806C ∧ ∀ i < 100, InRam c' 0x200000 0x10000000 (0xC0200020 + i)) c := by
  intro c h
  have hlive : h.live.map (fun b ↦ (b.ptr, b.size)) = [(0xC0200020, 100)] := by decide +kernel
  have hmem : (0xC0200020, 100) ∈ h.live.map fun b ↦ (b.ptr, b.size) := hlive ▸ mem_singleton.mpr rfl
  obtain ⟨b, hb, heq⟩ := mem_map.mp hmem
  obtain ⟨hptr, hsize⟩ := Prod.mk.inj heq
  refine ⟨hlive, (heap_in_ram (loaded_program 0x8000 (by decide)) rfl (Mem.loadWords_storeWords (by decide))
    (by decide) (by decide)).mono fun c' hc ↦ ⟨hc.1, fun i hi ↦ ?_⟩⟩
  have hram := hc.2 Layout.small _ h (Client.callReachable_after _ _ _) b hb (by rw [hsize]; decide) i (hsize ▸ hi)
  rwa [hptr] at hram

end OcamlRpi.Boot
