import OcamlRpi.Memory.Chunks

namespace OcamlRpi.Memory

open Support Function List DList

variable {r : Region} {m : Mem} {c c' : Client} {A : Arena} {p i : ℕ} {v : UInt8}

/-- The state of the allocator is the same in both heaps: its variables, the
headers of all chunks and the free links of the free ones. -/
structure SameAllocator (h h' : Heap) : Prop where
  heads : h'.freeChunk = h.freeChunk
  counters : h'.memFree = h.memFree ∧ h'.memUsed = h.memUsed ∧ h'.memMeta = h.memMeta
  ends : h'.first = h.first ∧ h'.last = h.last
  headers : ∀ cs, (links h.mem).Ring (h.first :: (cs ++ [h.last])) →
    ∀ a ∈ h.first :: (cs ++ [h.last]), DList.next h'.mem a = DList.next h.mem a ∧
      DList.prev h'.mem a = DList.prev h.mem a ∧ h'.mem.load (a + USED) = h.mem.load (a + USED)
  frees : ∀ cs, (links h.mem).Ring (h.first :: (cs ++ [h.last])) →
    ∀ a ∈ cs, isUsed h.mem a = false →
      DList.next h'.mem (a + HEADER_SIZE) = DList.next h.mem (a + HEADER_SIZE) ∧
        DList.prev h'.mem (a + HEADER_SIZE) = DList.prev h.mem (a + HEADER_SIZE)

theorem Client.Inv.write_same (h : c.Inv r A) (hc : c.step (.write p i v) = some c') :
    SameAllocator c.heap c'.heap := by
  simp only [Client.step] at hc
  split_ifs at hc with hw
  obtain rfl := Option.some.inj hc
  obtain ⟨b, hb, rfl, hi, hs⟩ : ∃ b ∈ c.live, b.ptr = p ∧ i < b.size ∧ b.size ≤ MAX_REQUEST := by
    simpa using hw
  have hout := h.outside hb hs hi
  refine ⟨rfl, ⟨rfl, rfl, rfl⟩, ⟨rfl, rfl⟩, fun cs hcs a ha ↦ ?_, fun cs hcs a ha hu ↦ ?_⟩
  · rw [h.rep.ring_unique hcs, h.rep.ring_eq] at ha
    obtain ⟨k, hk, rfl⟩ := mem_map.mp ha
    have hl := hout.links_update (v := v) (m := c.heap.mem) (Arena.addr_mem_layout hk)
    exact ⟨hl.1, hl.2, hout.word_update (Arena.word_mem_layout hk)⟩
  · rw [h.rep.ring_unique hcs] at ha
    obtain ⟨k, hk, rfl⟩ := mem_map.mp ha
    rw [h.rep.isUsed_eq (Arena.mem_all_of_mem hk)] at hu
    exact hout.links_update (Arena.free_mem_layout ⟨k.slot, h.wf.mem_bins.mpr ⟨k, hk, hu, rfl, rfl⟩⟩)

/-- The operations of the allocator keep the payloads of the blocks that stay
in use. -/
theorem Client.Inv.step_keeps {op : Op} {b : Handle} {x : ℕ} (h : c.Inv r A)
    (hop : ∀ p i v, op ≠ .write p i v) (hc : c.step op = some c') (hb : b ∈ c.live)
    (hb' : b ∈ c'.live) (hx : b.ptr ≤ x) (hx' : x < chunkEnd c.heap.mem (b.ptr - HEADER_SIZE)) :
    c'.heap.mem x = c.heap.mem x := by
  obtain ⟨k, hk, hp⟩ := h.chunk hb
  have hkA := Arena.mem_used.mp hk
  rw [← hp, h.rep.chunkEnd_payload h.wf hkA.1] at hx'
  rw [← hp] at hx
  cases op with
  | malloc size =>
    obtain ⟨A', -, -, -, -, hkeep⟩ := h.malloc hc
    exact hkeep k hkA.1 hkA.2 x hx hx'
  | free p =>
    by_cases hp₀ : p = 0
    · subst hp₀
      rw [h.free_null hc]
    · obtain ⟨A', d, -, -, -, hheap, -, -, -, -, -, hkeep⟩ := h.free hp₀ hc
      refine hkeep k hk (fun he ↦ ?_) x hx hx'
      simp only [Client.step, hp₀, false_or] at hc
      split_ifs at hc with hpl
      obtain rfl := Option.some.inj hc
      simp [← hp, he] at hb'
  | write p i v => exact absurd rfl (hop p i v)

theorem Client.Inv.request_fits {b : Handle} (h : c.Inv r A) (hb : b ∈ c.live)
    (hs : b.size ≤ MAX_REQUEST) : b.ptr + b.size ≤ chunkEnd c.heap.mem (b.ptr - HEADER_SIZE) := by
  obtain ⟨k, hk, hp⟩ := h.chunk hb
  have hle := (le_roundRequest hs).trans (h.large b hb k hk hp)
  rw [← hp, h.rep.chunkEnd_payload h.wf (Arena.mem_used.mp hk).1]
  simp only [Block.payload, Block.stop]
  omega

/-- The allocator never changes a block in use, its owner never changes the
allocator, and so the block holds what was written to it. -/
theorem blocks_isolated (hc : Client.Reachable r m c) :
    (∀ op c', (∀ p i v, op ≠ .write p i v) → c.step op = some c' →
      ∀ b ∈ c.live, b ∈ c'.live → ∀ x, b.ptr ≤ x →
        x < chunkEnd c.heap.mem (b.ptr - HEADER_SIZE) → c'.heap.mem x = c.heap.mem x) ∧
    (∀ p i v c', c.step (.write p i v) = some c' → SameAllocator c.heap c'.heap) ∧
    ∀ b ∈ c.live, b.size ≤ MAX_REQUEST →
      b.ptr + b.size ≤ chunkEnd c.heap.mem (b.ptr - HEADER_SIZE) ∧
        ∀ i < b.size, ∀ v, b.wrote i = some v → c.heap.mem (b.ptr + i) = v := by
  obtain ⟨A, hI⟩ := hc.inv
  exact ⟨fun op c' hop hc b hb hb' x hx hx' ↦ hI.step_keeps hop hc hb hb' hx hx',
    fun p i v c' hc ↦ hI.write_same hc,
    fun b hb hs ↦ ⟨hI.request_fits hb hs, fun i hi v hv ↦ hI.wrote b hb hs i hi v hv⟩⟩

theorem blocks_isolated_small :
    let c := Client.after .small (fun _ ↦ 0)
      [.malloc 12, .write 4128 3 7, .malloc 9, .write 4152 8 5, .free 4152]
    (∀ b ∈ c.live, b.size ≤ MAX_REQUEST → ∀ i < b.size, ∀ v, b.wrote i = some v →
      c.heap.mem (b.ptr + i) = v) ∧ c.heap.mem 4131 = 7 :=
  ⟨fun b hb hs ↦ ((blocks_isolated (Client.reachable_after _ _ _)).2.2 b hb hs).2,
    by decide +kernel⟩

end OcamlRpi.Memory
