import OcamlRpi.Memory.Client

namespace OcamlRpi.Memory

open Support Function List DList

def isUsed (m : Mem) (chunk : ℕ) : Bool := m.load (chunk + USED) = 1

/-- The end of a chunk, by the size its links give it. -/
def chunkEnd (m : Mem) (chunk : ℕ) : ℕ := chunk + HEADER_SIZE + memoryChunkSize m chunk

/-- The bytes handed out with the pointer `p`, as an interval. -/
def apartPayloads (m : Mem) (p q : ℕ) : Prop :=
  chunkEnd m (p - HEADER_SIZE) ≤ q ∨ chunkEnd m (q - HEADER_SIZE) ≤ p

/-- The chunks `cs` lie between the sentinels in one ring, tile the region and
are in use exactly for the blocks of the program. -/
structure Tiled (r : Region) (c : Client) (cs : List ℕ) : Prop where
  ring : (links c.heap.mem).Ring (c.heap.first :: (cs ++ [c.heap.last]))
  increasing : (c.heap.first :: (cs ++ [c.heap.last])).Pairwise (· < ·)
  tiles : Tiles id (chunkEnd c.heap.mem) c.heap.first (c.heap.first :: cs) c.heap.last
  inside : r.mem ≤ c.heap.first ∧ c.heap.last + CHUNK_SIZE ≤ r.mem + r.size
  sentinels : isUsed c.heap.mem c.heap.first ∧ isUsed c.heap.mem c.heap.last
  aligned : ∀ a ∈ c.heap.first :: (cs ++ [c.heap.last]), ALIGN ∣ a
  large : ∀ a ∈ c.heap.first :: (cs ++ [c.heap.last]), MIN_SIZE ≤ memoryChunkSize c.heap.mem a
  flag : ∀ a ∈ cs, isUsed c.heap.mem a ∨ c.heap.mem.load (a + USED) = 0
  live : ((cs.filter fun a ↦ isUsed c.heap.mem a).map (· + HEADER_SIZE)).Perm
    (c.live.map Handle.ptr)
  payloads : (c.live.map Handle.ptr).Pairwise (apartPayloads c.heap.mem)

variable {h : Heap} {A : Arena} {b : Block} {r : Region} {m : Mem} {c : Client}

namespace Represents

theorem isUsed_eq (hr : Represents h A) (hb : b ∈ A.all) : isUsed h.mem b.addr = b.used := by
  rw [isUsed, USED, hr.flag b hb]
  cases b.used <;> rfl

theorem ring_eq (hr : Represents h A) :
    h.first :: (A.blocks.map Block.addr ++ [h.last]) = A.all.map Block.addr := by
  rw [hr.first, hr.last]
  simp [Arena.all, Block.sentinel]

/-- The heap has only one ring. -/
theorem ring_unique {cs : List ℕ} (hr : Represents h A)
    (hcs : (links h.mem).Ring (h.first :: (cs ++ [h.last]))) : cs = A.blocks.map Block.addr := by
  have hring := hr.all
  rw [← hr.ring_eq] at hring
  exact append_cancel_right (hcs.eq_of_head hring)

/-- The last sentinel measures its distance to the first one, wrapped. -/
theorem size_last (hr : Represents h A) (hw : A.WF) :
    memoryChunkSize h.mem A.hi + 12 + (A.hi - A.lo) = 2 ^ 32 := by
  have hring : (links h.mem).Ring (A.lo :: A.blocks.map Block.addr ++ [A.hi]) := by
    have hx := hr.all
    rw [← hr.ring_eq, hr.first, hr.last] at hx
    exact hx
  have hnext : DList.next h.mem A.hi = A.lo := hring.joined_last.1
  have hlt := hw.blocks_tile.le
  have htop := hw.top
  have hdist : sub32 A.lo A.hi = A.lo + 2 ^ 32 - A.hi := sub32_of_lt (by omega)
  rw [memoryChunkSize, hnext, hdist, HEADER_SIZE, sub32_of_le (by omega) (by omega)]
  omega

theorem size_first (hr : Represents h A) (hw : A.WF) : memoryChunkSize h.mem A.lo = 8 := by
  obtain ⟨c, k, hk⟩ : ∃ c k, A.blocks ++ [Block.sentinel A.hi] = c :: k :=
    exists_cons_of_ne_nil (by simp)
  have he : A.all = [] ++ Block.sentinel A.lo :: c :: k := by rw [Arena.all, hk]; rfl
  have hx := size_of_next hr.all hw he
  simpa only [Block.sentinel] using hx

theorem size_large (hr : Represents h A) (hw : A.WF) (hb : b ∈ A.all) :
    MIN_SIZE ≤ memoryChunkSize h.mem b.addr := by
  rw [MIN_SIZE]
  rcases Arena.mem_all.mp hb with rfl | hb | rfl
  · exact (hr.size_first hw).ge
  · rw [size_of_ring hr.all hw hb]
    exact b.size_ge
  · have hx := hr.size_last hw
    have hy := hw.top
    have hz := hw.blocks_tile.le
    simp only [Block.sentinel]
    omega

theorem chunkEnd_eq (hr : Represents h A) (hw : A.WF) (hb : b ∈ A.blocks) :
    chunkEnd h.mem b.addr = b.stop := by
  rw [chunkEnd, size_of_ring hr.all hw hb]
  rfl

theorem chunkEnd_payload (hr : Represents h A) (hw : A.WF) (hb : b ∈ A.blocks) :
    chunkEnd h.mem (b.payload - HEADER_SIZE) = b.stop := by
  rw [show b.payload - HEADER_SIZE = b.addr from Nat.add_sub_cancel _ _, hr.chunkEnd_eq hw hb]

theorem filter_isUsed (hr : Represents h A) :
    ((A.blocks.map Block.addr).filter fun a ↦ isUsed h.mem a).map (· + HEADER_SIZE) =
      A.used.map Block.payload := by
  rw [filter_map, map_map]
  congr 1
  exact filter_congr fun b hb ↦ hr.isUsed_eq (Arena.mem_all_of_mem hb)

end Represents

theorem Client.Inv.tiled (h : c.Inv r A) : Tiled r c (A.blocks.map Block.addr) := by
  have hr := h.rep
  have hw := h.wf
  have hb := r.bounds
  have hall := hr.ring_eq
  refine ⟨?_, ?_, ?_, ?_, ?_, ?_, ?_, ?_, ?_, ?_⟩
  · exact hall ▸ hr.all
  · rw [hall]
    refine List.Pairwise.map _ (fun b c hbc ↦ ?_) hw.tiles.pairwise
    have hx := b.addr_add_le_stop
    omega
  · rw [hr.first, hr.last]
    have hlo : chunkEnd c.heap.mem A.lo = A.lo + 20 := by
      rw [chunkEnd, hr.size_first hw, HEADER_SIZE]
    have ht : Tiles (fun b : Block ↦ id b.addr) (fun b ↦ chunkEnd c.heap.mem b.addr) (A.lo + 20)
        A.blocks A.hi := hw.blocks_tile.congr fun b hb ↦ ⟨rfl, hr.chunkEnd_eq hw hb⟩
    refine ⟨rfl, ?_, ?_⟩ <;> rw [hlo]
    · omega
    · exact Tiles.map_iff.mpr ht
  · rw [hr.first, hr.last, h.lo, h.hi, CHUNK_SIZE]
    exact ⟨hb.1, hb.2.2.1⟩
  · rw [hr.first, hr.last]
    exact ⟨hr.isUsed_eq (b := .sentinel A.lo) (Arena.mem_all.mpr (.inl rfl)),
      hr.isUsed_eq (b := .sentinel A.hi) (Arena.mem_all.mpr (.inr (.inr rfl)))⟩
  · rw [hall]
    intro a ha
    obtain ⟨b, hb, rfl⟩ := mem_map.mp ha
    exact hw.addr_dvd hb
  · rw [hall]
    intro a ha
    obtain ⟨b, hb, rfl⟩ := mem_map.mp ha
    exact hr.size_large hw hb
  · intro a ha
    obtain ⟨b, hb, rfl⟩ := mem_map.mp ha
    rw [hr.flag_eq_zero (Arena.mem_all_of_mem hb), hr.isUsed_eq (Arena.mem_all_of_mem hb)]
    exact (Bool.eq_false_or_eq_true b.used)
  · rw [hr.filter_isUsed]
    exact h.live
  · refine (h.live.pairwise_iff ?_).mp ?_
    · exact fun hpq ↦ hpq.symm
    · rw [pairwise_map]
      refine (hw.blocks_tile.pairwise.filter Block.used).imp_of_mem fun hb hc hbc ↦ .inl ?_
      rw [hr.chunkEnd_payload hw (mem_filter.mp hb).1, Block.payload]
      omega

/-- In every reachable state the chunks form one ring in address order that
tiles the region, with the used ones being those handed out. -/
theorem chunks_tile_region (hc : Client.Reachable r m c) : ∃ cs, Tiled r c cs := by
  obtain ⟨A, hI⟩ := hc.inv
  exact ⟨_, hI.tiled⟩

theorem chunks_tile_region_small :
    (Client.after .small (fun _ ↦ 0) [.malloc 12, .malloc 9, .free 4128]).live.length = 1 ∧
      ∃ cs, Tiled .small (Client.after .small (fun _ ↦ 0) [.malloc 12, .malloc 9, .free 4128]) cs :=
  ⟨by decide +kernel, chunks_tile_region (Client.reachable_after _ _ _)⟩

end OcamlRpi.Memory
