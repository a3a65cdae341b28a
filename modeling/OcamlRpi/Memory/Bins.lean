import OcamlRpi.Memory.Chunks

namespace OcamlRpi.Memory

open Support Function List DList

variable {h : Heap} {A : Arena} {b : Block} {r : Region} {m : Mem} {c : Client}

/-- The lists `bins` are those that start at the heads `free_chunk`, and they
hold the free ones of the chunks `cs`, each in the slot of its size. -/
structure FreeLists (h : Heap) (cs : List ℕ) (bins : ℕ → List ℕ) : Prop where
  head : ∀ n : ℕ, n < 32 → h.freeChunk n = (bins n).headD 0
  null : ∀ n : ℕ, n < 32 → 0 ∉ bins n
  ring : ∀ n : ℕ, n < 32 → (links h.mem).Ring ((bins n).map (· + HEADER_SIZE))
  filed : ∀ n : ℕ, n < 32 → ∀ a, a ∈ bins n ↔ a ∈ cs ∧ isUsed h.mem a = false ∧
    2 ^ n ≤ memoryChunkSize h.mem a ∧ memoryChunkSize h.mem a < 2 ^ (n + 1)
  once : ∀ a ∈ cs, isUsed h.mem a = false → ∃! n, n < 32 ∧ a ∈ bins n

/-- `remove_free(chunk)` finds `chunk` in the list of its slot and takes it
out of this list. -/
def Unlinks (h : Heap) (chunk : ℕ) : Prop :=
  ∃ n : ℕ, ∃ l₁ l₂ : List ℕ, n < 32 ∧ memoryChunkSlot (memoryChunkSize h.mem chunk) = n ∧
    (links h.mem).Ring ((l₁ ++ chunk :: l₂).map (· + HEADER_SIZE)) ∧
    h.freeChunk n = (l₁ ++ chunk :: l₂).headD 0 ∧
    (links (removeFree h chunk).mem).Ring ((l₁ ++ l₂).map (· + HEADER_SIZE)) ∧
    (removeFree h chunk).freeChunk n = (l₁ ++ l₂).headD 0

theorem Block.slot_iff {n : ℕ} : b.slot = n ↔ 2 ^ n ≤ b.size ∧ b.size < 2 ^ (n + 1) := by
  have h := b.size_ge
  rw [Block.slot, Nat.log_eq_iff (.inr ⟨Nat.one_lt_two, by omega⟩)]

theorem Represents.freeLists (hr : Represents h A) (hw : A.WF) :
    FreeLists h (A.blocks.map Block.addr) A.bins := by
  have hfiled : ∀ n a, a ∈ A.bins n ↔ a ∈ A.blocks.map Block.addr ∧ isUsed h.mem a = false ∧
      2 ^ n ≤ memoryChunkSize h.mem a ∧ memoryChunkSize h.mem a < 2 ^ (n + 1) := by
    intro n a
    rw [hw.mem_bins]
    constructor
    · intro hx
      obtain ⟨b, hb, hu, hn, rfl⟩ := hx
      rw [hr.isUsed_eq (Arena.mem_all_of_mem hb), size_of_ring hr.all hw hb]
      exact ⟨mem_map_of_mem hb, hu, Block.slot_iff.mp hn⟩
    · intro hx
      obtain ⟨ha, hu, hn⟩ := hx
      obtain ⟨b, hb, rfl⟩ := mem_map.mp ha
      rw [hr.isUsed_eq (Arena.mem_all_of_mem hb)] at hu
      rw [size_of_ring hr.all hw hb] at hn
      exact ⟨b, hb, hu, Block.slot_iff.mpr hn, rfl⟩
  refine ⟨hr.head, fun _ _ ↦ hw.zero_notMem_bins, fun n _ ↦ hr.bin n, fun n _ ↦ hfiled n, ?_⟩
  intro a ha hu
  obtain ⟨b, hb, rfl⟩ := mem_map.mp ha
  rw [hr.isUsed_eq (Arena.mem_all_of_mem hb)] at hu
  refine ⟨b.slot, ⟨hw.slot_lt hb, hw.mem_bins.mpr ⟨b, hb, hu, rfl, rfl⟩⟩, fun n hn ↦ ?_⟩
  obtain ⟨d, hd, -, rfl, hdb⟩ := hw.mem_bins.mp hn.2
  rw [hw.eq_of_addr_eq (Arena.mem_all_of_mem hd) (Arena.mem_all_of_mem hb) hdb]

theorem Represents.unlinks (hr : Represents h A) (hw : A.WF) (hb : b ∈ A.blocks)
    (hu : b.used = false) : Unlinks h b.addr := by
  obtain ⟨l₁, l₂, hl⟩ := hw.mem_own_bin hb hu
  obtain ⟨hrem, hm, hsh⟩ := hr.unlink hw hb hl
  have hfl := hr.ownList hw hl
  have hhead : h.freeChunk b.slot = (l₁ ++ b.addr :: l₂).headD 0 := by
    rw [hr.head _ (hw.slot_lt hb), hl]
  have hring := hsh.bin b.slot
  rw [update_self] at hring
  refine ⟨b.slot, l₁, l₂, hw.slot_lt hb, ?_, hfl.ring, hhead, ?_, ?_⟩
  · rw [size_of_ring hr.all hw hb, memoryChunkSlot_size]
  · rw [hrem]
    refine hm.ring hring fun x hx ↦ ?_
    obtain ⟨a, ha, rfl⟩ := mem_map.mp hx
    exact hfl.nodes a (((sublist_cons_self _ _).append_left _).subset ha)
  · rw [hrem]
    exact update_self ..

/-- The heap after `free` has accounted for the chunk. -/
def unaccount (h : Heap) (chunk : ℕ) : Heap :=
  { h with memUsed := sub32 h.memUsed (memoryChunkSize h.mem chunk) }

theorem Represents.to_unaccount (hr : Represents h A) (a : ℕ) : Represents (unaccount h a) A := by
  unfold unaccount
  exact ⟨hr.first, hr.last, hr.all, hr.bin, hr.flag, hr.head⟩

/-- The two calls of `remove_free` in `free`. -/
theorem Represents.free_unlinks {pre post : List Block} (hr : Represents h A) (hw : A.WF)
    (he : A.blocks = pre ++ b :: post) (hu : b.used = true) :
    let next := CONTAINER 0 (DList.next h.mem b.addr)
    let prev := CONTAINER 0 (DList.prev h.mem b.addr)
    (h.mem.load (next + USED) = 0 → Unlinks (unaccount h b.addr) next) ∧
      ((freeNext h b.addr).mem.load (prev + USED) = 0 → Unlinks (freeNext h b.addr) prev) := by
  have hsent : ∀ {A : Arena} {d : Block}, d ∈ A.all → d.used = false → d ∈ A.blocks := by
    intro A d hd hdu
    rcases Arena.mem_all.mp hd with rfl | hd | rfl
    · cases hdu
    · exact hd
    · cases hdu
  constructor
  · obtain ⟨d, -, -, hd, hnext⟩ := hr.next_chunk hw he
    rw [hnext]
    intro hz
    have hdu := (hr.flag_eq_zero hd).mp hz
    exact (hr.to_unaccount b.addr).unlinks hw (hsent hd hdu) hdu
  · obtain ⟨A', b', post', -, hr', hw', -, -, he', haddr, -⟩ := freeNext_spec hr hw he hu
    obtain ⟨d, -, -, hd, hprev⟩ := hr'.prev_chunk hw' he'
    rw [haddr, prev_freeNext hr hw he hu] at hprev
    rw [hprev]
    intro hz
    have hdu := (hr'.flag_eq_zero hd).mp hz
    exact hr'.unlinks hw' (hsent hd hdu) hdu

/-- In every reachable state the free lists hold exactly the free chunks, each
in the slot of its size, and `free` only unlinks chunks from their own list. -/
theorem free_lists_filed (hc : Client.Reachable r m c) :
    (∃ cs bins, Tiled r c cs ∧ FreeLists c.heap cs bins ∧
      ∀ n : ℕ, n < 32 → c.heap.freeChunk n ≠ 0 →
        c.heap.freeChunk n ∈ cs ∧ isUsed c.heap.mem (c.heap.freeChunk n) = false) ∧
    ∀ b ∈ c.live, let chunk := b.ptr - HEADER_SIZE
      let next := CONTAINER 0 (DList.next c.heap.mem chunk)
      let prev := CONTAINER 0 (DList.prev c.heap.mem chunk)
      (c.heap.mem.load (next + USED) = 0 → Unlinks (unaccount c.heap chunk) next) ∧
        ((freeNext c.heap chunk).mem.load (prev + USED) = 0 →
          Unlinks (freeNext c.heap chunk) prev) := by
  obtain ⟨A, hI⟩ := hc.inv
  have hf := hI.rep.freeLists hI.wf
  refine ⟨⟨_, _, hI.tiled, hf, fun n hn hne ↦ ?_⟩, fun b hb ↦ ?_⟩
  · have hmem : c.heap.freeChunk n ∈ A.bins n := by
      rw [hf.head n hn] at hne ⊢
      cases hl : A.bins n with
      | nil => simp [hl] at hne
      | cons a l => simp
    have hx := (hf.filed n hn _).mp hmem
    exact ⟨hx.1, hx.2.1⟩
  · obtain ⟨k, hk, hp⟩ := hI.chunk hb
    obtain ⟨hkA, hku⟩ := Arena.mem_used.mp hk
    obtain ⟨pre, post, he⟩ := append_of_mem hkA
    rw [show b.ptr - HEADER_SIZE = k.addr by rw [← hp]; exact Nat.add_sub_cancel _ _]
    exact hI.rep.free_unlinks hI.wf he hku

theorem free_lists_filed_small :
    let c := Client.after .small (fun _ ↦ 0) [.malloc 12, .malloc 9, .free 4128]
    (∃ cs bins, Tiled .small c cs ∧ FreeLists c.heap cs bins) ∧ c.heap.freeChunk 3 = 4116 :=
  ⟨(free_lists_filed (Client.reachable_after _ _ _)).1.imp fun _ ⟨bins, h⟩ ↦ ⟨bins, h.1, h.2.1⟩,
    by decide +kernel⟩

end OcamlRpi.Memory
