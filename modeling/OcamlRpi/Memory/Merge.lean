import OcamlRpi.Memory.Take

namespace OcamlRpi.Memory

open Support Function List DList

variable {h : Heap} {A : Arena} {pre post : List Block} {b q r : Block} {l₁ l₂ : List ℕ}

theorem mergeNext_spec (hr : Represents h A) (hw : A.WF) (he : A.blocks = pre ++ b :: r :: post)
    (hb : b.used = true) (hf : r.used = false) (hl : A.bins r.slot = l₁ ++ r.addr :: l₂) :
    Represents (mergeNext h r.addr) (A.joinNext pre post b r (l₁ ++ l₂)) ∧
    (mergeNext h r.addr).memFree = wrap (sub32 h.memFree (sub32 r.size 12) + 12) ∧
    (mergeNext h r.addr).memUsed = h.memUsed ∧
    (mergeNext h r.addr).memMeta = sub32 h.memMeta 12 ∧
    ∀ c ∈ A.blocks, c.used = true → Keeps h.mem (mergeNext h r.addr).mem c := by
  have hrA : r ∈ A.blocks := by rw [he]; simp
  have hbA : b ∈ A.blocks := by rw [he]; simp
  have hw' := hw.joinNext he hb hf hl
  set A' := A.joinNext pre post b r (l₁ ++ l₂) with hA'
  have hall : A.all.map Block.addr = (A.lo :: pre.map Block.addr ++ [b.addr]) ++
      r.addr :: (post.map Block.addr ++ [A.hi]) := by
    rw [Arena.all_addrs he]
    simp
  have hall' : A'.all.map Block.addr = (A.lo :: pre.map Block.addr ++ [b.addr]) ++
      (post.map Block.addr ++ [A.hi]) := by
    rw [Arena.all_addrs (show A'.blocks = pre ++ b.join r :: post from rfl)]
    simp [hA', Arena.joinNext, Block.join]
  have hmem : ∀ x ∈ A.all.map Block.addr, x ∈ (A.layout hw A.frees (Arena.frees_sub hw)).nodes :=
    Arena.all_mem_layout
  obtain ⟨hrem, h₁, hsh₁⟩ := hr.unlink hw hrA hl
  rw [hall] at hsh₁ hmem
  have h₂ := h₁.dlistRemove (hmem r.addr (by simp))
    (hmem _ (Shape.mem_rotate.mp hsh₁.all_ring.next_mem))
    (hmem _ (Shape.mem_rotate.mp hsh₁.all_ring.prev_mem))
  have hsh₂ := hsh₁.delete
  rw [← hall'] at hsh₂
  unfold mergeNext
  rw [hrem]
  refine ⟨?_, rfl, rfl, rfl, fun c hc hu ↦ Arena.layout_keeps h₂ (Arena.mem_all_of_mem hc)
    (Arena.used_notMem_frees hw (Arena.mem_all_of_mem hc) hu)⟩
  refine Represents.of_surgery A' pre post [b, r] [b.join r] hr hw' (by simp [he])
    (by simp [hA', Arena.joinNext]) rfl rfl h₂ hsh₂
    (fun c hc ↦ ?_) (fun n x hx ↦ Arena.unbin_sub hl hx) (fun c hc ↦ ?_) (fun _ _ ↦ rfl) rfl rfl
    (Represents.head_update hr.head rfl)
  · have hx : c.addr ∈ A.all.map Block.addr := by
      have hx := mem_map_of_mem (f := Block.addr) hc
      rw [hall'] at hx
      exact hall ▸ ((sublist_cons_self _ _).append_left _).subset hx
    obtain ⟨d, hd, hdc⟩ := mem_map.mp hx
    exact ⟨d, hd, hdc⟩
  · rw [mem_singleton.mp hc]
    exact hr.flag b (Arena.mem_all_of_mem hbA)

theorem mergePrev_spec (hr : Represents h A) (hw : A.WF) (he : A.blocks = pre ++ q :: b :: post)
    (hq : q.used = false) (hb : b.used = true)
    (hpost : ∀ c ∈ (post ++ [Block.sentinel A.hi]).head?, c.used = true)
    (hl : A.bins q.slot = l₁ ++ q.addr :: l₂) :
    Represents (mergePrev h b.addr q.addr) (A.joinPrev pre post q b (l₁ ++ l₂)) ∧
    (mergePrev h b.addr q.addr).memFree =
      wrap (wrap (sub32 h.memFree (sub32 q.size 12) + sub32 (q.join b).size 12) + 12) ∧
    (mergePrev h b.addr q.addr).memUsed = h.memUsed ∧
    (mergePrev h b.addr q.addr).memMeta = sub32 h.memMeta 12 ∧
    ∀ c ∈ A.blocks, c.used = true → Keeps h.mem (mergePrev h b.addr q.addr).mem c := by
  have hqA : q ∈ A.blocks := by rw [he]; simp
  have hbA : b ∈ A.blocks := by rw [he]; simp
  have hw' := hw.joinPrev he hq hb hpost hl
  set A' := A.joinPrev pre post q b (l₁ ++ l₂) with hA'
  have hqA' : q.join b ∈ A'.blocks := by simp [hA', Arena.joinPrev]
  have hall : A.all.map Block.addr = (A.lo :: pre.map Block.addr ++ [q.addr]) ++
      b.addr :: (post.map Block.addr ++ [A.hi]) := by
    rw [Arena.all_addrs he]
    simp
  have hall' : A'.all.map Block.addr = (A.lo :: pre.map Block.addr ++ [q.addr]) ++
      (post.map Block.addr ++ [A.hi]) := by
    rw [Arena.all_addrs (show A'.blocks = pre ++ q.join b :: post from rfl)]
    simp [hA', Arena.joinPrev, Block.join]
  have hsub : ∀ x ∈ A'.all.map Block.addr, x ∈ A.all.map Block.addr := fun x hx ↦ by
    rw [hall'] at hx
    exact hall ▸ ((sublist_cons_self _ _).append_left _).subset hx
  have hqf : q.addr ∈ A.frees := ⟨q.slot, by simp [hl]⟩
  have hmem : ∀ x ∈ A.all.map Block.addr, x ∈ (A.layout hw A.frees (Arena.frees_sub hw)).nodes :=
    Arena.all_mem_layout
  obtain ⟨hrem, h₁, hsh₁⟩ := hr.unlink hw hqA hl
  have hqn : q.addr + 12 ∉ A.all.map Block.addr := hw.free_notMem (Arena.mem_all_of_mem hqA)
  rw [hall] at hsh₁
  have hnext := hmem _ (hall ▸ Shape.mem_rotate.mp hsh₁.all_ring.next_mem)
  have hprev := hmem _ (hall ▸ Shape.mem_rotate.mp hsh₁.all_ring.prev_mem)
  have h₂ := h₁.dlistRemove (hmem b.addr (by rw [hall]; simp)) hnext hprev
  have hsh₂ := hsh₁.delete
  have hrq := (Links.Ring.remove_self (links h.mem) (q.addr + 12)).remove_other hsh₁.all_ring
    (fun x hx hxq ↦ hqn (hall ▸ mem_singleton.mp hxq ▸ Shape.mem_rotate.mp hx))
  rw [← hall'] at hsh₂
  have hsize₂ : memoryChunkSize (dlistRemove (dlistRemove h.mem (q.addr + 12)) b.addr) q.addr =
      (q.join b).size :=
    Represents.size_of_ring (h₂.ring hsh₂.all fun x hx ↦ hmem x (hsub x hx)) hw' hqA'
  have hslot₂ := memoryChunkSlot_size (q.join b)
  have hfl₂ : FreeList (A.layout hw A.frees (Arena.frees_sub hw))
      ((links h.mem |>.remove (q.addr + 12)).remove b.addr)
      (update A.bins q.slot (l₁ ++ l₂) (q.join b).slot) :=
    Represents.freeList_unbin hsh₂ hw hl (fun _ hx ↦ Arena.free_mem_layout hx) _
  obtain ⟨m, hpush, h₃⟩ := pushFree_holds (h := { h with
      mem := dlistRemove (dlistRemove h.mem (q.addr + 12)) b.addr
      freeChunk := update h.freeChunk q.slot ((l₁ ++ l₂).headD 0)
      memFree := sub32 h.memFree (sub32 q.size 12) }) hfl₂ hrq (Arena.free_mem_layout hqf) h₂ hsize₂
    (by rw [hslot₂]; exact Represents.head_update hr.head rfl _ (hw'.slot_lt hqA'))
  have hsh₃ := hsh₂.push (n := (q.join b).slot) hrq (fun hx ↦ hqn (hsub _ hx))
    fun _ ↦ hw.notMem_unbin hl
  have hmerge : mergePrev h b.addr q.addr = { h with
      mem := m
      freeChunk := update (update h.freeChunk q.slot ((l₁ ++ l₂).headD 0)) (q.join b).slot q.addr
      memFree := wrap (wrap (sub32 h.memFree (sub32 q.size 12) + sub32 (q.join b).size 12) + 12)
      memMeta := sub32 h.memMeta 12 } := by
    unfold mergePrev
    rw [hrem]
    dsimp only
    rw [hpush, hslot₂]
    rfl
  rw [hmerge]
  refine ⟨?_, rfl, rfl, rfl, fun c hc hu ↦ Arena.layout_keeps h₃ (Arena.mem_all_of_mem hc)
    (Arena.used_notMem_frees hw (Arena.mem_all_of_mem hc) hu)⟩
  refine Represents.of_surgery A' pre post [q, b] [q.join b] hr hw' (by simp [he])
    (by simp [hA', Arena.joinPrev]) rfl rfl h₃ hsh₃
    (fun c hc ↦ ?_) (fun n x hx ↦ ?_) (fun c hc ↦ ?_) (fun _ _ ↦ rfl) rfl rfl
    (Represents.head_update (Represents.head_update hr.head rfl) rfl)
  · obtain ⟨d, hd, hdc⟩ := mem_map.mp (hsub _ (mem_map_of_mem hc))
    exact ⟨d, hd, hdc⟩
  · rcases mem_file hx with rfl | hx
    · exact hqf
    · exact Arena.unbin_sub hl hx
  · rw [mem_singleton.mp hc]
    exact hr.flag q (Arena.mem_all_of_mem hqA)

theorem markFree_spec (hr : Represents h A) (hw : A.WF) (he : A.blocks = pre ++ b :: post)
    (hb : b.used = true) (hpre : ∀ c ∈ (Block.sentinel A.lo :: pre).getLast?, c.used = true)
    (hpost : ∀ c ∈ (post ++ [Block.sentinel A.hi]).head?, c.used = true) :
    Represents (markFree h b.addr) (A.releaseAt pre post b) ∧
    (markFree h b.addr).memFree = wrap (h.memFree + sub32 b.size 12) ∧
    (markFree h b.addr).memUsed = h.memUsed ∧ (markFree h b.addr).memMeta = h.memMeta ∧
    ∀ c ∈ A.blocks, c.used = true → c ≠ b → Keeps h.mem (markFree h b.addr).mem c := by
  have hbA : b ∈ A.blocks := by rw [he]; simp
  have hbm := Arena.mem_all_of_mem hbA
  have hw' := hw.releaseAt he hb hpre hpost
  set A' := A.releaseAt pre post b with hA'
  have hbA' : b.release ∈ A'.blocks := by simp [hA', Arena.releaseAt]
  have hall' : A'.all.map Block.addr = A.all.map Block.addr := by
    rw [Arena.all_addrs he, Arena.all_addrs (show A'.blocks = pre ++ b.release :: post from rfl)]
    rfl
  have hfs : ∀ x ∈ insert b.addr A.frees, ∃ c ∈ A.all, c.addr = x := by
    rintro x (rfl | hx)
    · exact ⟨b, hbm, rfl⟩
    · exact Arena.frees_sub hw x hx
  set Y := A.layout hw _ hfs
  have hfY : b.addr + 12 ∈ Y.nodes := Arena.free_mem_layout (Set.mem_insert _ _)
  have hsh := hr.shape hw
  have hbn := hw.free_notMem hbm
  have hbb : ∀ n, b.addr ∉ A.bins n := fun n hx ↦ Arena.used_notMem_frees hw hbm hb ⟨n, hx⟩
  have h₁ := ((Holds.refl Y h.mem).store_word (Arena.word_mem_layout hbm)
    (show 0 < 2 ^ 32 by decide)).dlistInit hfY
  have hsh₁ := hsh.fresh hbn fun n x hx he ↦ hbb n (by rwa [show b.addr = x by omega])
  have hrb := Links.ring_singleton.mpr ((links h.mem).link_joined (b.addr + 12) (b.addr + 12))
  have hsize : memoryChunkSize (DList.dlistInit (h.mem.store (b.addr + 8) 0) (b.addr + 12)) b.addr =
      b.size :=
    Represents.size_of_ring (h₁.ring hsh₁.all Arena.all_mem_layout) hw hbA
  have hslot := memoryChunkSlot_size b
  have hfl : FreeList Y ((links h.mem).link (b.addr + 12) (b.addr + 12)) (A.bins b.slot) :=
    Represents.freeList hsh₁ hw fun x hx ↦
      Arena.free_mem_layout (Set.mem_insert_of_mem _ ⟨b.slot, hx⟩)
  obtain ⟨m, hpush, h₂⟩ := pushFree_holds (h := { h with
      mem := DList.dlistInit (h.mem.store (b.addr + 8) 0) (b.addr + 12) }) hfl hrb hfY h₁ hsize
    (by rw [hslot]; exact hr.head _ (hw.slot_lt hbA))
  have hsh₂ := hsh₁.push (n := b.slot) hrb hbn hbb
  have hmark : markFree h b.addr = { h with
      mem := m
      freeChunk := update h.freeChunk b.slot b.addr
      memFree := wrap (h.memFree + sub32 b.size 12) } := by
    rw [← hslot]
    exact hpush
  rw [hmark]
  refine ⟨?_, rfl, rfl, rfl, fun c hc hu hcb ↦
    Arena.layout_keeps h₂ (Arena.mem_all_of_mem hc) ?_⟩
  · refine Represents.of_surgery A' pre post [b] [b.release] hr hw' (by simp [he])
      (by simp [hA', Arena.releaseAt]) rfl rfl h₂
      (hall' ▸ hsh₂) (fun c hc ↦ ?_) (fun n x hx ↦ ?_) (fun c hc ↦ ?_) (fun w hw ↦ ?_) rfl rfl
      (Represents.head_update hr.head rfl)
    · obtain ⟨d, hd, hdc⟩ := mem_map.mp (hall' ▸ mem_map_of_mem hc)
      exact ⟨d, hd, hdc⟩
    · rcases mem_file hx with rfl | hx
      · exact Set.mem_insert _ _
      · exact Set.mem_insert_of_mem _ ⟨n, hx⟩
    · rw [mem_singleton.mp hc]
      exact update_self ..
    · exact update_of_ne (hw b.release (mem_singleton_self _)) ..
  · intro hh
    rcases hh with hx | hx
    · exact hcb (hw.eq_of_addr_eq (Arena.mem_all_of_mem hc) hbm hx)
    · exact Arena.used_notMem_frees hw (Arena.mem_all_of_mem hc) hu hx

end OcamlRpi.Memory
