import OcamlRpi.Memory.Represents

namespace OcamlRpi.Memory

open Support Function List DList

variable {h : Heap} {A : Arena} {pre post : List Block} {b : Block} {l : List ℕ} {size : ℕ}

theorem Arena.claimAt_all (he : A.blocks = pre ++ b :: post) :
    (A.claimAt pre post b l).all.map Block.addr = A.all.map Block.addr := by
  simp [Arena.all, Arena.claimAt, he, Block.claim]

/-- An exact fit, or too little over for another chunk. -/
theorem takeChunk_whole (hr : Represents h A) (hw : A.WF) (he : A.blocks = pre ++ b :: post)
    (hb : b.used = false) (hl : A.bins b.slot = [] ++ b.addr :: l) (hs : b.size < wrap (size + 20)) :
    (takeChunk h b.slot size).2 = b.payload ∧
    Represents (takeChunk h b.slot size).1 (A.claimAt pre post b l) ∧
    (takeChunk h b.slot size).1.memFree = sub32 h.memFree b.size ∧
    (takeChunk h b.slot size).1.memUsed = wrap (h.memUsed + sub32 b.size 12) ∧
    (takeChunk h b.slot size).1.memMeta = h.memMeta ∧
    ∀ c ∈ A.blocks, c.used = true → Keeps h.mem (takeChunk h b.slot size).1.mem c := by
  have hbA : b ∈ A.blocks := by rw [he]; simp
  have hw' := hw.claimAt he hb hl
  have hfl := hr.ownList hw hl
  have h₀ := Holds.refl (A.layout hw A.frees (Arena.frees_sub hw)) h.mem
  obtain ⟨-, h₁, hsh₁⟩ := hr.unlink hw hbA hl
  have hsize : memoryChunkSize (dlistRemove h.mem (b.addr + 12)) b.addr = b.size :=
    Represents.size_of_ring (h₁.ring hsh₁.all Arena.all_mem_layout) hw hbA
  have h₂ := h₁.store_word (Arena.word_mem_layout (Arena.mem_all_of_mem hbA))
    (show 1 < 2 ^ 32 by decide)
  have hhead : h.freeChunk b.slot = b.addr := by rw [hr.head b.slot (hw.slot_lt hbA), hl]; rfl
  have htake : takeChunk h b.slot size = ({ h with
      mem := (dlistRemove h.mem (b.addr + 12)).store (b.addr + 8) 1
      freeChunk := update h.freeChunk b.slot (l.headD 0)
      memFree := sub32 h.memFree b.size
      memUsed := wrap (h.memUsed + sub32 (sub32 b.size 0) 12) }, b.payload) := by
    unfold takeChunk
    rw [hhead, DLIST_POP_eq hfl h₀]
    dsimp only
    rw [hsize, if_neg (show ¬ wrap (size + CHUNK_SIZE) ≤ b.size from not_le.mpr hs)]
    rfl
  rw [htake, sub32_of_le (Nat.zero_le b.size) (hw.size_lt hbA)]
  refine ⟨rfl, ?_, rfl, rfl, rfl, fun c hc hu ↦ Arena.layout_keeps h₂ (Arena.mem_all_of_mem hc)
    (Arena.used_notMem_frees hw (Arena.mem_all_of_mem hc) hu)⟩
  refine Represents.of_surgery (A.claimAt pre post b l) pre post [b] [b.claim] hr hw'
    (by simp [he]) (by simp [Arena.claimAt]) rfl rfl h₂ ?_ (fun c hc ↦ ?_) (fun n x hx ↦ ?_)
    (fun c hc ↦ ?_) (fun w hne ↦ update_of_ne (hne b.claim (mem_singleton_self _)) _ _) rfl rfl
    (Represents.head_update hr.head rfl)
  · rw [Arena.claimAt_all he]
    exact hsh₁
  · have hx : c.addr ∈ A.all.map Block.addr := Arena.claimAt_all he ▸ mem_map_of_mem hc
    obtain ⟨d, hd, hdc⟩ := mem_map.mp hx
    exact ⟨d, hd, hdc⟩
  · exact Arena.unbin_sub hl hx
  · rw [mem_singleton.mp hc]
    simp [Block.claim]

section Split

variable {s : ℕ} (h₈ : 8 ≤ s) (h₄ : 4 ∣ s) (hs : s + 20 ≤ b.size)

theorem Arena.splitAt_all : (A.splitAt pre post b l s h₈ h₄ hs).all.map Block.addr =
    (A.lo :: pre.map Block.addr) ++ b.addr :: (b.rest s h₄ hs).addr ::
      (post.map Block.addr ++ [A.hi]) := by
  simp [Arena.all, Arena.splitAt, Block.front, Block.sentinel]

theorem Arena.splitAt_all_sub (he : A.blocks = pre ++ b :: post) {x : ℕ}
    (hx : x ∈ A.all.map Block.addr) : x ∈ (A.splitAt pre post b l s h₈ h₄ hs).all.map Block.addr := by
  rw [Arena.all_addrs he] at hx
  rw [Arena.splitAt_all]
  exact ((sublist_cons_self _ _).cons_cons _ |>.append_left _).subset hx

/-- The chunks of the new arena hold the free links of all the old free
chunks and of the new one. -/
theorem Arena.splitAt_frees_sub (hw : A.WF) (he : A.blocks = pre ++ b :: post) :
    ∀ x ∈ insert (b.rest s h₄ hs).addr A.frees,
      ∃ c ∈ (A.splitAt pre post b l s h₈ h₄ hs).all, c.addr = x := by
  intro x hx
  have hm : x ∈ (A.splitAt pre post b l s h₈ h₄ hs).all.map Block.addr := by
    rcases Set.mem_insert_iff.mp hx with rfl | hx
    · rw [Arena.splitAt_all]
      simp
    · exact Arena.splitAt_all_sub h₈ h₄ hs he (mem_map.mpr (Arena.frees_sub hw x hx))
  exact mem_map.mp hm

include h₈ in
/-- The new chunk lies clear of all old headers and free links. -/
theorem rest_apart (hw : A.WF) (he : A.blocks = pre ++ b :: post) : ∀ c ∈ A.all,
    (b.rest s h₄ hs).addr ≠ c.addr ∧ c.addr + 12 ≠ (b.rest s h₄ hs).addr ∧
      (b.rest s h₄ hs).addr + 12 ≠ c.addr := by
  intro c hc
  have hbA : b ∈ A.all := Arena.mem_all_of_mem (by rw [he]; simp)
  have hr : (b.rest s h₄ hs).addr = b.addr + 12 + s := rfl
  have hc' := c.addr_add_le_stop
  have hb' : b.stop = b.addr + 12 + b.size := rfl
  by_cases hbc : b = c
  · subst hbc
    omega
  · rcases hw.tiles.apart hbA hc hbc with hx | hx <;> omega

include h₈ in
theorem rest_notMem_all (hw : A.WF) (he : A.blocks = pre ++ b :: post) :
    (b.rest s h₄ hs).addr ∉ A.all.map Block.addr ∧ (b.rest s h₄ hs).addr + 12 ∉ A.all.map Block.addr := by
  constructor
  · intro hx
    obtain ⟨d, hd, hdc⟩ := mem_map.mp hx
    exact (rest_apart h₈ h₄ hs hw he d hd).1 hdc.symm
  · intro hx
    obtain ⟨d, hd, hdc⟩ := mem_map.mp hx
    exact (rest_apart h₈ h₄ hs hw he d hd).2.2 hdc.symm

include h₈ in
theorem rest_ne_free (hw : A.WF) (he : A.blocks = pre ++ b :: post) {x : ℕ} (hx : x ∈ A.frees) :
    x ≠ (b.rest s h₄ hs).addr ∧ x + 12 ≠ (b.rest s h₄ hs).addr := by
  obtain ⟨d, hd, rfl⟩ := Arena.frees_sub hw x hx
  obtain ⟨hne, hfree, -⟩ := rest_apart h₈ h₄ hs hw he d hd
  exact ⟨hne.symm, hfree⟩

theorem splitChunk_holds {g : Heap} {m₀ : Mem} {L : Links ℕ} {f : ℕ → ℕ} (hw : A.WF)
    (he : A.blocks = pre ++ b :: post) (hb : b.used = false) (hl : A.bins b.slot = [] ++ b.addr :: l)
    (hm : Holds ((A.splitAt pre post b l s h₈ h₄ hs).layout (hw.splitAt h₈ h₄ hs he hb hl)
      _ (Arena.splitAt_frees_sub h₈ h₄ hs hw he)) m₀ L f g.mem)
    (hsh : Shape L (A.all.map Block.addr) (update A.bins b.slot l))
    (hhead : ∀ n : ℕ, n < 32 → g.freeChunk n = (update A.bins b.slot l n).headD 0) :
    ∃ m L', splitChunk g b.addr s = ({ g with
        mem := m
        freeChunk := update g.freeChunk (b.rest s h₄ hs).slot (b.rest s h₄ hs).addr
        memMeta := wrap (g.memMeta + 12)
        memFree := wrap (g.memFree + sub32 (b.rest s h₄ hs).size 12) }, (b.rest s h₄ hs).size) ∧
      Holds ((A.splitAt pre post b l s h₈ h₄ hs).layout (hw.splitAt h₈ h₄ hs he hb hl)
        _ (Arena.splitAt_frees_sub h₈ h₄ hs hw he)) m₀ L' (update f ((b.rest s h₄ hs).addr + 8) 0) m ∧
      Shape L' ((A.splitAt pre post b l s h₈ h₄ hs).all.map Block.addr)
        (A.splitAt pre post b l s h₈ h₄ hs).bins := by
  have hw' := hw.splitAt h₈ h₄ hs he hb hl
  set A' := A.splitAt pre post b l s h₈ h₄ hs with hA'
  set c := b.rest s h₄ hs with hc
  have hcA' : c ∈ A'.blocks := by simp [hA', Arena.splitAt, hc]
  set Y := A'.layout hw' _ (Arena.splitAt_frees_sub h₈ h₄ hs hw he)
  have hcY : c.addr ∈ Y.nodes := Arena.addr_mem_layout (Arena.mem_all_of_mem hcA')
  have hcw : c.addr + 8 ∈ Y.words := Arena.word_mem_layout (Arena.mem_all_of_mem hcA')
  have hcf : c.addr + 12 ∈ Y.nodes := Arena.free_mem_layout (Set.mem_insert c.addr A.frees)
  obtain ⟨hca, hfa⟩ := rest_notMem_all h₈ h₄ hs hw he
  have hne : ∀ k, ∀ x ∈ update A.bins b.slot l k, x ≠ c.addr ∧ x + 12 ≠ c.addr :=
    fun k x hx ↦ rest_ne_free h₈ h₄ hs hw he (Arena.unbin_sub hl hx)
  have hcb : ∀ k, ∀ x ∈ update A.bins b.slot l k, x + 12 ≠ c.addr := fun k x hx ↦ (hne k x hx).2
  have hmem : ∀ x ∈ A.all.map Block.addr, x ∈ Y.nodes :=
    fun x hx ↦ Arena.all_mem_layout x (Arena.splitAt_all_sub h₈ h₄ hs he hx)
  -- the new chunk as `memory_chunk_init` leaves it
  have h₁ := memoryChunkInit_holds hm hcY hcw hcf
  have hs₁ := (hsh.fresh hca hcb).fresh hfa fun k x hx hxc ↦ (hne k x hx).1 (Nat.add_right_cancel hxc)
  set L₁ := (L.link c.addr c.addr).link (c.addr + 12) (c.addr + 12) with hL₁
  have hrc : L₁.Ring [c.addr] := Links.ring_singleton.mpr
    ((Links.link_joined _ _ _).link (by omega) (by omega))
  have hrf : L₁.Ring [c.addr + 12] := Links.ring_singleton.mpr (Links.link_joined _ _ _)
  rw [Arena.all_addrs he] at hs₁ hca hmem hfa
  -- the new chunk in the ring
  have h₂ := h₁.dlistInsertAfter (hmem b.addr (by simp)) hcY
    (hmem _ (Shape.mem_rotate.mp hs₁.all_ring.next_mem))
    (by rw [(Links.ring_singleton.mp hrc).2]; exact hcY)
  have hs₂ := hs₁.insert hrc hca hcb
  have hall : A'.all.map Block.addr = (A.lo :: pre.map Block.addr) ++ b.addr :: c.addr ::
      (post.map Block.addr ++ [A.hi]) := Arena.splitAt_all h₈ h₄ hs
  rw [← hall] at hs₂
  set L₂ := L₁.insertAfter b.addr c.addr
  set m₂ := dlistInsertAfter (memoryChunkInit g.mem c.addr) b.addr c.addr
  have hsize : memoryChunkSize m₂ c.addr = c.size :=
    Represents.size_of_ring (h₂.ring hs₂.all Arena.all_mem_layout) hw' hcA'
  have hslot := memoryChunkSlot_size c
  have hrf₂ : L₂.Ring [c.addr + 12] :=
    hrf.insertAfter_other hs₁.all_ring hrc
      (fun x hx hxf ↦ hfa (mem_singleton.mp hxf ▸ Shape.mem_rotate.mp hx)) (by simp)
  have hfl : FreeList Y L₂ (update A.bins b.slot l c.slot) :=
    Represents.freeList_unbin hs₂ hw hl
      (fun x hx ↦ Arena.free_mem_layout (Set.mem_insert_of_mem _ hx)) _
  obtain ⟨m, hpush, h₃⟩ := pushSlot_holds (h := { g with mem := m₂ }) (n := (c.slot : ℤ)) hfl hrf₂
    hcf h₂ (hhead c.slot (hw'.slot_lt hcA'))
  have hca' := hw'.free_notMem (Arena.mem_all_of_mem hcA')
  have hcl : ∀ k, c.addr ∉ update A.bins b.slot l k := fun k hx ↦ (hne k _ hx).1 rfl
  refine ⟨m, _, ?_, h₃, hs₂.push hrf₂ hca' hcl⟩
  have hadd : wrap (b.addr + HEADER_SIZE + s) = c.addr := Nat.mod_eq_of_lt
    (show c.addr < 2 ^ 32 by have h := hw'.all_addr_lt (Arena.mem_all_of_mem hcA'); omega)
  unfold splitChunk
  rw [hadd]
  dsimp only
  rw [hsize, hslot, hpush]
  rfl

theorem takeChunk_split (hr : Represents h A) (hw : A.WF) (he : A.blocks = pre ++ b :: post)
    (hb : b.used = false) (hl : A.bins b.slot = [] ++ b.addr :: l) :
    (takeChunk h b.slot s).2 = b.payload ∧
    Represents (takeChunk h b.slot s).1 (A.splitAt pre post b l s h₈ h₄ hs) ∧
    (takeChunk h b.slot s).1.memFree =
      sub32 (wrap (h.memFree + sub32 (b.rest s h₄ hs).size 12)) b.size ∧
    (takeChunk h b.slot s).1.memUsed = wrap (h.memUsed + s) ∧
    (takeChunk h b.slot s).1.memMeta = wrap (h.memMeta + 12) ∧
    ∀ c ∈ A.blocks, c.used = true → Keeps h.mem (takeChunk h b.slot s).1.mem c := by
  have hbA : b ∈ A.blocks := by rw [he]; simp
  have hw' := hw.splitAt h₈ h₄ hs he hb hl
  have hlt := hw.size_lt hbA
  set Y := (A.splitAt pre post b l s h₈ h₄ hs).layout hw' _ (Arena.splitAt_frees_sub h₈ h₄ hs hw he)
  have hbA' : b.front s h₈ h₄ ∈ (A.splitAt pre post b l s h₈ h₄ hs).all :=
    Arena.mem_all_of_mem (by simp [Arena.splitAt])
  have hsh := hr.shape hw
  have hfl : FreeList Y (links h.mem) ([] ++ b.addr :: l) :=
    hl ▸ Represents.freeList hsh hw fun x hx ↦
      Arena.free_mem_layout (Set.mem_insert_of_mem _ ⟨b.slot, hx⟩)
  have h₀ := Holds.refl Y h.mem
  have h₁ := hfl.remove h₀
  have hsh₁ := hsh.unbin hl
  have hsize : memoryChunkSize (dlistRemove h.mem (b.addr + 12)) b.addr = b.size :=
    Represents.size_of_ring (h₁.ring hsh₁.all fun x hx ↦
      Arena.all_mem_layout x (Arena.splitAt_all_sub h₈ h₄ hs he hx)) hw hbA
  obtain ⟨m, L, hsplit, h₂, hsh₂⟩ := splitChunk_holds h₈ h₄ hs
    (g := { h with
      mem := dlistRemove h.mem (b.addr + 12)
      freeChunk := update h.freeChunk b.slot (l.headD 0) })
    hw he hb hl h₁ hsh₁ (Represents.head_update hr.head rfl)
  have h₃ := h₂.store_word (Arena.word_mem_layout hbA') (show 1 < 2 ^ 32 by decide)
  have hhead : h.freeChunk b.slot = b.addr := by rw [hr.head b.slot (hw.slot_lt hbA), hl]; rfl
  have hfit : wrap (s + CHUNK_SIZE) ≤ b.size := (Nat.mod_le _ _).trans hs
  have hcut : sub32 (sub32 b.size (b.rest s h₄ hs).size) 12 = s := by
    show sub32 (sub32 b.size (b.size - (s + 12))) 12 = s
    rw [sub32_of_le (by omega) hlt, sub32_of_le (by omega) (by omega)]
    omega
  have htake : takeChunk h b.slot s = ({ h with
      mem := m.store (b.addr + 8) 1
      freeChunk := update (update h.freeChunk b.slot (l.headD 0)) (b.rest s h₄ hs).slot
        (b.rest s h₄ hs).addr
      memFree := sub32 (wrap (h.memFree + sub32 (b.rest s h₄ hs).size 12)) b.size
      memUsed := wrap (h.memUsed + s)
      memMeta := wrap (h.memMeta + 12) }, b.payload) := by
    unfold takeChunk
    rw [hhead, DLIST_POP_eq hfl h₀]
    dsimp only
    rw [hsize, if_pos hfit, hsplit]
    dsimp only
    rw [show HEADER_SIZE = 12 from rfl, hcut]
    rfl
  rw [htake]
  refine ⟨rfl, ?_, rfl, rfl, rfl, fun c hc hu ↦ ?_⟩
  · refine Represents.of_surgery (A.splitAt pre post b l s h₈ h₄ hs) pre post [b]
      [b.front s h₈ h₄, b.rest s h₄ hs] hr hw' (by simp [he])
      (by simp [Arena.splitAt]) rfl rfl h₃ hsh₂ (fun c hc ↦ ⟨c, hc, rfl⟩) (fun n x hx ↦ ?_)
      (fun c hc ↦ ?_) (fun w hne ↦ ?_) rfl rfl
      (Represents.head_update (Represents.head_update hr.head rfl) rfl)
    · rcases mem_file hx with rfl | hx
      · exact Set.mem_insert _ _
      · exact Set.mem_insert_of_mem _ (Arena.unbin_sub hl hx)
    · have hne : (b.rest s h₄ hs).addr + 8 ≠ (b.front s h₈ h₄).addr + 8 := by
        show b.addr + 12 + s + 8 ≠ b.addr + 8
        omega
      rcases mem_pair.mp hc with rfl | rfl
      · exact update_self ..
      · rw [update_of_ne hne, update_self]
        rfl
    · rw [update_of_ne (hne (b.front s h₈ h₄) (by simp)), update_of_ne (hne (b.rest s h₄ hs) (by simp))]
  · have hcA := Arena.mem_all_of_mem hc
    have hcA' : c ∈ (A.splitAt pre post b l s h₈ h₄ hs).all := by
      refine Arena.mem_all_of_mem ?_
      rw [he] at hc
      simp only [Arena.splitAt, mem_append, mem_cons] at hc ⊢
      rcases hc with hc | rfl | hc
      · exact .inl hc
      · rw [hb] at hu
        cases hu
      · exact .inr (.inr (.inr hc))
    refine Arena.layout_keeps h₃ hcA' ?_
    intro hh
    rcases hh with hcr | hcf
    · exact (rest_apart h₈ h₄ hs hw he c hcA).1 hcr.symm
    · exact Arena.used_notMem_frees hw hcA hu hcf

end Split

end OcamlRpi.Memory
