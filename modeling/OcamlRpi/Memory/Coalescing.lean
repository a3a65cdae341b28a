import OcamlRpi.Memory.Chunks

namespace OcamlRpi.Memory

open Support Function List DList

variable {h : Heap} {A A' : Arena} {b : Block} {r : Region} {m : Mem} {c : Client}

/-- Between two consecutive used chunks of the ring `all` there is nothing, or
one free chunk that fills the gap. -/
def GapsFilled (m : Mem) (all : List ℕ) : Prop :=
  ∀ p a b q, all.filter (fun x ↦ isUsed m x) = p ++ a :: b :: q →
    (∃ p' q', all = p' ++ a :: b :: q' ∧ chunkEnd m a = b) ∨
      ∃ f p' q', all = p' ++ a :: f :: b :: q' ∧ isUsed m f = false ∧ chunkEnd m a = f ∧
        chunkEnd m f = b

theorem Represents.chunkEnd_next {pre post : List Block} {d : Block} (hr : Represents h A)
    (hw : A.WF) (he : A.all = pre ++ b :: d :: post) : chunkEnd h.mem b.addr = b.stop := by
  rw [chunkEnd, size_of_next hr.all hw he]
  rfl

theorem Represents.filter_all (hr : Represents h A) :
    (A.all.map Block.addr).filter (fun x ↦ isUsed h.mem x) =
      (A.all.filter Block.used).map Block.addr := by
  rw [filter_map]
  congr 1
  exact filter_congr fun b hb ↦ hr.isUsed_eq hb

theorem Represents.gapsFilled (hr : Represents h A) (hw : A.WF) :
    GapsFilled h.mem (A.all.map Block.addr) := by
  intro p a d q he
  rw [hr.filter_all] at he
  obtain ⟨p₁, k₁, hk₁, rfl, h₁⟩ := map_eq_append_iff.mp he
  obtain ⟨u, k₂, rfl, rfl, h₂⟩ := map_eq_cons_iff.mp h₁
  obtain ⟨v, q₁, rfl, rfl, rfl⟩ := map_eq_cons_iff.mp h₂
  rcases hw.tiles.consecutive hw.coalesced hk₁ with ⟨p', q', hall, hs⟩ | ⟨f, p', q', hall, hf, hs, hs'⟩
  · refine .inl ⟨p'.map Block.addr, q'.map Block.addr, by simp [hall], ?_⟩
    rw [hr.chunkEnd_next hw hall, hs]
  · have hall' : A.all = (p' ++ [u]) ++ f :: v :: q' := by simp [hall]
    refine .inr ⟨f.addr, p'.map Block.addr, q'.map Block.addr, by simp [hall], ?_, ?_, ?_⟩
    · rw [hr.isUsed_eq (by simp [hall]), hf]
    · rw [hr.chunkEnd_next hw hall, hs]
    · rw [hr.chunkEnd_next hw hall', hs']

theorem Represents.no_free_pair (hr : Represents h A) (hw : A.WF) :
    IsChain (fun a b ↦ isUsed h.mem a ∨ isUsed h.mem b) (A.all.map Block.addr) := by
  rw [isChain_map]
  refine Links.isChain_congr hw.coalesced fun b hb d hd hbd ↦ ?_
  rw [hr.isUsed_eq hb, hr.isUsed_eq hd]
  exact hbd

theorem Arena.blocks_eq (hw : A.WF) (hw' : A'.WF) (hlo : A.lo = A'.lo) (hhi : A.hi = A'.hi)
    (hu : A.used = A'.used) : A.blocks = A'.blocks := by
  have ht := hw'.blocks_tile
  rw [← hlo, ← hhi] at ht
  refine Tiles.eq_of_filter_eq (fun b d hb hd hs he ↦ ?_) hw.blocks_tile ht ?_ ?_ hu
  · simp only [Block.stop] at he
    exact Block.ext hs (by omega) (hb.trans hd.symm)
  · exact hw.coalesced.tail.left_of_append
  · exact hw'.coalesced.tail.left_of_append

namespace Client

/-- Blocks in use can be freed one after the other. -/
theorem Inv.run_free (h : c.Inv r A) {ps : List ℕ} (hnd : ps.Nodup)
    (hsub : ps ⊆ c.live.map Handle.ptr) :
    ∃ c' A', run step c (ps.map .free) = some c' ∧ c'.Inv r A' ∧
      A'.used = A.used.filter (·.payload ∉ ps) := by
  induction ps generalizing c A with
  | nil => exact ⟨c, A, rfl, h, by simp⟩
  | cons p ps ih =>
    obtain ⟨hp, hnd⟩ := nodup_cons.mp hnd
    have hpl : p ∈ c.live.map Handle.ptr := hsub mem_cons_self
    obtain ⟨b, hb, hbp⟩ := mem_map.mp hpl
    have hstep : c.step (.free p) = some ⟨Memory.free c.heap p, c.live.filter (·.ptr ≠ p)⟩ := by
      simp only [step, if_pos (Or.inr hpl)]
    obtain ⟨A₁, -, -, -, hI₁, -, hu₁, -⟩ := h.free (hbp ▸ h.ptr_ne_zero hb) hstep
    have hsub₁ : ps ⊆ (c.live.filter (·.ptr ≠ p)).map Handle.ptr := by
      intro q hq
      obtain ⟨d, hd, rfl⟩ := mem_map.mp (hsub (mem_cons_of_mem p hq))
      have hne : d.ptr ≠ p := fun he ↦ hp (he ▸ hq)
      exact mem_map_of_mem (mem_filter.mpr ⟨hd, decide_eq_true hne⟩)
    obtain ⟨c', A', hrun, hI', hu'⟩ := ih hI₁ hnd hsub₁
    refine ⟨c', A', run_cons.mpr ⟨_, hstep, hrun⟩, hI', ?_⟩
    rw [hu', hu₁, filter_filter]
    exact filter_congr fun d _ ↦ by simp [not_or, Bool.and_comm]

end Client

theorem same_ring {c₁ c₂ : Client} {A₁ A₂ : Arena} (h₁ : c₁.Inv r A₁) (h₂ : c₂.Inv r A₂)
    (hu : A₁.used = A₂.used) : ∃ cs, Tiled r c₁ cs ∧ Tiled r c₂ cs ∧ ∀ a ∈ cs,
      isUsed c₁.heap.mem a = isUsed c₂.heap.mem a ∧
        memoryChunkSize c₁.heap.mem a = memoryChunkSize c₂.heap.mem a := by
  have he := Arena.blocks_eq h₁.wf h₂.wf (h₁.lo.trans h₂.lo.symm) (h₁.hi.trans h₂.hi.symm) hu
  refine ⟨_, h₁.tiled, he ▸ h₂.tiled, fun a ha ↦ ?_⟩
  obtain ⟨b, hb, rfl⟩ := mem_map.mp ha
  have hb₂ : b ∈ A₂.blocks := he ▸ hb
  rw [h₁.rep.isUsed_eq (Arena.mem_all_of_mem hb), h₂.rep.isUsed_eq (Arena.mem_all_of_mem hb₂),
    Represents.size_of_ring h₁.rep.all h₁.wf hb, Represents.size_of_ring h₂.rep.all h₂.wf hb₂]
  exact ⟨rfl, rfl⟩

/-- Free chunks are merged completely: they fill exactly the gaps between the
used ones, whatever the order in which blocks were freed. -/
theorem free_chunks_coalesced (hc : Client.Reachable r m c) :
    (∃ cs, let all := c.heap.first :: (cs ++ [c.heap.last])
      Tiled r c cs ∧ IsChain (fun a b ↦ isUsed c.heap.mem a ∨ isUsed c.heap.mem b) all ∧
      GapsFilled c.heap.mem all) ∧
    (∀ ps qs : List ℕ, ps.Nodup → ps ⊆ c.live.map Handle.ptr → qs.Perm ps → ∃ c₁ c₂ cs,
      run Client.step c (ps.map .free) = some c₁ ∧ run Client.step c (qs.map .free) = some c₂ ∧
      Tiled r c₁ cs ∧ Tiled r c₂ cs ∧ ∀ a ∈ cs,
        isUsed c₁.heap.mem a = isUsed c₂.heap.mem a ∧
          memoryChunkSize c₁.heap.mem a = memoryChunkSize c₂.heap.mem a) ∧
    (c.live = [] → let second := (Client.init r m).heap.first + CHUNK_SIZE
      Tiled r (Client.init r m) [second] ∧ Tiled r c [second] ∧
      isUsed c.heap.mem second = false ∧ memoryChunkSize c.heap.mem second =
        memoryChunkSize (Client.init r m).heap.mem second) := by
  obtain ⟨A, hI⟩ := hc.inv
  refine ⟨?_, fun ps qs hnd hsub hperm ↦ ?_, fun hlive ↦ ?_⟩
  · refine ⟨_, hI.tiled, ?_⟩
    rw [hI.rep.ring_eq]
    exact ⟨hI.rep.no_free_pair hI.wf, hI.rep.gapsFilled hI.wf⟩
  · obtain ⟨c₁, A₁, hr₁, hI₁, hu₁⟩ := hI.run_free hnd hsub
    obtain ⟨c₂, A₂, hr₂, hI₂, hu₂⟩ := hI.run_free (hperm.nodup_iff.mpr hnd)
      (fun q hq ↦ hsub (hperm.mem_iff.mp hq))
    have hu : A₁.used = A₂.used := by
      rw [hu₁, hu₂]
      exact filter_congr fun b _ ↦ by simp [hperm.mem_iff]
    obtain ⟨cs, ht₁, ht₂, hsame⟩ := same_ring hI₁ hI₂ hu
    exact ⟨c₁, c₂, cs, hr₁, hr₂, ht₁, ht₂, hsame⟩
  · have hI₀ := Client.Inv.of_init r m
    have hnil : A.used = [] := by
      have hx := hI.live
      rw [hlive, map_nil, perm_nil, map_eq_nil_iff] at hx
      exact hx
    have hfirst : (Client.init r m).heap.first = r.lo := hI₀.rep.first
    have hmem : r.block ∈ r.arena.blocks := by simp [Region.arena]
    have he : A.blocks = [r.block] := Arena.blocks_eq hI.wf hI₀.wf hI.lo hI.hi hnil
    have hbA : r.block ∈ A.blocks := by simp [he]
    have hsize := Represents.size_of_ring hI.rep.all hI.wf hbA
    have hsize₀ := Represents.size_of_ring hI₀.rep.all hI₀.wf hmem
    have hused := hI.rep.isUsed_eq (Arena.mem_all_of_mem hbA)
    have ht := hI.tiled
    rw [he] at ht
    rw [hfirst]
    exact ⟨hI₀.tiled, ht, hused, hsize.trans hsize₀.symm⟩

theorem free_chunks_coalesced_small :
    let c := Client.after .small (fun _ ↦ 0) [.malloc 12, .malloc 9, .free 4128]
    (∃ cs, let all := c.heap.first :: (cs ++ [c.heap.last])
      Tiled .small c cs ∧ GapsFilled c.heap.mem all) ∧ c.live ≠ [] :=
  ⟨(free_chunks_coalesced (Client.reachable_after _ _ _)).1.imp fun _ h ↦ ⟨h.1, h.2.2⟩,
    by decide +kernel⟩

end OcamlRpi.Memory
