import OcamlRpi.Memory.FreeList
import OcamlRpi.Memory.Slot
import OcamlRpi.Memory.Surgery

namespace OcamlRpi.Memory

open Support Function List DList

/-- The memory and the static variables of `h` hold the arena `A`. -/
structure Represents (h : Heap) (A : Arena) : Prop where
  first : h.first = A.lo
  last : h.last = A.hi
  all : (links h.mem).Ring (A.all.map Block.addr)
  bin : ∀ n, (links h.mem).Ring ((A.bins n).map (· + 12))
  flag : ∀ b ∈ A.all, h.mem.load (b.addr + 8) = b.used.toNat
  head : ∀ n : ℕ, n < 32 → h.freeChunk n = (A.bins n).headD 0

/-- The payload of `c` has the same bytes in both memories. -/
def Keeps (m m' : Mem) (c : Block) : Prop := ∀ x, c.payload ≤ x → x < c.stop → m' x = m x

theorem Keeps.trans {m m' m'' : Mem} {c : Block} (h : Keeps m m' c) (h' : Keeps m' m'' c) :
    Keeps m m'' c := fun x hx hx' ↦ (h' x hx hx').trans (h x hx hx')

namespace Arena

/-- The header of every chunk, and the free links of the chunks in `fs`. -/
def layout (A : Arena) (h : A.WF) (fs : Set ℕ) (hf : ∀ x ∈ fs, ∃ b ∈ A.all, b.addr = x) : Layout where
  nodes := {d | (∃ b ∈ A.all, b.addr = d) ∨ ∃ x ∈ fs, x + 12 = d}
  words := {w | ∃ b ∈ A.all, b.addr + 8 = w}
  node_top := by
    rintro d (⟨b, hb, rfl⟩ | ⟨x, hx, rfl⟩)
    · have hb := h.all_addr_lt hb
      omega
    · obtain ⟨b, hb, rfl⟩ := hf x hx
      have hb := h.all_addr_lt hb
      omega
  nodes_apart := by
    rintro d (⟨b, hb, rfl⟩ | ⟨x, hx, rfl⟩) e (⟨c, hc, rfl⟩ | ⟨y, hy, rfl⟩) hne
    · have hbc := h.spaced hb hc
      omega
    · obtain ⟨c, hc, rfl⟩ := hf y hy
      have hbc := h.spaced hb hc
      omega
    · obtain ⟨b, hb, rfl⟩ := hf x hx
      have hbc := h.spaced hb hc
      omega
    · obtain ⟨b, hb, rfl⟩ := hf x hx
      obtain ⟨c, hc, rfl⟩ := hf y hy
      have hbc := h.spaced hb hc
      omega
  words_apart := by
    rintro w ⟨b, hb, rfl⟩ v ⟨c, hc, rfl⟩ hne
    have hbc := h.spaced hb hc
    omega
  apart := by
    rintro d (⟨b, hb, rfl⟩ | ⟨x, hx, rfl⟩) w ⟨c, hc, rfl⟩
    · have hbc := h.spaced hb hc
      omega
    · obtain ⟨b, hb, rfl⟩ := hf x hx
      have hbc := h.spaced hb hc
      omega

variable {A B : Arena} {b c : Block} {fs : Set ℕ} {hw : A.WF} {n : ℕ}
  {hf : ∀ x ∈ fs, ∃ b ∈ A.all, b.addr = x}

theorem layout_outside (hc : c ∈ A.all) (hcf : c.addr ∉ fs) {x : ℕ} (hx : c.payload ≤ x)
    (hx' : x < c.stop) : (A.layout hw fs hf).Outside x := by
  have hapart : ∀ b ∈ A.all, b = c ∨ b.addr + 20 ≤ c.addr ∨ c.stop ≤ b.addr := by
    intro b hb
    by_cases he : b = c
    · exact .inl he
    · have hb' := b.addr_add_le_stop
      rcases hw.tiles.apart hb hc he with hs | hs <;> omega
  simp only [Block.payload] at hx
  constructor
  · rintro d (⟨b, hb, rfl⟩ | ⟨y, hy, rfl⟩)
    · rcases hapart b hb with rfl | hk <;> omega
    · obtain ⟨b, hb, rfl⟩ := hf y hy
      rcases hapart b hb with rfl | hk
      · exact absurd hy hcf
      · omega
  · rintro w ⟨b, hb, rfl⟩
    rcases hapart b hb with rfl | hk <;> omega

theorem addr_mem_layout (hb : b ∈ A.all) : b.addr ∈ (A.layout hw fs hf).nodes := .inl ⟨b, hb, rfl⟩

theorem all_mem_layout : ∀ x ∈ A.all.map Block.addr, x ∈ (A.layout hw fs hf).nodes := by
  intro x hx
  obtain ⟨b, hb, rfl⟩ := mem_map.mp hx
  exact addr_mem_layout hb

theorem word_mem_layout (hb : b ∈ A.all) : b.addr + 8 ∈ (A.layout hw fs hf).words := ⟨b, hb, rfl⟩

theorem free_mem_layout {x : ℕ} (hx : x ∈ fs) : x + 12 ∈ (A.layout hw fs hf).nodes :=
  .inr ⟨x, hx, rfl⟩

theorem layout_keeps {m m' : Mem} {L : Links ℕ} {f : ℕ → ℕ} (hm : Holds (A.layout hw fs hf) m L f m')
    (hc : c ∈ A.all) (hcf : c.addr ∉ fs) : Keeps m m' c :=
  fun x hx hx' ↦ hm.frame x (layout_outside hc hcf hx hx')

end Arena

theorem memoryChunkSlot_size (b : Block) : memoryChunkSlot b.size = b.slot := by
  have hb := b.size_ge
  exact memoryChunkSlot_eq (by omega)

namespace Represents

variable {h h' : Heap} {A : Arena} {Y : Layout} {L : Links ℕ} {f : ℕ → ℕ} {b c : Block} {n : ℕ}
  {l₁ l₂ : List ℕ}

theorem shape (hr : Represents h A) (hw : A.WF) :
    Shape (links h.mem) (A.all.map Block.addr) A.bins where
  all := hr.all
  bin := hr.bin
  apart n a ha := by
    obtain ⟨b, hb, -, -, rfl⟩ := hw.mem_bins.mp ha
    exact hw.free_notMem (Arena.mem_all_of_mem hb)
  disjoint n k hnk := hw.bins_disjoint hnk

theorem head_update {g : ℤ → ℕ} {B : ℕ → List ℕ} {k v : ℕ} {l : List ℕ}
    (hh : ∀ n : ℕ, n < 32 → g n = (B n).headD 0) (hv : v = l.headD 0) :
    ∀ n : ℕ, n < 32 → update g k v n = (update B k l n).headD 0 := by
  intro n hn
  by_cases hnk : n = k
  · subst hnk
    rw [update_self, update_self, hv]
  · rw [update_of_ne hnk, update_of_ne (by exact_mod_cast hnk)]
    exact hh n hn

/-- Reading the new arena off a memory that was written inside a layout, when
the blocks `k` were replaced by `k'`. -/
theorem of_surgery {B : Arena} {hB : B.WF} {fs : Set ℕ} {hf : ∀ x ∈ fs, ∃ b ∈ B.all, b.addr = x}
    (A' : Arena) (pre post k k' : List Block) (hr : Represents h A) (hw' : A'.WF)
    (he : A.blocks = pre ++ k ++ post) (he' : A'.blocks = pre ++ k' ++ post)
    (hlo : A'.lo = A.lo) (hhi : A'.hi = A.hi) (hh : Holds (B.layout hB fs hf) h.mem L f h'.mem)
    (hs : Shape L (A'.all.map Block.addr) A'.bins)
    (haddr : ∀ c ∈ A'.all, ∃ d ∈ B.all, d.addr = c.addr)
    (hbin : ∀ n, ∀ x ∈ A'.bins n, x ∈ fs) (hnew : ∀ c ∈ k', f (c.addr + 8) = c.used.toNat)
    (hold : ∀ w, (∀ c ∈ k', w ≠ c.addr + 8) → f w = h.mem.load w) (hfirst : h'.first = h.first)
    (hlast : h'.last = h.last) (hhead : ∀ n : ℕ, n < 32 → h'.freeChunk n = (A'.bins n).headD 0) :
    Represents h' A' where
  first := by rw [hfirst, hlo, hr.first]
  last := by rw [hlast, hhi, hr.last]
  all := hh.ring hs.all fun x hx ↦ by
    obtain ⟨c, hc, rfl⟩ := mem_map.mp hx
    obtain ⟨d, hd, he⟩ := haddr c hc
    exact he ▸ Arena.addr_mem_layout hd
  bin n := hh.ring (hs.bin n) fun x hx ↦ by
    obtain ⟨a, ha, rfl⟩ := mem_map.mp hx
    exact Arena.free_mem_layout (hbin n a ha)
  flag c hc := by
    obtain ⟨d, hd, hdc⟩ := haddr c hc
    rw [← hdc, hh.word _ (Arena.word_mem_layout hd), hdc]
    by_cases hck : ∃ e ∈ k', c.addr = e.addr
    · obtain ⟨e, he, hce⟩ := hck
      have hem : e ∈ A'.all := Arena.mem_all_of_mem (by rw [he']; simp [he])
      rw [hw'.eq_of_addr_eq hc hem hce]
      exact hnew e he
    · rw [hold _ fun e he hx ↦ hck ⟨e, he, by omega⟩]
      rcases Arena.mem_all_replace he he' hlo hhi hc with hx | hx
      · exact absurd ⟨c, hx, rfl⟩ hck
      · exact hr.flag c hx
  head := hhead

theorem freeList (hr : Shape L (A.all.map Block.addr) A.bins) (hw : A.WF)
    (hn : ∀ x ∈ A.bins n, x + 12 ∈ Y.nodes) : FreeList Y L (A.bins n) where
  ring := hr.bin n
  nodes := hn
  pos := hw.zero_notMem_bins

theorem freeList_unbin {as : List ℕ} (hr : Shape L as (update A.bins b.slot (l₁ ++ l₂))) (hw : A.WF)
    (hl : A.bins b.slot = l₁ ++ b.addr :: l₂) (hn : ∀ x ∈ A.frees, x + 12 ∈ Y.nodes) (n : ℕ) :
    FreeList Y L (update A.bins b.slot (l₁ ++ l₂) n) where
  ring := hr.bin n
  nodes x hx := hn x (Arena.unbin_sub hl hx)
  pos hx := by
    obtain ⟨k, hk⟩ := Arena.unbin_sub hl hx
    exact hw.zero_notMem_bins hk

/-- Only the layout of an arena matters for what the heap holds. -/
theorem fill {m' : Mem} (hr : Represents h A) (hw : A.WF)
    (hm : ∀ x, m' x ≠ h.mem x → (A.layout hw A.frees (Arena.frees_sub hw)).Outside x) :
    Represents { h with mem := m' } A where
  first := hr.first
  last := hr.last
  all := hr.all.congr fun y hy ↦ by
    obtain ⟨b, hb, rfl⟩ := mem_map.mp hy
    exact Layout.links_congr hm (Arena.addr_mem_layout hb)
  bin n := (hr.bin n).congr fun y hy ↦ by
    obtain ⟨a, ha, rfl⟩ := mem_map.mp hy
    exact Layout.links_congr hm (Arena.free_mem_layout ⟨n, ha⟩)
  flag b hb := by rw [← hr.flag b hb, Layout.word_congr hm (Arena.word_mem_layout hb)]
  head := hr.head

theorem write {x : ℕ} (hr : Represents h A) (hw : A.WF)
    (hx : (A.layout hw A.frees (Arena.frees_sub hw)).Outside x) (v : UInt8) :
    Represents { h with mem := update h.mem x v } A :=
  hr.fill hw fun _ hy ↦ hx.of_update hy

theorem memoryChunkSize_eq {m : Mem} {a s : ℕ} (h : DList.next m a = a + 12 + s)
    (hlt : a + 12 + s < 2 ^ 32) : memoryChunkSize m a = s := by
  rw [memoryChunkSize, h, sub32_of_le (by omega) hlt, HEADER_SIZE,
    sub32_of_le (by omega) (by omega)]
  omega

theorem size_of_next {m : Mem} {pre post : List Block} (hx : (links m).Ring (A.all.map Block.addr))
    (hw : A.WF) (he : A.all = pre ++ b :: c :: post) : memoryChunkSize m b.addr = b.size := by
  have ht := hw.tiles
  rw [he] at ht hx
  rw [map_append, map_cons, map_cons] at hx
  have hnext : DList.next m b.addr = c.addr := hx.joined.1
  have hstop : c.addr = b.addr + 12 + b.size := ht.start_next
  have hlt : c.addr + 20 ≤ 2 ^ 32 := hw.all_addr_lt (by rw [he]; simp)
  exact memoryChunkSize_eq (hnext.trans hstop) (by omega)

theorem size_of_ring {m : Mem} (hx : (links m).Ring (A.all.map Block.addr)) (hw : A.WF)
    (hb : b ∈ A.blocks) : memoryChunkSize m b.addr = b.size := by
  obtain ⟨pre, post, he⟩ := append_of_mem hb
  obtain ⟨c, k, hk⟩ : ∃ c k, post ++ [Block.sentinel A.hi] = c :: k :=
    exists_cons_of_ne_nil (by simp)
  exact size_of_next hx hw ((Arena.all_split he).trans (by rw [hk]))

theorem ownList (hr : Represents h A) (hw : A.WF) (hl : A.bins b.slot = l₁ ++ b.addr :: l₂) :
    FreeList (A.layout hw A.frees (Arena.frees_sub hw)) (links h.mem) (l₁ ++ b.addr :: l₂) :=
  hl ▸ freeList (hr.shape hw) hw fun _ hx ↦ Arena.free_mem_layout ⟨b.slot, hx⟩

/-- Both merges begin by taking a free chunk out of its list. -/
theorem unlink (hr : Represents h A) (hw : A.WF) (hb : b ∈ A.blocks)
    (hl : A.bins b.slot = l₁ ++ b.addr :: l₂) :
    removeFree h b.addr = { h with
      mem := dlistRemove h.mem (b.addr + 12)
      freeChunk := update h.freeChunk b.slot ((l₁ ++ l₂).headD 0)
      memFree := sub32 h.memFree (sub32 b.size 12) } ∧
    Holds (A.layout hw A.frees (Arena.frees_sub hw)) h.mem ((links h.mem).remove (b.addr + 12))
      h.mem.load (dlistRemove h.mem (b.addr + 12)) ∧
    Shape ((links h.mem).remove (b.addr + 12)) (A.all.map Block.addr)
      (update A.bins b.slot (l₁ ++ l₂)) := by
  have hfl := hr.ownList hw hl
  have h₀ := Holds.refl (A.layout hw A.frees (Arena.frees_sub hw)) h.mem
  have hrem := removeFree_eq hfl h₀ (size_of_ring hr.all hw hb)
    (by rw [memoryChunkSlot_size, hr.head _ (hw.slot_lt hb), hl])
  rw [memoryChunkSlot_size] at hrem
  exact ⟨hrem, hfl.remove h₀, (hr.shape hw).unbin hl⟩

end Represents

end OcamlRpi.Memory
