import OcamlRpi.Memory.Take

namespace OcamlRpi.Memory

open Support Function List DList

/-- A region of memory fit to be handed to `memory_init`: below 2^31 bytes,
within the address space, with room for the sentinels and a minimal chunk
after alignment. -/
structure Region where
  mem : ℕ
  size : ℕ
  size_lt : size < 2 ^ 31
  top : mem + size ≤ 2 ^ 32
  room : alignDown (mem + 3) + 60 ≤ alignDown (mem + size)

namespace Region

/-- A region with room for one chunk of 40 bytes. -/
def small : Region := ⟨4096, 92, by decide, by decide, by decide⟩

variable (r : Region) (m : Mem)

def lo : ℕ := alignDown (r.mem + 3)

def hi : ℕ := alignDown (r.mem + r.size) - 20

theorem bounds : r.mem ≤ r.lo ∧ r.lo + 40 ≤ r.hi ∧ r.hi + 20 ≤ r.mem + r.size ∧ 4 ∣ r.lo ∧
    4 ∣ r.hi := by
  have h := r.room
  simp only [lo, hi, alignDown, ALIGN] at h ⊢
  omega

/-- The one chunk of a fresh heap. -/
def block : Block where
  addr := r.lo + 20
  size := r.hi - r.lo - 32
  used := false
  size_ge := by have h := r.bounds; omega
  size_dvd := by have h := r.bounds; omega

def arena : Arena where
  lo := r.lo
  hi := r.hi
  blocks := [r.block]
  bins := file (fun _ ↦ []) r.block

theorem arena_wf : r.arena.WF where
  lo_dvd := r.bounds.2.2.2.1
  top := r.bounds.2.2.1.trans r.top
  tiles := by
    have h := r.bounds
    refine Arena.WF.tiles_of_blocks (A := r.arena) ⟨rfl, ?_, ?_⟩
    · show r.lo + 20 < r.lo + 20 + 12 + (r.hi - r.lo - 32)
      omega
    · show r.lo + 20 + 12 + (r.hi - r.lo - 32) = r.hi
      omega
  coalesced := by simp [Coalesced, Arena.all, arena, Block.sentinel]
  bins := Filed.file (show Filed (fun _ ↦ []) ([] ++ []) from fun _ ↦ by simp [binned]) rfl

theorem first_eq : alignDown (wrap (r.mem + ALIGN - 1)) = r.lo := by
  have h := r.bounds
  have ht := r.top
  rw [wrap, ALIGN, Nat.mod_eq_of_lt (by omega), lo]
  rfl

theorem last_eq : sub32 (alignDown (wrap (r.mem + r.size))) CHUNK_SIZE = r.hi := by
  have h := r.bounds
  have ht := r.top
  simp only [hi, sub32, wrap, alignDown, ALIGN, CHUNK_SIZE] at h ⊢
  omega

end Region

/-- The links of three chunks as `memory_chunk_init` leaves them. -/
def freshLinks (L : Links ℕ) (a b c : ℕ) : Links ℕ :=
  (((((L.link a a).link (a + 12) (a + 12)).link b b).link (b + 12) (b + 12)).link c c).link
    (c + 12) (c + 12)

section FreshLinks

variable (L : Links ℕ) {a b c : ℕ}

theorem freshLinks_rings (hab : a + 20 ≤ b) (hbc : b + 20 ≤ c) :
    (freshLinks L a b c).Ring [a] ∧ (freshLinks L a b c).Ring [b] ∧
      (freshLinks L a b c).Ring [b + 12] ∧ (freshLinks L a b c).Ring [c] := by
  refine ⟨?_, ?_, ?_, ?_⟩ <;> rw [Links.ring_singleton]
  · exact (((((Links.link_joined _ _ _).link (by omega) (by omega)).link (by omega) (by omega)).link
      (by omega) (by omega)).link (by omega) (by omega)).link (by omega) (by omega)
  · exact (((Links.link_joined _ _ _).link (by omega) (by omega)).link (by omega) (by omega)).link
      (by omega) (by omega)
  · exact ((Links.link_joined _ _ _).link (by omega) (by omega)).link (by omega) (by omega)
  · exact (Links.link_joined _ _ _).link (by omega) (by omega)

/-- The three chunks in one ring, with the free links of the second alone. -/
theorem freshLinks_shape (hab : a + 20 ≤ b) (hbc : b + 20 ≤ c) :
    let L₁ := (freshLinks L a b c).insertAfter a b
    L₁.Ring [c] ∧ Shape L₁ [a, b] (fun _ ↦ []) ∧ Shape (L₁.insertAfter b c) [a, b, c] (fun _ ↦ []) ∧
      (L₁.insertAfter b c).Ring [b + 12] := by
  intro L₁
  obtain ⟨ha, hb, hf, hc⟩ := freshLinks_rings L hab hbc
  have hs : Shape (freshLinks L a b c) ([] ++ a :: []) (fun _ ↦ []) :=
    ⟨ha, fun _ ↦ ⟨nodup_nil, trivial⟩, by simp, by simp⟩
  have hc₁ : L₁.Ring [c] := hc.insertAfter_other ha hb (by simp; omega) (by simp; omega)
  have hs₁ : Shape L₁ ([a] ++ b :: []) (fun _ ↦ []) := hs.insert hb (by simp; omega) (by simp)
  have hf₁ : L₁.Ring [b + 12] := hf.insertAfter_other ha hb (by simp; omega) (by simp)
  exact ⟨hc₁, hs₁, hs₁.insert hc₁ (by simp; omega) (by simp),
    hf₁.insertAfter_other hs₁.all_ring hc₁ (by simp; omega) (by simp; omega)⟩

end FreshLinks

/-- `memory_init` sets up one free chunk between the sentinels. -/
theorem memoryInit_spec (r : Region) (m : Mem) :
    Represents (memoryInit (.boot m) r.mem r.size) r.arena ∧
    (memoryInit (.boot m) r.mem r.size).memFree = sub32 r.block.size 12 ∧
    (memoryInit (.boot m) r.mem r.size).memUsed = 0 ∧
    (memoryInit (.boot m) r.mem r.size).memMeta = 52 := by
  have hw := r.arena_wf
  obtain ⟨-, hroom, -, hlo, hhi⟩ := r.bounds
  set second := r.lo + 20 with hsecond
  have hall : r.arena.all.map Block.addr = [r.lo, second, r.hi] := rfl
  have hmem : ∀ x ∈ [r.lo, second, r.hi], ∃ c ∈ r.arena.all, c.addr = x := fun x hx ↦ by
    rw [← hall] at hx
    exact mem_map.mp hx
  set Y := r.arena.layout hw {x | x ∈ [r.lo, second, r.hi]} hmem
  have hnode : ∀ x ∈ [r.lo, second, r.hi], x ∈ Y.nodes := fun x hx ↦ .inl (hmem x hx)
  have hfree : ∀ x ∈ [r.lo, second, r.hi], x + 12 ∈ Y.nodes := fun x hx ↦ .inr ⟨x, hx, rfl⟩
  have hword : ∀ x ∈ [r.lo, second, r.hi], x + 8 ∈ Y.words := fun x hx ↦ by
    obtain ⟨c, hc, rfl⟩ := hmem x hx
    exact ⟨c, hc, rfl⟩
  have h₁ : r.lo ∈ [r.lo, second, r.hi] := by simp
  have h₂ : second ∈ [r.lo, second, r.hi] := by simp
  have h₃ : r.hi ∈ [r.lo, second, r.hi] := by simp
  have hinit : Holds Y m (freshLinks (links m) r.lo second r.hi) _ _ :=
    memoryChunkInit_holds (memoryChunkInit_holds (memoryChunkInit_holds
      (Holds.refl Y m) (hnode _ h₁) (hword _ h₁) (hfree _ h₁)) (hnode _ h₂) (hword _ h₂) (hfree _ h₂))
      (hnode _ h₃) (hword _ h₃) (hfree _ h₃)
  obtain ⟨hlo₁, hse₁, -, -⟩ := freshLinks_rings (links m) (show r.lo + 20 ≤ second from le_rfl)
    (show second + 20 ≤ r.hi by omega)
  obtain ⟨hhi₂, hs₂, hs₃, hsf₃⟩ := freshLinks_shape (links m) (show r.lo + 20 ≤ second from le_rfl)
    (show second + 20 ≤ r.hi by omega)
  set L₁ := freshLinks (links m) r.lo second r.hi
  have hm₁ := hinit.dlistInsertAfter (hnode _ h₁) (hnode _ h₂)
    (by rw [(Links.ring_singleton.mp hlo₁).1]; exact hnode _ h₁)
    (by rw [(Links.ring_singleton.mp hse₁).2]; exact hnode _ h₂)
  have hnext : (L₁.insertAfter r.lo second).next second ∈ Y.nodes := by
    have hx := (show Shape _ ([r.lo] ++ second :: []) _ from hs₂).all_ring.next_mem
    refine hnode _ ?_
    simp only [nil_append, mem_cons, not_mem_nil, or_false] at hx ⊢
    tauto
  have hm₂ := hm₁.dlistInsertAfter (hnode _ h₂) (hnode _ h₃) hnext
    (by rw [(Links.ring_singleton.mp hhi₂).2]; exact hnode _ h₃)
  have hm₃ := (hm₂.store_word (hword _ h₁) (show 1 < 2 ^ 32 by decide)).store_word (hword _ h₃)
    (show 1 < 2 ^ 32 by decide)
  have hsize : memoryChunkSize _ second = r.block.size :=
    Represents.size_of_ring (A := r.arena) (b := r.block) (hm₃.ring hs₃.all hnode) hw
      (by simp [Region.arena])
  have hslot := memoryChunkSlot_size r.block
  have hfl : FreeList Y ((L₁.insertAfter r.lo second).insertAfter second r.hi) [] :=
    ⟨⟨nodup_nil, trivial⟩, by simp, by simp⟩
  obtain ⟨m', hpush, hm₄⟩ := pushSlot_holds (h := { Heap.boot m with
      mem := _
      first := r.lo
      last := r.hi }) (n := (r.block.slot : ℤ)) hfl hsf₃ (hfree _ h₂) hm₃ rfl
  have hs₄ := hs₃.push (n := r.block.slot) hsf₃ (by simp; omega) (by simp)
  have heq : memoryInit (.boot m) r.mem r.size = { Heap.boot m with
      mem := m'
      freeChunk := update (fun _ ↦ 0) (r.block.slot : ℤ) second
      memFree := sub32 r.block.size 12
      memMeta := 52
      first := r.lo
      last := r.hi } := by
    unfold memoryInit
    rw [r.first_eq, r.last_eq]
    simp only [CHUNK_SIZE, USED, ← hsecond]
    rw [show (Heap.boot m).mem = m from rfl, hsize, hslot]
    exact congrArg (fun h : Heap ↦ { h with memFree := sub32 r.block.size 12, memMeta := 52 }) hpush
  rw [heq]
  refine ⟨⟨rfl, rfl, hm₄.ring hs₄.all hnode, fun n ↦ hm₄.ring (hs₄.bin n) fun x hx ↦ ?_, ?_,
    Represents.head_update (g := fun _ ↦ 0) (B := fun _ ↦ []) (k := r.block.slot) (v := second)
      (l := [second]) (fun _ _ ↦ rfl) rfl⟩, rfl, rfl, rfl⟩
  · obtain ⟨a, ha, rfl⟩ := mem_map.mp hx
    rcases mem_file (show a ∈ file (fun _ ↦ []) r.block n from ha) with rfl | ha
    · exact hfree _ h₂
    · cases ha
  · intro b hb
    obtain rfl | rfl | rfl : b = .sentinel r.lo ∨ b = r.block ∨ b = .sentinel r.hi := by
      simpa [Arena.all, Region.arena] using hb
    · refine (hm₄.word _ (hword _ h₁)).trans ?_
      rw [update_of_ne (by omega), update_self]
      rfl
    · refine (hm₄.word _ (hword _ h₂)).trans ?_
      rw [update_of_ne (by omega), update_of_ne (by omega), update_of_ne (by omega), update_self]
      rfl
    · refine (hm₄.word _ (hword _ h₃)).trans ?_
      rw [update_self]
      rfl

end OcamlRpi.Memory
