import OcamlRpi.Lists.Operations
import OcamlRpi.Memory.Chunk
import OcamlRpi.Memory.Shape

namespace OcamlRpi.Memory

open Support Function List DList

variable {Y : Layout} {m₀ m : Mem} {L : Links ℕ} {f : ℕ → ℕ} {l l₁ l₂ : List ℕ} {a c : ℕ}

theorem memoryChunkInit_holds (hm : Holds Y m₀ L f m) (ha : a ∈ Y.nodes) (hw : a + 8 ∈ Y.words)
    (hf : a + 12 ∈ Y.nodes) : Holds Y m₀ ((L.link a a).link (a + 12) (a + 12))
      (update f (a + 8) 0) (memoryChunkInit m a) :=
  ((hm.dlistInit ha).store_word hw (show 0 < 2 ^ 32 by decide)).dlistInit hf

/-- What the links and nodes of a free list look like to the list macros. -/
structure FreeList (Y : Layout) (L : Links ℕ) (l : List ℕ) : Prop where
  ring : L.Ring (l.map (· + 12))
  nodes : ∀ x ∈ l, x + 12 ∈ Y.nodes
  pos : 0 ∉ l

theorem FreeList.rotate (h : FreeList Y L (l₁ ++ a :: l₂)) :
    L.Ring ((a + 12) :: (l₂ ++ l₁).map (· + 12)) := by
  have hr := h.ring
  rw [map_append] at hr
  have hx := hr.rotate
  simpa using hx

theorem FreeList.next_mem (h : FreeList Y L (l₁ ++ a :: l₂)) : L.next (a + 12) ∈ Y.nodes := by
  rcases mem_cons.mp h.rotate.next_mem with he | he
  · rw [he]
    exact h.nodes a (by simp)
  · obtain ⟨x, hx, he⟩ := mem_map.mp he
    rw [← he]
    exact h.nodes x (by simp only [mem_append, mem_cons] at hx ⊢; tauto)

theorem FreeList.prev_mem (h : FreeList Y L (l₁ ++ a :: l₂)) : L.prev (a + 12) ∈ Y.nodes := by
  rcases mem_cons.mp h.rotate.prev_mem with he | he
  · rw [he]
    exact h.nodes a (by simp)
  · obtain ⟨x, hx, he⟩ := mem_map.mp he
    rw [← he]
    exact h.nodes x (by simp only [mem_append, mem_cons] at hx ⊢; tauto)

theorem FreeList.remove (h : FreeList Y L (l₁ ++ a :: l₂)) (hm : Holds Y m₀ L f m) :
    Holds Y m₀ (L.remove (a + 12)) f (dlistRemove m (a + 12)) :=
  hm.dlistRemove (h.nodes a (by simp)) h.next_mem h.prev_mem

theorem DLIST_POP_eq (h : FreeList Y L (a :: l)) (hm : Holds Y m₀ L f m) :
    DLIST_POP HEADER_SIZE m a = (dlistRemove m (a + 12), l.headD 0, a) :=
  DList.DLIST_POP_eq (o := 12) h.ring h.nodes h.pos hm

theorem DLIST_REMOVE_FROM_eq (h : FreeList Y L (l₁ ++ a :: l₂)) (hm : Holds Y m₀ L f m) :
    DLIST_REMOVE_FROM HEADER_SIZE m ((l₁ ++ a :: l₂).headD 0) a =
      (dlistRemove m (a + 12), (l₁ ++ l₂).headD 0) :=
  DList.DLIST_REMOVE_FROM_eq (o := 12) h.ring h.nodes h.pos hm

theorem DLIST_PUSH_holds (h : FreeList Y L l) (ha : L.Ring [a + 12]) (haY : a + 12 ∈ Y.nodes)
    (hm : Holds Y m₀ L f m) :
    Holds Y m₀ (Shape.pushed L l a) f (DLIST_PUSH HEADER_SIZE m (l.headD 0) a).1 ∧
      (DLIST_PUSH HEADER_SIZE m (l.headD 0) a).2 = a := by
  have hprev : L.prev (a + 12) ∈ Y.nodes := by rwa [(Links.ring_singleton.mp ha).2]
  have hrun := DLIST_PUSH_eq (o := 12) m h.pos haY
  rw [HEADER_SIZE, hrun]
  refine ⟨?_, rfl⟩
  cases l with
  | nil => exact hm
  | cons c l =>
    have hc := (show FreeList Y L ([] ++ c :: l) from h).prev_mem
    exact hm.dlistInsertBefore (h.nodes c mem_cons_self) haY hc hprev

theorem pushSlot_holds {h : Heap} {n : ℤ} (hl : FreeList Y L l) (ha : L.Ring [a + 12])
    (haY : a + 12 ∈ Y.nodes) (hm : Holds Y m₀ L f h.mem) (hhead : h.freeChunk n = l.headD 0) :
    ∃ m, pushSlot h n a = { h with mem := m, freeChunk := update h.freeChunk n a } ∧
      Holds Y m₀ (Shape.pushed L l a) f m := by
  have hp := DLIST_PUSH_holds hl ha haY hm
  refine ⟨_, ?_, hp.1⟩
  simp only [pushSlot, hhead, hp.2]

theorem removeFree_eq {h : Heap} {s : ℕ} (hl : FreeList Y L (l₁ ++ a :: l₂))
    (hm : Holds Y m₀ L f h.mem) (hs : memoryChunkSize h.mem a = s)
    (hhead : h.freeChunk (memoryChunkSlot s) = (l₁ ++ a :: l₂).headD 0) :
    removeFree h a = { h with
      mem := dlistRemove h.mem (a + 12)
      freeChunk := update h.freeChunk (memoryChunkSlot s) ((l₁ ++ l₂).headD 0)
      memFree := sub32 h.memFree (sub32 s 12) } := by
  unfold removeFree
  rw [hs]
  dsimp only
  rw [hhead, DLIST_REMOVE_FROM_eq hl hm]
  rfl

theorem pushFree_holds {h : Heap} {s : ℕ} (hl : FreeList Y L l) (ha : L.Ring [a + 12])
    (haY : a + 12 ∈ Y.nodes) (hm : Holds Y m₀ L f h.mem) (hs : memoryChunkSize h.mem a = s)
    (hhead : h.freeChunk (memoryChunkSlot s) = l.headD 0) :
    ∃ m, pushFree h a = { h with
        mem := m
        freeChunk := update h.freeChunk (memoryChunkSlot s) a
        memFree := wrap (h.memFree + sub32 s 12) } ∧ Holds Y m₀ (Shape.pushed L l a) f m := by
  obtain ⟨m, hp, hh⟩ := pushSlot_holds hl ha haY hm hhead
  refine ⟨m, ?_, hh⟩
  unfold pushFree
  rw [hs]
  dsimp only
  rw [hp]
  rfl

end OcamlRpi.Memory
