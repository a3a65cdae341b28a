import OcamlRpi.Memory.Program

namespace OcamlRpi.Memory

open Support Function List DList

variable {h : Heap} {A : Arena} {r : Region} {m : Mem} {c : Client} {b : Handle} {p size : ℕ}

/-- `p` is the pointer to a chunk of the ring that is in use. -/
def LiveBlock (h : Heap) (p : ℕ) : Prop :=
  ∃ cs, (links h.mem).Ring (h.first :: (cs ++ [h.last])) ∧
    ∃ a ∈ cs, isUsed h.mem a = true ∧ a + HEADER_SIZE = p

/-- `realloc` reports that there is no memory, and nothing else has happened. -/
def FailsCleanly (h : Heap) (p size : ℕ) : Prop :=
  (realloc h p size).2 = 0 ∧ (realloc h p size).1 = h

theorem Represents.liveBlock_iff (hr : Represents h A) :
    LiveBlock h p ↔ ∃ k ∈ A.used, k.payload = p := by
  have hring := hr.all
  rw [← hr.ring_eq] at hring
  constructor
  · intro hx
    obtain ⟨cs, hcs, a, ha, hu, rfl⟩ := hx
    rw [hr.ring_unique hcs] at ha
    obtain ⟨k, hk, rfl⟩ := mem_map.mp ha
    rw [hr.isUsed_eq (Arena.mem_all_of_mem hk)] at hu
    exact ⟨k, Arena.mem_used.mpr ⟨hk, hu⟩, rfl⟩
  · intro hx
    obtain ⟨k, hk, rfl⟩ := hx
    obtain ⟨hkA, hu⟩ := Arena.mem_used.mp hk
    refine ⟨_, hring, k.addr, mem_map_of_mem hkA, ?_, rfl⟩
    rw [hr.isUsed_eq (Arena.mem_all_of_mem hkA), hu]

theorem memoryChunkSize_congr {m' : Mem} {a : ℕ} (h : ∀ x, a ≤ x → x < a + 4 → m' x = m x) :
    memoryChunkSize m' a = memoryChunkSize m a := by
  simp only [memoryChunkSize, DList.next, Mem.load_congr h]

theorem removeFree_memMeta (h : Heap) (a : ℕ) : (removeFree h a).memMeta = h.memMeta := rfl

theorem pushFree_memMeta (h : Heap) (a : ℕ) : (pushFree h a).memMeta = h.memMeta := rfl

theorem mergeNext_memMeta (h : Heap) (a : ℕ) :
    (mergeNext h a).memMeta = sub32 h.memMeta HEADER_SIZE := by
  simp only [mergeNext, removeFree_memMeta]

theorem mergePrev_memMeta (h : Heap) (a q : ℕ) :
    (mergePrev h a q).memMeta = sub32 h.memMeta HEADER_SIZE := by
  have hx := pushFree_memMeta { removeFree h q with mem := dlistRemove (removeFree h q).mem a } q
  have hy := hx.trans (removeFree_memMeta h q)
  exact congrArg (sub32 · HEADER_SIZE) hy

theorem freeNext_cases (h : Heap) (a : ℕ) : (freeNext h a).memMeta = sub32 h.memMeta HEADER_SIZE ∨
    freeNext h a = { h with memUsed := sub32 h.memUsed (memoryChunkSize h.mem a) } := by
  unfold freeNext
  dsimp only
  split_ifs
  · left
    exact mergeNext_memMeta _ _
  · right
    rfl

theorem freePrev_cases (h : Heap) (a q : ℕ) :
    (freePrev h a q).memMeta = sub32 h.memMeta HEADER_SIZE ∨ freePrev h a q = markFree h a := by
  unfold freePrev
  split_ifs
  · left
    exact mergePrev_memMeta _ _ _
  · right
    rfl

theorem markFree_memFree (h : Heap) (a : ℕ) :
    (markFree h a).memFree = wrap (h.memFree + sub32 (memoryChunkSize h.mem a) HEADER_SIZE) := by
  have hsize : memoryChunkSize (dlistInit (h.mem.store (a + USED) 0) (a + HEADER_SIZE)) a =
      memoryChunkSize h.mem a := by
    apply memoryChunkSize_congr
    intro x _ hx
    simp only [dlistInit, setNext, setPrev, USED, HEADER_SIZE]
    rw [Mem.store_of_apart (by omega), Mem.store_of_apart (by omega), Mem.store_of_apart (by omega)]
  rw [← hsize]
  rfl

/-- In any memory at all, `free` changes one of the counters: `mem_meta` if it
merges, and else `mem_used` or `mem_free`. -/
theorem free_changes (h : Heap) (hp : p ≠ 0) : ¬((free h p).memFree = h.memFree ∧
    (free h p).memUsed = h.memUsed ∧ (free h p).memMeta = h.memMeta) := by
  intro hh
  obtain ⟨hf, hu, hm⟩ := hh
  rw [free, if_neg hp] at hf hu hm
  dsimp only at hf hu hm
  generalize sub32 p HEADER_SIZE = a at hf hu hm
  generalize CONTAINER 0 (DList.prev h.mem a) = q at hf hu hm
  rcases freePrev_cases (freeNext h a) a q with hmeta | hmark
  · rw [hmeta] at hm
    rcases freeNext_cases h a with hmeta' | hsame
    · simp only [hmeta', sub32, HEADER_SIZE] at hm
      omega
    · simp only [hsame, sub32, HEADER_SIZE] at hm
      omega
  · rw [hmark] at hf hu hm
    rcases freeNext_cases h a with hmeta' | hsame
    · have hx : (markFree (freeNext h a) a).memMeta = (freeNext h a).memMeta := rfl
      simp only [hx, hmeta', sub32, HEADER_SIZE] at hm
      omega
    · have hx : (markFree (freeNext h a) a).memUsed = (freeNext h a).memUsed := rfl
      have hlt : memoryChunkSize h.mem a < 2 ^ 32 := Nat.mod_lt _ (by decide)
      rw [markFree_memFree, hsame] at hf
      rw [hx, hsame] at hu
      simp only [sub32, wrap, HEADER_SIZE] at hf hu
      omega

/-- A `realloc` for which there is no memory copies the block to address 0 and
releases it all the same. -/
theorem realloc_never_fails_cleanly (hc : Client.CallReachable r m c) (hb : b ∈ c.live)
    (hlt : payloadSize c.heap.mem b.ptr < size) (hp : (malloc c.heap size).2 = 0) :
    (realloc c.heap b.ptr size).2 = 0 ∧ ¬FailsCleanly c.heap b.ptr size := by
  obtain ⟨A, hI⟩ := hc.inv
  obtain ⟨A', hm, -⟩ := malloc_spec hI.rep hI.wf size
  have hheap := (hm.eq_of_null hp).1
  have hmoves := realloc_moves hlt
  rw [hheap, hp] at hmoves
  refine ⟨by rw [hmoves], ?_⟩
  intro h
  obtain ⟨-, hsame⟩ := h
  have hfree := (congrArg Prod.fst hmoves).symm.trans hsame
  have hchange := free_changes { c.heap with
    mem := memcpy c.heap.mem 0 b.ptr (payloadSize c.heap.mem b.ptr) } (hI.ptr_ne_zero hb)
  apply hchange
  dsimp only at hfree ⊢
  rw [hfree]
  exact ⟨rfl, rfl, rfl⟩

theorem realloc_never_fails_cleanly_small :
    let c := Client.afterCalls .small (fun _ ↦ 0) [.basic (.malloc 12)]
    c.live.map Handle.ptr = [4128] ∧ (realloc c.heap 4128 100).2 = 0 ∧ ¬FailsCleanly c.heap 4128 100 := by
  intro c
  have hc : Client.CallReachable .small (fun _ ↦ 0) c := Client.callReachable_after _ _ _
  have hl : c.live.map Handle.ptr = [4128] := by decide +kernel
  obtain ⟨b, hb, hp⟩ := mem_map.mp (hl ▸ mem_singleton.mpr rfl : 4128 ∈ c.live.map Handle.ptr)
  have hlt : payloadSize c.heap.mem b.ptr < 100 := by
    rw [hp]
    decide +kernel
  have hr := realloc_never_fails_cleanly hc hb hlt (by decide +kernel)
  rw [hp] at hr
  exact ⟨hl, hr⟩

/-- The byte 7 of the block is copied to address 0, and the block is released. -/
theorem realloc_failure_writes :
    let c := Client.afterCalls .small (fun _ ↦ 0) [.basic (.malloc 12), .basic (.write 4128 0 7)]
    (4128 ∈ c.live.map Handle.ptr ∧ payloadSize c.heap.mem 4128 < 100 ∧ (malloc c.heap 100).2 = 0) ∧
      (realloc c.heap 4128 100).1.mem 0 = 7 ∧ c.heap.mem 0 = 0 ∧
      (realloc c.heap 4128 100).1.memUsed = 0 ∧ c.heap.memUsed = 12 ∧
      ¬FailsCleanly c.heap 4128 100 := by
  intro c
  have h₁ : 4128 ∈ c.live.map Handle.ptr ∧ payloadSize c.heap.mem 4128 < 100 ∧
      (malloc c.heap 100).2 = 0 := by decide +kernel
  have h₂ : (realloc c.heap 4128 100).1.mem 0 = 7 := by decide +kernel
  have h₃ : c.heap.mem 0 = 0 := by decide +kernel
  refine ⟨h₁, h₂, h₃, by decide +kernel, by decide +kernel, ?_⟩
  intro h
  obtain ⟨-, hsame⟩ := h
  rw [hsame, h₃] at h₂
  exact absurd h₂ (by decide)

/-- A `realloc` for which there is memory returns a block with the old bytes,
leaves the other blocks alone and gives up the old one if it moves. -/
theorem realloc_keeps_bytes (hc : Client.CallReachable r m c) (hb : b ∈ c.live) (hs : size ≤ MAX_REQUEST)
    (hok : size ≤ payloadSize c.heap.mem b.ptr ∨ (malloc c.heap size).2 ≠ 0) :
    let h' := (realloc c.heap b.ptr size).1
    let res := (realloc c.heap b.ptr size).2
    (LiveBlock h' res ∧ size ≤ payloadSize h'.mem res) ∧
    (∀ i < payloadSize c.heap.mem b.ptr, h'.mem (res + i) = c.heap.mem (b.ptr + i)) ∧
    (∀ d ∈ c.live, d.ptr ≠ b.ptr → LiveBlock h' d.ptr ∧
      payloadSize h'.mem d.ptr = payloadSize c.heap.mem d.ptr ∧
      ∀ i < payloadSize c.heap.mem d.ptr, h'.mem (d.ptr + i) = c.heap.mem (d.ptr + i)) ∧
    (res ≠ b.ptr → ¬LiveBlock h' b.ptr) ∧
    ∃ c', c.call (.realloc b.ptr size) = some c' ∧ c'.heap = h' ∧ ∃ A, c'.Inv r A := by
  obtain ⟨A, hI⟩ := hc.inv
  have hcall : c.call (.realloc b.ptr size) = some ⟨(realloc c.heap b.ptr size).1,
      ⟨(realloc c.heap b.ptr size).2, size, fun i ↦
        if i < payloadSize c.heap.mem b.ptr then some (c.heap.mem (b.ptr + i)) else none⟩ ::
      c.live.filter (·.ptr ≠ b.ptr)⟩ := if_pos ⟨mem_map_of_mem hb, hs, hok⟩
  have hinv := Client.call_inv hI hcall
  obtain ⟨k₀, hk₀, hk₀p⟩ := hI.chunk hb
  by_cases hle : size ≤ payloadSize c.heap.mem b.ptr
  · rw [realloc_fits hle] at hcall hinv ⊢
    have hlive : ∀ d ∈ c.live, LiveBlock c.heap d.ptr := fun d hd ↦ hI.rep.liveBlock_iff.mpr (hI.chunk hd)
    exact ⟨⟨hlive b hb, hle⟩, fun _ _ ↦ rfl, fun d hd _ ↦ ⟨hlive d hd, rfl, fun _ _ ↦ rfl⟩,
      fun hne ↦ absurd rfl hne, _, hcall, rfl, hinv⟩
  · have hlt := Nat.lt_of_not_le hle
    obtain ⟨A', k, hI', hk, hkp, hks, hgone, hold⟩ := hI.realloc_block hb hs hlt (hok.resolve_left hle)
    have hsize := hI'.payloadSize_eq hk
    rw [hkp] at hsize
    refine ⟨⟨hI'.rep.liveBlock_iff.mpr ⟨k, hk, hkp⟩, hks.trans (Nat.le_of_eq hsize.symm)⟩, ?_, ?_, ?_,
      _, hcall, rfl, hinv⟩
    · intro i hi
      have hv : (if i < payloadSize c.heap.mem b.ptr then some (c.heap.mem (b.ptr + i)) else none) =
          some (c.heap.mem (b.ptr + i)) := if_pos hi
      have hwrote := hI'.wrote _ mem_cons_self
      dsimp only at hwrote
      exact hwrote hs i (Nat.lt_trans hi hlt) _ hv
    · intro d hd hne
      obtain ⟨e, he, hep⟩ := hI.chunk hd
      obtain ⟨he', hkeep⟩ := hold e he (hep ▸ hne)
      have hsz := hI.payloadSize_eq he
      have hsz' := hI'.payloadSize_eq he'
      rw [hep] at hsz hsz'
      refine ⟨hI'.rep.liveBlock_iff.mpr ⟨e, he', hep⟩, hsz'.trans hsz.symm, ?_⟩
      intro i hi
      rw [hsz] at hi
      rw [← hep]
      exact hkeep _ (Block.payload_add hi).1 (Block.payload_add hi).2
    · intro _ hlive
      obtain ⟨e, he, hep⟩ := hI'.rep.liveBlock_iff.mp hlive
      exact hgone e he hep

theorem realloc_keeps_bytes_small :
    let c := Client.afterCalls (.mk 4096 200 (by decide) (by decide) (by decide)) (fun _ ↦ 0)
      [.basic (.malloc 12), .basic (.write 4128 3 7)]
    c.live.map Handle.ptr = [4128] ∧ (realloc c.heap 4128 20).2 = 4152 ∧
      (realloc c.heap 4128 20).1.mem 4155 = 7 ∧ ¬LiveBlock (realloc c.heap 4128 20).1 4128 := by
  intro c
  have hc : Client.CallReachable (.mk 4096 200 (by decide) (by decide) (by decide)) (fun _ ↦ 0) c :=
    Client.callReachable_after _ _ _
  have hl : c.live.map Handle.ptr = [4128] := by decide +kernel
  obtain ⟨b, hb, hp⟩ := mem_map.mp (hl ▸ mem_singleton.mpr rfl : 4128 ∈ c.live.map Handle.ptr)
  have hres : (realloc c.heap 4128 20).2 = 4152 := by decide +kernel
  obtain ⟨-, -, -, hgone, -⟩ := realloc_keeps_bytes hc hb (show 20 ≤ MAX_REQUEST by decide)
    (.inr (by decide +kernel))
  rw [hp, hres] at hgone
  exact ⟨hl, hres, by decide +kernel, hgone (by decide)⟩

end OcamlRpi.Memory
