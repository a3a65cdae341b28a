import OcamlRpi.Memory.Realloc
import OcamlRpi.Memory.Requests

namespace OcamlRpi.Memory

open Support Function List DList

variable {h : Heap} {A : Arena} {r : Region} {m : Mem} {c : Client} {b : Handle} {p nmemb size : ℕ}

/-- `calloc` stored nothing and returned `NULL`, or returned a cleared block of
the size of the product, and cleared nothing of the other blocks in use and of
the headers of the chunks. -/
def CallocSafe (c : Client) (nmemb size : ℕ) : Prop :=
  let q := wrap (nmemb * size)
  let before := (malloc c.heap q).1
  let after := (calloc c.heap nmemb size).1
  let res := (calloc c.heap nmemb size).2
  (res = 0 ∧ before = c.heap ∧ memsetStores res q = []) ∨
    (res ≠ 0 ∧ LiveBlock after res ∧ nmemb * size ≤ payloadSize after.mem res ∧
      (∀ i < nmemb * size, after.mem (res + i) = 0) ∧
      (∀ b ∈ c.live, ∀ i < payloadSize before.mem b.ptr,
        after.mem (b.ptr + i) = before.mem (b.ptr + i)) ∧
      ∀ cs, (links before.mem).Ring (before.first :: (cs ++ [before.last])) →
        ∀ a ∈ before.first :: (cs ++ [before.last]), ∀ i < HEADER_SIZE,
          after.mem (a + i) = before.mem (a + i))

theorem wrap_of_le {n : ℕ} (h : n ≤ MAX_REQUEST) : wrap n = n := by
  apply Nat.mod_eq_of_lt
  simp only [MAX_REQUEST] at h
  omega

theorem memsetStores_eq_nil {s n : ℕ} : memsetStores s n = [] ↔ n = 0 := by
  cases n <;> simp [memsetStores]

theorem callocSafe_of_le (h : c.Inv r A) (hq : nmemb * size ≤ MAX_REQUEST)
    (hp : (calloc c.heap nmemb size).2 ≠ 0) : CallocSafe c nmemb size := by
  have hwrap := wrap_of_le hq
  have hq' : wrap (nmemb * size) ≤ MAX_REQUEST := by
    rw [hwrap]
    exact hq
  obtain ⟨A', k, hI, hk, hkp, hks, hI₁, hout, hold⟩ := h.calloc_block hq' hp
  have hsize := hI.payloadSize_eq hk
  rw [hkp] at hsize
  refine .inr ⟨hp, hI.rep.liveBlock_iff.mpr ⟨k, hk, hkp⟩, ?_, ?_, ?_, ?_⟩
  · rw [hwrap] at hks
    exact hks.trans (Nat.le_of_eq hsize.symm)
  · intro i hi
    have hwrote := hI.wrote _ mem_cons_self
    dsimp only at hwrote
    rw [hwrap] at hwrote
    exact hwrote hq i hi 0 (if_pos hi)
  · intro b hb i hi
    obtain ⟨e, he, hep⟩ := h.chunk hb
    obtain ⟨he', hek⟩ := hold e he
    have hsz := hI₁.payloadSize_eq he'
    rw [hep] at hsz
    rw [hsz] at hi
    have hin := Block.payload_add hi
    apply hout
    rw [← hep]
    exact hI.wf.payload_apart he' hk hek hin.1 hin.2
  · intro cs hcs a ha i hi
    rw [hI₁.rep.ring_unique hcs, hI₁.rep.ring_eq] at ha
    obtain ⟨e, he, rfl⟩ := mem_map.mp ha
    apply hout
    have hkA := Arena.mem_all_of_mem (Arena.mem_used.mp hk).1
    simp only [HEADER_SIZE] at hi
    by_cases hek : e = k
    · subst hek
      simp only [Block.payload]
      omega
    · have hes := e.addr_add_le_stop
      rcases hI.wf.tiles.apart he hkA hek with hx | hx <;> simp only [Block.payload, Block.stop] at * <;> omega

/-- After any clearing that spares the headers, a block is still smaller than
`MAX_REQUEST`. -/
theorem not_callocSafe (h : c.Inv r A) (hq : MAX_REQUEST < nmemb * size)
    (hp : (calloc c.heap nmemb size).2 ≠ 0) : ¬CallocSafe c nmemb size := by
  intro hh
  rcases hh with ⟨h0, -⟩ | ⟨-, -, hsize, -, -, hheader⟩
  · exact hp h0
  · have hlt : wrap (nmemb * size) < 2 ^ 32 := Nat.mod_lt _ (by decide)
    obtain ⟨A', k, hI, hk, hkp, -⟩ := h.malloc_block hlt hp
    have hkA := (Arena.mem_used.mp hk).1
    have hring := hI.rep.all
    rw [← hI.rep.ring_eq] at hring
    have hmem : k.addr ∈ (malloc c.heap (wrap (nmemb * size))).1.first ::
        (A'.blocks.map Block.addr ++ [(malloc c.heap (wrap (nmemb * size))).1.last]) :=
      mem_cons_of_mem _ (mem_append_left _ (mem_map_of_mem hkA))
    have hkeep := hheader _ hring k.addr hmem
    have hsame : payloadSize (calloc c.heap nmemb size).1.mem k.payload =
        payloadSize (malloc c.heap (wrap (nmemb * size))).1.mem k.payload := by
      unfold payloadSize
      rw [(chunk_of_payload hI.wf hkA).2]
      apply memoryChunkSize_congr
      intro x hx hx'
      obtain ⟨i, rfl⟩ := Nat.exists_eq_add_of_le hx
      apply hkeep
      simp only [HEADER_SIZE]
      omega
    have hres : (calloc c.heap nmemb size).2 = k.payload := hkp.symm
    have hbound := payloadSize_lt hI hk
    rw [hres, hsame] at hsize
    dsimp only at hbound
    omega

/-- `calloc` is safe exactly if the product is a request that does not wrap and
there is a free chunk for it, or if there is nothing to clear and no free chunk
at all. -/
theorem calloc_safe_iff (hc : Client.CallReachable r m c) (nmemb size : ℕ) : CallocSafe c nmemb size ↔
    (nmemb * size ≤ MAX_REQUEST ∧ ∃ a, FreeChunk c.heap a ∧
      2 ^ Nat.clog 2 (roundRequest (nmemb * size)) ≤ memoryChunkSize c.heap.mem a) ∨
    (wrap (nmemb * size) = 0 ∧ ∀ a, ¬FreeChunk c.heap a) := by
  obtain ⟨A, hI⟩ := hc.inv
  have hzero : roundRequest 0 = 8 := by decide
  by_cases hp : (calloc c.heap nmemb size).2 = 0
  · have hnull : (malloc c.heap (wrap (nmemb * size))).2 = 0 := hp
    have hall := (hI.rep.malloc_null_iff hI.wf).mp hnull
    obtain ⟨A', hm, -⟩ := malloc_spec hI.rep hI.wf (wrap (nmemb * size))
    constructor
    · intro h
      rcases h with ⟨-, -, hstores⟩ | ⟨hne, -⟩
      · have hq := memsetStores_eq_nil.mp hstores
        rw [hq] at hnull
        exact .inr ⟨hq, (hI.rep.malloc_null_small hI.wf hzero).mp hnull⟩
      · exact absurd hp hne
    · intro h
      rcases h with ⟨hle, a, ha, hbig⟩ | ⟨hq, -⟩
      · rw [wrap_of_le hle] at hall
        exact absurd (hall a ha) (Nat.not_lt.mpr hbig)
      · exact .inl ⟨hp, (hm.eq_of_null hnull).1, memsetStores_eq_nil.mpr hq⟩
  · have hne : (malloc c.heap (wrap (nmemb * size))).2 ≠ 0 := hp
    rcases Nat.lt_or_ge MAX_REQUEST (nmemb * size) with hbig | hle
    · refine iff_of_false (not_callocSafe hI hbig hp) ?_
      intro h
      rcases h with ⟨hle, -⟩ | ⟨hq, hnone⟩
      · omega
      · apply hne
        rw [hq]
        exact (hI.rep.malloc_null_small hI.wf hzero).mpr hnone
    · refine iff_of_true (callocSafe_of_le hI hle hp) (.inl ⟨hle, ?_⟩)
      by_contra hnone
      apply hne
      apply (hI.rep.malloc_null_iff hI.wf).mpr
      intro a ha
      rw [wrap_of_le hle]
      by_contra hge
      exact hnone ⟨a, ha, Nat.le_of_not_lt hge⟩

theorem calloc_safe_iff_small : CallocSafe (Client.afterCalls .small (fun _ ↦ 0) []) 3 5 := by
  have hc := Client.callReachable_after .small (fun _ ↦ 0) []
  have hp : (malloc (Client.afterCalls .small (fun _ ↦ 0) []).heap 15).2 ≠ 0 := by decide +kernel
  obtain ⟨A, hI⟩ := hc.inv
  apply (calloc_safe_iff hc 3 5).mpr
  refine .inl ⟨by decide, ?_⟩
  by_contra hnone
  apply hp
  apply (hI.rep.malloc_null_iff hI.wf).mpr
  intro a ha
  by_contra hge
  exact hnone ⟨a, ha, Nat.le_of_not_lt hge⟩

/-- 2^16 blocks of 2^16 bytes are 8 bytes. -/
theorem calloc_overflows : ¬∀ (r : Region) (m : Mem) (c : Client), Client.CallReachable r m c →
    ∀ nmemb < 2 ^ 32, ∀ size < 2 ^ 32, CallocSafe c nmemb size := by
  intro h
  have hx := h _ _ _ (Client.callReachable_after .small (fun _ ↦ 0) []) 65536 (by decide) 65536 (by decide)
  have hp : (calloc (Client.afterCalls .small (fun _ ↦ 0) []).heap 65536 65536).2 ≠ 0 ∧
      payloadSize (calloc (Client.afterCalls .small (fun _ ↦ 0) []).heap 65536 65536).1.mem
        (calloc (Client.afterCalls .small (fun _ ↦ 0) []).heap 65536 65536).2 = 8 := by
    decide +kernel
  rcases hx with ⟨h0, -⟩ | ⟨-, -, hsize, -⟩
  · exact hp.1 h0
  · rw [hp.2] at hsize
    exact absurd hsize (by decide)

end OcamlRpi.Memory
