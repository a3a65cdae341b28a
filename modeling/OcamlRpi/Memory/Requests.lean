import OcamlRpi.Memory.Accounting
import OcamlRpi.Memory.Program
import OcamlRpi.Memory.Reuse

namespace OcamlRpi.Memory

open Support Function List DList

variable {h : Heap} {A : Arena} {r : Region} {m : Mem} {c : Client} {a n s size : ℕ}

/-- `a` is a free chunk of the ring of all chunks. -/
def FreeChunk (h : Heap) (a : ℕ) : Prop :=
  ∃ cs, (links h.mem).Ring (h.first :: (cs ++ [h.last])) ∧ a ∈ cs ∧ isUsed h.mem a = false

/-- Whatever chunk is filed under slot `n`, it is large enough for `s`. -/
def AllFit (s n : ℕ) : Prop := ∀ len, memoryChunkSlot len = n → s ≤ len

theorem allFit_iff : AllFit s n ↔ s ≤ 2 ^ n := by
  constructor
  · intro h
    apply h
    rw [memoryChunkSlot_eq (Nat.two_pow_pos n), Nat.log_pow Nat.one_lt_two]
  · intro h len hlen
    rcases Nat.eq_zero_or_pos len with rfl | hpos
    · rw [memoryChunkSlot, slotLoop, if_neg (Nat.lt_irrefl 0)] at hlen
      omega
    · rw [memoryChunkSlot_eq hpos] at hlen
      have hn : Nat.log 2 len = n := by exact_mod_cast hlen
      have hpow := Nat.pow_log_le_self 2 (Nat.ne_of_gt hpos)
      rw [hn] at hpow
      omega

theorem Represents.freeChunk_iff (hr : Represents h A) : FreeChunk h a ↔
    ∃ b ∈ A.blocks, b.used = false ∧ b.addr = a := by
  have hring := hr.all
  rw [← hr.ring_eq] at hring
  constructor
  · intro hx
    obtain ⟨cs, hcs, ha, hu⟩ := hx
    rw [hr.ring_unique hcs] at ha
    obtain ⟨b, hb, rfl⟩ := mem_map.mp ha
    rw [hr.isUsed_eq (Arena.mem_all_of_mem hb)] at hu
    exact ⟨b, hb, hu, rfl⟩
  · intro hx
    obtain ⟨b, hb, hu, rfl⟩ := hx
    refine ⟨_, hring, mem_map_of_mem hb, ?_⟩
    rw [hr.isUsed_eq (Arena.mem_all_of_mem hb), hu]

theorem Represents.malloc_null_iff (hr : Represents h A) (hw : A.WF) : (malloc h size).2 = 0 ↔
    ∀ a, FreeChunk h a → memoryChunkSize h.mem a < 2 ^ Nat.clog 2 (roundRequest size) := by
  have hiff := malloc_ne_zero_iff (s := size) hr hw
  constructor
  · intro hp a ha
    obtain ⟨b, hb, hu, rfl⟩ := hr.freeChunk_iff.mp ha
    rw [size_of_ring hr.all hw hb]
    by_contra hle
    apply hiff.mpr _ hp
    exact ⟨b, hb, hu, Nat.le_log_of_pow_le Nat.one_lt_two (Nat.le_of_not_lt hle)⟩
  · intro hall
    by_contra hp
    obtain ⟨b, hb, hu, hle⟩ := hiff.mp hp
    have hlt := hall b.addr (hr.freeChunk_iff.mpr ⟨b, hb, hu, rfl⟩)
    rw [size_of_ring hr.all hw hb] at hlt
    have hpow : 2 ^ Nat.clog 2 (roundRequest size) ≤ b.size :=
      (Nat.pow_le_pow_right Nat.two_pos hle).trans (Nat.pow_log_le_self 2 (by have h₈ := b.size_ge; omega))
    omega

theorem Represents.malloc_null_small (hr : Represents h A) (hw : A.WF) (hs : roundRequest size = 8) :
    (malloc h size).2 = 0 ↔ ∀ a, ¬FreeChunk h a := by
  rw [hr.malloc_null_iff hw, hs]
  constructor
  · intro hall a ha
    obtain ⟨b, hb, -, rfl⟩ := hr.freeChunk_iff.mp ha
    have hlt := hall b.addr ha
    rw [size_of_ring hr.all hw hb, show Nat.clog 2 8 = 3 by decide] at hlt
    have h₈ := b.size_ge
    omega
  · intro hall a ha
    exact absurd ha (hall a)

theorem roundRequest_wraps (hs : MAX_REQUEST < size) (hlt : size < 2 ^ 32) : roundRequest size = 8 := by
  simp only [MAX_REQUEST] at hs
  rw [roundRequest_eq]
  simp only [alignDown, ALIGN, wrap]
  omega

theorem payloadSize_lt (h : c.Inv r A) {k : Block} (hk : k ∈ A.used) :
    payloadSize c.heap.mem k.payload < MAX_REQUEST := by
  rw [h.payloadSize_eq hk]
  have hstop := (h.wf.addr_bounds (Arena.mem_used.mp hk).1).2
  have htop := h.wf.top
  simp only [Block.stop] at hstop
  simp only [MAX_REQUEST]
  omega

/-- What `malloc` returns is large enough unless the request wraps to one for 8
bytes, and there are 8 bytes. -/
theorem malloc_large_enough_iff (hc : Client.CallReachable r m c) (hs : size < 2 ^ 32) :
    ((malloc c.heap size).2 = 0 ∨
      size ≤ payloadSize (malloc c.heap size).1.mem (malloc c.heap size).2) ↔
    size ≤ MAX_REQUEST ∨ ∀ a, ¬FreeChunk c.heap a := by
  obtain ⟨A, hI⟩ := hc.inv
  by_cases hp : (malloc c.heap size).2 = 0
  · refine iff_of_true (.inl hp) ?_
    rcases Nat.lt_or_ge MAX_REQUEST size with hbig | hle
    · exact .inr ((hI.rep.malloc_null_small hI.wf (roundRequest_wraps hbig hs)).mp hp)
    · exact .inl hle
  · obtain ⟨A', k, hI', hk, hkp, hks, -⟩ := hI.malloc_block hs hp
    have hsize := hI'.payloadSize_eq hk
    have hlt := payloadSize_lt hI' hk
    rw [hkp] at hsize hlt
    rcases Nat.lt_or_ge MAX_REQUEST size with hbig | hle
    · refine iff_of_false ?_ ?_
      · intro h
        rcases h with h0 | hfit
        · exact hp h0
        · exact absurd (Nat.lt_of_le_of_lt hfit hlt) (Nat.not_lt.mpr (Nat.le_of_lt hbig))
      · intro h
        rcases h with hle | hnone
        · omega
        · exact hp ((hI.rep.malloc_null_small hI.wf (roundRequest_wraps hbig hs)).mpr hnone)
    · refine iff_of_true (.inr ?_) (.inl hle)
      exact (le_roundRequest hle).trans (hks.trans (Nat.le_of_eq hsize.symm))

theorem malloc_large_enough_small :
    8 ≤ payloadSize (malloc (Client.afterCalls .small (fun _ ↦ 0) []).heap 8).1.mem
      (malloc (Client.afterCalls .small (fun _ ↦ 0) []).heap 8).2 := by
  have hp : (malloc (Client.afterCalls .small (fun _ ↦ 0) []).heap 8).2 ≠ 0 := by decide +kernel
  have hiff := malloc_large_enough_iff (Client.callReachable_after .small (fun _ ↦ 0) [])
    (show 8 < 2 ^ 32 by decide)
  exact (hiff.mpr (.inl (by decide))).resolve_left hp

/-- A request of 2^32 - 3 bytes gets 8 of them. -/
theorem malloc_too_small : ¬∀ (r : Region) (m : Mem) (c : Client), Client.CallReachable r m c →
    ∀ size < 2 ^ 32, (malloc c.heap size).2 = 0 ∨
      size ≤ payloadSize (malloc c.heap size).1.mem (malloc c.heap size).2 := by
  intro h
  have hx : (malloc (Client.afterCalls .small (fun _ ↦ 0) []).heap 0xFFFFFFFD).2 ≠ 0 ∧
      payloadSize (malloc (Client.afterCalls .small (fun _ ↦ 0) []).heap 0xFFFFFFFD).1.mem
        (malloc (Client.afterCalls .small (fun _ ↦ 0) []).heap 0xFFFFFFFD).2 = 8 := by
    decide +kernel
  rcases h _ _ _ (Client.callReachable_after .small (fun _ ↦ 0) []) 0xFFFFFFFD (by decide) with h0 | hfit
  · exact hx.1 h0
  · rw [hx.2] at hfit
    exact absurd hfit (by decide)

/-- `malloc` fails exactly if no free chunk reaches the next power of two, and
then changes nothing; else it takes the head of the first list that is not
empty among those whose chunks are sure to be large enough. -/
theorem malloc_takes_lowest_slot (hc : Client.CallReachable r m c) (size : ℕ) :
    ((malloc c.heap size).2 = 0 ↔ ∀ a, FreeChunk c.heap a →
      memoryChunkSize c.heap.mem a < 2 ^ Nat.clog 2 (roundRequest size)) ∧
    ((malloc c.heap size).2 = 0 → (malloc c.heap size).1 = c.heap) ∧
    ((malloc c.heap size).2 ≠ 0 → ∃ n : ℕ, n < 32 ∧ AllFit (roundRequest size) n ∧
      c.heap.freeChunk n ≠ 0 ∧ (malloc c.heap size).2 = c.heap.freeChunk n + HEADER_SIZE ∧
      ∀ j < n, AllFit (roundRequest size) j → c.heap.freeChunk j = 0) := by
  obtain ⟨A, hI⟩ := hc.inv
  obtain ⟨A', hm, -⟩ := malloc_spec hI.rep hI.wf size
  refine ⟨hI.rep.malloc_null_iff hI.wf, fun hp ↦ (hm.eq_of_null hp).1, ?_⟩
  intro hp
  -- both ways to hand out a chunk take it from the same list
  have htaken : ∀ (b : Block) (l : List ℕ), b ∈ A.blocks → A.bins b.slot = b.addr :: l →
      Nat.clog 2 (roundRequest size) ≤ b.slot →
      (∀ n, Nat.clog 2 (roundRequest size) ≤ n → n < b.slot → A.bins n = []) →
      (malloc c.heap size).2 = b.payload → ∃ n : ℕ, n < 32 ∧ AllFit (roundRequest size) n ∧
        c.heap.freeChunk n ≠ 0 ∧ (malloc c.heap size).2 = c.heap.freeChunk n + HEADER_SIZE ∧
        ∀ j < n, AllFit (roundRequest size) j → c.heap.freeChunk j = 0 := by
    intro b l hb hl hfit hlow hptr
    obtain ⟨hlt, hpow, hne, hnone⟩ := (hI.rep.searchStops hI.wf hb hl hfit hlow b.slot).mpr rfl
    refine ⟨b.slot, hlt, allFit_iff.mpr hpow, hne, ?_, ?_⟩
    · rw [hptr, hI.rep.head_of hI.wf hb hl]
      rfl
    · intro j hj hs
      exact hnone j hj (allFit_iff.mp hs)
  cases hm with
  | fail none heap ptr => exact absurd ptr hp
  | whole split free head fit lowest tight ptr memFree memUsed memMeta =>
    exact htaken _ _ (by simp [split]) head fit lowest ptr
  | cut split free head fit lowest h₈ h₄ room ptr memFree memUsed memMeta =>
    exact htaken _ _ (by simp [split]) head fit lowest ptr

theorem malloc_takes_lowest_slot_small :
    let c := Client.afterCalls .small (fun _ ↦ 0) [.basic (.malloc 12)]
    ((malloc c.heap 20).2 = 0 ∧ (malloc c.heap 20).1 = c.heap) ∧
      ∃ n : ℕ, AllFit 12 n ∧ (malloc c.heap 12).2 = c.heap.freeChunk n + HEADER_SIZE := by
  intro c
  have hc : Client.CallReachable .small (fun _ ↦ 0) c := Client.callReachable_after _ _ _
  have h0 : (malloc c.heap 20).2 = 0 := by decide +kernel
  have hp : (malloc c.heap 12).2 ≠ 0 := by decide +kernel
  obtain ⟨n, -, hfit, -, hptr, -⟩ := (malloc_takes_lowest_slot hc 12).2.2 hp
  exact ⟨⟨h0, (malloc_takes_lowest_slot hc 20).2.1 h0⟩, n, hfit, hptr⟩

end OcamlRpi.Memory
