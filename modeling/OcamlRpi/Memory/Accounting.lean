import OcamlRpi.Memory.Chunks

namespace OcamlRpi.Memory

open Support Function List DList

variable {r : Region} {m : Mem} {c c' : Client} {A A' : Arena} {b : Block} {op : Op} {s : ℕ}

/-- What `mem_used` should say: the sizes of the chunks in use. -/
def usedTotal (c : Client) : ℕ :=
  (c.live.map fun b ↦ memoryChunkSize c.heap.mem (b.ptr - HEADER_SIZE)).sum

/-- The sum of the counters, as the unsigned type of the target has it. -/
def memTotal (h : Heap) : ℕ := wrap (h.memFree + h.memUsed + h.memMeta)

/-- Where the search of `malloc` for a rounded request `s` stops. -/
def SearchStops (h : Heap) (s n : ℕ) : Prop :=
  n < 32 ∧ s ≤ 2 ^ n ∧ h.freeChunk n ≠ 0 ∧ ∀ j < n, s ≤ 2 ^ j → h.freeChunk j = 0

def Arena.usedSize (A : Arena) : ℕ := (A.used.map Block.size).sum

theorem sum_used_le {l : List Block} {lo hi : ℕ} (h : Tiles Block.addr Block.stop lo l hi) :
    lo + ((l.filter Block.used).map Block.size).sum ≤ hi := by
  induction l generalizing lo with
  | nil => exact h.le
  | cons b l ih =>
    have hl := ih h.2.2
    have hb : b.addr = lo := h.1
    cases hu : b.used with
    | true =>
      rw [filter_cons_of_pos hu, map_cons, sum_cons]
      simp only [Block.stop] at hl
      omega
    | false =>
      rw [filter_cons_of_neg (by simp [hu])]
      simp only [Block.stop] at hl
      omega

theorem Arena.WF.usedSize_lt (hw : A.WF) : A.usedSize < 2 ^ 32 := by
  have h := sum_used_le hw.blocks_tile
  have htop := hw.top
  simp only [Arena.usedSize, Arena.used]
  omega

theorem Client.Inv.usedTotal_eq (h : c.Inv r A) : usedTotal c = A.usedSize := by
  have hlive : usedTotal c =
      ((c.live.map Handle.ptr).map fun p ↦ memoryChunkSize c.heap.mem (p - HEADER_SIZE)).sum := by
    simp only [usedTotal, map_map, comp_def]
  have hsize : ∀ b ∈ A.used, memoryChunkSize c.heap.mem (b.payload - HEADER_SIZE) = b.size := by
    intro b hb
    rw [show b.payload - HEADER_SIZE = b.addr from Nat.add_sub_cancel _ _]
    exact Represents.size_of_ring h.rep.all h.wf (Arena.mem_used.mp hb).1
  rw [hlive, ← (h.live.map _).sum_eq, map_map, Arena.usedSize]
  simp only [comp_def]
  rw [map_congr_left hsize]

theorem Represents.head_of {h : Heap} {l : List ℕ} (hr : Represents h A) (hw : A.WF)
    (hb : b ∈ A.blocks) (hl : A.bins b.slot = b.addr :: l) : h.freeChunk b.slot = b.addr := by
  rw [hr.head _ (hw.slot_lt hb), hl]
  rfl

/-- The search stops at the slot that `malloc` takes its chunk from. -/
theorem Represents.searchStops {h : Heap} {l : List ℕ} (hr : Represents h A) (hw : A.WF)
    (hb : b ∈ A.blocks) (hl : A.bins b.slot = b.addr :: l) (hfit : Nat.clog 2 s ≤ b.slot)
    (hlow : ∀ n, Nat.clog 2 s ≤ n → n < b.slot → A.bins n = []) (n : ℕ) :
    SearchStops h s n ↔ n = b.slot := by
  have hlt := hw.slot_lt hb
  have hpow : ∀ k, s ≤ 2 ^ k ↔ Nat.clog 2 s ≤ k := fun k ↦
    (Nat.clog_le_iff_le_pow Nat.one_lt_two).symm
  have hne : h.freeChunk b.slot ≠ 0 := by
    rw [hr.head_of hw hb hl]
    have hx := (hw.addr_bounds hb).1
    omega
  constructor
  · intro hh
    obtain ⟨hn, hs, hz, hj⟩ := hh
    rcases Nat.lt_trichotomy n b.slot with hx | hx | hx
    · exact absurd ((hr.head_eq_zero hw hn).mpr (hlow n ((hpow n).mp hs) hx)) hz
    · exact hx
    · exact absurd (hj b.slot hx ((hpow _).mpr hfit)) hne
  · intro he
    subst he
    exact ⟨hlt, (hpow _).mpr hfit, hne, fun j hj hs ↦
      (hr.head_eq_zero hw (by omega)).mpr (hlow j ((hpow j).mp hs) hj)⟩

theorem Represents.search_fails {h : Heap} (hr : Represents h A) (hw : A.WF)
    (hn : ∀ b ∈ A.blocks, b.used = false → b.slot < Nat.clog 2 s) (n : ℕ) : ¬ SearchStops h s n := by
  intro hh
  obtain ⟨hlt, hs, hz, -⟩ := hh
  obtain ⟨a, l, hl⟩ := exists_cons_of_ne_nil fun he ↦ hz ((hr.head_eq_zero hw hlt).mpr he)
  obtain ⟨b, hb, hu, rfl, -⟩ := hw.mem_bins.mp (hl ▸ mem_cons_self : a ∈ A.bins n)
  have hx := hn b hb hu
  have hy := (Nat.clog_le_iff_le_pow Nat.one_lt_two).mpr hs
  omega

/-- `malloc` finds, if anything, a chunk with room for another one behind. -/
def LeavesRest (c : Client) : Op → Prop
  | .malloc size => ∀ n : ℕ, SearchStops c.heap (roundRequest size) n →
      roundRequest size + CHUNK_SIZE ≤ memoryChunkSize c.heap.mem (c.heap.freeChunk n)
  | _ => True

/-- `malloc` finds no chunk, and only `NULL` is freed. -/
def Refused (c : Client) : Op → Prop
  | .malloc size => ∀ n : ℕ, ¬ SearchStops c.heap (roundRequest size) n
  | .free p => p = 0
  | .write _ _ _ => True

theorem Arena.usedSize_perm {k : Block} (h : A'.used.Perm (k :: A.used)) :
    A'.usedSize = k.size + A.usedSize := by
  rw [Arena.usedSize, (h.map Block.size).sum_eq, map_cons, sum_cons, Arena.usedSize]

theorem Client.Inv.malloc_used (h : c.Inv r A) {size : ℕ} (hc : c.step (.malloc size) = some c')
    (hP : c.heap.memUsed = usedTotal c) :
    c'.heap.memUsed = usedTotal c' ↔ LeavesRest c (.malloc size) := by
  obtain ⟨A', hm, hI, -⟩ := h.malloc hc
  have hlt := hI.wf.usedSize_lt
  rw [hI.usedTotal_eq]
  rw [h.usedTotal_eq] at hP
  cases hm with
  | fail none heap ptr =>
    rw [heap, hP]
    exact ⟨fun _ n hn ↦ absurd hn (h.rep.search_fails h.wf none n), fun _ ↦ rfl⟩
  | @whole pre post b l split free head fit lowest tight ptr memFree memUsed memMeta =>
    have hb : b ∈ A.blocks := by simp [split]
    have hblt := h.wf.size_lt hb
    have hsize : (A.claimAt pre post b l).usedSize = b.size + A.usedSize :=
      Arena.usedSize_perm (k := b.claim) (Arena.claimAt_used split free)
    constructor
    · intro hx
      rw [memUsed, hP] at hx
      simp only [wrap, sub32] at hx
      omega
    · intro hx
      have hy := hx b.slot ((h.rep.searchStops h.wf hb head fit lowest _).mpr rfl)
      rw [h.rep.head_of h.wf hb head, Represents.size_of_ring h.rep.all h.wf hb, CHUNK_SIZE] at hy
      omega
  | @cut pre post b l split free head fit lowest h₈ h₄ room ptr memFree memUsed memMeta =>
    have hb : b ∈ A.blocks := by simp [split]
    have hsize : (A.splitAt pre post b l (roundRequest size) h₈ h₄ room).usedSize =
        roundRequest size + A.usedSize := Arena.usedSize_perm (Arena.splitAt_used split free)
    refine ⟨fun _ n hn ↦ ?_, fun _ ↦ ?_⟩
    · rw [(h.rep.searchStops h.wf hb head fit lowest n).mp hn, h.rep.head_of h.wf hb head,
        Represents.size_of_ring h.rep.all h.wf hb, CHUNK_SIZE]
      exact room
    · rw [memUsed, hP, wrap, Nat.mod_eq_of_lt (by omega)]
      omega

theorem Client.Inv.free_used {p : ℕ} (h : c.Inv r A) (hc : c.step (.free p) = some c')
    (hP : c.heap.memUsed = usedTotal c) : c'.heap.memUsed = usedTotal c' := by
  by_cases hp : p = 0
  · subst hp
    rw [h.free_null hc, hP]
  · obtain ⟨A', k, -, -, hI, -, -, hperm, -, hmu, -⟩ := h.free hp hc
    have hsize := Arena.usedSize_perm hperm
    have hlt := h.wf.usedSize_lt
    rw [hmu, hI.usedTotal_eq, hP, h.usedTotal_eq, sub32_of_le (by omega) hlt]
    omega

theorem Client.Inv.write_used {p i : ℕ} {v : UInt8} (h : c.Inv r A)
    (hc : c.step (.write p i v) = some c') (hP : c.heap.memUsed = usedTotal c) :
    c'.heap.memUsed = usedTotal c' := by
  have hI := h.write hc
  rw [hI.usedTotal_eq, ← h.usedTotal_eq, ← hP]
  simp only [Client.step] at hc
  split_ifs at hc
  obtain rfl := Option.some.inj hc
  rfl

/-- `mem_used` is right throughout a run exactly if every chunk the run takes
is split: an exact fit is counted without its last 12 bytes. -/
theorem mem_used_exact_iff (r : Region) (m : Mem) (ops : List Op) :
    (∀ p, p <+: ops → ∀ c, run Client.step (Client.init r m) p = some c →
      c.heap.memUsed = usedTotal c) ↔
    ∀ p op, p ++ [op] <+: ops → ∀ c c', run Client.step (Client.init r m) p = some c →
      c.step op = some c' → LeavesRest c op := by
  refine run_forall_iff (I := fun c ↦ ∃ A, c.Inv r A) ⟨r.arena, Client.Inv.of_init r m⟩ ?_
    (fun c op c' ⟨A, hI⟩ hc ↦ Client.step_inv hI hc) ?_
  · exact (memoryInit_spec r m).2.2.1
  · rintro c op c' ⟨A, hI⟩ hP hc
    cases op with
    | malloc size => exact hI.malloc_used hc hP
    | free p => exact iff_of_true (hI.free_used hc hP) trivial
    | write p i v => exact iff_of_true (hI.write_used hc hP) trivial

/-- After an exact fit 12 bytes are missing. -/
theorem mem_used_wrong : ¬ ∀ (r : Region) (m : Mem) (c : Client), Client.Reachable r m c →
    c.heap.memUsed = usedTotal c := by
  intro h
  have hx : (Client.after .small (fun _ ↦ 0) [.malloc 12, .malloc 16]).heap.memUsed ≠
      usedTotal (Client.after .small (fun _ ↦ 0) [.malloc 12, .malloc 16]) := by decide +kernel
  exact hx (h _ _ _ (Client.reachable_after _ _ _))

/-- A successful `malloc` lowers the sum of the counters by 12. -/
theorem Client.Inv.malloc_total (h : c.Inv r A) {size : ℕ}
    (hc : c.step (.malloc size) = some c') :
    memTotal c'.heap = memTotal c.heap ↔ Refused c (.malloc size) := by
  obtain ⟨A', hm, -⟩ := h.malloc hc
  cases hm with
  | fail none heap ptr =>
    rw [heap]
    exact iff_of_true rfl fun n ↦ h.rep.search_fails h.wf none n
  | @whole pre post b l split free head fit lowest tight ptr memFree memUsed memMeta =>
    have hb : b ∈ A.blocks := by simp [split]
    have hlt := h.wf.size_lt hb
    refine iff_of_false (fun hx ↦ ?_) fun hx ↦
      hx b.slot ((h.rep.searchStops h.wf hb head fit lowest _).mpr rfl)
    simp only [memTotal, wrap, memFree, memUsed, memMeta, sub32] at hx
    omega
  | @cut pre post b l split free head fit lowest h₈ h₄ room ptr memFree memUsed memMeta =>
    have hb : b ∈ A.blocks := by simp [split]
    have hlt := h.wf.size_lt hb
    refine iff_of_false (fun hx ↦ ?_) fun hx ↦
      hx b.slot ((h.rep.searchStops h.wf hb head fit lowest _).mpr rfl)
    simp only [memTotal, wrap, memFree, memUsed, memMeta, sub32, Block.rest] at hx
    omega

/-- A `free` changes the sum by 12 less than 24 for each merge. -/
theorem Client.Inv.free_total {p : ℕ} (h : c.Inv r A) (hc : c.step (.free p) = some c') :
    memTotal c'.heap = memTotal c.heap ↔ Refused c (.free p) := by
  by_cases hp : p = 0
  · subst hp
    rw [h.free_null hc]
    exact iff_of_true rfl rfl
  · refine iff_of_false (fun hx ↦ ?_) hp
    obtain ⟨A', k, hk, -, -, -, -, -, -, hmu, ⟨n, htot⟩, -⟩ := h.free hp hc
    have hlt := h.wf.size_lt (Arena.mem_used.mp hk).1
    simp only [Nat.ModEq] at htot
    simp only [memTotal, wrap, hmu, sub32] at hx
    omega

theorem Client.write_total {p i : ℕ} {v : UInt8} (hc : c.step (.write p i v) = some c') :
    memTotal c'.heap = memTotal c.heap := by
  simp only [Client.step] at hc
  split_ifs at hc
  obtain rfl := Option.some.inj hc
  rfl

/-- The sum of the counters stays what it was after `memory_init` exactly in
the runs that never get a block. -/
theorem mem_total_constant_iff (r : Region) (m : Mem) (ops : List Op) :
    (∀ p, p <+: ops → ∀ c, run Client.step (Client.init r m) p = some c →
      memTotal c.heap = memTotal (Client.init r m).heap) ↔
    ∀ p op, p ++ [op] <+: ops → ∀ c c', run Client.step (Client.init r m) p = some c →
      c.step op = some c' → Refused c op := by
  refine run_forall_iff (I := fun c ↦ ∃ A, c.Inv r A) ⟨r.arena, Client.Inv.of_init r m⟩ rfl
    (fun c op c' ⟨A, hI⟩ hc ↦ Client.step_inv hI hc) ?_
  rintro c op c' ⟨A, hI⟩ hP hc
  rw [← hP]
  cases op with
  | malloc size => exact hI.malloc_total hc
  | free p => exact hI.free_total hc
  | write p i v => exact iff_of_true (Client.write_total hc) trivial

theorem mem_total_changes : ¬ ∀ (r : Region) (m : Mem) (c : Client), Client.Reachable r m c →
    memTotal c.heap = memTotal (Client.init r m).heap := by
  intro h
  have hx : memTotal (Client.after .small (fun _ ↦ 0) [.malloc 12]).heap ≠
      memTotal (Client.init .small fun _ ↦ 0).heap := by decide +kernel
  exact hx (h _ _ _ (Client.reachable_after _ _ _))

end OcamlRpi.Memory
