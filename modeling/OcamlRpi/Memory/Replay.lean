import OcamlRpi.Memory.Abstract
import OcamlRpi.Memory.Coalescing
import OcamlRpi.Memory.Program

namespace OcamlRpi.Memory

open Support Function List DList

/-- The allocator as a program sees it: where its blocks are and how large it
asked for them to be. What the memory holds has no part in it. -/
structure Plan where
  arena : Arena
  live : List (ℕ × ℕ)

/-- The size of the block whose payload starts at `p`. -/
def Arena.sizeAt (A : Arena) (p : ℕ) : ℕ := ((cutAt (p - 12) A.blocks).map fun t ↦ t.2.1.size).getD 0

namespace Plan

def init (r : Region) : Plan := ⟨r.arena, []⟩

def step (P : Plan) : Op → Option Plan
  | .malloc size =>
    if size < 2 ^ 32 then
      let (A, p) := P.arena.malloc size
      some ⟨A, if p = 0 then P.live else (p, size) :: P.live⟩
    else none
  | .free p =>
    if p = 0 ∨ p ∈ P.live.map Prod.fst then
      some ⟨P.arena.free p, P.live.filter (·.1 ≠ p)⟩
    else none
  | .write p i _ =>
    if P.live.any fun b ↦ b.1 = p ∧ i < b.2 ∧ b.2 ≤ MAX_REQUEST then some P else none

def call (P : Plan) : Call → Option Plan
  | .basic op => P.step op
  | .calloc nmemb size =>
    let q := wrap (nmemb * size)
    let (A, res) := P.arena.malloc q
    if q ≤ MAX_REQUEST ∧ res ≠ 0 then some ⟨A, (res, q) :: P.live⟩
    else if q = 0 then some ⟨A, P.live⟩
    else none
  | .realloc p size =>
    let (A, res) := P.arena.malloc size
    if p ∈ P.live.map Prod.fst ∧ size ≤ MAX_REQUEST ∧ (size ≤ P.arena.sizeAt p ∨ res ≠ 0) then
      if size ≤ P.arena.sizeAt p then some ⟨P.arena, (p, size) :: P.live.filter (·.1 ≠ p)⟩
      else some ⟨A.free p, (res, size) :: P.live.filter (·.1 ≠ p)⟩
    else none

end Plan

/-- The blocks in use, without their bytes. -/
def Client.blocks (c : Client) : List (ℕ × ℕ) := c.live.map fun b ↦ (b.ptr, b.size)

variable {h : Heap} {A A' : Arena} {b : Block} {r : Region} {m : Mem} {c c' : Client} {P : Plan}
  {p q size nmemb : ℕ} {l : List ℕ}

/-- The client is where the plan has it. -/
structure Client.Follows (r : Region) (c : Client) (P : Plan) : Prop where
  inv : c.Inv r P.arena
  blocks : c.blocks = P.live

theorem Arena.WF.bins_eq_nil (hw : A.WF) {n : ℕ} (hn : 32 ≤ n) : A.bins n = [] := by
  by_contra hne
  obtain ⟨a, l, hl⟩ := exists_cons_of_ne_nil hne
  obtain ⟨b, hb, -, rfl, -⟩ := hw.mem_bins.mp (hl ▸ mem_cons_self : a ∈ A.bins n)
  have hlt := hw.slot_lt hb
  omega

/-- The memory and the variables determine the arena. -/
theorem Represents.unique (hr : Represents h A) (hw : A.WF) (hr' : Represents h A') (hw' : A'.WF) :
    A = A' := by
  have hlo : A.lo = A'.lo := hr.first.symm.trans hr'.first
  have hhi : A.hi = A'.hi := hr.last.symm.trans hr'.last
  have haddr : A.blocks.map Block.addr = A'.blocks.map Block.addr := by
    apply hr'.ring_unique
    rw [hr.ring_eq]
    exact hr.all
  have hblocks : A.blocks = A'.blocks := by
    have hlen : A.blocks.length = A'.blocks.length := by simpa using congrArg length haddr
    apply ext_getElem hlen
    intro i hi hi'
    have hb := getElem_mem hi
    have hb' := getElem_mem hi'
    have hx : A.blocks[i].addr = A'.blocks[i].addr := by
      have hget := congrArg (fun l ↦ l[i]?) haddr
      simpa [hi, hi'] using hget
    apply Block.ext hx
    · rw [← size_of_ring hr.all hw hb, ← size_of_ring hr'.all hw' hb', hx]
    · rw [← hr.isUsed_eq (Arena.mem_all_of_mem hb), ← hr'.isUsed_eq (Arena.mem_all_of_mem hb'), hx]
  have hbins : A.bins = A'.bins := by
    funext n
    rcases Nat.lt_or_ge n 32 with hn | hn
    · have hhead := (hr.head n hn).symm.trans (hr'.head n hn)
      have h₀ := hw.zero_notMem_bins (n := n)
      have h₀' := hw'.zero_notMem_bins (n := n)
      have hring := hr.bin n
      have hring' := hr'.bin n
      cases ha : A.bins n with
      | nil =>
        cases ha' : A'.bins n with
        | nil => rfl
        | cons a l => simp_all
      | cons a l =>
        cases ha' : A'.bins n with
        | nil => simp_all
        | cons a' l' =>
          rw [ha, ha'] at hhead
          obtain rfl : a = a' := hhead
          rw [ha, map_cons] at hring
          rw [ha', map_cons] at hring'
          have htail := hring.eq_of_head hring'
          rw [map_injective_iff.mpr (add_left_injective 12) htail]
    · rw [hw.bins_eq_nil hn, hw'.bins_eq_nil hn]
  cases A
  cases A'
  simp_all

namespace Client

namespace Follows

theorem ptrs (hf : c.Follows r P) : c.live.map Handle.ptr = P.live.map Prod.fst := by
  rw [← hf.blocks, Client.blocks, map_map]
  rfl

theorem filter_live (hf : c.Follows r P) (p : ℕ) :
    (c.live.filter (·.ptr ≠ p)).map (fun b ↦ (b.ptr, b.size)) = P.live.filter (·.1 ≠ p) := by
  rw [← hf.blocks, Client.blocks, filter_map]
  rfl

theorem of_init (r : Region) (m : Mem) : (init r m).Follows r (Plan.init r) :=
  ⟨Inv.of_init r m, rfl⟩

theorem malloc (hf : c.Follows r P) (size : ℕ) :
    Option.Rel (Follows r) (c.step (.malloc size)) (P.step (.malloc size)) := by
  by_cases hs : size < 2 ^ 32
  · obtain ⟨c', hc⟩ : ∃ c', c.step (.malloc size) = some c' := by
      rw [Client.step, if_pos hs]
      exact ⟨_, rfl⟩
    obtain ⟨A', hm, hI, -⟩ := hf.inv.malloc hc
    have he := hm.eq_abstract hf.inv.wf
    rw [hc, Plan.step, if_pos hs, he]
    simp only [Client.step, if_pos hs] at hc
    obtain rfl := Option.some.inj hc
    refine .some ⟨hI, ?_⟩
    dsimp only [Client.blocks]
    split_ifs with hp
    · exact hf.blocks
    · rw [map_cons, ← hf.blocks]
      rfl
  · rw [Client.step, if_neg hs, Plan.step, if_neg hs]
    exact .none

theorem free (hf : c.Follows r P) (p : ℕ) :
    Option.Rel (Follows r) (c.step (.free p)) (P.step (.free p)) := by
  by_cases hp : p = 0 ∨ p ∈ c.live.map Handle.ptr
  · have hc : c.step (.free p) = some ⟨Memory.free c.heap p, c.live.filter (·.ptr ≠ p)⟩ := by
      rw [Client.step, if_pos hp]
    rw [hc, Plan.step, if_pos (hf.ptrs ▸ hp)]
    refine .some ⟨?_, hf.filter_live p⟩
    by_cases hp₀ : p = 0
    · have hsame := hf.inv.free_null (hp₀ ▸ hc)
      subst hp₀
      rw [hsame]
      exact hf.inv
    · obtain ⟨A', k, hk, rfl, hI, -⟩ := hf.inv.free hp₀ hc
      obtain ⟨hr, hw⟩ := free_refines hf.inv.rep hf.inv.wf hk
      have he : A' = P.arena.free k.payload := hI.rep.unique hI.wf hr hw
      exact he ▸ hI
  · rw [Client.step, if_neg hp, Plan.step, if_neg (hf.ptrs ▸ hp)]
    exact .none

theorem write (hf : c.Follows r P) (p i : ℕ) (v : UInt8) :
    Option.Rel (Follows r) (c.step (.write p i v)) (P.step (.write p i v)) := by
  have hany : (P.live.any fun b ↦ b.1 = p ∧ i < b.2 ∧ b.2 ≤ MAX_REQUEST) =
      c.live.any fun b ↦ b.ptr = p ∧ i < b.size ∧ b.size ≤ MAX_REQUEST := by
    rw [← hf.blocks, Client.blocks, any_map]
    rfl
  rw [Plan.step, hany]
  cases hc : c.step (.write p i v) with
  | none =>
    simp only [Client.step, ite_eq_right_iff, reduceCtorEq, imp_false] at hc
    rw [if_neg hc]
    exact .none
  | some c' =>
    have hI := hf.inv.write hc
    simp only [Client.step] at hc
    split_ifs at hc with hw
    obtain rfl := Option.some.inj hc
    rw [if_pos hw]
    refine .some ⟨hI, ?_⟩
    rw [← hf.blocks, Client.blocks, Client.blocks, map_map]
    apply map_congr_left
    intro b _
    rw [comp_apply, Handle.write]
    split_ifs <;> rfl

theorem step (hf : c.Follows r P) (op : Op) : Option.Rel (Follows r) (c.step op) (P.step op) := by
  cases op with
  | malloc size => exact hf.malloc size
  | free p => exact hf.free p
  | write p i v => exact hf.write p i v

theorem sizeAt (hf : c.Follows r P) (hp : p ∈ c.live.map Handle.ptr) :
    P.arena.sizeAt p = payloadSize c.heap.mem p := by
  obtain ⟨b, hb, rfl⟩ := mem_map.mp hp
  obtain ⟨k, hk, hkp⟩ := hf.inv.chunk hb
  obtain ⟨pre, post, he⟩ := append_of_mem (Arena.mem_used.mp hk).1
  rw [← hkp, hf.inv.payloadSize_eq hk, Arena.sizeAt, show k.payload - 12 = k.addr from Nat.add_sub_cancel _ _,
    hf.inv.wf.cutAt_blocks he]
  rfl

theorem calloc (hf : c.Follows r P) (nmemb size : ℕ) :
    Option.Rel (Follows r) (c.call (.calloc nmemb size)) (P.call (.calloc nmemb size)) := by
  obtain ⟨hres, hr, hw⟩ := malloc_refines hf.inv.rep hf.inv.wf (wrap (nmemb * size))
  have hptr : (Memory.calloc c.heap nmemb size).2 = (P.arena.malloc (wrap (nmemb * size))).2 := hres
  simp only [Client.call, Plan.call, hptr]
  split_ifs with h₁ h₂
  · obtain ⟨A', k, hI, -, -, -, hI', -⟩ := hf.inv.calloc_block h₁.1 (hptr ▸ h₁.2)
    have he : A' = (P.arena.malloc (wrap (nmemb * size))).1 := hI'.rep.unique hI.wf hr hw
    refine .some ⟨?_, ?_⟩
    · rw [← hptr, ← he]
      exact hI
    · rw [Client.blocks, map_cons, ← hf.blocks]
      rfl
  · have hz : (P.arena.malloc (wrap (nmemb * size))).2 = 0 := by
      by_contra hne
      exact h₁ ⟨by rw [h₂]; exact Nat.zero_le _, hne⟩
    obtain ⟨A', hm, -⟩ := malloc_spec hf.inv.rep hf.inv.wf (wrap (nmemb * size))
    obtain ⟨hheap, -⟩ := hm.eq_of_null (hres.trans hz)
    have he := hm.eq_abstract hf.inv.wf
    obtain rfl := (hm.eq_of_null (hres.trans hz)).2
    refine .some ⟨?_, hf.blocks⟩
    rw [he, calloc_eq, h₂, memset, ← h₂, hheap]
    exact hf.inv
  · exact .none

/-- Copying the bytes of a block that moves has no part in which chunks there are. -/
theorem realloc_arena (hf : c.Follows r P) (hp : p ∈ c.live.map Handle.ptr) (hs : size ≤ MAX_REQUEST)
    (hlt : payloadSize c.heap.mem p < size) (hres : (Memory.malloc c.heap size).2 ≠ 0) :
    Represents (Memory.realloc c.heap p size).1 ((P.arena.malloc size).1.free p) ∧
      ((P.arena.malloc size).1.free p).WF := by
  obtain ⟨b, hb, rfl⟩ := mem_map.mp hp
  obtain ⟨k₀, hk₀, hk₀p⟩ := hf.inv.chunk hb
  have hold := hf.inv.payloadSize_eq hk₀
  rw [hk₀p] at hold
  obtain ⟨A₁, k, hI₁, hk, hkp, hks, hkeep⟩ :=
    hf.inv.malloc_block (Nat.lt_of_le_of_lt hs (by decide)) hres
  obtain ⟨-, hr, hw⟩ := malloc_refines hf.inv.rep hf.inv.wf size
  obtain rfl : A₁ = (P.arena.malloc size).1 := hI₁.rep.unique hI₁.wf hr hw
  have hsk := (le_roundRequest hs).trans hks
  rw [realloc_moves hlt, hold]
  rw [hold] at hlt
  obtain ⟨hk₀', hkk, -⟩ := hkeep k₀ hk₀
  obtain ⟨-, hout⟩ := memcpy_payload hI₁.wf hk hkp hk₀' hk₀p hkk (by omega) (Memory.malloc c.heap size).1.mem
  have hI₂ := hI₁.fill (w := fun _ ↦ none) hk hkp hout nofun
  have hfree := free_refines hI₂.rep hI₂.wf hk₀'
  rwa [hk₀p] at hfree

theorem realloc (hf : c.Follows r P) (p size : ℕ) :
    Option.Rel (Follows r) (c.call (.realloc p size)) (P.call (.realloc p size)) := by
  obtain ⟨hres, -⟩ := malloc_refines hf.inv.rep hf.inv.wf size
  by_cases hp : p ∈ c.live.map Handle.ptr
  · have hsize := hf.sizeAt hp
    have hp' : p ∈ P.live.map Prod.fst := hf.ptrs ▸ hp
    obtain ⟨b, hb, rfl⟩ := mem_map.mp hp
    simp only [Client.call, Plan.call, hp, hp', hsize, ← hres]
    split_ifs with hok hle
    · obtain ⟨k, hk, hkp⟩ := hf.inv.chunk hb
      rw [realloc_fits hle]
      rw [← hkp, hf.inv.payloadSize_eq hk] at hle
      refine .some ⟨?_, ?_⟩
      · apply hf.inv.realloc_stays hb hk hkp (roundRequest_le hle k.size_ge k.size_dvd)
        intro i v hv
        split_ifs at hv
        exact Option.some.inj hv
      · rw [Client.blocks, map_cons, hf.filter_live]
    · have hne := hok.2.2.resolve_left hle
      have hlt := Nat.lt_of_not_le hle
      obtain ⟨A', -, hI, -⟩ := hf.inv.realloc_block hb hok.2.1 hlt hne
      obtain ⟨hr, hw⟩ := hf.realloc_arena hp hok.2.1 hlt hne
      obtain rfl := hI.rep.unique hI.wf hr hw
      refine .some ⟨hI, ?_⟩
      rw [Client.blocks, map_cons, hf.filter_live, realloc_moves hlt]
    · exact .none
  · have hp' : p ∉ P.live.map Prod.fst := hf.ptrs ▸ hp
    simp only [Client.call, Plan.call, hp, hp', false_and, if_false]
    exact .none

theorem call (hf : c.Follows r P) (call : Call) : Option.Rel (Follows r) (c.call call) (P.call call) := by
  cases call with
  | basic op => exact hf.step op
  | calloc nmemb size => exact hf.calloc nmemb size
  | realloc p size => exact hf.realloc p size

end Follows

theorem Follows.run (hf : c.Follows r P) (calls : List Call) :
    (Support.run Client.call c calls).map Client.blocks = (Support.run Plan.call P calls).map Plan.live :=
  map_eq_of_rel (run_rel (fun _ _ i h ↦ h.call i) hf calls) fun _ _ h ↦ h.blocks

/-- With no block in use the arena is that of a fresh heap. -/
theorem Inv.arena_fresh (h : c.Inv r A) (hl : c.live = []) : A = r.arena := by
  have hused : A.used = [] := by
    have hx := h.live
    rw [hl, map_nil, perm_nil, map_eq_nil_iff] at hx
    exact hx
  have hb := Arena.blocks_eq h.wf r.arena_wf h.lo h.hi (hused : A.used = r.arena.used)
  have hbins : A.bins = r.arena.bins := by
    funext n
    have hperm := (h.wf.bins n).trans (hb ▸ (r.arena_wf.bins n).symm)
    by_cases hn : n = r.block.slot
    · have hbin : r.arena.bins n = [r.block.addr] := by simp [Region.arena, file, hn]
      rw [hbin] at hperm ⊢
      exact perm_singleton.mp hperm
    · have hbin : r.arena.bins n = [] := by simp [Region.arena, file, hn]
      rw [hbin] at hperm ⊢
      exact perm_nil.mp hperm
  have hlo := h.lo
  have hhi := h.hi
  cases A
  simp_all [Region.arena]

end Client

/-- The blocks a program gets depend on its requests only: those that the
allocator on arenas hands out. -/
theorem plan_decides (r : Region) (m : Mem) (calls : List Call) :
    (run Client.call (Client.init r m) calls).map Client.blocks =
      (run Plan.call (Plan.init r) calls).map Plan.live :=
  (Client.Follows.of_init r m).run calls

/-- When all blocks were freed the heap is as good as new: whatever a program
does then, it gets the blocks it would get from a fresh heap. -/
theorem as_good_as_new (hc : Client.CallReachable r m c) (hl : c.live = []) (m' : Mem) (calls : List Call) :
    (run Client.call c calls).map Client.blocks =
      (run Client.call (Client.init r m') calls).map Client.blocks := by
  obtain ⟨A, hI⟩ := hc.inv
  obtain rfl := hI.arena_fresh hl
  have hf : c.Follows r (Plan.init r) := ⟨hI, by rw [Client.blocks, hl]; rfl⟩
  rw [plan_decides]
  exact hf.run calls

theorem as_good_as_new_small :
    let c := Client.afterCalls .small (fun _ ↦ 0) [.basic (.malloc 9), .basic (.write 4128 3 7), .basic (.free 4128)]
    c.live.length = 0 ∧ (run Client.call c [.calloc 3 4]).map Client.blocks =
      (run Client.call (Client.init .small fun _ ↦ 255) [.calloc 3 4]).map Client.blocks := by
  intro c
  have hlen : c.live.length = 0 := by decide +kernel
  exact ⟨hlen, as_good_as_new (Client.callReachable_after _ _ _) (length_eq_zero_iff.mp hlen) _ _⟩

end OcamlRpi.Memory
