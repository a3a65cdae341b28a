import OcamlRpi.Memory.Chunks
import OcamlRpi.Memory.Copy

namespace OcamlRpi.Memory

open Support Function List DList

/-- What a program does with the allocator, `calloc` and `realloc` included. -/
inductive Call where
  | basic (op : Op)
  | calloc (nmemb size : ℕ)
  | realloc (p size : ℕ)

namespace Client

/-- A failing `realloc` is left out, and so is a failing `calloc` unless it has
nothing to clear: they write through `NULL`. A block of `calloc` has the bytes
that were cleared. -/
def call (c : Client) : Call → Option Client
  | .basic op => c.step op
  | .calloc nmemb size =>
    let q := wrap (nmemb * size)
    let (h, res) := calloc c.heap nmemb size
    if q ≤ MAX_REQUEST ∧ res ≠ 0 then
      some ⟨h, ⟨res, q, fun i ↦ if i < q then some 0 else none⟩ :: c.live⟩
    else if q = 0 then some ⟨h, c.live⟩
    else none
  | .realloc p size =>
    let old := payloadSize c.heap.mem p
    let (h, res) := realloc c.heap p size
    if p ∈ c.live.map Handle.ptr ∧ size ≤ MAX_REQUEST ∧
        (size ≤ old ∨ (malloc c.heap size).2 ≠ 0) then
      some ⟨h, ⟨res, size, fun i ↦ if i < old then some (c.heap.mem (p + i)) else none⟩ ::
        c.live.filter (·.ptr ≠ p)⟩
    else none

def CallReachable (r : Region) (m : Mem) (c : Client) : Prop :=
  ∃ calls, run call (init r m) calls = some c

/-- The state after the calls, or the fresh one where one of them is not
allowed. -/
def afterCalls (r : Region) (m : Mem) (calls : List Call) : Client :=
  (run call (init r m) calls).getD (init r m)

theorem callReachable_after (r : Region) (m : Mem) (calls : List Call) :
    CallReachable r m (afterCalls r m calls) :=
  exists_run_getD _ _ _

theorem run_basic (c : Client) (ops : List Op) : run call c (ops.map .basic) = run step c ops := by
  induction ops generalizing c with
  | nil => rfl
  | cons op ops ih =>
    simp only [map_cons, run, ih]
    rfl

theorem Reachable.call {r : Region} {m : Mem} {c : Client} (h : Reachable r m c) : CallReachable r m c := by
  obtain ⟨ops, hr⟩ := h
  exact ⟨ops.map .basic, (run_basic _ _).trans hr⟩

variable {r : Region} {m m' : Mem} {c c' : Client} {A : Arena} {b : Handle} {k : Block} {hp : Heap}
  {live : List Handle} {size nmemb p : ℕ} {w : ℕ → Option UInt8}

/-- Clearing the front of a payload. -/
theorem memset_payload (hw : A.WF) (hk : k ∈ A.used) (hkp : k.payload = p) {n : ℕ} (hn : n ≤ k.size)
    (m : Mem) (v : UInt8) : (∀ i < n, memset m p v n (p + i) = v) ∧
      ∀ x, x < k.payload ∨ k.stop ≤ x → memset m p v n x = m x := by
  subst hkp
  have hstop := hw.stop_le hk
  have hset : ∀ x, memset m k.payload v n x =
      if k.payload ≤ x ∧ x < k.payload + n then v else m x := by
    intro x
    apply memset_apply
    simp only [Block.payload, Block.stop] at *
    omega
  constructor
  · intro i hi
    rw [hset, if_pos (by omega)]
  · intro x hx
    rw [hset, if_neg]
    simp only [Block.payload, Block.stop] at *
    omega

/-- Copying a payload to the front of another one. -/
theorem memcpy_payload {k₀ : Block} {q : ℕ} (hw : A.WF) (hk : k ∈ A.used) (hkp : k.payload = p)
    (hk₀ : k₀ ∈ A.used) (hk₀q : k₀.payload = q) (hne : k₀ ≠ k) (hs : k₀.size ≤ k.size) (m : Mem) :
    (∀ i < k₀.size, memcpy m p q k₀.size (p + i) = m (q + i)) ∧
      ∀ x, x < k.payload ∨ k.stop ≤ x → memcpy m p q k₀.size x = m x := by
  subst hkp hk₀q
  have hstop := hw.stop_le hk
  have hstop₀ := hw.stop_le hk₀
  have hapart := hw.blocks_tile.apart (Arena.mem_used.mp hk).1 (Arena.mem_used.mp hk₀).1 hne.symm
  have hcopy : ∀ x, memcpy m k.payload k₀.payload k₀.size x =
      if k.payload ≤ x ∧ x < k.payload + k₀.size then m (k₀.payload + (x - k.payload)) else m x := by
    intro x
    apply memcpy_apply <;> simp only [Block.payload, Block.stop] at * <;> omega
  constructor
  · intro i hi
    rw [hcopy, if_pos (by omega), Nat.add_sub_cancel_left]
  · intro x hx
    rw [hcopy, if_neg]
    simp only [Block.payload, Block.stop] at *
    omega

theorem step_free (hb : b ∈ live) {d : Handle} (hne : d.ptr ≠ b.ptr) :
    step ⟨hp, d :: live⟩ (.free b.ptr) =
      some ⟨Memory.free hp b.ptr, d :: live.filter (·.ptr ≠ b.ptr)⟩ := by
  have hm : b.ptr ∈ (d :: live).map Handle.ptr := mem_map_of_mem (mem_cons_of_mem d hb)
  rw [step, if_pos (.inr hm), filter_cons_of_pos (by simpa using hne)]

namespace Inv

theorem ptrs_nodup (h : c.Inv r A) : (c.live.map Handle.ptr).Nodup := by
  rw [← h.live.nodup_iff]
  have hp := h.wf.blocks_tile.pairwise.filter Block.used
  refine List.Pairwise.map _ (fun b d hbd ↦ ?_) hp
  have hb := b.addr_add_le_stop
  simp only [Block.payload]
  omega

theorem payloadSize_eq (h : c.Inv r A) (hk : k ∈ A.used) : payloadSize c.heap.mem k.payload = k.size := by
  have hkA := (Arena.mem_used.mp hk).1
  rw [payloadSize, (chunk_of_payload h.wf hkA).2]
  exact Represents.size_of_ring h.rep.all h.wf hkA

theorem fill (h : Client.Inv r ⟨hp, b :: live⟩ A) (hk : k ∈ A.used) (hkp : k.payload = b.ptr)
    (hm : ∀ x, x < k.payload ∨ k.stop ≤ x → m' x = hp.mem x)
    (hwr : ∀ i < b.size, ∀ v, w i = some v → m' (b.ptr + i) = v) :
    Client.Inv r ⟨{ hp with mem := m' }, { b with wrote := w } :: live⟩ A := by
  have hkA := Arena.mem_used.mp hk
  refine ⟨?_, h.wf, h.lo, h.hi, h.live, ?_, ?_⟩
  · apply h.rep.fill h.wf
    intro x hx
    have hkall := Arena.mem_all_of_mem hkA.1
    apply Arena.layout_outside hkall (Arena.used_notMem_frees h.wf hkall hkA.2)
    · by_contra hlt
      exact hx (hm x (by omega))
    · by_contra hge
      exact hx (hm x (by omega))
  · intro d hd k' hk' hkd
    rcases mem_cons.mp hd with rfl | hd
    · exact h.large b mem_cons_self k' hk' hkd
    · exact h.large d (mem_cons_of_mem b hd) k' hk' hkd
  · intro d hd hs i hi v hv
    rcases mem_cons.mp hd with rfl | hd
    · exact hwr i hi v hv
    · have hdl := mem_cons_of_mem b hd
      obtain ⟨k', hk', hkd, hstop⟩ := h.mem_payload hdl hs hi
      have hne : k' ≠ k := by
        intro he
        subst he
        have hnd := h.ptrs_nodup
        rw [map_cons, nodup_cons] at hnd
        exact hnd.1 (hkp ▸ hkd ▸ mem_map_of_mem hd)
      have hout := h.wf.payload_apart hk' hk hne (hkd ▸ Nat.le_add_right _ _) hstop
      exact (hm _ hout).trans (h.wrote d hdl hs i hi v hv)

theorem malloc_block (h : c.Inv r A) (hs : size < 2 ^ 32) (hp : (Memory.malloc c.heap size).2 ≠ 0) :
    ∃ A' k, Client.Inv r ⟨(Memory.malloc c.heap size).1,
        ⟨(Memory.malloc c.heap size).2, size, fun _ ↦ none⟩ :: c.live⟩ A' ∧
      k ∈ A'.used ∧ k.payload = (Memory.malloc c.heap size).2 ∧ roundRequest size ≤ k.size ∧
      ∀ d ∈ A.used, d ∈ A'.used ∧ d ≠ k ∧ Keeps c.heap.mem (Memory.malloc c.heap size).1.mem d := by
  have hc : c.step (.malloc size) = some ⟨(Memory.malloc c.heap size).1,
      ⟨(Memory.malloc c.heap size).2, size, fun _ ↦ none⟩ :: c.live⟩ := by
    simp only [step, if_pos hs, if_neg hp]
  obtain ⟨A', -, hI, -, hold, hkeep⟩ := h.malloc hc
  obtain ⟨k, hk, hkp⟩ := hI.chunk mem_cons_self
  refine ⟨A', k, hI, hk, hkp, hI.large _ mem_cons_self k hk hkp, ?_⟩
  intro d hd
  refine ⟨hold d hd, ?_, hkeep d (Arena.mem_used.mp hd).1 (Arena.mem_used.mp hd).2⟩
  intro he
  subst he
  have hnd := hI.ptrs_nodup
  rw [map_cons, nodup_cons] at hnd
  exact hnd.1 (hkp ▸ h.live.mem_iff.mp (mem_map_of_mem hd))

/-- The state after a successful `calloc`: only bytes of the new block were
cleared. -/
theorem calloc_block (h : c.Inv r A) (hq : wrap (nmemb * size) ≤ MAX_REQUEST)
    (hp : (Memory.calloc c.heap nmemb size).2 ≠ 0) :
    ∃ A' k, Client.Inv r ⟨(Memory.calloc c.heap nmemb size).1, ⟨(Memory.calloc c.heap nmemb size).2,
        wrap (nmemb * size), fun i ↦ if i < wrap (nmemb * size) then some 0 else none⟩ :: c.live⟩ A' ∧
      k ∈ A'.used ∧ k.payload = (Memory.calloc c.heap nmemb size).2 ∧ wrap (nmemb * size) ≤ k.size ∧
      Client.Inv r ⟨(Memory.malloc c.heap (wrap (nmemb * size))).1,
        ⟨(Memory.calloc c.heap nmemb size).2, wrap (nmemb * size), fun _ ↦ none⟩ :: c.live⟩ A' ∧
      (∀ x, x < k.payload ∨ k.stop ≤ x →
        (Memory.calloc c.heap nmemb size).1.mem x = (Memory.malloc c.heap (wrap (nmemb * size))).1.mem x) ∧
      ∀ d ∈ A.used, d ∈ A'.used ∧ d ≠ k := by
  rw [calloc_eq] at hp ⊢
  generalize wrap (nmemb * size) = q at *
  obtain ⟨A', k, hI, hk, hkp, hks, hold⟩ := h.malloc_block (Nat.lt_of_le_of_lt hq (by decide)) hp
  dsimp only at *
  have hqk := (le_roundRequest hq).trans hks
  obtain ⟨hset, hout⟩ := memset_payload hI.wf hk hkp hqk (Memory.malloc c.heap q).1.mem 0
  refine ⟨A', k, hI.fill hk hkp hout ?_, hk, hkp, hqk, hI, hout, ?_⟩
  · intro i hi v hv
    dsimp only at hi hv ⊢
    rw [if_pos hi, Option.some.injEq] at hv
    rw [hset i hi, hv]
  · intro d hd
    exact ⟨(hold d hd).1, (hold d hd).2.1⟩

theorem filter_live (h : c.Inv r A) (hb : b ∈ c.live) :
    (c.live.map Handle.ptr).Perm (b.ptr :: (c.live.filter (·.ptr ≠ b.ptr)).map Handle.ptr) := by
  have hnd := h.ptrs_nodup
  obtain ⟨pre, post, he⟩ := append_of_mem hb
  rw [he] at hnd ⊢
  rw [map_append, map_cons, perm_middle.nodup_iff, nodup_cons, ← map_append] at hnd
  have hne : ∀ d ∈ pre ++ post, d.ptr ≠ b.ptr := fun d hd hx ↦ hnd.1 (hx ▸ mem_map_of_mem hd)
  have hf : (pre ++ b :: post).filter (·.ptr ≠ b.ptr) = pre ++ post := by
    rw [filter_append, filter_cons_of_neg (by simp), ← filter_append]
    exact filter_eq_self.mpr fun d hd ↦ decide_eq_true (hne d hd)
  rw [hf, map_append, map_append, map_cons]
  exact perm_middle

/-- `realloc` of a block whose chunk is large enough only changes what its
owner knows of it. -/
theorem realloc_stays (h : c.Inv r A) (hb : b ∈ c.live) (hk : k ∈ A.used) (hkp : k.payload = b.ptr)
    (hs : roundRequest size ≤ k.size) (hw : ∀ i v, w i = some v → c.heap.mem (b.ptr + i) = v) :
    Client.Inv r ⟨c.heap, ⟨b.ptr, size, w⟩ :: c.live.filter (·.ptr ≠ b.ptr)⟩ A := by
  refine ⟨h.rep, h.wf, h.lo, h.hi, ?_, ?_, ?_⟩
  · have hf := h.filter_live hb
    exact h.live.trans hf
  · intro d hd k' hk' hkd
    rcases mem_cons.mp hd with rfl | hd
    · rw [payload_inj h.wf (Arena.mem_used.mp hk').1 (Arena.mem_used.mp hk).1 (hkd.trans hkp.symm)]
      exact hs
    · exact h.large d (mem_filter.mp hd).1 k' hk' hkd
  · intro d hd hds i hi v hv
    rcases mem_cons.mp hd with rfl | hd
    · exact hw i v hv
    · exact h.wrote d (mem_filter.mp hd).1 hds i hi v hv

/-- `realloc` of a block that has to move: the new block has the old bytes, and
the old one is released. -/
theorem realloc_block (h : c.Inv r A) (hb : b ∈ c.live) (hs : size ≤ MAX_REQUEST)
    (hlt : payloadSize c.heap.mem b.ptr < size) (hp : (Memory.malloc c.heap size).2 ≠ 0) :
    ∃ A' k, Client.Inv r ⟨(Memory.realloc c.heap b.ptr size).1,
        ⟨(Memory.realloc c.heap b.ptr size).2, size, fun i ↦
          if i < payloadSize c.heap.mem b.ptr then some (c.heap.mem (b.ptr + i)) else none⟩ ::
        c.live.filter (·.ptr ≠ b.ptr)⟩ A' ∧
      k ∈ A'.used ∧ k.payload = (Memory.realloc c.heap b.ptr size).2 ∧ size ≤ k.size ∧
      (∀ d ∈ A'.used, d.payload ≠ b.ptr) ∧
      ∀ d ∈ A.used, d.payload ≠ b.ptr → d ∈ A'.used ∧
        Keeps c.heap.mem (Memory.realloc c.heap b.ptr size).1.mem d := by
  obtain ⟨k₀, hk₀, hk₀p⟩ := h.chunk hb
  have hold := h.payloadSize_eq hk₀
  rw [hk₀p] at hold
  rw [realloc_moves hlt]
  obtain ⟨A₁, k, hI₁, hk, hkp, hks, hkeep₁⟩ := h.malloc_block (Nat.lt_of_le_of_lt hs (by decide)) hp
  set h₁ := (Memory.malloc c.heap size).1 with hh₁
  set res := (Memory.malloc c.heap size).2 with hres
  rw [hold] at hlt ⊢
  have hsk := (le_roundRequest hs).trans hks
  obtain ⟨hk₀', hkk, hkeep₀⟩ := hkeep₁ k₀ hk₀
  obtain ⟨hcopy, hout⟩ := memcpy_payload hI₁.wf hk hkp hk₀' hk₀p hkk (by omega) h₁.mem
  have hne : res ≠ b.ptr := by
    have hnd := hI₁.ptrs_nodup
    rw [map_cons, nodup_cons] at hnd
    have hm : b.ptr ∈ c.live.map Handle.ptr := mem_map_of_mem hb
    exact fun he ↦ hnd.1 (he ▸ hm)
  have hwr : ∀ i < size, ∀ v, (if i < k₀.size then some (c.heap.mem (b.ptr + i)) else none) = some v →
      memcpy h₁.mem res b.ptr k₀.size (res + i) = v := by
    intro i _ v hv
    split_ifs at hv with hi
    have hin := Block.payload_add hi
    rw [hcopy i hi, ← Option.some.inj hv, ← hk₀p]
    exact hkeep₀ _ hin.1 hin.2
  have hI₂ := hI₁.fill hk hkp hout hwr
  obtain ⟨A₂, -, -, -, hI₃, -, hused, -, -, -, -, hkeep₂⟩ :=
    hI₂.free (h.ptr_ne_zero hb) (step_free hb hne)
  refine ⟨A₂, k, hI₃, ?_, hkp, hsk, ?_, ?_⟩
  · rw [hused]
    exact mem_filter.mpr ⟨hk, decide_eq_true (hkp ▸ hne)⟩
  · intro d hd
    rw [hused] at hd
    exact of_decide_eq_true (mem_filter.mp hd).2
  · intro d hd hdp
    obtain ⟨hd₁, hdk, hkeep⟩ := hkeep₁ d hd
    refine ⟨hused ▸ mem_filter.mpr ⟨hd₁, decide_eq_true hdp⟩, ?_⟩
    refine (hkeep.trans fun x hx hx' ↦ hout x ?_).trans (hkeep₂ d hd₁ hdp)
    exact hI₁.wf.payload_apart hd₁ hk hdk hx hx'

end Inv

theorem call_inv {call : Call} (h : c.Inv r A) (hc : c.call call = some c') : ∃ A', c'.Inv r A' := by
  cases call with
  | basic op => exact step_inv h hc
  | calloc nmemb size =>
    simp only [Client.call] at hc
    split_ifs at hc with hres hq
    · obtain rfl := Option.some.inj hc
      obtain ⟨A', -, hI, -⟩ := h.calloc_block hres.1 hres.2
      exact ⟨A', hI⟩
    · obtain rfl := Option.some.inj hc
      have hnull : (Memory.malloc c.heap (wrap (nmemb * size))).2 = 0 := by
        by_contra hne
        rw [hq] at hne hres
        exact hres ⟨Nat.zero_le _, by rwa [calloc_eq, hq]⟩
      obtain ⟨A', hm, -⟩ := malloc_spec h.rep h.wf (wrap (nmemb * size))
      have hheap := (hm.eq_of_null hnull).1
      refine ⟨A, ?_⟩
      rw [calloc_eq, hq, memset, ← hq, hheap]
      exact h
  | realloc p size =>
    simp only [Client.call] at hc
    split_ifs at hc with hok
    obtain rfl := Option.some.inj hc
    obtain ⟨hp, hs, hfit⟩ := hok
    obtain ⟨b, hb, rfl⟩ := mem_map.mp hp
    by_cases hle : size ≤ payloadSize c.heap.mem b.ptr
    · rw [realloc_fits hle]
      obtain ⟨k, hk, hkp⟩ := h.chunk hb
      rw [← hkp, h.payloadSize_eq hk] at hle
      refine ⟨A, h.realloc_stays hb hk hkp (roundRequest_le hle k.size_ge k.size_dvd) ?_⟩
      intro i v hv
      split_ifs at hv
      exact Option.some.inj hv
    · obtain ⟨A', -, hI, -⟩ := h.realloc_block hb hs (Nat.lt_of_not_le hle) (hfit.resolve_left hle)
      exact ⟨A', hI⟩

theorem CallReachable.inv (h : CallReachable r m c) : ∃ A, c.Inv r A := by
  obtain ⟨calls, hr⟩ := h
  exact run_invariant (P := fun c ↦ ∃ A, c.Inv r A) ⟨r.arena, Inv.of_init r m⟩
    (fun _ _ _ ⟨_, hI⟩ hc ↦ call_inv hI hc) hr

end Client

end OcamlRpi.Memory
