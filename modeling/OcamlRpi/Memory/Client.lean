import OcamlRpi.Memory.Free
import OcamlRpi.Memory.Init
import OcamlRpi.Memory.Malloc
import OcamlRpi.Support.Run

namespace OcamlRpi.Memory

open Support Function List DList

/-- A block in use: its pointer, the size it was requested with, and what its
owner last wrote to each of its bytes. -/
structure Handle where
  ptr : ℕ
  size : ℕ
  wrote : ℕ → Option UInt8

def Handle.write (b : Handle) (p i : ℕ) (v : UInt8) : Handle :=
  if b.ptr = p then { b with wrote := update b.wrote i (some v) } else b

/-- The heap and the blocks of the program that uses it. -/
structure Client where
  heap : Heap
  live : List Handle

inductive Op where
  | malloc (size : ℕ)
  | free (p : ℕ)
  | write (p i : ℕ) (v : UInt8)

/-- The largest request that does not wrap when it is rounded up. -/
def MAX_REQUEST : ℕ := 0xFFFFFFFC

namespace Client

/-- The operations a program may use: any request of 32 bits, the release of
`NULL` or of a block in use, and writes to the bytes it asked for. -/
def step (c : Client) : Op → Option Client
  | .malloc size =>
    if size < 2 ^ 32 then
      let (h, p) := malloc c.heap size
      some ⟨h, if p = 0 then c.live else ⟨p, size, fun _ ↦ none⟩ :: c.live⟩
    else none
  | .free p =>
    if p = 0 ∨ p ∈ c.live.map Handle.ptr then
      some ⟨free c.heap p, c.live.filter (·.ptr ≠ p)⟩
    else none
  | .write p i v =>
    if c.live.any fun b ↦ b.ptr = p ∧ i < b.size ∧ b.size ≤ MAX_REQUEST then
      some ⟨{ c.heap with mem := update c.heap.mem (p + i) v }, c.live.map (·.write p i v)⟩
    else none

def init (r : Region) (m : Mem) : Client := ⟨memoryInit (.boot m) r.mem r.size, []⟩

/-- The state `c` is reached from a fresh heap. -/
def Reachable (r : Region) (m : Mem) (c : Client) : Prop := ∃ ops, run step (init r m) ops = some c

/-- The heap holds an arena whose used chunks are those of the blocks in use,
and these hold what was written to them. -/
structure Inv (r : Region) (c : Client) (A : Arena) : Prop where
  rep : Represents c.heap A
  wf : A.WF
  lo : A.lo = r.lo
  hi : A.hi = r.hi
  live : (A.used.map Block.payload).Perm (c.live.map Handle.ptr)
  large : ∀ b ∈ c.live, ∀ k ∈ A.used, k.payload = b.ptr → roundRequest b.size ≤ k.size
  wrote : ∀ b ∈ c.live, b.size ≤ MAX_REQUEST → ∀ i < b.size, ∀ v, b.wrote i = some v →
    c.heap.mem (b.ptr + i) = v

/-- The state after the operations `ops`, or the fresh one where one of them
is not allowed. -/
def after (r : Region) (m : Mem) (ops : List Op) : Client :=
  (run step (init r m) ops).getD (init r m)

theorem reachable_after (r : Region) (m : Mem) (ops : List Op) : Reachable r m (after r m ops) :=
  exists_run_getD _ _ _

variable {r : Region} {m : Mem} {c c' : Client} {A : Arena} {b : Handle} {p i : ℕ} {k : Block}

namespace Inv

theorem chunk (h : c.Inv r A) (hb : b ∈ c.live) : ∃ k ∈ A.used, k.payload = b.ptr :=
  mem_map.mp (h.live.mem_iff.mpr (mem_map_of_mem hb))

theorem payload_inj {k' : Block} (h : A.WF) (hk : k ∈ A.blocks) (hk' : k' ∈ A.blocks)
    (he : k.payload = k'.payload) : k = k' :=
  h.eq_of_addr_eq (Arena.mem_all_of_mem hk) (Arena.mem_all_of_mem hk')
    (by simp only [Block.payload] at he; omega)

theorem mem_payload (h : c.Inv r A) (hb : b ∈ c.live) (hs : b.size ≤ MAX_REQUEST) (hi : i < b.size) :
    ∃ k ∈ A.used, k.payload = b.ptr ∧ b.ptr + i < k.stop := by
  obtain ⟨k, hk, hp⟩ := h.chunk hb
  have hle := (le_roundRequest hs).trans (h.large b hb k hk hp)
  refine ⟨k, hk, hp, ?_⟩
  simp only [← hp, Block.payload, Block.stop]
  omega

theorem of_init (r : Region) (m : Mem) : (init r m).Inv r r.arena := by
  obtain ⟨hr, -⟩ := memoryInit_spec r m
  refine ⟨hr, r.arena_wf, rfl, rfl, .nil, ?_, ?_⟩
  · intro b hb
    cases hb
  · intro b hb
    cases hb

theorem keeps {m' : Mem} (h : c.Inv r A) (hb : b ∈ c.live) (hs : b.size ≤ MAX_REQUEST)
    (hi : i < b.size)
    (hk : ∀ k ∈ A.blocks, k.used = true → k.payload = b.ptr → Keeps c.heap.mem m' k) :
    m' (b.ptr + i) = c.heap.mem (b.ptr + i) := by
  obtain ⟨k, hku, hp, hstop⟩ := h.mem_payload hb hs hi
  have hkA := Arena.mem_used.mp hku
  exact hk k hkA.1 hkA.2 hp _ (by omega) hstop

/-- `malloc` keeps the invariant and the bytes of the blocks in use. -/
theorem malloc (h : c.Inv r A) {size : ℕ} (hc : c.step (.malloc size) = some c') :
    ∃ A', Malloc c.heap A (roundRequest size) c'.heap (malloc c.heap size).2 A' ∧ c'.Inv r A' ∧
      c'.heap = (Memory.malloc c.heap size).1 ∧
      (∀ k ∈ A.used, k ∈ A'.used) ∧
      ∀ k ∈ A.blocks, k.used = true → Keeps c.heap.mem c'.heap.mem k := by
  obtain ⟨A', hm, hr, hw, hk⟩ := malloc_spec h.rep h.wf size
  simp only [step] at hc
  split_ifs at hc with hlt hp <;> obtain rfl := Option.some.inj hc
  · obtain ⟨hh, rfl⟩ := hm.eq_of_null hp
    refine ⟨A', hm, ?_, rfl, fun _ hk ↦ hk, hk⟩
    rw [hh]
    exact h
  · obtain ⟨k, hku, hkp, hks, hperm⟩ := hm.used_perm hp
    have hold : ∀ d ∈ A.used, d ∈ A'.used := fun d hd ↦ hperm.mem_iff.mpr (mem_cons_of_mem k hd)
    have hkA := Arena.mem_used.mp (hperm.mem_iff.mpr (mem_cons_self : k ∈ k :: A.used))
    refine ⟨A', hm, ?_, rfl, hold, hk⟩
    refine ⟨hr, hw, hm.ends.1.trans h.lo, hm.ends.2.trans h.hi, ?_, ?_, ?_⟩
    · have hx := hperm.map Block.payload
      rw [map_cons, hkp] at hx
      exact hx.trans (h.live.cons _)
    · intro b hb d hd hdp
      rcases mem_cons.mp hb with rfl | hb
      · rw [payload_inj hw (Arena.mem_used.mp hd).1 hkA.1 (hdp.trans hkp.symm)]
        exact hks
      · obtain ⟨e, he, hep⟩ := h.chunk hb
        rw [payload_inj hw (Arena.mem_used.mp hd).1 (Arena.mem_used.mp (hold e he)).1
          (hdp.trans hep.symm)]
        exact h.large b hb e he hep
    · intro b hb hs i hi v hv
      rcases mem_cons.mp hb with rfl | hb
      · cases hv
      · exact (h.keeps hb hs hi fun d hd hdu _ ↦ hk d hd hdu).trans (h.wrote b hb hs i hi v hv)

theorem ptr_ne_zero (h : c.Inv r A) (hb : b ∈ c.live) : b.ptr ≠ 0 := by
  obtain ⟨k, -, hp⟩ := h.chunk hb
  simp only [← hp, Block.payload]
  omega

theorem free_null (h : c.Inv r A) (hc : c.step (.free 0) = some c') : c' = c := by
  simp only [step, true_or, if_true, Option.some.injEq] at hc
  have hlive : c.live.filter (fun b ↦ b.ptr ≠ 0) = c.live :=
    filter_eq_self.mpr fun b hb ↦ decide_eq_true (h.ptr_ne_zero hb)
  rw [← hc, hlive, Memory.free, if_pos rfl]

/-- `free` keeps the invariant and the bytes of the other blocks in use, and
leaves the freed bytes in one free chunk. -/
theorem free (h : c.Inv r A) (hp : p ≠ 0) (hc : c.step (.free p) = some c') :
    ∃ A', ∃ k ∈ A.used, k.payload = p ∧ c'.Inv r A' ∧ c'.heap = Memory.free c.heap p ∧
      A'.used = A.used.filter (·.payload ≠ p) ∧ A.used.Perm (k :: A'.used) ∧
      (∃ f ∈ A'.blocks, f.used = false ∧ f.addr ≤ k.addr ∧ k.stop ≤ f.stop) ∧
      c'.heap.memUsed = sub32 c.heap.memUsed k.size ∧
      (∃ n, c'.heap.memFree + c'.heap.memMeta + 12 ≡
        c.heap.memFree + c.heap.memMeta + k.size + 24 * n [MOD 2 ^ 32]) ∧
      ∀ d ∈ A.used, d.payload ≠ p → Keeps c.heap.mem c'.heap.mem d := by
  simp only [step, hp, false_or] at hc
  split_ifs at hc with hpl
  obtain rfl := Option.some.inj hc
  obtain ⟨k, hk, rfl⟩ := mem_map.mp (h.live.mem_iff.mpr hpl)
  obtain ⟨hkA, hku⟩ := Arena.mem_used.mp hk
  obtain ⟨pre, post, he⟩ := append_of_mem hkA
  obtain ⟨A', n, hr, hw, hlo, hhi, hused, -, hf, hmu, htot, hkeep⟩ := free_spec h.rep h.wf he hku
  have hne : ∀ d ∈ pre ++ post, d.payload ≠ k.payload := by
    intro d hd hdk
    have hnd := h.wf.blocks_tile.nodup
    rw [he, perm_middle.nodup_iff, nodup_cons] at hnd
    have hdA : d ∈ A.blocks := by rw [he, perm_middle.mem_iff]; exact mem_cons_of_mem _ hd
    exact hnd.1 (payload_inj h.wf hdA hkA hdk ▸ hd)
  have hu : A'.used = A.used.filter (·.payload ≠ k.payload) := by
    calc A'.used = (pre ++ post).filter Block.used := hused
      _ = ((pre ++ post).filter Block.used).filter (·.payload ≠ k.payload) :=
          (filter_eq_self.mpr fun d hd ↦ decide_eq_true (hne d (mem_filter.mp hd).1)).symm
      _ = A.used.filter (·.payload ≠ k.payload) := by simp [Arena.used, he, hku]
  have hperm : A.used.Perm (k :: A'.used) := by
    have hx : (pre ++ k :: post).Perm (k :: (pre ++ post)) := perm_middle
    have hy := hx.filter Block.used
    rw [filter_cons_of_pos hku, ← he, ← hused] at hy
    exact hy
  refine ⟨A', k, hk, rfl, ⟨hr, hw, hlo.trans h.lo, hhi.trans h.hi, ?_, ?_, ?_⟩, rfl, hu, hperm, hf,
    hmu, ⟨n, htot⟩, fun d hd hdk ↦ ?_⟩
  · have hx := h.live.filter (· ≠ k.payload)
    rw [filter_map, filter_map] at hx
    rw [hu]
    exact hx
  · intro b hb d hd hdb
    rw [hu] at hd
    exact h.large b (mem_filter.mp hb).1 d (mem_filter.mp hd).1 hdb
  · intro b hb hs i hi v hv
    obtain ⟨hbl, hbk⟩ := mem_filter.mp hb
    refine (h.keeps hbl hs hi fun d hd hdu hdb ↦ hkeep d hd hdu ?_).trans (h.wrote b hbl hs i hi v hv)
    intro hh
    subst hh
    simp [hdb] at hbk
  · exact hkeep d (Arena.mem_used.mp hd).1 (Arena.mem_used.mp hd).2 fun hx ↦ hdk (hx ▸ rfl)

theorem outside (h : c.Inv r A) (hb : b ∈ c.live) (hs : b.size ≤ MAX_REQUEST) (hi : i < b.size) :
    (A.layout h.wf A.frees (Arena.frees_sub h.wf)).Outside (b.ptr + i) := by
  obtain ⟨k, hk, hp, hstop⟩ := h.mem_payload hb hs hi
  have hkA := Arena.mem_all_of_mem (Arena.mem_used.mp hk).1
  exact Arena.layout_outside hkA (Arena.used_notMem_frees h.wf hkA (Arena.mem_used.mp hk).2)
    (by omega) hstop

theorem byte_inj {b' : Handle} {i' : ℕ} (h : c.Inv r A) (hb : b ∈ c.live) (hb' : b' ∈ c.live)
    (hs : b.size ≤ MAX_REQUEST) (hs' : b'.size ≤ MAX_REQUEST) (hi : i < b.size) (hi' : i' < b'.size)
    (he : b.ptr + i = b'.ptr + i') : b.ptr = b'.ptr ∧ i = i' := by
  obtain ⟨k, hk, hp, hstop⟩ := h.mem_payload hb hs hi
  obtain ⟨k', hk', hp', hstop'⟩ := h.mem_payload hb' hs' hi'
  by_cases hkk : k = k'
  · have hx : b.ptr = b'.ptr := by rw [← hp, ← hp', hkk]
    exact ⟨hx, by omega⟩
  · have ha := h.wf.payload_apart hk hk' hkk (x := b.ptr + i) (by omega) hstop
    omega

theorem write {v : UInt8} (h : c.Inv r A) (hc : c.step (.write p i v) = some c') : c'.Inv r A := by
  simp only [step] at hc
  split_ifs at hc with hw
  obtain rfl := Option.some.inj hc
  obtain ⟨b, hb, rfl, hi, hs⟩ : ∃ b ∈ c.live, b.ptr = p ∧ i < b.size ∧ b.size ≤ MAX_REQUEST := by
    simpa using hw
  have hsame : ∀ d : Handle, (d.write b.ptr i v).ptr = d.ptr ∧ (d.write b.ptr i v).size = d.size := by
    intro d
    unfold Handle.write
    split_ifs <;> exact ⟨rfl, rfl⟩
  refine ⟨h.rep.write h.wf (h.outside hb hs hi) v, h.wf, h.lo, h.hi, ?_, ?_, ?_⟩
  · have hmap : (c.live.map (·.write b.ptr i v)).map Handle.ptr = c.live.map Handle.ptr := by
      simp [hsame]
    rw [hmap]
    exact h.live
  · intro d hd k hk hkp
    obtain ⟨e, he, rfl⟩ := mem_map.mp hd
    rw [(hsame e).2]
    exact h.large e he k hk (hkp.trans (hsame e).1)
  · intro d hd hds j hj u hu
    obtain ⟨e, he, rfl⟩ := mem_map.mp hd
    rw [(hsame e).2] at hds hj
    rw [(hsame e).1]
    show update c.heap.mem (b.ptr + i) v (e.ptr + j) = u
    by_cases hx : e.ptr + j = b.ptr + i
    · obtain ⟨hptr, rfl⟩ := h.byte_inj he hb hds hs hj hi hx
      simp only [Handle.write, hptr, if_true, update_self, Option.some.injEq] at hu
      rw [hx, update_self, hu]
    · rw [update_of_ne hx]
      refine h.wrote e he hds j hj u ?_
      unfold Handle.write at hu
      split_ifs at hu with hptr
      · have hji : j ≠ i := fun hji ↦ hx (by rw [hptr, hji])
        exact (update_of_ne hji _ _).symm.trans hu
      · exact hu

end Inv

theorem step_inv {op : Op} (h : c.Inv r A) (hc : c.step op = some c') : ∃ A', c'.Inv r A' := by
  cases op with
  | malloc size =>
    obtain ⟨A', -, hI, -⟩ := h.malloc hc
    exact ⟨A', hI⟩
  | free p =>
    by_cases hp : p = 0
    · subst hp
      exact ⟨A, h.free_null hc ▸ h⟩
    · obtain ⟨A', -, -, -, hI, -⟩ := h.free hp hc
      exact ⟨A', hI⟩
  | write p i v => exact ⟨A, h.write hc⟩

theorem Reachable.inv (h : Reachable r m c) : ∃ A, c.Inv r A := by
  obtain ⟨ops, hr⟩ := h
  exact run_invariant (P := fun c ↦ ∃ A, c.Inv r A) ⟨r.arena, Inv.of_init r m⟩
    (fun _ _ _ ⟨_, hI⟩ hc ↦ step_inv hI hc) hr

end Client

end OcamlRpi.Memory
