import OcamlRpi.Memory.Replay

namespace OcamlRpi.Memory

open Support Function List DList

/-- The blocks the test program holds, with the sizes it asked for. -/
structure Test where
  heap : Heap
  slot : ℕ → ℕ
  slotSize : ℕ → ℕ

def MAX_BLOCK : ℕ := 1024 * 1024 * 2

def NUM_SLOTS : ℕ := 1024

/-- The iterator over a list whose body asserts that the link back leads to the
element before, `t`. The result is `false` if an assertion fails or there are
more passes than the fuel allows. -/
def checkList (o : ℕ) (m : Mem) (last : ℕ) : ℕ → ℕ → ℕ → Bool
  | 0, _, _ => false
  | n + 1, t, iter =>
    let nxt := if iter = last then 0 else next m iter
    let it := CONTAINER o iter
    if CONTAINER o (prev m (it + o)) = t then
      if nxt = 0 then true else checkList o m last n it nxt
    else false

def check (N : ℕ) (h : Heap) : Bool :=
  checkList 0 h.mem (prev h.mem h.first) N h.last h.first &&
    (range 32).all fun i ↦
      let f := h.freeChunk i
      if f ≠ 0 then
        checkList HEADER_SIZE h.mem (prev h.mem (f + HEADER_SIZE)) N
          (CONTAINER HEADER_SIZE (prev h.mem (f + HEADER_SIZE))) (f + HEADER_SIZE)
      else true

def fillLoop (m : Mem) (mem p : ℕ) : ℕ → Mem
  | 0 => m
  | n + 1 => fillLoop (m.store p mem) mem (wrap (p + 4)) n

def fillBlock (m : Mem) (mem size : ℕ) : Mem := fillLoop m mem mem (size / 4)

def checkBlock (m : Mem) (mem size : ℕ) : Bool :=
  (range (size / 4)).all fun i ↦ m.load (wrap (mem + 4 * i)) = mem

namespace Test

/-- `memory_init(MEM, MEM_SIZE)` -/
def start (r : Region) (m : Mem) : Test := ⟨memoryInit (.boot m) r.mem r.size, fun _ ↦ 0, fun _ ↦ 0⟩

/-- `check_block(slot[n], slot_size[n]); free(slot[n]);` -/
def drop (t : Test) (n : ℕ) : Option Test :=
  if checkBlock t.heap.mem (t.slot n) (t.slotSize n) then
    some { t with heap := free t.heap (t.slot n) }
  else none

/-- `slot[n] = malloc(size);` and what follows if that is not `NULL` -/
def fetch (t : Test) (n size : ℕ) : Test :=
  let (h, p) := malloc t.heap size
  if p ≠ 0 then
    ⟨{ h with mem := fillBlock h.mem p size }, update t.slot n p, update t.slotSize n size⟩
  else { t with heap := h, slot := update t.slot n p }

/-- One pass of the main loop, with the two random numbers it draws. -/
def pass (N : ℕ) (t : Test) (x : ℕ × ℕ) : Option Test :=
  if check N t.heap then
    (if t.slot x.2 ≠ 0 then t.drop x.2 else some t).bind fun t ↦
      if check N t.heap then some (t.fetch x.2 x.1) else none
  else none

/-- One pass of the loop that frees all slots. -/
def sweep (N : ℕ) (t : Test) (i : ℕ) : Option Test :=
  if t.slot i ≠ 0 then if check N t.heap then t.drop i else none else some t

/-- The program, `none` when an assertion fails. -/
def main (N : ℕ) (r : Region) (m : Mem) (xs : List (ℕ × ℕ)) : Option Test :=
  (run (pass N) (start r m) xs).bind fun t ↦
    (run (sweep N) t (range NUM_SLOTS)).bind fun t ↦ if check N t.heap then some t else none

end Test

variable {m : Mem} {r : Region} {A : Arena} {h : Heap} {t t' : Test} {a last n o p size x : ℕ} {l ns : List ℕ}

theorem checkList_chain (hc : IsChain (links m).Joined ((a :: l).map (· + o)))
    (hnd : ((a :: l).map (· + o)).Nodup) (hlast : ((a :: l).map (· + o)).getLast? = some last)
    (hlt : ∀ x ∈ a :: l, x + o < 2 ^ 32) (h0 : 0 ∉ l.map (· + o)) (hn : l.length < n) :
    checkList o m last n (CONTAINER o (prev m (a + o))) (a + o) = true := by
  have hcont : ∀ x ∈ a :: l, CONTAINER o (x + o) = x := by
    intro x hx
    rw [CONTAINER, sub32_of_le (Nat.le_add_left o x) (hlt x hx), Nat.add_sub_cancel]
  induction l generalizing a n with
  | nil =>
    obtain ⟨n, rfl⟩ : ∃ k, n = k + 1 := ⟨n - 1, by omega⟩
    obtain rfl : a + o = last := by simpa using hlast
    rw [checkList, hcont a mem_cons_self, if_pos rfl, if_pos rfl]
    simp
  | cons b l ih =>
    obtain ⟨n, rfl⟩ : ∃ k, n = k + 1 := ⟨n - 1, by omega⟩
    rw [map_cons, map_cons, isChain_cons_cons] at hc
    rw [map_cons, map_cons, getLast?_cons_cons] at hlast
    rw [map_cons, nodup_cons] at hnd
    have hne : a + o ≠ last := fun he ↦ hnd.1 (he ▸ mem_of_getLast? hlast)
    have hnext : next m (a + o) = b + o := hc.1.1
    have hprev : prev m (b + o) = a + o := hc.1.2
    have hb : b + o ≠ 0 := fun he ↦ h0 (he ▸ by simp)
    have hrest := ih hc.2 hnd.2 hlast (fun x hx ↦ hlt x (mem_cons_of_mem a hx))
      (fun hx ↦ h0 (mem_cons_of_mem _ hx)) (n := n) (by simpa using hn)
      (fun x hx ↦ hcont x (mem_cons_of_mem a hx))
    rw [hprev, hcont a mem_cons_self] at hrest
    rw [checkList, hcont a mem_cons_self, if_pos rfl, if_neg hne, hnext, if_neg hb, hrest]

theorem checkList_ring (hr : (links m).Ring ((a :: l).map (· + o))) (hlt : ∀ x ∈ a :: l, x + o < 2 ^ 32)
    (h0 : 0 ∉ l.map (· + o)) (hn : l.length < n) :
    checkList o m (prev m (a + o)) n (CONTAINER o (prev m (a + o))) (a + o) = true := by
  apply checkList_chain _ hr.nodup _ hlt h0 hn
  · rw [map_cons, Links.ring_cons] at hr
    exact (isChain_append.mp (cons_append ▸ hr.2)).1
  · have hp : prev m (a + o) = _ := hr.prev_eq_getLast
    rw [hp]
    exact getLast?_eq_getLast_of_ne_nil _

/-- Every chunk has room for its header. -/
theorem tiles_length_le {bs : List Block} {lo hi : ℕ} (ht : Tiles Block.addr Block.stop lo bs hi) :
    lo + 20 * bs.length ≤ hi := by
  induction bs generalizing lo with
  | nil => exact Nat.le_of_eq ht
  | cons b bs ih =>
    obtain ⟨hb, -, hl⟩ := ht
    have h₁ := ih hl
    have h₂ := b.addr_add_le_stop
    rw [length_cons]
    omega

theorem Arena.WF.length_le (hw : A.WF) : A.lo + 20 * A.all.length ≤ A.hi + 20 := tiles_length_le hw.tiles

theorem Arena.WF.bin_length_le (hw : A.WF) (n : ℕ) : (A.bins n).length ≤ A.blocks.length := by
  rw [(hw.bins n).length_eq, binned, length_map]
  exact length_filter_le _ _

/-- The rings of a heap pass the check. -/
theorem check_spec (hr : Represents h A) (hw : A.WF) (hN : A.hi < A.lo + n) : check n h = true := by
  have hlen := hw.length_le
  have hall : A.all.map Block.addr = A.lo :: (A.blocks ++ [Block.sentinel A.hi]).map Block.addr := rfl
  have hback : prev h.mem A.lo = A.hi := by
    have hring := hr.all
    rw [← hr.ring_eq, hr.first, hr.last] at hring
    exact hring.joined_last.2
  rw [check, Bool.and_eq_true, all_eq_true]
  constructor
  · have hring := hr.all
    rw [hall] at hring
    have hlt : ∀ x ∈ A.lo :: (A.blocks ++ [Block.sentinel A.hi]).map Block.addr, x + 0 < 2 ^ 32 := by
      rw [← hall]
      intro x hx
      obtain ⟨b, hb, rfl⟩ := mem_map.mp hx
      have hb := hw.all_addr_lt hb
      omega
    have h0 : 0 ∉ ((A.blocks ++ [Block.sentinel A.hi]).map Block.addr).map (· + 0) := by
      rw [map_id'' (fun x ↦ Nat.add_zero x)]
      intro hx
      obtain ⟨b, hb, hb0⟩ := mem_map.mp hx
      have hle := hw.blocks_tile.le
      rcases mem_append.mp hb with hb | hb
      · have hb := hw.addr_bounds hb
        omega
      · obtain rfl := mem_singleton.mp hb
        have hb0 : A.hi = 0 := hb0
        omega
    have hc := checkList_ring (o := 0) (n := n) (by rwa [map_id'' (fun x ↦ Nat.add_zero x)]) hlt h0 (by
      rw [length_map]
      simp only [Arena.all, length_cons] at hlen
      omega)
    have hhi : CONTAINER 0 A.hi = A.hi := container_all (by have h := hw.top; omega)
    rw [Nat.add_zero, hback, hhi] at hc
    rw [hr.first, hr.last, hback]
    exact hc
  · intro i hi
    have hi := mem_range.mp hi
    have hhead := hr.head i hi
    have hring := hr.bin i
    have h0 := hw.zero_notMem_bins (n := i)
    have hsub : ∀ x ∈ A.bins i, x + 12 < 2 ^ 32 := by
      intro x hx
      obtain ⟨b, hb, -, -, rfl⟩ := hw.mem_bins.mp hx
      have hb := hw.all_addr_lt (Arena.mem_all_of_mem hb)
      omega
    have hbin := hw.bin_length_le i
    cases hl : A.bins i with
    | nil =>
      rw [hl] at hhead
      simp [hhead]
    | cons a l =>
      rw [hl] at hhead hring h0 hsub hbin
      have ha : a ≠ 0 := fun he ↦ h0 (he ▸ mem_cons_self)
      dsimp only
      rw [hhead, headD_cons, if_pos ha]
      apply checkList_ring hring hsub
      · intro hx
        obtain ⟨y, -, hy⟩ := mem_map.mp hx
        omega
      · simp only [Arena.all, length_cons, length_append] at hlen hbin
        omega

/-- The bytes that `fill_block` leaves in a block. -/
def filled (p size i : ℕ) : Option UInt8 :=
  if i < size / 4 * 4 then some (UInt8.ofNat (p / 256 ^ (i % 4))) else none

theorem store_apply (m : Mem) (p a x : ℕ) : m.store p a x =
    if p ≤ x ∧ x < p + 4 then UInt8.ofNat (a / 256 ^ (x - p)) else m x := by
  by_cases hx : p ≤ x ∧ x < p + 4
  · rw [if_pos hx]
    obtain rfl | rfl | rfl | rfl : x = p ∨ x = p + 1 ∨ x = p + 2 ∨ x = p + 3 := by omega
    all_goals simp [Mem.store]
  · rw [if_neg hx, Mem.store_of_apart (by omega)]

theorem fillLoop_apply (hp : p + 4 * n ≤ 2 ^ 32) (x : ℕ) : fillLoop m a p n x =
    if p ≤ x ∧ x < p + 4 * n then UInt8.ofNat (a / 256 ^ ((x - p) % 4)) else m x := by
  induction n generalizing m p with
  | zero =>
    rw [fillLoop, if_neg]
    omega
  | succ n ih =>
    have hstep : fillLoop (m.store p a) a (wrap (p + 4)) n = fillLoop (m.store p a) a (p + 4) n := by
      cases n with
      | zero => rfl
      | succ n => rw [wrap, Nat.mod_eq_of_lt (by omega)]
    rw [fillLoop, hstep, ih (by omega), store_apply]
    by_cases hx : p ≤ x ∧ x < p + 4
    · rw [if_neg (by omega), if_pos hx, if_pos (by omega), Nat.mod_eq_of_lt (by omega)]
    · by_cases hx' : p + 4 ≤ x ∧ x < p + 4 + 4 * n
      · have hmod : (x - (p + 4)) % 4 = (x - p) % 4 := by omega
        rw [if_pos hx', if_pos (by omega), hmod]
      · rw [if_neg hx', if_neg hx, if_neg (by omega)]

theorem checkBlock_filled (hp : p + size ≤ 2 ^ 32) (h0 : p < 2 ^ 32)
    (hm : ∀ i < size, ∀ v, filled p size i = some v → m (p + i) = v) : checkBlock m p size = true := by
  apply all_eq_true.mpr
  intro i hi
  have hi := mem_range.mp hi
  have hbyte : ∀ j < 4, m (p + 4 * i + j) = UInt8.ofNat (p / 256 ^ j) := by
    intro j hj
    have hmod : (4 * i + j) % 4 = j := by omega
    rw [Nat.add_assoc]
    apply hm (4 * i + j) (by omega)
    rw [filled, if_pos (by omega), hmod]
  have hload : m.load (p + 4 * i) = p := by
    rw [Mem.load, ← Nat.add_zero (p + 4 * i), hbyte 0 (by omega), Nat.add_zero, hbyte 1 (by omega),
      hbyte 2 (by omega), hbyte 3 (by omega)]
    simp only [UInt8.toNat_ofNat', Nat.reducePow]
    omega
  rw [wrap, Nat.mod_eq_of_lt (by omega), hload]
  exact decide_eq_true rfl

namespace Test

/-- What the slot `n` holds, as a block of a program that uses the heap. -/
def handle (t : Test) (n : ℕ) : Handle := ⟨t.slot n, t.slotSize n, filled (t.slot n) (t.slotSize n)⟩

/-- The blocks of the slots `ns` are the blocks in use, each of them filled. -/
structure Holds (r : Region) (t : Test) (ns : List ℕ) (A : Arena) : Prop where
  inv : Client.Inv r ⟨t.heap, ns.map t.handle⟩ A
  nodup : ns.Nodup
  small : ∀ n ∈ ns, n < NUM_SLOTS ∧ t.slotSize n ≤ MAX_REQUEST

namespace Holds

theorem of_start (r : Region) (m : Mem) : (start r m).Holds r [] r.arena :=
  ⟨Client.Inv.of_init r m, nodup_nil, nofun⟩

theorem check (ht : t.Holds r ns A) : Memory.check r.size t.heap = true := by
  apply check_spec ht.inv.rep ht.inv.wf
  have hb := r.bounds
  rw [ht.inv.lo, ht.inv.hi]
  omega

theorem slot_inj (ht : t.Holds r ns A) {i j : ℕ} (hi : i ∈ ns) (hj : j ∈ ns) (he : t.slot i = t.slot j) :
    i = j := by
  have hnd := ht.inv.ptrs_nodup
  rw [map_map] at hnd
  exact inj_on_of_nodup_map hnd hi hj he

/-- A block that is filled passes its check, and is freed. -/
theorem drop (ht : t.Holds r ns A) (hn : n ∈ ns) :
    ∃ A', t.drop n = some { t with heap := free t.heap (t.slot n) } ∧
      Holds r { t with heap := free t.heap (t.slot n) } (ns.filter (· ≠ n)) A' := by
  have hI := ht.inv
  have hb : t.handle n ∈ ns.map t.handle := mem_map_of_mem hn
  have hs := (ht.small n hn).2
  obtain ⟨k, hk, hkp⟩ := hI.chunk hb
  have hstop := hI.wf.stop_le hk
  have hsize := (le_roundRequest hs).trans (hI.large _ hb k hk hkp)
  have hfill : checkBlock t.heap.mem (t.slot n) (t.slotSize n) = true := by
    have hp : k.payload = t.slot n := hkp
    have hks : t.slotSize n ≤ k.size := hsize
    have h₈ := k.size_ge
    simp only [Block.payload, Block.stop] at hp hstop
    apply checkBlock_filled (by omega) (by omega)
    exact hI.wrote _ hb hs
  have hfree : Client.step ⟨t.heap, ns.map t.handle⟩ (.free (t.slot n)) =
      some ⟨free t.heap (t.slot n), (ns.map t.handle).filter (·.ptr ≠ t.slot n)⟩ := by
    rw [Client.step, if_pos (.inr (mem_map_of_mem hb))]
  obtain ⟨A', -, -, -, hI', -⟩ := hI.free (hI.ptr_ne_zero hb) hfree
  have hlive : (ns.map t.handle).filter (·.ptr ≠ t.slot n) = (ns.filter (· ≠ n)).map t.handle := by
    rw [filter_map]
    congr 1
    apply filter_congr
    intro j hj
    have hiff : t.slot j = t.slot n ↔ j = n := ⟨fun he ↦ ht.slot_inj hj hn he, congrArg t.slot⟩
    simp [handle, hiff]
  rw [hlive] at hI'
  refine ⟨A', by rw [Test.drop, if_pos hfill], hI', ht.nodup.filter _, ?_⟩
  intro j hj
  exact ht.small j (mem_filter.mp hj).1

/-- A slot that holds nothing gets a block, and it is filled, or `NULL`. -/
theorem fetch (ht : t.Holds r ns A) (hn : n ∉ ns) (hlt : n < NUM_SLOTS) (hs : size ≤ MAX_REQUEST) :
    ∃ A', (t.fetch n size).Holds r (if (t.fetch n size).slot n = 0 then ns else n :: ns) A' ∧
      ∀ i, i ≠ n → (t.fetch n size).slot i = t.slot i := by
  have hI := ht.inv
  -- the other slots are as before
  have hold : ∀ t' : Test, (∀ i, i ≠ n → t'.slot i = t.slot i ∧ t'.slotSize i = t.slotSize i) →
      ns.map t'.handle = ns.map t.handle ∧ ∀ i ∈ ns, i < NUM_SLOTS ∧ t'.slotSize i ≤ MAX_REQUEST := by
    intro t' ht'
    have hne : ∀ i ∈ ns, i ≠ n := fun i hi he ↦ hn (he ▸ hi)
    constructor
    · apply map_congr_left
      intro i hi
      obtain ⟨h₁, h₂⟩ := ht' i (hne i hi)
      rw [handle, handle, h₁, h₂]
    · intro i hi
      rw [(ht' i (hne i hi)).2]
      exact ht.small i hi
  by_cases hp : (malloc t.heap size).2 = 0
  · have hf : t.fetch n size = ⟨(malloc t.heap size).1, update t.slot n 0, t.slotSize⟩ := by
      simp only [Test.fetch, hp, ne_eq, not_true, if_false]
    obtain ⟨A', hm, -⟩ := malloc_spec hI.rep hI.wf size
    obtain ⟨hheap, -⟩ := hm.eq_of_null hp
    have hmap := hold (t.fetch n size) fun i hi ↦ by simp [hf, hi]
    rw [hf] at hmap ⊢
    rw [hheap] at hmap ⊢
    refine ⟨A, ?_, fun i hi ↦ update_of_ne hi _ _⟩
    rw [if_pos (update_self ..)]
    refine ⟨?_, ht.nodup, hmap.2⟩
    rw [hmap.1]
    exact hI
  · obtain ⟨A', k, hI', hk, hkp, hks, -⟩ := hI.malloc_block (Nat.lt_of_le_of_lt hs (by decide)) hp
    generalize hq : (malloc t.heap size).2 = q at *
    have hf : t.fetch n size = ⟨{ (malloc t.heap size).1 with
        mem := fillBlock (malloc t.heap size).1.mem q size }, update t.slot n q, update t.slotSize n size⟩ := by
      simp only [Test.fetch, hq, ne_eq, hp, not_false_eq_true, if_true]
    have hmap := hold (t.fetch n size) fun i hi ↦ by simp [hf, hi]
    have hstop := hI'.wf.stop_le hk
    have hsize := (le_roundRequest hs).trans hks
    simp only [Block.payload, Block.stop] at hkp hstop
    have hfill : ∀ x, fillBlock (malloc t.heap size).1.mem q size x =
        if q ≤ x ∧ x < q + 4 * (size / 4) then UInt8.ofNat (q / 256 ^ ((x - q) % 4))
        else (malloc t.heap size).1.mem x := fillLoop_apply (by omega)
    refine ⟨A', ?_, fun i hi ↦ by simp [hf, hi]⟩
    have hself : (t.fetch n size).slot n = q := by simp [hf]
    rw [hself, if_neg hp]
    refine ⟨?_, nodup_cons.mpr ⟨hn, ht.nodup⟩, ?_⟩
    · rw [map_cons, hmap.1, handle, hself, hf]
      dsimp only
      rw [update_self]
      apply hI'.fill hk hkp
      · intro x hx
        rw [hfill, if_neg]
        simp only [Block.payload, Block.stop] at hx
        omega
      · intro i hi v hv
        dsimp only at hi hv ⊢
        rw [filled] at hv
        split_ifs at hv with hin
        rw [hfill, if_pos (by omega), Nat.add_sub_cancel_left]
        exact Option.some.inj hv
    · intro i hi
      rcases mem_cons.mp hi with rfl | hi
      · refine ⟨hlt, ?_⟩
        rw [hf]
        dsimp only
        rw [update_self]
        exact hs
      · exact hmap.2 i hi

end Holds

/-- Exactly the slots that are not `NULL` hold a block. -/
def Full (r : Region) (t : Test) : Prop := ∃ ns A, t.Holds r ns A ∧ ∀ n, n ∈ ns ↔ t.slot n ≠ 0

theorem Full.of_start (r : Region) (m : Mem) : Full r (start r m) :=
  ⟨[], r.arena, .of_start r m, fun n ↦ by simp [start]⟩

theorem Full.pass {x : ℕ × ℕ} (ht : Full r t) (hs : x.1 < MAX_BLOCK) (hlt : x.2 < NUM_SLOTS) :
    ∃ t', t.pass r.size x = some t' ∧ Full r t' := by
  obtain ⟨ns, A, hh, hns⟩ := ht
  -- the slot is emptied first, if there is a block in it
  obtain ⟨t₁, ns₁, A₁, hdrop, hh₁, hn₁, hns₁⟩ : ∃ t₁ ns₁ A₁,
      (if t.slot x.2 ≠ 0 then t.drop x.2 else some t) = some t₁ ∧ t₁.Holds r ns₁ A₁ ∧ x.2 ∉ ns₁ ∧
      ∀ n, n ≠ x.2 → (n ∈ ns₁ ↔ t₁.slot n ≠ 0) := by
    by_cases h0 : t.slot x.2 = 0
    · rw [if_neg (not_not.mpr h0)]
      exact ⟨t, ns, A, rfl, hh, fun hx ↦ (hns x.2).mp hx h0, fun n _ ↦ hns n⟩
    · obtain ⟨A', hd, hh'⟩ := hh.drop ((hns x.2).mpr h0)
      rw [if_pos h0]
      refine ⟨_, _, A', hd, hh', by simp, fun n hn ↦ ?_⟩
      rw [mem_filter, hns n]
      simp [hn]
  obtain ⟨A₂, hh₂, hold⟩ := hh₁.fetch hn₁ hlt (Nat.le_of_lt (hs.trans (by decide)))
  refine ⟨t₁.fetch x.2 x.1, ?_, _, A₂, hh₂, fun n ↦ ?_⟩
  · rw [Test.pass, if_pos hh.check, hdrop]
    exact if_pos hh₁.check
  · by_cases hn : n = x.2
    · subst hn
      split_ifs with h0
      · exact ⟨fun hx ↦ absurd hx hn₁, fun hx ↦ absurd h0 hx⟩
      · exact ⟨fun _ ↦ h0, fun _ ↦ mem_cons_self⟩
    · rw [hold n hn, ← hns₁ n hn]
      split_ifs
      · rfl
      · simp [hn]

theorem Full.run {xs : List (ℕ × ℕ)} (ht : Full r t)
    (hx : ∀ x ∈ xs, x.1 < MAX_BLOCK ∧ x.2 < NUM_SLOTS) :
    ∃ t', Support.run (Test.pass r.size) t xs = some t' ∧ Full r t' := by
  induction xs generalizing t with
  | nil => exact ⟨t, rfl, ht⟩
  | cons x xs ih =>
    obtain ⟨hs, hlt⟩ := hx x mem_cons_self
    obtain ⟨t₁, hp, ht₁⟩ := ht.pass hs hlt
    obtain ⟨t', hr, ht'⟩ := ih ht₁ fun y hy ↦ hx y (mem_cons_of_mem x hy)
    exact ⟨t', run_cons.mpr ⟨t₁, hp, hr⟩, ht'⟩

/-- The sweep has freed the slots before `i`. -/
theorem Holds.sweep {i k : ℕ} (ht : t.Holds r ns A) (hns : ∀ n, n ∈ ns ↔ i ≤ n ∧ t.slot n ≠ 0)
    (hk : i + k = NUM_SLOTS) :
    ∃ t' A', Support.run (Test.sweep r.size) t (range' i k) = some t' ∧ t'.Holds r [] A' := by
  induction k generalizing t ns A i with
  | zero =>
    have hnil : ns = [] := eq_nil_iff_forall_not_mem.mpr fun n hn ↦ by
      have h₁ := (ht.small n hn).1
      have h₂ := ((hns n).mp hn).1
      omega
    exact ⟨t, A, rfl, hnil ▸ ht⟩
  | succ k ih =>
    by_cases h0 : t.slot i = 0
    · obtain ⟨t', A', hr, ht'⟩ := ih ht (fun n ↦ by
        rw [hns n]
        constructor
        · intro hx
          have hne : n ≠ i := fun he ↦ hx.2 (he ▸ h0)
          exact ⟨by omega, hx.2⟩
        · intro hx
          exact ⟨by omega, hx.2⟩) (i := i + 1) (by omega)
      refine ⟨t', A', run_cons.mpr ⟨t, ?_, hr⟩, ht'⟩
      rw [Test.sweep, if_neg (not_not.mpr h0)]
    · obtain ⟨A₁, hd, ht₁⟩ := ht.drop ((hns i).mpr ⟨Nat.le_refl i, h0⟩)
      obtain ⟨t', A', hr, ht'⟩ := ih ht₁ (fun n ↦ by
        rw [mem_filter, hns n]
        simp only [ne_eq, decide_not, Bool.not_eq_true', decide_eq_false_iff_not]
        omega) (i := i + 1) (by omega)
      refine ⟨t', A', run_cons.mpr ⟨_, ?_, hr⟩, ht'⟩
      rw [Test.sweep, if_pos h0, if_pos ht.check, hd]

end Test

/-- The test never fails: no assertion of it does, whatever sizes and slots are
drawn, and at the end the heap is as `memory_init` left it. -/
theorem test_passes (r : Region) (m : Mem) {xs : List (ℕ × ℕ)}
    (hx : ∀ x ∈ xs, x.1 < MAX_BLOCK ∧ x.2 < NUM_SLOTS) :
    ∃ t, Test.main r.size r m xs = some t ∧ Represents t.heap r.arena := by
  obtain ⟨t₁, hr₁, ns, A, ht₁, hns⟩ := (Test.Full.of_start r m).run hx
  obtain ⟨t₂, A₂, hr₂, ht₂⟩ := ht₁.sweep (i := 0) (k := NUM_SLOTS) (fun n ↦ by simp [hns n]) (Nat.zero_add _)
  refine ⟨t₂, ?_, ht₂.inv.arena_fresh rfl ▸ ht₂.inv.rep⟩
  rw [Test.main, hr₁, range_eq_range', Option.bind_some, hr₂]
  exact if_pos ht₂.check

theorem test_passes_small :
    ∃ t, Test.main Region.small.size .small (fun _ ↦ 0) [(9, 3), (100, 3), (17, 5)] = some t ∧
      Represents t.heap Region.small.arena :=
  test_passes .small (fun _ ↦ 0) (by decide)

end OcamlRpi.Memory
