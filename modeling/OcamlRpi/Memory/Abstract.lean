import OcamlRpi.Memory.Free
import OcamlRpi.Memory.Malloc

namespace OcamlRpi.Memory

open Support Function List DList

/-- The blocks before the one at address `a`, that block, and those behind. -/
def cutAt (a : ℕ) : List Block → Option (List Block × Block × List Block)
  | [] => none
  | b :: l => if b.addr = a then some ([], b, l) else (cutAt a l).map fun (pre, c, post) ↦ (b :: pre, c, post)

theorem cutAt_split {pre post : List Block} {b : Block} (h : ∀ d ∈ pre, d.addr ≠ b.addr) :
    cutAt b.addr (pre ++ b :: post) = some (pre, b, post) := by
  induction pre with
  | nil => simp [cutAt]
  | cons d pre ih =>
    obtain ⟨hd, hpre⟩ := forall_mem_cons.mp h
    rw [cons_append, cutAt, if_neg hd, ih hpre]
    rfl

namespace Arena

/-- The first list from `k` on that has a block. -/
def lowest (A : Arena) (k : ℕ) : Option ℕ := (range 32).find? fun n ↦ decide (k ≤ n) && !(A.bins n).isEmpty

/-- `malloc` without memory and links: the first block of the first list that
is sure to have large enough ones, whole or cut. -/
def malloc (A : Arena) (size : ℕ) : Arena × ℕ :=
  match A.lowest (Nat.clog 2 (roundRequest size)) with
  | none => (A, 0)
  | some n =>
    match cutAt ((A.bins n).headD 0) A.blocks with
    | none => (A, 0)
    | some (pre, b, post) =>
      if hs : roundRequest size + 20 ≤ b.size then
        (A.splitAt pre post b (A.bins n).tail (roundRequest size) (roundRequest_ge size)
          (roundRequest_dvd size) hs, b.payload)
      else (A.claimAt pre post b (A.bins n).tail, b.payload)

/-- Add the free block at the head of `post` to the used block `b`. -/
def absorb (A : Arena) (pre : List Block) (b : Block) : List Block → Arena × Block × List Block
  | [] => (A, b, [])
  | r :: post =>
    if r.used then (A, b, r :: post)
    else (A.joinNext pre post b r ((A.bins r.slot).erase r.addr), b.join r, post)

/-- Add the used block `b` to the free block at the end of `pre`, or make it
free on its own. -/
def release (A : Arena) (pre : List Block) (b : Block) (post : List Block) : Arena :=
  match pre.getLast? with
  | none => A.releaseAt pre post b
  | some q =>
    if q.used then A.releaseAt pre post b
    else A.joinPrev pre.dropLast post q b ((A.bins q.slot).erase q.addr)

/-- `free` without memory and links. -/
def free (A : Arena) (p : ℕ) : Arena :=
  if p = 0 then A
  else
    match cutAt (p - 12) A.blocks with
    | none => A
    | some (pre, b, post) =>
      let (A, b, post) := A.absorb pre b post
      A.release pre b post

end Arena

variable {h h' : Heap} {A A' : Arena} {pre post : List Block} {b : Block} {s p size : ℕ} {l l₁ l₂ : List ℕ}

namespace Arena.WF

theorem cutAt_blocks (hw : A.WF) (he : A.blocks = pre ++ b :: post) :
    cutAt b.addr A.blocks = some (pre, b, post) := by
  rw [he]
  apply cutAt_split
  intro d hd hx
  have hd' : d ∈ A.blocks := by rw [he]; exact mem_append_left _ hd
  have hb : b ∈ A.blocks := by rw [he]; simp
  have hdb := hw.eq_of_addr_eq (mem_all_of_mem hd') (mem_all_of_mem hb) hx
  have hnd := hw.blocks_tile.nodup
  rw [he, nodup_middle, nodup_cons] at hnd
  exact hnd.1 (mem_append_left _ (hdb ▸ hd))

theorem lowest_none (hw : A.WF) {k : ℕ} (hn : ∀ b ∈ A.blocks, b.used = false → b.slot < k) :
    A.lowest k = none := by
  apply find?_eq_none.mpr
  intro n _ hx
  simp only [Bool.and_eq_true, decide_eq_true_eq, Bool.not_eq_true', isEmpty_eq_false_iff] at hx
  obtain ⟨a, l, hl⟩ := exists_cons_of_ne_nil hx.2
  obtain ⟨b, hb, hu, rfl, -⟩ := hw.mem_bins.mp (hl ▸ mem_cons_self : a ∈ A.bins n)
  have hlt := hn b hb hu
  omega

theorem lowest_some (hw : A.WF) (hb : b ∈ A.blocks) (hl : A.bins b.slot = b.addr :: l) {k : ℕ}
    (hfit : k ≤ b.slot) (hlow : ∀ n, k ≤ n → n < b.slot → A.bins n = []) : A.lowest k = some b.slot := by
  have hlt := hw.slot_lt hb
  apply find?_range_eq_some.mpr
  refine ⟨by simp [hfit, hl], mem_range.mpr hlt, ?_⟩
  intro n hn
  by_cases hk : k ≤ n
  · simp [hlow n hk hn]
  · simp [hk]

theorem erase_bin (hw : A.WF) (hl : A.bins b.slot = l₁ ++ b.addr :: l₂) :
    (A.bins b.slot).erase b.addr = l₁ ++ l₂ := by
  have hnd := hw.bins_nodup b.slot
  rw [hl] at hnd ⊢
  have hb : b.addr ∉ l₁ := fun hx ↦ (nodup_cons.mp (nodup_middle.mp hnd)).1 (mem_append_left _ hx)
  rw [erase_append_right _ hb, erase_cons_head]

end Arena.WF

/-- What `malloc` may do to an arena is what the abstract one does. -/
theorem Malloc.eq_abstract (hw : A.WF) (hm : Malloc h A (roundRequest size) h' p A') :
    A.malloc size = (A', p) := by
  cases hm with
  | fail none heap ptr => rw [Arena.malloc, hw.lowest_none none, ptr]
  | @whole pre post b l split free head fit lowest tight ptr memFree memUsed memMeta =>
    have hb : b ∈ A.blocks := by rw [split]; simp
    rw [Arena.malloc, hw.lowest_some hb head fit lowest]
    dsimp only
    rw [head, headD_cons, hw.cutAt_blocks split]
    dsimp only
    rw [dif_neg (by omega), tail_cons, ptr]
  | @cut pre post b l split free head fit lowest h₈ h₄ room ptr memFree memUsed memMeta =>
    have hb : b ∈ A.blocks := by rw [split]; simp
    rw [Arena.malloc, hw.lowest_some hb head fit lowest]
    dsimp only
    rw [head, headD_cons, hw.cutAt_blocks split]
    dsimp only
    rw [dif_pos room, tail_cons, ptr]

theorem malloc_refines (hr : Represents h A) (hw : A.WF) (size : ℕ) :
    (malloc h size).2 = (A.malloc size).2 ∧ Represents (malloc h size).1 (A.malloc size).1 ∧
      (A.malloc size).1.WF := by
  obtain ⟨A', hm, hr', hw', -⟩ := malloc_spec hr hw size
  rw [hm.eq_abstract hw]
  exact ⟨rfl, hr', hw'⟩

theorem freeNext_refines (hr : Represents h A) (hw : A.WF) (he : A.blocks = pre ++ b :: post)
    (hb : b.used = true) :
    let t := A.absorb pre b post
    Represents (freeNext h b.addr) t.1 ∧ t.1.WF ∧ t.1.hi = A.hi ∧ t.1.blocks = pre ++ t.2.1 :: t.2.2 ∧
      t.2.1.addr = b.addr ∧ t.2.1.used = true ∧
      ∀ c ∈ (t.2.2 ++ [Block.sentinel A.hi]).head?, c.used = true := by
  obtain ⟨c, k, hk, hc, hnext⟩ := hr.next_chunk hw he
  have hr₀ : Represents { h with memUsed := sub32 h.memUsed (memoryChunkSize h.mem b.addr) } A :=
    ⟨hr.first, hr.last, hr.all, hr.bin, hr.flag, hr.head⟩
  have hflag : h.mem.load (c.addr + USED) = 0 ↔ c.used = false := hr.flag_eq_zero hc
  unfold freeNext
  rw [hnext]
  dsimp only
  cases post with
  | nil =>
    obtain ⟨rfl, -⟩ : Block.sentinel A.hi = c ∧ _ := by simpa using hk
    rw [if_neg (by rw [hflag]; simp [Block.sentinel])]
    exact ⟨hr₀, hw, rfl, he, rfl, hb, by simp [Arena.absorb, Block.sentinel]⟩
  | cons d post =>
    obtain ⟨rfl, -⟩ : d = c ∧ _ := by simpa using hk
    rw [Arena.absorb]
    cases hu : d.used with
    | true =>
      rw [if_neg (by rw [hflag, hu]; simp), if_pos rfl]
      exact ⟨hr₀, hw, rfl, he, rfl, hb, by simp [hu]⟩
    | false =>
      have hd : d ∈ A.blocks := by rw [he]; simp
      obtain ⟨l₁, l₂, hl⟩ := hw.mem_own_bin hd hu
      obtain ⟨h₁, -⟩ := mergeNext_spec hr₀ hw he hb hu hl
      have hcoal := hw.coalesced
      rw [Arena.all_split (show A.blocks = (pre ++ [b]) ++ d :: post by simp [he]),
        coalesced_free hu] at hcoal
      rw [if_pos (hflag.mpr hu), if_neg (by simp), hw.erase_bin hl]
      exact ⟨h₁, hw.joinNext he hb hu hl, rfl, rfl, rfl, hb, hcoal.2.2.1⟩

theorem freePrev_refines (hr : Represents h A) (hw : A.WF) (he : A.blocks = pre ++ b :: post)
    (hb : b.used = true) (hpost : ∀ c ∈ (post ++ [Block.sentinel A.hi]).head?, c.used = true) :
    Represents (freePrev h b.addr (CONTAINER 0 (DList.prev h.mem b.addr))) (A.release pre b post) ∧
      (A.release pre b post).WF := by
  obtain ⟨c, k, hk, hc, hprev⟩ := hr.prev_chunk hw he
  have hflag : h.mem.load (c.addr + USED) = 0 ↔ c.used = false := hr.flag_eq_zero hc
  -- a used chunk before `b`, the first sentinel or not
  have hreleased : c.used = true → Represents (freePrev h b.addr c.addr) (A.releaseAt pre post b) ∧
      (A.releaseAt pre post b).WF := by
    intro hu
    have hpre : ∀ d ∈ (Block.sentinel A.lo :: pre).getLast?, d.used = true := by
      rw [hk]
      simp [hu]
    rw [freePrev, if_neg (by rw [hflag, hu]; simp)]
    exact ⟨(markFree_spec hr hw he hb hpre hpost).1, hw.releaseAt he hb hpre hpost⟩
  rw [hprev, Arena.release]
  rcases eq_nil_or_concat' pre with rfl | ⟨pre, d, rfl⟩
  · obtain ⟨-, hsc⟩ := append_inj' (show [] ++ [Block.sentinel A.lo] = k ++ [c] from hk) rfl
    apply hreleased
    rw [← singleton_inj.mp hsc]
    rfl
  · obtain ⟨-, hdc⟩ := append_inj' (show (Block.sentinel A.lo :: pre) ++ [d] = k ++ [c] from hk) rfl
    obtain rfl := singleton_inj.mp hdc
    rw [getLast?_concat]
    dsimp only
    cases hu : d.used with
    | true =>
      rw [if_pos rfl]
      exact hreleased hu
    | false =>
      have he' : A.blocks = pre ++ d :: b :: post := by rw [he]; simp
      have hd : d ∈ A.blocks := by rw [he']; simp
      obtain ⟨l₁, l₂, hl⟩ := hw.mem_own_bin hd hu
      rw [if_neg (by simp), dropLast_concat, hw.erase_bin hl, freePrev, if_pos (hflag.mpr hu)]
      exact ⟨(mergePrev_spec hr hw he' hu hb hpost hl).1, hw.joinPrev he' hu hb hpost hl⟩

theorem free_refines (hr : Represents h A) (hw : A.WF) (hb : b ∈ A.used) :
    Represents (free h b.payload) (A.free b.payload) ∧ (A.free b.payload).WF := by
  obtain ⟨hbA, hu⟩ := Arena.mem_used.mp hb
  obtain ⟨pre, post, he⟩ := append_of_mem hbA
  obtain ⟨hr₁, hw₁, hhi, he₁, haddr, hu₁, hpost⟩ := freeNext_refines hr hw he hu
  obtain ⟨hp₀, hchunk⟩ := chunk_of_payload hw hbA
  have hsub : b.payload - 12 = b.addr := Nat.add_sub_cancel _ _
  rw [← hhi] at hpost
  have h₂ := freePrev_refines hr₁ hw₁ he₁ hu₁ hpost
  rw [haddr, prev_freeNext hr hw he hu] at h₂
  rw [free, if_neg hp₀, hchunk, Arena.free, if_neg hp₀, hsub, hw.cutAt_blocks he]
  exact h₂

end OcamlRpi.Memory
