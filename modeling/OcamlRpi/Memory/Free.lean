import OcamlRpi.Memory.Merge
import Mathlib.Data.Nat.ModEq

namespace OcamlRpi.Memory

open Support Function List DList

variable {h : Heap} {A : Arena} {pre post : List Block} {b : Block}

theorem container_all {x : ℕ} (hx : x < 2 ^ 32) : CONTAINER 0 x = x := by
  rw [CONTAINER, sub32_of_le (Nat.zero_le x) hx, Nat.sub_zero]

theorem Represents.flag_eq_zero (hr : Represents h A) (hb : b ∈ A.all) :
    h.mem.load (b.addr + USED) = 0 ↔ b.used = false := by
  rw [USED, hr.flag b hb]
  cases b.used <;> simp

theorem Represents.next_chunk (hr : Represents h A) (hw : A.WF) (he : A.blocks = pre ++ b :: post) :
    ∃ c k, post ++ [Block.sentinel A.hi] = c :: k ∧ c ∈ A.all ∧
      CONTAINER 0 (DList.next h.mem b.addr) = c.addr := by
  obtain ⟨c, k, hk⟩ : ∃ c k, post ++ [Block.sentinel A.hi] = c :: k :=
    exists_cons_of_ne_nil (by simp)
  have hsplit := Arena.all_split he
  rw [hk] at hsplit
  have hc : c ∈ A.all := by rw [hsplit]; simp
  have hring := hr.all
  rw [hsplit, map_append, map_cons, map_cons] at hring
  have hnext : DList.next h.mem b.addr = c.addr := hring.joined.1
  have hlt := hw.all_addr_lt hc
  exact ⟨c, k, hk, hc, by rw [hnext, container_all (by omega)]⟩

theorem Represents.prev_chunk (hr : Represents h A) (hw : A.WF) (he : A.blocks = pre ++ b :: post) :
    ∃ c k, Block.sentinel A.lo :: pre = k ++ [c] ∧ c ∈ A.all ∧
      CONTAINER 0 (DList.prev h.mem b.addr) = c.addr := by
  obtain ⟨k, c, hk⟩ : ∃ k c, Block.sentinel A.lo :: pre = k ++ [c] :=
    (eq_nil_or_concat' _).resolve_left (by simp)
  have hsplit := Arena.all_split he
  rw [hk] at hsplit
  have hc : c ∈ A.all := by rw [hsplit]; simp
  have hring := hr.all
  rw [hsplit, map_append, map_append, map_singleton, map_cons, append_assoc,
    singleton_append] at hring
  have hprev : DList.prev h.mem b.addr = c.addr := hring.joined.2
  have hlt := hw.all_addr_lt hc
  exact ⟨c, k, hk, hc, by rw [hprev, container_all (by omega)]⟩

theorem mergePrev_counters {f m q s : ℕ} (h : q + 12 + s < 2 ^ 32) :
    wrap (wrap (sub32 f (sub32 q 12) + sub32 (q + 12 + s) 12) + 12) + sub32 m 12 + 12 ≡
      f + m + s + 24 * 1 [MOD 2 ^ 32] := by
  rw [sub32_of_le (by omega) h]
  simp only [Nat.ModEq, wrap, sub32]
  omega

/-- After the first half of `free` the chunk to be freed has a used chunk
behind it; `k` counts the merges. -/
theorem freeNext_spec (hr : Represents h A) (hw : A.WF) (he : A.blocks = pre ++ b :: post)
    (hb : b.used = true) :
    ∃ A' b' post' k, let h' := freeNext h b.addr
      Represents h' A' ∧ A'.WF ∧ A'.lo = A.lo ∧ A'.hi = A.hi ∧ A'.blocks = pre ++ b' :: post' ∧
      b'.addr = b.addr ∧ b'.used = true ∧ b.size ≤ b'.size ∧
      (∀ c ∈ (post' ++ [Block.sentinel A.hi]).head?, c.used = true) ∧
      post'.filter Block.used = post.filter Block.used ∧ post'.length + k = post.length ∧
      h'.memUsed = sub32 h.memUsed b.size ∧
      h'.memFree + h'.memMeta + b'.size ≡ h.memFree + h.memMeta + b.size + 24 * k [MOD 2 ^ 32] ∧
      ∀ c ∈ A.blocks, c.used = true → Keeps h.mem h'.mem c := by
  obtain ⟨c, k, hk, hc, hnext⟩ := hr.next_chunk hw he
  have hsize := Represents.size_of_ring hr.all hw (b := b) (by rw [he]; simp)
  have hr₀ : Represents { h with memUsed := sub32 h.memUsed b.size } A :=
    ⟨hr.first, hr.last, hr.all, hr.bin, hr.flag, hr.head⟩
  unfold freeNext
  rw [hnext, hsize]
  cases hu : c.used with
  | true =>
    have hflag : ¬ h.mem.load (c.addr + USED) = 0 := by simp [hr.flag_eq_zero hc, hu]
    rw [if_neg hflag]
    refine ⟨A, b, post, 0, hr₀, hw, rfl, rfl, he, rfl, hb, le_rfl, ?_, rfl, rfl, rfl, rfl,
      fun _ _ _ _ _ _ ↦ rfl⟩
    rw [hk]
    simp [hu]
  | false =>
    rw [if_pos ((hr.flag_eq_zero hc).mpr hu)]
    cases post with
    | nil =>
      simp only [nil_append, cons.injEq] at hk
      rw [← hk.1] at hu
      cases hu
    | cons d post =>
      obtain ⟨rfl, -⟩ : d = c ∧ _ := by simpa using hk
      have hd : d ∈ A.blocks := by rw [he]; simp
      obtain ⟨l₁, l₂, hl⟩ := hw.mem_own_bin hd hu
      obtain ⟨h₁, h₂, h₃, h₄, h₅⟩ := mergeNext_spec hr₀ hw he hb hu hl
      have hcoal := hw.coalesced
      rw [Arena.all_split (show A.blocks = (pre ++ [b]) ++ d :: post by simp [he]),
        coalesced_free hu] at hcoal
      refine ⟨_, b.join d, post, 1, h₁, hw.joinNext he hb hu hl, rfl, rfl, rfl, rfl, hb, ?_,
        hcoal.2.2.1, by simp [hu], rfl, h₃, ?_, h₅⟩
      · simp only [Block.join]
        omega
      · have hlt := hw.size_lt hd
        have h₈ := d.size_ge
        rw [h₂, h₄]
        simp only [Block.join, Nat.ModEq, wrap, sub32]
        omega

theorem freePrev_spec (hr : Represents h A) (hw : A.WF) (he : A.blocks = pre ++ b :: post)
    (hb : b.used = true) (hpost : ∀ c ∈ (post ++ [Block.sentinel A.hi]).head?, c.used = true) :
    ∃ A' k, let h' := freePrev h b.addr (CONTAINER 0 (DList.prev h.mem b.addr))
      Represents h' A' ∧ A'.WF ∧ A'.lo = A.lo ∧ A'.hi = A.hi ∧
      A'.blocks.filter Block.used = (pre ++ post).filter Block.used ∧
      A'.blocks.length + k = A.blocks.length ∧
      (∃ c ∈ A'.blocks, c.used = false ∧ c.addr ≤ b.addr ∧ b.stop ≤ c.stop) ∧
      h'.memUsed = h.memUsed ∧
      h'.memFree + h'.memMeta + 12 ≡ h.memFree + h.memMeta + b.size + 24 * k [MOD 2 ^ 32] ∧
      ∀ c ∈ A.blocks, c.used = true → c ≠ b → Keeps h.mem h'.mem c := by
  have hbA : b ∈ A.blocks := by rw [he]; simp
  have hblt := hw.size_lt hbA
  have hb₈ := b.size_ge
  obtain ⟨c, k, hk, hc, hprev⟩ := hr.prev_chunk hw he
  rw [hprev]
  unfold freePrev
  cases hu : c.used with
  | true =>
    have hflag : ¬ h.mem.load (c.addr + USED) = 0 := by simp [hr.flag_eq_zero hc, hu]
    rw [if_neg hflag]
    have hpre : ∀ d ∈ (Block.sentinel A.lo :: pre).getLast?, d.used = true := by
      rw [hk]
      simp [hu]
    obtain ⟨h₁, h₂, h₃, h₄, h₅⟩ := markFree_spec hr hw he hb hpre hpost
    refine ⟨_, 0, h₁, hw.releaseAt he hb hpre hpost, rfl, rfl, ?_, ?_, ⟨b.release, ?_, rfl, le_rfl,
      le_rfl⟩, h₃, ?_, h₅⟩
    · simp [Arena.releaseAt, Block.release]
    · simp [Arena.releaseAt, he]
    · simp [Arena.releaseAt]
    · rw [h₂, h₄]
      simp only [Nat.ModEq, wrap, sub32]
      omega
  | false =>
    rw [if_pos ((hr.flag_eq_zero hc).mpr hu)]
    rcases eq_nil_or_concat' pre with rfl | ⟨pre, d, rfl⟩
    · obtain ⟨-, hsc⟩ := append_inj' (show [] ++ [Block.sentinel A.lo] = k ++ [c] from hk) rfl
      rw [← singleton_inj.mp hsc] at hu
      cases hu
    · obtain ⟨-, hdc⟩ := append_inj' (show (Block.sentinel A.lo :: pre) ++ [d] = k ++ [c] from hk) rfl
      obtain rfl : d = c := by simpa using hdc
      have he' : A.blocks = pre ++ d :: b :: post := by rw [he]; simp
      have hd : d ∈ A.blocks := by rw [he']; simp
      have hdlt := hw.size_lt hd
      have hd₈ := d.size_ge
      obtain ⟨l₁, l₂, hl⟩ := hw.mem_own_bin hd hu
      have hw' := hw.joinPrev he' hu hb hpost hl
      obtain ⟨h₁, h₂, h₃, h₄, h₅⟩ := mergePrev_spec hr hw he' hu hb hpost hl
      have hjoin : d.join b ∈ (A.joinPrev pre post d b (l₁ ++ l₂)).blocks := by
        simp [Arena.joinPrev]
      have hstop : b.addr = d.addr + 12 + d.size := by
        have ht := hw.blocks_tile
        rw [he'] at ht
        exact ht.start_next
      refine ⟨_, 1, h₁, hw', rfl, rfl, ?_, ?_, ⟨d.join b, hjoin, hu, ?_, ?_⟩, h₃, ?_,
        fun c hc hu _ ↦ h₅ c hc hu⟩
      · simp [Arena.joinPrev, Block.join, hu]
      · simp [Arena.joinPrev, he']
        omega
      · simp only [Block.join]
        omega
      · simp only [Block.join, Block.stop]
        omega
      · rw [h₂, h₄]
        exact mergePrev_counters (hw'.size_lt hjoin)

theorem chunk_of_payload (hw : A.WF) (hb : b ∈ A.blocks) :
    b.payload ≠ 0 ∧ sub32 b.payload HEADER_SIZE = b.addr := by
  have hlt := hw.all_addr_lt (Arena.mem_all_of_mem hb)
  simp only [Block.payload, HEADER_SIZE]
  rw [sub32_of_le (by omega) (by omega)]
  omega

/-- The first half of `free` leaves alone which chunk is before the freed one. -/
theorem prev_freeNext (hr : Represents h A) (hw : A.WF) (he : A.blocks = pre ++ b :: post)
    (hb : b.used = true) :
    CONTAINER 0 (DList.prev (freeNext h b.addr).mem b.addr) = CONTAINER 0 (DList.prev h.mem b.addr) := by
  obtain ⟨A', b', post', -, hr', hw', hlo, -, he', haddr, -⟩ := freeNext_spec hr hw he hb
  obtain ⟨c, k, hk, -, hc⟩ := hr.prev_chunk hw he
  obtain ⟨c', k', hk', -, hc'⟩ := hr'.prev_chunk hw' he'
  rw [hlo, hk] at hk'
  obtain rfl := singleton_inj.mp (append_inj' hk' rfl).2
  rw [haddr] at hc'
  rw [hc, hc']

/-- `free` of a used chunk leaves the other used chunks as they were, and the
freed bytes inside one free chunk; `k` counts the merges. -/
theorem free_spec (hr : Represents h A) (hw : A.WF) (he : A.blocks = pre ++ b :: post)
    (hb : b.used = true) :
    ∃ A' k, let h' := free h b.payload
      Represents h' A' ∧ A'.WF ∧ A'.lo = A.lo ∧ A'.hi = A.hi ∧
      A'.blocks.filter Block.used = (pre ++ post).filter Block.used ∧
      A'.blocks.length + k = A.blocks.length ∧
      (∃ c ∈ A'.blocks, c.used = false ∧ c.addr ≤ b.addr ∧ b.stop ≤ c.stop) ∧
      h'.memUsed = sub32 h.memUsed b.size ∧
      h'.memFree + h'.memMeta + 12 ≡ h.memFree + h.memMeta + b.size + 24 * k [MOD 2 ^ 32] ∧
      ∀ c ∈ A.blocks, c.used = true → c ≠ b → Keeps h.mem h'.mem c := by
  have hbA : b ∈ A.blocks := by rw [he]; simp
  obtain ⟨A₁, b', post', k₁, hr₁, hw₁, hlo₁, hhi₁, he₁, haddr, hb', hsize, hpost, hused₁, hlen₁,
    hmu₁, htot₁, hkeep₁⟩ := freeNext_spec hr hw he hb
  obtain ⟨A₂, k₂, hr₂, hw₂, hlo₂, hhi₂, hused₂, hlen₂, ⟨c, hc, hcu, hca, hcs⟩, hmu₂, htot₂, hkeep₂⟩ :=
    freePrev_spec hr₁ hw₁ he₁ hb' (hhi₁ ▸ hpost)
  obtain ⟨hp₀, hchunk⟩ := chunk_of_payload hw hbA
  have hfree : free h b.payload = freePrev (freeNext h b.addr) b'.addr
      (CONTAINER 0 (DList.prev (freeNext h b.addr).mem b'.addr)) := by
    rw [haddr, prev_freeNext hr hw he hb, free, if_neg hp₀, hchunk]
  rw [← hfree] at hr₂ hmu₂ htot₂ hkeep₂
  refine ⟨A₂, k₁ + k₂, hr₂, hw₂, hlo₂.trans hlo₁, hhi₂.trans hhi₁, ?_, ?_, ⟨c, hc, hcu, ?_, ?_⟩,
    hmu₂.trans hmu₁, ?_, fun d hd hdu hdb ↦ ?_⟩
  · rw [hused₂, filter_append, filter_append, hused₁]
  · rw [he₁] at hlen₂
    rw [he]
    simp only [length_append, length_cons] at hlen₂ ⊢
    omega
  · omega
  · simp only [Block.stop] at hcs ⊢
    omega
  · have h₁ := htot₁.add_right (24 * k₂)
    have h₂ := htot₂.trans h₁
    rwa [show h.memFree + h.memMeta + b.size + 24 * (k₁ + k₂) =
      h.memFree + h.memMeta + b.size + 24 * k₁ + 24 * k₂ by ring]
  · have hdA := Arena.mem_all_of_mem hd
    have hne : d.addr ≠ b'.addr := fun hx ↦
      hdb (hw.eq_of_addr_eq hdA (Arena.mem_all_of_mem hbA) (hx.trans haddr))
    have hd₁ : d ∈ A₁.blocks := by
      rw [he, mem_append, mem_cons] at hd
      rw [he₁, mem_append, mem_cons]
      rcases hd with hd | hd | hd
      · exact .inl hd
      · exact absurd hd hdb
      · have hf : d ∈ post'.filter Block.used := hused₁ ▸ mem_filter.mpr ⟨hd, hdu⟩
        exact .inr (.inr (mem_filter.mp hf).1)
    exact (hkeep₁ d hd hdu).trans (hkeep₂ d hd₁ hdu fun hx ↦ hne (hx ▸ rfl))

end OcamlRpi.Memory
