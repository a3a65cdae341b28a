import OcamlRpi.Memory.Take

namespace OcamlRpi.Memory

open Support Function List DList

variable {h : Heap} {A : Arena} {b : Block}

/-- What `malloc` does for a rounded request `s`: nothing, or it hands out the
head of the lowest list whose chunks are all large enough, whole or cut. -/
inductive Malloc (h : Heap) (A : Arena) (s : ℕ) (h' : Heap) (p : ℕ) : Arena → Prop
  | fail (none : ∀ b ∈ A.blocks, b.used = false → b.slot < Nat.clog 2 s) (heap : h' = h)
      (ptr : p = 0) : Malloc h A s h' p A
  | whole {pre post : List Block} {b : Block} {l : List ℕ} (split : A.blocks = pre ++ b :: post)
      (free : b.used = false) (head : A.bins b.slot = b.addr :: l) (fit : Nat.clog 2 s ≤ b.slot)
      (lowest : ∀ n, Nat.clog 2 s ≤ n → n < b.slot → A.bins n = []) (tight : b.size < s + 20)
      (ptr : p = b.payload) (memFree : h'.memFree = sub32 h.memFree b.size)
      (memUsed : h'.memUsed = wrap (h.memUsed + sub32 b.size 12)) (memMeta : h'.memMeta = h.memMeta) :
      Malloc h A s h' p (A.claimAt pre post b l)
  | cut {pre post : List Block} {b : Block} {l : List ℕ} (split : A.blocks = pre ++ b :: post)
      (free : b.used = false) (head : A.bins b.slot = b.addr :: l) (fit : Nat.clog 2 s ≤ b.slot)
      (lowest : ∀ n, Nat.clog 2 s ≤ n → n < b.slot → A.bins n = []) (h₈ : 8 ≤ s) (h₄ : 4 ∣ s)
      (room : s + 20 ≤ b.size) (ptr : p = b.payload)
      (memFree : h'.memFree = sub32 (wrap (h.memFree + sub32 (b.rest s h₄ room).size 12)) b.size)
      (memUsed : h'.memUsed = wrap (h.memUsed + s)) (memMeta : h'.memMeta = wrap (h.memMeta + 12)) :
      Malloc h A s h' p (A.splitAt pre post b l s h₈ h₄ room)

theorem Represents.head_eq_zero (hr : Represents h A) (hw : A.WF) {n : ℕ} (hn : n < 32) :
    h.freeChunk n = 0 ↔ A.bins n = [] := by
  rw [hr.head n hn]
  cases hb : A.bins n with
  | nil => simp
  | cons a l =>
    have ha : a ≠ 0 := fun he ↦ hw.zero_notMem_bins (n := n) (by simp [hb, he])
    simp [ha]

theorem Block.le_size_of_clog_le {s : ℕ} (h : Nat.clog 2 s ≤ b.slot) : s ≤ b.size := by
  have h₈ := b.size_ge
  exact (Nat.clog_le_iff_le_pow Nat.one_lt_two).mp h |>.trans
    (Nat.pow_log_le_self 2 (by omega))

theorem Arena.claimAt_used {pre post : List Block} {l : List ℕ} (he : A.blocks = pre ++ b :: post)
    (hb : b.used = false) : (A.claimAt pre post b l).used.Perm (b.claim :: A.used) := by
  rw [show (A.claimAt pre post b l).used = pre.filter Block.used ++ b.claim :: post.filter Block.used
    by simp [Arena.used, Arena.claimAt, Block.claim], A.used_split he hb]
  exact perm_middle

theorem Arena.splitAt_used {pre post : List Block} {l : List ℕ} {s : ℕ} {h₈ : 8 ≤ s} {h₄ : 4 ∣ s}
    {hs : s + 20 ≤ b.size} (he : A.blocks = pre ++ b :: post) (hb : b.used = false) :
    (A.splitAt pre post b l s h₈ h₄ hs).used.Perm (b.front s h₈ h₄ :: A.used) := by
  rw [show (A.splitAt pre post b l s h₈ h₄ hs).used =
    pre.filter Block.used ++ b.front s h₈ h₄ :: post.filter Block.used
    by simp [Arena.used, Arena.splitAt, Block.front, Block.rest], A.used_split he hb]
  exact perm_middle

theorem Malloc.used_perm {h' : Heap} {A' : Arena} {s p : ℕ} (hm : Malloc h A s h' p A') (hp : p ≠ 0) :
    ∃ c : Block, c.used = true ∧ c.payload = p ∧ s ≤ c.size ∧ A'.used.Perm (c :: A.used) := by
  cases hm with
  | fail none heap ptr => exact absurd ptr hp
  | whole split free head fit lowest tight ptr memFree memUsed memMeta =>
    exact ⟨Block.claim _, rfl, ptr.symm, Block.le_size_of_clog_le fit, Arena.claimAt_used split free⟩
  | cut split free head fit lowest h₈ h₄ room ptr memFree memUsed memMeta =>
    exact ⟨Block.front _ s h₈ h₄, rfl, ptr.symm, le_rfl, Arena.splitAt_used split free⟩

theorem Malloc.ends {h' : Heap} {A' : Arena} {s p : ℕ} (hm : Malloc h A s h' p A') :
    A'.lo = A.lo ∧ A'.hi = A.hi := by
  cases hm <;> exact ⟨rfl, rfl⟩

theorem Malloc.eq_of_null {h' : Heap} {A' : Arena} {s p : ℕ} (hm : Malloc h A s h' p A')
    (hp : p = 0) : h' = h ∧ A' = A := by
  cases hm with
  | fail none heap ptr => exact ⟨heap, rfl⟩
  | whole split free head fit lowest tight ptr memFree memUsed memMeta => simp [ptr, Block.payload] at hp
  | cut split free head fit lowest h₈ h₄ room ptr memFree memUsed memMeta =>
    simp [ptr, Block.payload] at hp

theorem malloc_spec (hr : Represents h A) (hw : A.WF) (size : ℕ) :
    ∃ A', Malloc h A (roundRequest size) (malloc h size).1 (malloc h size).2 A' ∧
      Represents (malloc h size).1 A' ∧ A'.WF ∧
      ∀ c ∈ A.blocks, c.used = true → Keeps h.mem (malloc h size).1.mem c := by
  have h₈ := roundRequest_ge size
  have h₄ := roundRequest_dvd size
  unfold malloc
  dsimp only
  rw [searchStart_eq]
  set s := roundRequest size
  have hfail : (∀ b ∈ A.blocks, b.used = false → b.slot < Nat.clog 2 s) → ∃ A',
      Malloc h A s h 0 A' ∧ Represents h A' ∧ A'.WF ∧
        ∀ c ∈ A.blocks, c.used = true → Keeps h.mem h.mem c :=
    fun hn ↦ ⟨A, .fail hn rfl rfl, hr, hw, fun _ _ _ _ _ _ ↦ rfl⟩
  split_ifs with hbig
  · refine hfail fun b hb _ ↦ ?_
    have hlt := hw.slot_lt hb
    have hge : (32 : ℤ) ≤ Nat.clog 2 s := hbig
    omega
  · have hsmall : (Nat.clog 2 s : ℤ) < NUM_SIZES := not_le.mp hbig
    cases hf : findSlot h.freeChunk (Nat.clog 2 s) with
    | none =>
      refine hfail fun b hb hu ↦ ?_
      by_contra hge
      have hz := findSlot_eq_none hf b.slot (by omega) (show (b.slot : ℤ) < 32 by
        have hlt := hw.slot_lt hb
        omega)
      have hnil := (hr.head_eq_zero hw (hw.slot_lt hb)).mp hz
      have hm := hw.mem_bins.mpr ⟨b, hb, hu, rfl, rfl⟩
      rw [hnil] at hm
      cases hm
    | some k =>
      obtain ⟨hk₁, hk₂, hk₃, hk₄⟩ := findSlot_eq_some hsmall hf
      obtain ⟨n, rfl⟩ := Int.eq_ofNat_of_zero_le (show 0 ≤ k by omega)
      have hn : n < 32 := by
        have hx : (n : ℤ) < 32 := hk₂
        omega
      obtain ⟨a, l, hl⟩ := exists_cons_of_ne_nil (fun he ↦ hk₃ ((hr.head_eq_zero hw hn).mpr he))
      obtain ⟨b, hb, hu, rfl, rfl⟩ := hw.mem_bins.mp (hl ▸ mem_cons_self : a ∈ A.bins n)
      obtain ⟨pre, post, he⟩ := append_of_mem hb
      have hfit : Nat.clog 2 s ≤ b.slot := by omega
      have hlow : ∀ n, Nat.clog 2 s ≤ n → n < b.slot → A.bins n = [] := fun n h₁ h₂ ↦
        (hr.head_eq_zero hw (by omega)).mp (hk₄ n (by omega) (by omega))
      have hsz := Block.le_size_of_clog_le hfit
      have hstop := (hw.addr_bounds hb).2
      have htop := hw.top
      simp only [Block.stop] at hstop
      by_cases hroom : s + 20 ≤ b.size
      · obtain ⟨h₁, h₂, h₃, h₅, h₆, h₇⟩ := takeChunk_split h₈ h₄ hroom hr hw he hu hl
        exact ⟨_, .cut he hu hl hfit hlow h₈ h₄ hroom h₁ h₃ h₅ h₆, h₂,
          hw.splitAt h₈ h₄ hroom he hu hl, h₇⟩
      · have hwrap : wrap (s + 20) = s + 20 := Nat.mod_eq_of_lt (by omega)
        obtain ⟨h₁, h₂, h₃, h₅, h₆, h₇⟩ := takeChunk_whole hr hw he hu hl
          (show b.size < wrap (s + 20) by omega)
        exact ⟨_, .whole he hu hl hfit hlow (by omega) h₁ h₃ h₅ h₆, h₂,
          hw.claimAt he hu hl, h₇⟩

end OcamlRpi.Memory
