import OcamlRpi.Memory.Arena

namespace OcamlRpi.Memory.Arena

open Support Function List

variable (A : Arena) (pre post : List Block)

/-- Hand out the free block `b` whole; `l` is what its slot keeps. -/
def claimAt (b : Block) (l : List ℕ) : Arena :=
  { A with blocks := pre ++ b.claim :: post, bins := update A.bins b.slot l }

/-- Hand out the front of the free block `b` and file the rest. -/
def splitAt (b : Block) (l : List ℕ) (s : ℕ) (h₈ : 8 ≤ s) (h₄ : 4 ∣ s) (hs : s + 20 ≤ b.size) :
    Arena :=
  { A with
    blocks := pre ++ b.front s h₈ h₄ :: b.rest s h₄ hs :: post
    bins := file (update A.bins b.slot l) (b.rest s h₄ hs) }

/-- Merge the free block `r` into the used block `b` before it. -/
def joinNext (b r : Block) (l : List ℕ) : Arena :=
  { A with blocks := pre ++ b.join r :: post, bins := update A.bins r.slot l }

/-- Merge the block `b` into the free block `q` before it. -/
def joinPrev (q b : Block) (l : List ℕ) : Arena :=
  { A with
    blocks := pre ++ q.join b :: post
    bins := file (update A.bins q.slot l) (q.join b) }

/-- Make the used block `b` a free block of its own. -/
def releaseAt (b : Block) : Arena :=
  { A with blocks := pre ++ b.release :: post, bins := file A.bins b.release }

variable {A pre post} {b q r : Block} {l l₁ l₂ : List ℕ}

theorem all_split (he : A.blocks = pre ++ b :: post) :
    A.all = (Block.sentinel A.lo :: pre) ++ b :: (post ++ [Block.sentinel A.hi]) := by
  simp [all, he]

theorem mem_all_replace {A' : Arena} {c : Block} {k k' : List Block}
    (he : A.blocks = pre ++ k ++ post) (he' : A'.blocks = pre ++ k' ++ post)
    (hlo : A'.lo = A.lo) (hhi : A'.hi = A.hi) (hc : c ∈ A'.all) : c ∈ k' ∨ c ∈ A.all := by
  rw [mem_all, he', hlo, hhi] at hc
  rw [mem_all, he]
  simp only [mem_append] at hc ⊢
  rcases hc with hc | ((hc | hc) | hc) | hc
  · exact .inr (.inl hc)
  · exact .inr (.inr (.inl (.inl (.inl hc))))
  · exact .inl hc
  · exact .inr (.inr (.inl (.inr hc)))
  · exact .inr (.inr (.inr hc))

theorem tiles_replace {lo hi : ℕ} {k k' : List Block}
    (h : Tiles Block.addr Block.stop lo (pre ++ k ++ post) hi)
    (hk : ∀ x y, Tiles Block.addr Block.stop x k y → Tiles Block.addr Block.stop x k' y) :
    Tiles Block.addr Block.stop lo (pre ++ k' ++ post) hi := by
  obtain ⟨y, hp, hpost⟩ := Tiles.append_iff.mp h
  obtain ⟨x, hpre, hx⟩ := Tiles.append_iff.mp hp
  exact Tiles.append_iff.mpr ⟨y, Tiles.append_iff.mpr ⟨x, hpre, hk x y hx⟩, hpost⟩

theorem tiles_join {x y : ℕ} (h : Tiles Block.addr Block.stop x [b, r] y) :
    Tiles Block.addr Block.stop x [b.join r] y := by
  obtain ⟨hb, -, hr, -, hy⟩ := h
  have h₁ := (b.join r).addr_add_le_stop
  have h₂ : (b.join r).addr = b.addr := rfl
  refine ⟨hb, by omega, ?_⟩
  have h₃ : r.addr = b.addr + 12 + b.size := hr
  have h₄ : r.addr + 12 + r.size = y := hy
  show b.addr + 12 + (b.size + 12 + r.size) = y
  omega

theorem WF.claimAt (h : A.WF) (he : A.blocks = pre ++ b :: post) (hb : b.used = false)
    (hl : A.bins b.slot = [] ++ b.addr :: l) : (A.claimAt pre post b l).WF where
  lo_dvd := h.lo_dvd
  top := h.top
  tiles := by
    have ht := h.blocks_tile
    rw [he] at ht
    exact tiles_of_blocks (A := A.claimAt pre post b l) (Tiles.join_at (a := b.claim)
      ht.split_at.1 ht.split_at.2.1 ht.split_at.2.2)
  coalesced := by
    have hc := h.coalesced
    rw [all_split he, coalesced_free hb] at hc
    rw [all_split (A := A.claimAt pre post b l) rfl]
    exact (coalesced_used (b := b.claim) rfl).mpr ⟨hc.1, hc.2.2.2⟩
  bins := (filed_used rfl).mpr ((he ▸ h.bins).unfile hb hl)

theorem WF.splitAt (h : A.WF) {s : ℕ} (h₈ : 8 ≤ s) (h₄ : 4 ∣ s) (hs : s + 20 ≤ b.size)
    (he : A.blocks = pre ++ b :: post) (hb : b.used = false)
    (hl : A.bins b.slot = [] ++ b.addr :: l) : (A.splitAt pre post b l s h₈ h₄ hs).WF where
  lo_dvd := h.lo_dvd
  top := h.top
  tiles := by
    have ht := h.blocks_tile
    rw [he] at ht
    have hcut : Tiles Block.addr Block.stop b.addr [b.front s h₈ h₄, b.rest s h₄ hs] b.stop := by
      refine ⟨rfl, ?_, rfl, ?_, ?_⟩
      · show b.addr < b.addr + 12 + s
        omega
      · show b.addr + 12 + s < b.addr + 12 + s + 12 + (b.size - (s + 12))
        omega
      · show b.addr + 12 + s + 12 + (b.size - (s + 12)) = b.addr + 12 + b.size
        omega
    have hx := Tiles.append_iff.mpr ⟨_, hcut, ht.split_at.2.2⟩
    exact tiles_of_blocks (A := A.splitAt pre post b l s h₈ h₄ hs)
      (Tiles.append_iff.mpr ⟨_, ht.split_at.1, hx⟩)
  coalesced := by
    have hc := h.coalesced
    rw [all_split he, coalesced_free hb] at hc
    have hx := (coalesced_free (b := b.rest s h₄ hs) (l := []) rfl).mpr ⟨.nil, by simp, hc.2.2⟩
    rw [all_split (A := A.splitAt pre post b l s h₈ h₄ hs) rfl]
    exact (coalesced_used (b := b.front s h₈ h₄) rfl).mpr ⟨hc.1, hx⟩
  bins := (filed_used rfl).mpr (((he ▸ h.bins).unfile hb hl).file rfl)

theorem WF.joinNext (h : A.WF) (he : A.blocks = pre ++ b :: r :: post) (hb : b.used = true)
    (hr : r.used = false) (hl : A.bins r.slot = l₁ ++ r.addr :: l₂) :
    (A.joinNext pre post b r (l₁ ++ l₂)).WF where
  lo_dvd := h.lo_dvd
  top := h.top
  tiles := by
    have ht := h.blocks_tile
    rw [he, ← singleton_append, ← singleton_append (x := r), ← append_assoc [b],
      ← append_assoc pre] at ht
    have hx := tiles_replace ht (fun _ _ ↦ tiles_join)
    rw [append_assoc] at hx
    exact tiles_of_blocks (A := A.joinNext pre post b r (l₁ ++ l₂)) hx
  coalesced := by
    have hc := h.coalesced
    rw [all_split he, coalesced_used hb] at hc
    have hx := (coalesced_free (l := []) hr).mp hc.2
    rw [all_split (A := A.joinNext pre post b r (l₁ ++ l₂)) rfl]
    exact (coalesced_used (b := b.join r) hb).mpr ⟨hc.1, hx.2.2.2⟩
  bins := by
    have hf := h.bins
    rw [he, append_cons] at hf
    have hx := hf.unfile hr hl
    rw [append_assoc, singleton_append, filed_used hb] at hx
    exact (filed_used (b := b.join r) hb).mpr hx

theorem WF.joinPrev (h : A.WF) (he : A.blocks = pre ++ q :: b :: post) (hq : q.used = false)
    (hb : b.used = true) (hpost : ∀ c ∈ (post ++ [Block.sentinel A.hi]).head?, c.used = true)
    (hl : A.bins q.slot = l₁ ++ q.addr :: l₂) : (A.joinPrev pre post q b (l₁ ++ l₂)).WF where
  lo_dvd := h.lo_dvd
  top := h.top
  tiles := by
    have ht := h.blocks_tile
    rw [he, ← singleton_append, ← singleton_append (x := b), ← append_assoc [q],
      ← append_assoc pre] at ht
    have hx := tiles_replace ht (fun _ _ ↦ tiles_join)
    rw [append_assoc] at hx
    exact tiles_of_blocks (A := A.joinPrev pre post q b (l₁ ++ l₂)) hx
  coalesced := by
    have hc := h.coalesced
    rw [all_split he, coalesced_free hq] at hc
    have hx := (coalesced_used (l := []) hb).mp hc.2.2.2
    rw [all_split (A := A.joinPrev pre post q b (l₁ ++ l₂)) rfl]
    exact (coalesced_free (b := q.join b) hq).mpr ⟨hc.1, hc.2.1, hpost, hx.2⟩
  bins := by
    have hf := h.bins
    rw [he] at hf
    have hx := hf.unfile hq hl
    rw [filed_used hb] at hx
    exact hx.file hq

theorem WF.releaseAt (h : A.WF) (he : A.blocks = pre ++ b :: post) (hb : b.used = true)
    (hpre : ∀ c ∈ (Block.sentinel A.lo :: pre).getLast?, c.used = true)
    (hpost : ∀ c ∈ (post ++ [Block.sentinel A.hi]).head?, c.used = true) :
    (A.releaseAt pre post b).WF where
  lo_dvd := h.lo_dvd
  top := h.top
  tiles := by
    have ht := h.blocks_tile
    rw [he] at ht
    exact tiles_of_blocks (A := A.releaseAt pre post b) (Tiles.join_at (a := b.release)
      ht.split_at.1 ht.split_at.2.1 ht.split_at.2.2)
  coalesced := by
    have hc := h.coalesced
    rw [all_split he, coalesced_used hb] at hc
    rw [all_split (A := A.releaseAt pre post b) rfl]
    exact (coalesced_free (b := b.release) rfl).mpr ⟨hc.1, hpre, hpost, hc.2⟩
  bins := by
    have hf := h.bins
    rw [he, filed_used hb] at hf
    exact hf.file rfl

end OcamlRpi.Memory.Arena
