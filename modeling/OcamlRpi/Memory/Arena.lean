import Mathlib.Algebra.Ring.Nat
import Mathlib.Data.Nat.Log
import Mathlib.Data.List.Perm.Basic
import Mathlib.Logic.Function.Basic
import Mathlib.Tactic.Tauto
import OcamlRpi.Support.Tiling

namespace OcamlRpi.Memory

open Support Function List

/-- A chunk as the allocator means it: the sizes are those the links of the
memory only imply, and no chunk is too small to hold its own free links. -/
structure Block where
  addr : ℕ
  size : ℕ
  used : Bool
  size_ge : 8 ≤ size
  size_dvd : 4 ∣ size

namespace Block

def payload (b : Block) : ℕ := b.addr + 12

def stop (b : Block) : ℕ := b.addr + 12 + b.size

/-- The list of free chunks a chunk of this size is filed under. -/
def slot (b : Block) : ℕ := Nat.log 2 b.size

def claim (b : Block) : Block := { b with used := true }

def release (b : Block) : Block := { b with used := false }

/-- One block out of two neighbours. -/
def join (b c : Block) : Block where
  addr := b.addr
  size := b.size + 12 + c.size
  used := b.used
  size_ge := by have h := b.size_ge; omega
  size_dvd := by
    have hb := b.size_dvd
    have hc := c.size_dvd
    omega

/-- The front part of a block that is cut after `s` payload bytes. -/
def front (b : Block) (s : ℕ) (h₈ : 8 ≤ s) (h₄ : 4 ∣ s) : Block := ⟨b.addr, s, true, h₈, h₄⟩

/-- The rest of a block that is cut after `s` payload bytes. -/
def rest (b : Block) (s : ℕ) (h₄ : 4 ∣ s) (hs : s + 20 ≤ b.size) : Block where
  addr := b.addr + 12 + s
  size := b.size - (s + 12)
  used := false
  size_ge := by omega
  size_dvd := by have hb := b.size_dvd; omega

def sentinel (a : ℕ) : Block := ⟨a, 8, true, le_rfl, 2, rfl⟩

theorem addr_add_le_stop (b : Block) : b.addr + 20 ≤ b.stop := by
  have h := b.size_ge
  simp only [stop]
  omega

theorem payload_add {b : Block} {i : ℕ} (hi : i < b.size) :
    b.payload ≤ b.payload + i ∧ b.payload + i < b.stop := by
  simp only [payload, stop]
  omega

@[ext] theorem ext {b c : Block} (ha : b.addr = c.addr) (hs : b.size = c.size)
    (hu : b.used = c.used) : b = c := by
  cases b
  cases c
  simp_all

end Block

/-- The free blocks of `l` that belong into slot `n`. -/
def binned (l : List Block) (n : ℕ) : List ℕ :=
  (l.filter fun b ↦ !b.used && b.slot == n).map Block.addr

theorem mem_binned {l : List Block} {n a : ℕ} :
    a ∈ binned l n ↔ ∃ b ∈ l, b.used = false ∧ b.slot = n ∧ b.addr = a := by
  simp [binned, and_assoc]

theorem binned_append (l k : List Block) (n : ℕ) :
    binned (l ++ k) n = binned l n ++ binned k n := by
  simp [binned]

theorem binned_cons_used {b : Block} (h : b.used = true) (l : List Block) (n : ℕ) :
    binned (b :: l) n = binned l n := by
  simp [binned, h]

theorem binned_cons_self {b : Block} (h : b.used = false) (l : List Block) :
    binned (b :: l) b.slot = b.addr :: binned l b.slot := by
  simp [binned, h]

theorem binned_cons_ne {b : Block} {n : ℕ} (h : n ≠ b.slot) (l : List Block) :
    binned (b :: l) n = binned l n := by
  simp [binned, h.symm]

/-- Every free block is in the list of its slot, and nothing else is. -/
def Filed (bins : ℕ → List ℕ) (l : List Block) : Prop := ∀ n, (bins n).Perm (binned l n)

/-- Put a block in front of the list of its slot. -/
def file (bins : ℕ → List ℕ) (b : Block) : ℕ → List ℕ :=
  update bins b.slot (b.addr :: bins b.slot)

theorem mem_file {bins : ℕ → List ℕ} {b : Block} {n x : ℕ} (h : x ∈ file bins b n) :
    x = b.addr ∨ x ∈ bins n := by
  by_cases hn : n = b.slot
  · subst hn
    rw [file, update_self] at h
    exact mem_cons.mp h
  · rw [file, update_of_ne hn] at h
    exact .inr h

section Filed

variable {bins : ℕ → List ℕ} {b : Block} {pre post : List Block} {l₁ l₂ : List ℕ}

theorem filed_used (hb : b.used = true) : Filed bins (pre ++ b :: post) ↔ Filed bins (pre ++ post) := by
  simp only [Filed, binned_append, binned_cons_used hb]

theorem Filed.file (h : Filed bins (pre ++ post)) (hb : b.used = false) :
    Filed (file bins b) (pre ++ b :: post) := by
  intro n
  have hn := h n
  rw [binned_append] at hn ⊢
  by_cases hs : n = b.slot
  · subst hs
    rw [Memory.file, update_self, binned_cons_self hb]
    exact (hn.cons b.addr).trans perm_middle.symm
  · rw [Memory.file, update_of_ne hs, binned_cons_ne hs]
    exact hn

theorem Filed.unfile (h : Filed bins (pre ++ b :: post)) (hb : b.used = false)
    (hl : bins b.slot = l₁ ++ b.addr :: l₂) :
    Filed (update bins b.slot (l₁ ++ l₂)) (pre ++ post) := by
  intro n
  have hn := h n
  rw [binned_append] at hn ⊢
  by_cases hs : n = b.slot
  · subst hs
    rw [binned_cons_self hb, hl] at hn
    rw [update_self]
    exact (perm_middle.symm.trans (hn.trans perm_middle)).cons_inv
  · rw [binned_cons_ne hs] at hn
    rw [update_of_ne hs]
    exact hn

end Filed

/-- No two neighbours are both free. -/
def Coalesced (l : List Block) : Prop := IsChain (fun b c ↦ b.used ∨ c.used) l

theorem coalesced_used {b : Block} (hb : b.used = true) {l k : List Block} :
    Coalesced (l ++ b :: k) ↔ Coalesced l ∧ Coalesced k := by
  simp [Coalesced, isChain_append, isChain_cons, hb]

theorem coalesced_free {b : Block} (hb : b.used = false) {l k : List Block} :
    Coalesced (l ++ b :: k) ↔ Coalesced l ∧ (∀ c ∈ l.getLast?, c.used = true) ∧
      (∀ c ∈ k.head?, c.used = true) ∧ Coalesced k := by
  simp only [Coalesced, isChain_append, isChain_cons, hb, head?_cons, Option.mem_def,
    Option.some.injEq, forall_eq', Bool.false_eq_true, or_false, false_or]
  tauto

/-- The heap as the allocator means it: the chunks between the sentinels in
address order, and the free lists with their heads first. -/
structure Arena where
  lo : ℕ
  hi : ℕ
  blocks : List Block
  bins : ℕ → List ℕ

namespace Arena

/-- All chunks, with the sentinels `first` and `last`. -/
def all (A : Arena) : List Block := Block.sentinel A.lo :: (A.blocks ++ [Block.sentinel A.hi])

structure WF (A : Arena) : Prop where
  lo_dvd : 4 ∣ A.lo
  top : A.hi + 20 ≤ 2 ^ 32
  tiles : Tiles Block.addr Block.stop A.lo A.all (A.hi + 20)
  coalesced : Coalesced A.all
  bins : Filed A.bins A.blocks

/-- The addresses of the free chunks. -/
def frees (A : Arena) : Set ℕ := {x | ∃ n, x ∈ A.bins n}

def used (A : Arena) : List Block := A.blocks.filter Block.used

variable {A : Arena} {b c : Block} {pre post : List Block} {l₁ l₂ : List ℕ} {n a x : ℕ}

theorem mem_all : b ∈ A.all ↔ b = .sentinel A.lo ∨ b ∈ A.blocks ∨ b = .sentinel A.hi := by
  simp [all]

theorem mem_all_of_mem (h : b ∈ A.blocks) : b ∈ A.all := mem_all.mpr (.inr (.inl h))

namespace WF

theorem blocks_tile (h : A.WF) : Tiles Block.addr Block.stop (A.lo + 20) A.blocks A.hi := by
  obtain ⟨-, -, ht⟩ := h.tiles
  obtain ⟨mid, hb, hs, -, -⟩ := Tiles.append_iff.mp ht
  obtain rfl : A.hi = mid := hs
  exact hb

theorem tiles_of_blocks (h : Tiles Block.addr Block.stop (A.lo + 20) A.blocks A.hi) :
    Tiles Block.addr Block.stop A.lo A.all (A.hi + 20) :=
  ⟨rfl, (show A.lo < A.lo + 12 + 8 by omega), Tiles.append_iff.mpr
    ⟨A.hi, h, rfl, (show A.hi < A.hi + 12 + 8 by omega), rfl⟩⟩

theorem addr_bounds (h : A.WF) (hb : b ∈ A.blocks) : A.lo + 20 ≤ b.addr ∧ b.stop ≤ A.hi := by
  have hb := h.blocks_tile.bounds hb
  exact ⟨hb.1, hb.2.2⟩

theorem all_addr_lt (h : A.WF) (hb : b ∈ A.all) : b.addr + 20 ≤ 2 ^ 32 := by
  have h₁ := (h.tiles.bounds hb).2.2
  have h₂ := b.addr_add_le_stop
  have h₃ := h.top
  omega

/-- Chunks one behind the other are aligned as the first one is. -/
theorem tiles_addr_dvd {l : List Block} {lo hi : ℕ} (ht : Tiles Block.addr Block.stop lo l hi) (hlo : 4 ∣ lo)
    (hb : b ∈ l) : 4 ∣ b.addr := by
  induction l generalizing lo with
  | nil => cases hb
  | cons d l ih =>
    have hd : d.addr = lo := ht.1
    have hz := d.size_dvd
    rcases mem_cons.mp hb with rfl | hb
    · exact hd ▸ hlo
    · refine ih ht.2.2 ?_ hb
      simp only [Block.stop]
      omega

theorem addr_dvd (h : A.WF) (hb : b ∈ A.all) : 4 ∣ b.addr := tiles_addr_dvd h.tiles h.lo_dvd hb

theorem eq_of_addr_eq (h : A.WF) (hb : b ∈ A.all) (hc : c ∈ A.all) (he : b.addr = c.addr) :
    b = c := h.tiles.eq_of_start_eq hb hc he

theorem mem_bins (h : A.WF) : a ∈ A.bins n ↔
    ∃ b ∈ A.blocks, b.used = false ∧ b.slot = n ∧ b.addr = a := by
  rw [(h.bins n).mem_iff, mem_binned]

theorem zero_notMem_bins (h : A.WF) : 0 ∉ A.bins n := by
  intro hx
  obtain ⟨b, hb, -, -, he⟩ := h.mem_bins.mp hx
  have hlo := (h.addr_bounds hb).1
  omega

theorem bins_nodup (h : A.WF) (n : ℕ) : (A.bins n).Nodup := by
  rw [(h.bins n).nodup_iff]
  have hp := h.blocks_tile.pairwise.filter (fun b ↦ !b.used && b.slot == n)
  refine List.Pairwise.map _ (fun b c hbc ↦ ?_) hp
  have hb := b.addr_add_le_stop
  omega

theorem bins_disjoint (h : A.WF) {k : ℕ} (hn : n ≠ k) : Disjoint (A.bins n) (A.bins k) := by
  intro a ha hk
  obtain ⟨b, hb, -, hbn, rfl⟩ := h.mem_bins.mp ha
  obtain ⟨c, hc, -, hck, he⟩ := h.mem_bins.mp hk
  have hbc := h.eq_of_addr_eq (mem_all_of_mem hc) (mem_all_of_mem hb) he
  exact hn (by rw [← hbn, ← hck, hbc])

theorem spaced (h : A.WF) (hb : b ∈ A.all) (hc : c ∈ A.all) :
    b.addr = c.addr ∨ b.addr + 20 ≤ c.addr ∨ c.addr + 20 ≤ b.addr := by
  by_cases he : b = c
  · exact .inl (he ▸ rfl)
  · have hb' := b.addr_add_le_stop
    have hc' := c.addr_add_le_stop
    rcases h.tiles.apart hb hc he with hx | hx <;> omega

theorem slot_lt (h : A.WF) (hb : b ∈ A.blocks) : b.slot < 32 := by
  have h₁ := (h.addr_bounds hb).2
  have h₂ := h.top
  simp only [Block.stop] at h₁
  exact Nat.log_lt_of_lt_pow (by have hs := b.size_ge; omega) (by omega)

theorem size_lt (h : A.WF) (hb : b ∈ A.blocks) : b.size < 2 ^ 32 := by
  have hlt := (h.addr_bounds hb).2
  have htop := h.top
  simp only [Block.stop] at hlt
  omega

theorem notMem_unbin (h : A.WF) (hl : A.bins b.slot = l₁ ++ b.addr :: l₂) :
    b.addr ∉ update A.bins b.slot (l₁ ++ l₂) n := by
  intro hx
  by_cases hn : n = b.slot
  · subst hn
    have hnd := h.bins_nodup b.slot
    rw [hl] at hnd
    rw [update_self] at hx
    exact (nodup_cons.mp (perm_middle.nodup_iff.mp hnd)).1 hx
  · rw [update_of_ne hn] at hx
    exact h.bins_disjoint hn hx (hl ▸ mem_append_right _ mem_cons_self)

theorem mem_own_bin (h : A.WF) (hb : b ∈ A.blocks) (hu : b.used = false) :
    ∃ l₁ l₂, A.bins b.slot = l₁ ++ b.addr :: l₂ :=
  append_of_mem (h.mem_bins.mpr ⟨b, hb, hu, rfl, rfl⟩)

theorem free_ne_addr (h : A.WF) (hb : b ∈ A.all) (hc : c ∈ A.all) : b.addr + 12 ≠ c.addr := by
  intro he
  have hbc := h.spaced hb hc
  omega

theorem free_notMem (h : A.WF) (hb : b ∈ A.all) : b.addr + 12 ∉ A.all.map Block.addr := by
  intro hx
  obtain ⟨c, hc, he⟩ := mem_map.mp hx
  exact h.free_ne_addr hb hc he.symm

end WF

theorem frees_sub (hw : A.WF) : ∀ x ∈ A.frees, ∃ b ∈ A.all, b.addr = x := by
  rintro x ⟨n, hx⟩
  obtain ⟨b, hb, -, -, rfl⟩ := hw.mem_bins.mp hx
  exact ⟨b, mem_all_of_mem hb, rfl⟩

theorem used_notMem_frees (hw : A.WF) (hc : c ∈ A.all) (hu : c.used = true) : c.addr ∉ A.frees := by
  intro h
  obtain ⟨n, hx⟩ := h
  obtain ⟨b, hb, hbu, -, he⟩ := hw.mem_bins.mp hx
  rw [hw.eq_of_addr_eq (mem_all_of_mem hb) hc he, hu] at hbu
  cases hbu

theorem unbin_sub (hl : A.bins b.slot = l₁ ++ b.addr :: l₂)
    (hx : x ∈ update A.bins b.slot (l₁ ++ l₂) n) : x ∈ A.frees := by
  by_cases hn : n = b.slot
  · subst hn
    rw [update_self] at hx
    refine ⟨b.slot, ?_⟩
    rw [hl]
    simp only [mem_append, mem_cons] at hx ⊢
    tauto
  · rw [update_of_ne hn] at hx
    exact ⟨n, hx⟩

theorem all_addrs (he : A.blocks = pre ++ b :: post) : A.all.map Block.addr =
    (A.lo :: pre.map Block.addr) ++ b.addr :: (post.map Block.addr ++ [A.hi]) := by
  simp [all, he, Block.sentinel]

theorem mem_used : b ∈ A.used ↔ b ∈ A.blocks ∧ b.used = true := mem_filter

theorem used_split (he : A.blocks = pre ++ b :: post) (hb : b.used = false) :
    A.used = pre.filter Block.used ++ post.filter Block.used := by
  simp [used, he, hb]

theorem WF.stop_le (h : A.WF) (hb : b ∈ A.used) : b.stop ≤ 2 ^ 32 := by
  have hstop := (h.addr_bounds (mem_used.mp hb).1).2
  have htop := h.top
  omega

theorem WF.payload_apart (h : A.WF) (hb : b ∈ A.used) (hc : c ∈ A.used) (hne : b ≠ c)
    (hx : b.payload ≤ x) (hx' : x < b.stop) : x < c.payload ∨ c.stop ≤ x := by
  simp only [Block.payload] at hx ⊢
  rcases h.blocks_tile.apart (mem_used.mp hb).1 (mem_used.mp hc).1 hne with ha | ha <;> omega

end Arena

end OcamlRpi.Memory
