import Mathlib.Data.List.Chain
import Mathlib.Data.List.Perm.Basic

namespace OcamlRpi.Support

open List

variable {α : Type*} {start stop : α → ℕ} {lo mid hi : ℕ} {a b : α} {l k : List α}

/-- The extents of `l` follow each other without gap or overlap from `lo` to
`hi`, and none of them is empty. -/
def Tiles (start stop : α → ℕ) : ℕ → List α → ℕ → Prop
  | lo, [], hi => lo = hi
  | lo, a :: l, hi => start a = lo ∧ lo < stop a ∧ Tiles start stop (stop a) l hi

namespace Tiles

theorem le (h : Tiles start stop lo l hi) : lo ≤ hi := by
  induction l generalizing lo with
  | nil => exact h.le
  | cons a l ih => exact h.2.1.le.trans (ih h.2.2)

theorem append_iff : Tiles start stop lo (l ++ k) hi ↔
    ∃ mid, Tiles start stop lo l mid ∧ Tiles start stop mid k hi := by
  induction l generalizing lo with
  | nil => simp [Tiles]
  | cons a l ih => simp [Tiles, ih, and_assoc]

theorem split_at (h : Tiles start stop lo (l ++ a :: k) hi) :
    Tiles start stop lo l (start a) ∧ start a < stop a ∧ Tiles start stop (stop a) k hi := by
  obtain ⟨mid, hl, hs, hlt, hk⟩ := append_iff.mp h
  subst hs
  exact ⟨hl, hlt, hk⟩

theorem join_at (hl : Tiles start stop lo l (start a)) (hlt : start a < stop a)
    (hk : Tiles start stop (stop a) k hi) : Tiles start stop lo (l ++ a :: k) hi :=
  append_iff.mpr ⟨start a, hl, rfl, hlt, hk⟩

theorem bounds (h : Tiles start stop lo l hi) (ha : a ∈ l) :
    lo ≤ start a ∧ start a < stop a ∧ stop a ≤ hi := by
  obtain ⟨l₁, l₂, rfl⟩ := append_of_mem ha
  have hs := h.split_at
  exact ⟨hs.1.le, hs.2.1, hs.2.2.le⟩

theorem start_next (h : Tiles start stop lo (l ++ a :: b :: k) hi) : start b = stop a :=
  h.split_at.2.2.1

theorem pairwise (h : Tiles start stop lo l hi) : l.Pairwise (fun a b ↦ stop a ≤ start b) := by
  induction l generalizing lo with
  | nil => exact .nil
  | cons a l ih => exact .cons (fun b hb ↦ (h.2.2.bounds hb).1) (ih h.2.2)

theorem apart (h : Tiles start stop lo l hi) (ha : a ∈ l) (hb : b ∈ l) (hne : a ≠ b) :
    stop a ≤ start b ∨ stop b ≤ start a := by
  have : Std.Symm fun a b ↦ stop a ≤ start b ∨ stop b ≤ start a := ⟨fun _ _ ↦ Or.symm⟩
  have hp : l.Pairwise fun a b ↦ stop a ≤ start b ∨ stop b ≤ start a := h.pairwise.imp Or.inl
  exact hp.forall ha hb hne

theorem nodup (h : Tiles start stop lo l hi) : l.Nodup :=
  h.pairwise.imp_of_mem fun ha _ hab he ↦ by
    have hb := h.bounds ha
    subst he
    omega

theorem eq_of_start_eq (h : Tiles start stop lo l hi) (ha : a ∈ l) (hb : b ∈ l)
    (hs : start a = start b) : a = b := by
  by_contra hne
  have ha' := h.bounds ha
  have hb' := h.bounds hb
  rcases h.apart ha hb hne with hab | hba <;> omega

theorem cons_self_elim : ¬ Tiles start stop lo (a :: l) lo := by
  intro h
  have h₁ := h.2.2.le
  have h₂ := h.2.1
  omega

theorem map_iff {β : Type*} {f : β → α} {l : List β} :
    Tiles start stop lo (l.map f) hi ↔ Tiles (fun b ↦ start (f b)) (fun b ↦ stop (f b)) lo l hi := by
  induction l generalizing lo with
  | nil => exact Iff.rfl
  | cons b l ih => exact and_congr_right fun _ ↦ and_congr_right fun _ ↦ ih

theorem congr {start' stop' : α → ℕ} (h : Tiles start stop lo l hi)
    (hl : ∀ a ∈ l, start' a = start a ∧ stop' a = stop a) : Tiles start' stop' lo l hi := by
  induction l generalizing lo with
  | nil => exact h
  | cons a l ih =>
    obtain ⟨ha, hb⟩ := hl a mem_cons_self
    refine ⟨ha.trans h.1, hb ▸ h.2.1, ?_⟩
    rw [hb]
    exact ih h.2.2 fun c hc ↦ hl c (mem_cons_of_mem a hc)

/-- Behind a free member comes the first used one, or the end. -/
theorem gap {used : α → Bool} (ha : used a = false) (h : Tiles start stop lo (a :: l) hi)
    (hc : IsChain (fun a b ↦ used a ∨ used b) (a :: l)) :
    (l.filter used = [] ∧ stop a = hi) ∨ ∃ c t, l.filter used = c :: t ∧ stop a = start c := by
  cases l with
  | nil => exact .inl ⟨rfl, h.2.2⟩
  | cons c l =>
    have hu : used c = true := by simpa [ha] using (isChain_cons_cons.mp hc).1
    exact .inr ⟨c, l.filter used, filter_cons_of_pos hu, h.2.2.1.symm⟩

/-- Two consecutive used members touch, or one free member fills the gap. -/
theorem consecutive {used : α → Bool} {p q : List α} (h : Tiles start stop lo l hi)
    (hc : IsChain (fun a b ↦ used a ∨ used b) l) (he : l.filter used = p ++ a :: b :: q) :
    (∃ p' q', l = p' ++ a :: b :: q' ∧ start b = stop a) ∨
      ∃ c p' q', l = p' ++ a :: c :: b :: q' ∧ used c = false ∧ start c = stop a ∧
        start b = stop c := by
  obtain ⟨l₁, l₂, rfl, -, h₂⟩ := filter_eq_append_iff.mp he
  obtain ⟨u, k, rfl, -, -, h₃⟩ := filter_eq_cons_iff.mp h₂
  obtain ⟨v, k', rfl, hv, -, -⟩ := filter_eq_cons_iff.mp h₃
  cases v with
  | nil => exact .inl ⟨l₁ ++ u, k', by simp, (show Tiles start stop lo ((l₁ ++ u) ++ a :: b :: k') hi
      by simpa using h).start_next⟩
  | cons c v =>
    have hcu : used c = false := by simpa using hv c mem_cons_self
    cases v with
    | nil =>
      have hx : Tiles start stop lo ((l₁ ++ u) ++ a :: c :: b :: k') hi := by simpa using h
      have hy : Tiles start stop lo ((l₁ ++ u ++ [a]) ++ c :: b :: k') hi := by simpa using h
      exact .inr ⟨c, l₁ ++ u, k', by simp, hcu, hx.start_next, hy.start_next⟩
    | cons d v =>
      have hdu : used d = false := by simpa using hv d (by simp)
      have hcd := hc.right_of_append.right_of_append.tail
      simp [isChain_cons_cons, hcu, hdu] at hcd

/-- A tiling without two neighbouring free members is determined by its used
members: the free ones fill exactly the gaps that these leave. -/
theorem eq_of_filter_eq {used : α → Bool}
    (hfree : ∀ a b, used a = false → used b = false → start a = start b → stop a = stop b → a = b)
    (hl : Tiles start stop lo l hi) (hk : Tiles start stop lo k hi)
    (hls : IsChain (fun a b ↦ used a ∨ used b) l) (hks : IsChain (fun a b ↦ used a ∨ used b) k)
    (he : l.filter used = k.filter used) : l = k := by
  induction l generalizing lo k with
  | nil =>
    cases k with
    | nil => rfl
    | cons b k => exact absurd (hl ▸ hk) cons_self_elim
  | cons a l ih =>
    cases k with
    | nil => exact absurd (hk ▸ hl) cons_self_elim
    | cons b k =>
      have hab : start a = start b := hl.1.trans hk.1.symm
      suffices hx : a = b by
        subst hx
        rw [filter_cons, filter_cons] at he
        have hf : l.filter used = k.filter used := by
          split at he
          · exact (cons.inj he).2
          · exact he
        rw [ih hl.2.2 hk.2.2 hls.tail hks.tail hf]
      cases ha : used a <;> cases hb : used b
      · refine hfree a b ha hb hab ?_
        rw [filter_cons_of_neg (by simp [ha]), filter_cons_of_neg (by simp [hb])] at he
        rcases gap ha hl hls with ⟨h₁, h₁'⟩ | ⟨c, t, h₁, h₁'⟩ <;>
          rcases gap hb hk hks with ⟨h₂, h₂'⟩ | ⟨c', t', h₂, h₂'⟩
        · rw [h₁', h₂']
        · simp [h₁, h₂] at he
        · simp [h₁, h₂] at he
        · rw [h₁, h₂] at he
          rw [h₁', h₂', (cons.inj he).1]
      · rw [filter_cons_of_neg (by simp [ha]), filter_cons_of_pos hb] at he
        have hm : b ∈ l := (mem_filter.mp (he ▸ mem_cons_self : b ∈ l.filter used)).1
        have h₁ := (hl.2.2.bounds hm).1
        have h₂ := hl.2.1
        have h₃ := hk.1
        omega
      · rw [filter_cons_of_pos ha, filter_cons_of_neg (by simp [hb])] at he
        have hm : a ∈ k := (mem_filter.mp (he ▸ mem_cons_self : a ∈ k.filter used)).1
        have h₁ := (hk.2.2.bounds hm).1
        have h₂ := hk.2.1
        have h₃ := hl.1
        omega
      · rw [filter_cons_of_pos ha, filter_cons_of_pos hb] at he
        exact (cons.inj he).1

end Tiles

end OcamlRpi.Support
