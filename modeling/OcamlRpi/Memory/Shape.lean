import OcamlRpi.Support.Ring

namespace OcamlRpi.Memory

open Support Function List

/-- The links `L` make one ring of the nodes `as` and one ring of each free
list; the free node of a chunk lies 12 bytes into it. -/
structure Shape (L : Links ℕ) (as : List ℕ) (bins : ℕ → List ℕ) : Prop where
  all : L.Ring as
  bin : ∀ n, L.Ring ((bins n).map (· + 12))
  apart : ∀ n, ∀ b ∈ bins n, b + 12 ∉ as
  disjoint : ∀ n k, n ≠ k → (bins n).Disjoint (bins k)

namespace Shape

variable {L : Links ℕ} {as pre post l₁ l₂ : List ℕ} {bins : ℕ → List ℕ} {a c n : ℕ}

theorem mem_rotate {x : ℕ} : x ∈ a :: (post ++ pre) ↔ x ∈ pre ++ a :: post :=
  (perm_append_comm : (a :: post ++ pre).Perm (pre ++ a :: post)).mem_iff

theorem disjoint_map {l k : List ℕ} (h : l.Disjoint k) :
    (l.map (· + 12)).Disjoint (k.map (· + 12)) := by
  intro x hx hk
  obtain ⟨b, hb, rfl⟩ := mem_map.mp hx
  obtain ⟨b', hb', he⟩ := mem_map.mp hk
  obtain rfl : b' = b := by simpa using he
  exact h hb hb'

theorem apart_disjoint (h : Shape L as bins) (n : ℕ) : ((bins n).map (· + 12)).Disjoint as := by
  intro x hx
  obtain ⟨b, hb, rfl⟩ := mem_map.mp hx
  exact h.apart n b hb

theorem bin_ring (h : Shape L as bins) (hn : bins n = l₁ ++ a :: l₂) :
    L.Ring ((a + 12) :: (l₂ ++ l₁).map (· + 12)) := by
  have hr := h.bin n
  rw [hn, map_append] at hr
  have hx := hr.rotate
  simpa using hx

theorem unbin (h : Shape L as bins) (hn : bins n = l₁ ++ a :: l₂) :
    Shape (L.remove (a + 12)) as (update bins n (l₁ ++ l₂)) := by
  have hr := h.bin_ring hn
  have hmem : ∀ x ∈ l₂ ++ l₁, x ∈ bins n := fun x hx ↦ by
    rw [hn]
    simp only [mem_append, mem_cons] at hx ⊢
    tauto
  have hsub : ∀ x ∈ (a + 12) :: (l₂ ++ l₁).map (· + 12), x ∈ (bins n).map (· + 12) := by
    intro x hx
    rcases mem_cons.mp hx with rfl | hx
    · exact mem_map.mpr ⟨a, by simp [hn], rfl⟩
    · obtain ⟨b, hb, rfl⟩ := mem_map.mp hx
      exact mem_map.mpr ⟨b, hmem b hb, rfl⟩
  have hkeep : ∀ k, ∀ x ∈ update bins n (l₁ ++ l₂) k, x ∈ bins k := by
    intro k x hx
    by_cases hk : k = n
    · subst hk
      rw [update_self] at hx
      exact hmem x (by simpa [or_comm] using hx)
    · rwa [update_of_ne hk] at hx
  refine ⟨h.all.remove_other hr fun x hx ↦ h.apart_disjoint n (hsub x hx), fun k ↦ ?_,
    fun k b hb ↦ h.apart k b (hkeep k b hb),
    fun k j hkj x hx hj ↦ h.disjoint k j hkj (hkeep k x hx) (hkeep j x hj)⟩
  by_cases hk : k = n
  · subst hk
    have hx := hr.remove
    rw [map_append] at hx
    rw [update_self, map_append]
    exact hx.rotate
  · rw [update_of_ne hk]
    exact (h.bin k).remove_other hr fun x hx ↦
      disjoint_map (h.disjoint n k (Ne.symm hk)) (hsub x hx)

/-- The links after a chunk was pushed to a free list. -/
def pushed (L : Links ℕ) : List ℕ → ℕ → Links ℕ
  | [], _ => L
  | c :: _, a => L.insertBefore (c + 12) (a + 12)

theorem push (h : Shape L as bins) (ha : L.Ring [a + 12]) (has : a + 12 ∉ as)
    (hab : ∀ k, a ∉ bins k) : Shape (pushed L (bins n) a) as (update bins n (a :: bins n)) := by
  have hsplit : ∀ k, ∀ x ∈ update bins n (a :: bins n) k, (x = a ∧ k = n) ∨ x ∈ bins k := by
    intro k x hx
    by_cases hk : k = n
    · subst hk
      rw [update_self] at hx
      rcases mem_cons.mp hx with rfl | hx
      · exact .inl ⟨rfl, rfl⟩
      · exact .inr hx
    · exact .inr (by rwa [update_of_ne hk] at hx)
  have hapart : ∀ k, ∀ b ∈ update bins n (a :: bins n) k, b + 12 ∉ as := by
    intro k b hb
    rcases hsplit k b hb with ⟨rfl, -⟩ | hb
    · exact has
    · exact h.apart k b hb
  have hdisj : ∀ k j, k ≠ j →
      (update bins n (a :: bins n) k).Disjoint (update bins n (a :: bins n) j) := by
    intro k j hkj x hk hj
    rcases hsplit k x hk with ⟨hx, hk⟩ | hk <;> rcases hsplit j x hj with ⟨hx', hj⟩ | hj
    · exact hkj (hk.trans hj.symm)
    · exact hab j (hx ▸ hj)
    · exact hab k (hx' ▸ hk)
    · exact h.disjoint k j hkj hk hj
  cases hb : bins n with
  | nil =>
    rw [hb] at hapart hdisj
    refine ⟨h.all, fun k ↦ ?_, hapart, hdisj⟩
    by_cases hk : k = n
    · subst hk
      rw [update_self]
      exact ha
    · rw [update_of_ne hk]
      exact h.bin k
  | cons c l =>
    have hc : L.Ring ((c + 12) :: l.map (· + 12)) := by
      have hx := h.bin n
      rwa [hb] at hx
    have hcn : ∀ x ∈ (c + 12) :: l.map (· + 12), x ∈ (bins n).map (· + 12) := fun x hx ↦ by
      rwa [hb, map_cons]
    have hca : List.Disjoint ((c + 12) :: l.map (· + 12)) [a + 12] := by
      intro x hx hxa
      obtain ⟨b, hb', rfl⟩ := mem_map.mp (hcn x hx)
      obtain rfl : b = a := by simpa using hxa
      exact hab n hb'
    have hloose : ∀ {m : List ℕ}, a + 12 ∉ m → List.Disjoint [a + 12] m := fun hm x hx hxm ↦ by
      rw [mem_singleton] at hx
      exact hm (hx ▸ hxm)
    rw [hb] at hapart hdisj
    refine ⟨?_, fun k ↦ ?_, hapart, hdisj⟩
    · exact h.all.insertBefore_other hc ha (fun x hx ↦ h.apart_disjoint n (hcn x hx)) (hloose has)
    · by_cases hk : k = n
      · subst hk
        rw [update_self]
        exact hc.insertBefore ha hca
      · rw [update_of_ne hk]
        refine (h.bin k).insertBefore_other hc ha
          (fun x hx ↦ disjoint_map (h.disjoint n k (Ne.symm hk)) (hcn x hx)) (hloose ?_)
        intro hx
        obtain ⟨b, hb', he⟩ := mem_map.mp hx
        obtain rfl : b = a := by simpa using he
        exact hab k hb'

theorem fresh (h : Shape L as bins) (hc : c ∉ as) (hb : ∀ k, ∀ b ∈ bins k, b + 12 ≠ c) :
    Shape (L.link c c) as bins := by
  refine ⟨h.all.link_of_notMem hc hc, fun k ↦ ?_, h.apart, h.disjoint⟩
  have hk : c ∉ (bins k).map (· + 12) := fun hx ↦ by
    obtain ⟨b, hb', he⟩ := mem_map.mp hx
    exact hb k b hb' he
  exact (h.bin k).link_of_notMem hk hk

theorem all_ring (h : Shape L (pre ++ a :: post) bins) : L.Ring (a :: (post ++ pre)) := by
  have hx := h.all.rotate
  simpa using hx

theorem insert (h : Shape L (pre ++ a :: post) bins) (hc : L.Ring [c])
    (hca : c ∉ pre ++ a :: post) (hcb : ∀ k, ∀ b ∈ bins k, b + 12 ≠ c) :
    Shape (L.insertAfter a c) (pre ++ a :: c :: post) bins := by
  have hd : List.Disjoint (a :: (post ++ pre)) [c] := fun x hx hxc ↦ by
    rw [mem_singleton] at hxc
    exact hca (mem_rotate.mp (hxc ▸ hx))
  have hr := h.all_ring.insertAfter hc hd
  refine ⟨?_, fun k ↦ ?_, fun k b hb hx ↦ ?_, h.disjoint⟩
  · have hx : (L.insertAfter a c).Ring ((a :: c :: post) ++ pre) := by simpa using hr
    exact hx.rotate
  · refine (h.bin k).insertAfter_other h.all_ring hc (fun x hx hxb ↦ ?_) (fun x hx hxb ↦ ?_)
    · exact h.apart_disjoint k hxb (mem_rotate.mp hx)
    · obtain ⟨b, hb, rfl⟩ := mem_map.mp hxb
      exact hcb k b hb (mem_singleton.mp hx)
  · have ha := h.apart k b hb
    have hb' := hcb k b hb
    simp only [mem_append, mem_cons] at hx ha
    tauto

theorem delete (h : Shape L (pre ++ a :: post) bins) : Shape (L.remove a) (pre ++ post) bins := by
  have hr := h.all_ring
  refine ⟨hr.remove.rotate, fun k ↦ ?_, fun k b hb hx ↦ ?_, h.disjoint⟩
  · exact (h.bin k).remove_other hr fun x hx hxb ↦ h.apart_disjoint k hxb (mem_rotate.mp hx)
  · have ha := h.apart k b hb
    simp only [mem_append, mem_cons] at hx ha
    tauto

end Shape

end OcamlRpi.Memory
