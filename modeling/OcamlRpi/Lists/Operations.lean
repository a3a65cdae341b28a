import OcamlRpi.DList

namespace OcamlRpi.DList

open Support Function List

def DLIST_INIT (l : ℕ) (m : Mem) (v : ℕ) : Mem := dlistInit m (v + l)

/-- The nodes are in the address space, not at NULL, and do not overlap. -/
structure Placed (l : List ℕ) : Prop where
  pos : 0 ∉ l
  top : ∀ d ∈ l, d + 8 ≤ 2 ^ 32
  apart : ∀ d ∈ l, ∀ e ∈ l, d ≠ e → d + 8 ≤ e ∨ e + 8 ≤ d

/-- Nothing but the nodes of `l` changes, so that a ring of other nodes stays
what it was. -/
structure Changes (m m' : Mem) (l : List ℕ) : Prop where
  bytes : ∀ x, (∀ d ∈ l, x < d ∨ d + 8 ≤ x) → m' x = m x
  rings : ∀ k, Placed (l ++ k) → l.Disjoint k → (links m).Ring k → (links m').Ring k

/-- Two rings without a common node. -/
structure Rings (m : Mem) (l k : List ℕ) : Prop where
  left : (links m).Ring l
  right : (links m).Ring k
  disjoint : l.Disjoint k
  placed : Placed (l ++ k)

/-- The list variable `h` stands for the nodes of `l`, in this order. -/
structure IsList (m : Mem) (h : ℕ) (l : List ℕ) : Prop where
  ring : (links m).Ring l
  head : h = l.headD 0
  placed : Placed l

/-- The same for structures with their links at the offset `o`. -/
structure IsListOf (o : ℕ) (m : Mem) (h : ℕ) (l : List ℕ) : Prop where
  ring : (links m).Ring (l.map (· + o))
  head : h = l.headD 0
  placed : Placed (l.map (· + o))
  pos : 0 ∉ l

variable {Y : Layout} {m₀ m m' : Mem} {L : Links ℕ} {f : ℕ → ℕ} {l k l₁ l₂ : List ℕ} {a b d h o : ℕ}

theorem Placed.mono (h : Placed l) (hk : k ⊆ l) : Placed k where
  pos hx := h.pos (hk hx)
  top d hd := h.top d (hk hd)
  apart d hd e he := h.apart d (hk hd) e (hk he)

def Placed.layout (h : Placed l) : Layout where
  nodes := {d | d ∈ l}
  words := ∅
  node_top := h.top
  nodes_apart := h.apart
  words_apart _ hw := hw.elim
  apart _ _ _ hw := hw.elim

theorem Placed.changes (h : Placed l) (hm : Holds h.layout m L f m') : Changes m m' l := by
  have hbytes : ∀ x, (∀ d ∈ l, x < d ∨ d + 8 ≤ x) → m' x = m x := fun x hx ↦
    hm.frame x ⟨hx, fun w hw ↦ hw.elim⟩
  refine ⟨hbytes, fun k hk hd hr ↦ hr.congr fun y hy ↦ ?_⟩
  have hsame : ∀ x, y ≤ x → x < y + 8 → m' x = m x := by
    intro x hx hx'
    refine hbytes x fun d hdl ↦ ?_
    have hne : d ≠ y := fun he ↦ hd hdl (he ▸ hy)
    have hap := hk.apart d (mem_append_left k hdl) y (mem_append_right l hy) hne
    omega
  exact ⟨Mem.load_congr fun x _ _ ↦ hsame x (by omega) (by omega),
    Mem.load_congr fun x _ _ ↦ hsame x (by omega) (by omega)⟩

theorem Changes.mono (h : Changes m m' l) (hk : l ⊆ k) : Changes m m' k where
  bytes x hx := h.bytes x fun d hd ↦ hx d (hk hd)
  rings j hj hd hr := h.rings j (hj.mono (append_subset.mpr
    ⟨fun _ hx ↦ mem_append_left j (hk hx), subset_append_right k j⟩)) (fun _ hx ↦ hd (hk hx)) hr

theorem Changes.trans {m₁ : Mem} (h : Changes m m₁ l) (h' : Changes m₁ m' l) : Changes m m' l where
  bytes x hx := (h'.bytes x hx).trans (h.bytes x hx)
  rings k hk hd hr := h'.rings k hk hd (h.rings k hk hd hr)

theorem subset_from (l₁ l₂ : List ℕ) (a : ℕ) : a :: (l₂ ++ l₁) ⊆ l₁ ++ a :: l₂ :=
  (perm_append_comm : (a :: l₂ ++ l₁).Perm (l₁ ++ a :: l₂)).subset

theorem subset_removed (l₁ l₂ : List ℕ) (a : ℕ) : l₁ ++ l₂ ⊆ l₁ ++ a :: l₂ :=
  ((sublist_cons_self a l₂).append_left l₁).subset

/-- A head that is not removed stays the head. -/
theorem headD_removed (hd : d = (l₁ ++ a :: l₂).headD 0) (hne : d ≠ a) : (l₁ ++ l₂).headD 0 = d := by
  cases l₁ with
  | nil => exact absurd hd hne
  | cons c l₁ => exact hd.symm

/-- The first ring is read from the node `a`. -/
theorem Rings.from (h : Rings m (l₁ ++ a :: l₂) k) : Rings m (a :: (l₂ ++ l₁)) k where
  left := h.left.rotate
  right := h.right
  disjoint _ hx := h.disjoint (subset_from l₁ l₂ a hx)
  placed := h.placed.mono (append_subset.mpr
    ⟨fun _ hx ↦ mem_append_left k (subset_from l₁ l₂ a hx), subset_append_right _ k⟩)

theorem Rings.changes {l' : List ℕ} (hm : Changes m m' (l ++ k)) (hl : l ⊆ l') : Changes m m' (l' ++ k) :=
  hm.mono (append_subset.mpr ⟨fun _ hx ↦ mem_append_left k (hl hx), subset_append_right l' k⟩)

theorem insertAfter_first (h : Rings m (a :: l) (b :: k)) :
    (links (dlistInsertAfter m a b)).Ring (a :: (b :: k ++ l)) ∧
      Changes m (dlistInsertAfter m a b) (a :: l ++ b :: k) := by
  have hn : (links m).next a ∈ a :: l ++ b :: k := mem_append_left _ h.left.next_mem
  have he : (links m).prev b ∈ a :: l ++ b :: k := mem_append_right _ h.right.prev_mem
  have hm := (Holds.refl h.placed.layout m).dlistInsertAfter (mem_append_left _ mem_cons_self)
    (mem_append_right _ mem_cons_self) hn he
  refine ⟨hm.ring (h.left.insertAfter h.right h.disjoint) fun x hx ↦ ?_, h.placed.changes hm⟩
  change x ∈ a :: l ++ b :: k
  simp only [mem_append, mem_cons] at hx ⊢
  tauto

theorem insertBefore_first (h : Rings m (a :: l) (b :: k)) :
    (links (dlistInsertBefore m a b)).Ring (b :: k ++ a :: l) ∧
      Changes m (dlistInsertBefore m a b) (a :: l ++ b :: k) := by
  have he₁ : (links m).prev a ∈ a :: l ++ b :: k := mem_append_left _ h.left.prev_mem
  have he₂ : (links m).prev b ∈ a :: l ++ b :: k := mem_append_right _ h.right.prev_mem
  have hm := (Holds.refl h.placed.layout m).dlistInsertBefore (mem_append_left _ mem_cons_self)
    (mem_append_right _ mem_cons_self) he₁ he₂
  refine ⟨hm.ring (h.left.insertBefore h.right h.disjoint) fun x hx ↦ ?_, h.placed.changes hm⟩
  change x ∈ a :: l ++ b :: k
  simp only [mem_append, mem_cons] at hx ⊢
  tauto

theorem insertAfter_ring (h : Rings m (l₁ ++ a :: l₂) (b :: k)) :
    (links (dlistInsertAfter m a b)).Ring (l₁ ++ a :: (b :: k ++ l₂)) ∧
      Changes m (dlistInsertAfter m a b) (l₁ ++ a :: l₂ ++ b :: k) := by
  obtain ⟨hr, hc⟩ := insertAfter_first h.from
  have hcat : a :: (b :: k ++ (l₂ ++ l₁)) = a :: (b :: k ++ l₂) ++ l₁ := by simp
  exact ⟨(hcat ▸ hr).rotate, Rings.changes hc (subset_from l₁ l₂ a)⟩

theorem insertBefore_ring (h : Rings m (l₁ ++ a :: l₂) (b :: k)) :
    (links (dlistInsertBefore m a b)).Ring (l₁ ++ (b :: k ++ a :: l₂)) ∧
      Changes m (dlistInsertBefore m a b) (l₁ ++ a :: l₂ ++ b :: k) := by
  obtain ⟨hr, hc⟩ := insertBefore_first h.from
  have hcat : b :: k ++ a :: (l₂ ++ l₁) = b :: k ++ a :: l₂ ++ l₁ := by simp
  exact ⟨(hcat ▸ hr).rotate, Rings.changes hc (subset_from l₁ l₂ a)⟩

theorem init_ring (h : Placed [d]) :
    (links (dlistInit m d)).Ring [d] ∧ Changes m (dlistInit m d) [d] := by
  have hm := (Holds.refl h.layout m).dlistInit (mem_singleton_self d)
  exact ⟨hm.ring (Links.ring_singleton.mpr (Links.link_joined _ d d)) fun _ hx ↦ hx, h.changes hm⟩

theorem remove_first (hr : (links m).Ring (a :: l)) (hp : Placed (a :: l)) :
    (links (dlistRemove m a)).Ring l ∧ (links (dlistRemove m a)).Ring [a] ∧
      Changes m (dlistRemove m a) (a :: l) := by
  have hm := (Holds.refl hp.layout m).dlistRemove mem_cons_self hr.next_mem hr.prev_mem
  refine ⟨hm.ring hr.remove fun _ hx ↦ mem_cons_of_mem a hx,
    hm.ring (Links.Ring.remove_self _ a) fun x hx ↦ ?_, hp.changes hm⟩
  exact mem_singleton.mp hx ▸ mem_cons_self

theorem remove_ring (hr : (links m).Ring (l₁ ++ a :: l₂)) (hp : Placed (l₁ ++ a :: l₂)) :
    (links (dlistRemove m a)).Ring (l₁ ++ l₂) ∧ (links (dlistRemove m a)).Ring [a] ∧
      Changes m (dlistRemove m a) (l₁ ++ a :: l₂) := by
  obtain ⟨hrest, hself, hc⟩ := remove_first hr.rotate (hp.mono (subset_from l₁ l₂ a))
  exact ⟨hrest.rotate, hself, hc.mono (subset_from l₁ l₂ a)⟩

theorem dlistPop_eq (hr : L.Ring (a :: l)) (ha : a ∈ Y.nodes) (hm : Holds Y m₀ L f m) :
    dlistPop m a = (dlistRemove m a, l.headD 0, a) := by
  have hnext : next m a = L.next a := hm.next a ha
  unfold dlistPop
  dsimp only
  rw [hnext]
  cases l with
  | nil => rw [(Links.ring_singleton.mp hr).1, if_pos rfl, headD_nil]
  | cons b l =>
    have hb : L.next a = b := (Links.Ring.joined (l := []) hr).1
    have hne : a ≠ b := fun he ↦ (nodup_cons.mp hr.nodup).1 (he ▸ mem_cons_self)
    rw [hb, if_neg hne, headD_cons]

theorem dlistRemoveFrom_eq (hr : L.Ring (l₁ ++ a :: l₂)) (ha : a ∈ Y.nodes) (hm : Holds Y m₀ L f m) :
    dlistRemoveFrom m ((l₁ ++ a :: l₂).headD 0) a = (dlistRemove m a, (l₁ ++ l₂).headD 0) := by
  unfold dlistRemoveFrom
  cases l₁ with
  | nil =>
    rw [nil_append, headD_cons, if_pos rfl, dlistPop_eq hr ha hm]
    rfl
  | cons c l₁ =>
    have hne : c ≠ a := fun he ↦ (nodup_cons.mp hr.nodup).1 (he ▸ by simp)
    rw [cons_append, headD_cons, if_neg hne, cons_append, headD_cons]

theorem push_isList (h : IsList m d l) (hr : Rings m l (b :: k)) :
    IsList (dlistPush m d b).1 (dlistPush m d b).2 (b :: k ++ l) ∧
      Changes m (dlistPush m d b).1 (l ++ b :: k) := by
  have hp : Placed (b :: k ++ l) := hr.placed.mono (append_subset.mpr
    ⟨subset_append_right l _, subset_append_left l _⟩)
  cases l with
  | nil =>
    obtain rfl : d = 0 := h.head
    have hrun : dlistPush m 0 b = (m, b) := rfl
    rw [hrun]
    exact ⟨⟨by rw [append_nil]; exact hr.right, rfl, hp⟩, ⟨fun _ _ ↦ rfl, fun _ _ _ h ↦ h⟩⟩
  | cons a l =>
    obtain rfl : d = a := h.head
    have hne : d ≠ 0 := fun he ↦ h.placed.pos (he ▸ mem_cons_self)
    have hrun : dlistPush m d b = (dlistInsertBefore m d b, b) := by
      unfold dlistPush
      rw [if_pos hne]
    obtain ⟨hring, hc⟩ := insertBefore_first hr
    rw [hrun]
    exact ⟨⟨hring, rfl, hp⟩, hc⟩

theorem pop_isList (h : IsList m d (a :: l)) :
    ∃ m' d', dlistPop m d = (m', d', a) ∧ IsList m' d' l ∧ (links m').Ring [a] ∧ Changes m m' (a :: l) := by
  obtain rfl : d = a := h.head
  obtain ⟨hrest, hself, hc⟩ := remove_first h.ring h.placed
  have hrun := dlistPop_eq (Y := h.placed.layout) h.ring mem_cons_self (Holds.refl _ m)
  exact ⟨_, _, hrun, ⟨hrest, rfl, h.placed.mono (subset_cons_self d l)⟩, hself, hc⟩

theorem removeFrom_isList (h : IsList m d (l₁ ++ a :: l₂)) :
    ∃ m' d', dlistRemoveFrom m d a = (m', d') ∧ IsList m' d' (l₁ ++ l₂) ∧ (d ≠ a → d' = d) ∧
      (links m').Ring [a] ∧ Changes m m' (l₁ ++ a :: l₂) := by
  obtain ⟨hrest, hself, hc⟩ := remove_ring h.ring h.placed
  have ha : a ∈ l₁ ++ a :: l₂ := mem_append_right l₁ mem_cons_self
  have hrun := dlistRemoveFrom_eq (Y := h.placed.layout) h.ring ha (Holds.refl _ m)
  have hsub := subset_removed l₁ l₂ a
  rw [← h.head] at hrun
  exact ⟨_, _, hrun, ⟨hrest, rfl, h.placed.mono hsub⟩, headD_removed h.head, hself, hc⟩

theorem container_add (ha : a + o ∈ Y.nodes) : CONTAINER o (a + o) = a := by
  have htop := Y.node_top _ ha
  unfold CONTAINER
  rw [sub32_of_le (Nat.le_add_left o a) (by omega), Nat.add_sub_cancel]

theorem container_headD (hn : ∀ x ∈ l, x + o ∈ Y.nodes) (h0 : 0 ∉ l) :
    (if (l.map (· + o)).headD 0 = 0 then 0 else CONTAINER o ((l.map (· + o)).headD 0)) = l.headD 0 := by
  cases l with
  | nil => rfl
  | cons a l =>
    have ha : a ≠ 0 := fun he ↦ h0 (he ▸ mem_cons_self)
    rw [map_cons, headD_cons, headD_cons, if_neg (by omega), container_add (hn a mem_cons_self)]

theorem DLIST_POP_eq (hr : L.Ring ((a :: l).map (· + o))) (hn : ∀ x ∈ a :: l, x + o ∈ Y.nodes)
    (h0 : 0 ∉ a :: l) (hm : Holds Y m₀ L f m) :
    DLIST_POP o m a = (dlistRemove m (a + o), l.headD 0, a) := by
  have ha := hn a mem_cons_self
  rw [map_cons] at hr
  unfold DLIST_POP
  dsimp only
  rw [dlistPop_eq hr ha hm]
  dsimp only
  rw [container_headD (fun x hx ↦ hn x (mem_cons_of_mem a hx)) (not_mem_of_not_mem_cons h0),
    container_add ha]

theorem DLIST_REMOVE_FROM_eq (hr : L.Ring ((l₁ ++ a :: l₂).map (· + o)))
    (hn : ∀ x ∈ l₁ ++ a :: l₂, x + o ∈ Y.nodes) (h0 : 0 ∉ l₁ ++ a :: l₂) (hm : Holds Y m₀ L f m) :
    DLIST_REMOVE_FROM o m ((l₁ ++ a :: l₂).headD 0) a =
      (dlistRemove m (a + o), (l₁ ++ l₂).headD 0) := by
  have hsub := subset_removed l₁ l₂ a
  have hhead : (l₁ ++ a :: l₂).headD 0 + o = (l₁.map (· + o) ++ (a + o) :: l₂.map (· + o)).headD 0 := by
    cases l₁ <;> rfl
  rw [map_append, map_cons] at hr
  unfold DLIST_REMOVE_FROM
  dsimp only
  rw [hhead, dlistRemoveFrom_eq hr (hn a (mem_append_right l₁ mem_cons_self)) hm]
  dsimp only
  rw [← map_append, container_headD (fun x hx ↦ hn x (hsub hx)) fun hx ↦ h0 (hsub hx)]

theorem DLIST_PUSH_eq (m : Mem) (h0 : 0 ∉ l) (hb : b + o ∈ Y.nodes) :
    DLIST_PUSH o m (l.headD 0) b = ((dlistPush m ((l.map (· + o)).headD 0) (b + o)).1, b) := by
  have hhead : (if l.headD 0 = 0 then 0 else l.headD 0 + o) = (l.map (· + o)).headD 0 := by
    cases l with
    | nil => rfl
    | cons a l => exact if_neg fun he : a = 0 ↦ h0 (he ▸ mem_cons_self)
  unfold DLIST_PUSH
  dsimp only
  rw [hhead, Prod.mk.injEq]
  exact ⟨rfl, container_add hb⟩

theorem IsListOf.nodes (h : IsListOf o m d l) : ∀ x ∈ l, x + o ∈ h.placed.layout.nodes :=
  fun _ hx ↦ mem_map_of_mem (f := (· + o)) hx

theorem DLIST_PUSH_isListOf (h : IsListOf o m d l) (hr : Rings m (l.map (· + o)) ((b :: k).map (· + o)))
    (h0 : 0 ∉ b :: k) :
    IsListOf o (DLIST_PUSH o m d b).1 (DLIST_PUSH o m d b).2 (b :: k ++ l) ∧
      Changes m (DLIST_PUSH o m d b).1 ((l ++ b :: k).map (· + o)) := by
  have hl : IsList m ((l.map (· + o)).headD 0) (l.map (· + o)) := ⟨h.ring, rfl, h.placed⟩
  have hb : b + o ∈ hr.placed.layout.nodes := mem_append_right _ mem_cons_self
  obtain ⟨hp, hc⟩ := push_isList hl hr
  rw [h.head, DLIST_PUSH_eq m h.pos hb, map_append]
  refine ⟨⟨?_, rfl, ?_, ?_⟩, hc⟩
  · rw [map_append]
    exact hp.ring
  · rw [map_append]
    exact hp.placed
  · exact fun hx ↦ (mem_append.mp hx).elim h0 h.pos

theorem DLIST_POP_isListOf (h : IsListOf o m d (a :: l)) :
    ∃ m' d', DLIST_POP o m d = (m', d', a) ∧ IsListOf o m' d' l ∧ (links m').Ring [a + o] ∧
      Changes m m' ((a :: l).map (· + o)) := by
  obtain rfl : d = a := h.head
  obtain ⟨hrest, hself, hc⟩ := remove_first h.ring h.placed
  have hrun := DLIST_POP_eq h.ring h.nodes h.pos (Holds.refl h.placed.layout m)
  exact ⟨_, _, hrun, ⟨hrest, rfl, h.placed.mono (subset_cons_self _ _), not_mem_of_not_mem_cons h.pos⟩,
    hself, hc⟩

theorem DLIST_REMOVE_FROM_isListOf (h : IsListOf o m d (l₁ ++ a :: l₂)) :
    ∃ m' d', DLIST_REMOVE_FROM o m d a = (m', d') ∧ IsListOf o m' d' (l₁ ++ l₂) ∧ (d ≠ a → d' = d) ∧
      (links m').Ring [a + o] ∧ Changes m m' ((l₁ ++ a :: l₂).map (· + o)) := by
  have hring := h.ring
  have hplaced := h.placed
  rw [map_append, map_cons] at hring hplaced
  obtain ⟨hrest, hself, hc⟩ := remove_ring hring hplaced
  have hsub := subset_removed l₁ l₂ a
  have hrun := DLIST_REMOVE_FROM_eq h.ring h.nodes h.pos (Holds.refl h.placed.layout m)
  rw [← h.head] at hrun
  rw [← map_append] at hrest
  rw [map_append, map_cons]
  exact ⟨_, _, hrun, ⟨hrest, rfl, h.placed.mono (map_subset _ hsub), fun hx ↦ h.pos (hsub hx)⟩,
    headD_removed h.head, hself, hc⟩

theorem rings_small : Rings (dlistInit (dlistInit (fun _ ↦ 0) 4096) 4112) [4096] [4112] := by
  have hp : Placed [4096, 4112] := by
    refine ⟨?_, ?_, ?_⟩
    all_goals decide
  have hd : List.Disjoint [4096] [4112] := by simp
  have hp₁ : Placed [4096] := hp.mono (by decide)
  have hp₂ : Placed [4112] := hp.mono (by decide)
  obtain ⟨h₁, -⟩ := init_ring (m := fun _ ↦ 0) hp₁
  obtain ⟨h₂, hc⟩ := init_ring (m := dlistInit (fun _ ↦ 0) 4096) hp₂
  exact ⟨hc.rings [4096] (hp.mono (by decide)) hd.symm h₁, h₂, hd, hp⟩

/-- The operations on rings do what their names say to the sequences, and so do
the macros for structures with their links at some offset. -/
theorem operations_refine :
    (∀ m d, Placed [d] → (links (dlistInit m d)).Ring [d] ∧ Changes m (dlistInit m d) [d]) ∧
    (∀ m l₁ a l₂ b k, Rings m (l₁ ++ a :: l₂) (b :: k) →
      ((links (dlistInsertAfter m a b)).Ring (l₁ ++ a :: (b :: k ++ l₂)) ∧
        Changes m (dlistInsertAfter m a b) (l₁ ++ a :: l₂ ++ b :: k)) ∧
      (links (dlistInsertBefore m a b)).Ring (l₁ ++ (b :: k ++ a :: l₂)) ∧
        Changes m (dlistInsertBefore m a b) (l₁ ++ a :: l₂ ++ b :: k)) ∧
    (∀ m h l b k, IsList m h l → Rings m l (b :: k) →
      IsList (dlistPush m h b).1 (dlistPush m h b).2 (b :: k ++ l) ∧
        Changes m (dlistPush m h b).1 (l ++ b :: k)) ∧
    (∀ m h a l, IsList m h (a :: l) → ∃ m' h', dlistPop m h = (m', h', a) ∧ IsList m' h' l ∧
      (links m').Ring [a] ∧ Changes m m' (a :: l)) ∧
    (∀ m h l₁ a l₂, IsList m h (l₁ ++ a :: l₂) → ∃ m' h', dlistRemoveFrom m h a = (m', h') ∧
      IsList m' h' (l₁ ++ l₂) ∧ (h ≠ a → h' = h) ∧ (links m').Ring [a] ∧
        Changes m m' (l₁ ++ a :: l₂)) ∧
    (∀ o m v, Placed [v + o] →
      (links (DLIST_INIT o m v)).Ring [v + o] ∧ Changes m (DLIST_INIT o m v) [v + o]) ∧
    (∀ o m h l b k, IsListOf o m h l → Rings m (l.map (· + o)) ((b :: k).map (· + o)) → 0 ∉ b :: k →
      IsListOf o (DLIST_PUSH o m h b).1 (DLIST_PUSH o m h b).2 (b :: k ++ l) ∧
        Changes m (DLIST_PUSH o m h b).1 ((l ++ b :: k).map (· + o))) ∧
    (∀ o m h a l, IsListOf o m h (a :: l) → ∃ m' h', DLIST_POP o m h = (m', h', a) ∧
      IsListOf o m' h' l ∧ (links m').Ring [a + o] ∧ Changes m m' ((a :: l).map (· + o))) ∧
    ∀ o m h l₁ a l₂, IsListOf o m h (l₁ ++ a :: l₂) → ∃ m' h', DLIST_REMOVE_FROM o m h a = (m', h') ∧
      IsListOf o m' h' (l₁ ++ l₂) ∧ (h ≠ a → h' = h) ∧ (links m').Ring [a + o] ∧
        Changes m m' ((l₁ ++ a :: l₂).map (· + o)) :=
  ⟨fun _ _ ↦ init_ring, fun _ _ _ _ _ _ h ↦ ⟨insertAfter_ring h, insertBefore_ring h⟩,
    fun _ _ _ _ _ ↦ push_isList, fun _ _ _ _ ↦ pop_isList, fun _ _ _ _ _ ↦ removeFrom_isList,
    fun _ _ _ ↦ init_ring, fun _ _ _ _ _ _ ↦ DLIST_PUSH_isListOf, fun _ _ _ _ _ ↦ DLIST_POP_isListOf,
    fun _ _ _ _ _ _ ↦ DLIST_REMOVE_FROM_isListOf⟩

theorem operations_refine_small :
    let m := dlistInit (dlistInit (fun _ ↦ 0) 4096) 4112
    (links (dlistInit m 4112)).Ring [4112] ∧ (links (DLIST_INIT 8 m 4104)).Ring [4112] ∧
      (links (dlistInsertAfter m 4096 4112)).Ring [4096, 4112] ∧
      IsList (dlistPush m 4096 4112).1 (dlistPush m 4096 4112).2 [4112, 4096] ∧
      (∃ m', dlistPop m 4096 = (m', 0, 4096)) ∧ (∃ m', dlistRemoveFrom m 4096 4096 = (m', 0)) ∧
      IsListOf 8 (DLIST_PUSH 8 m 4088 4104).1 (DLIST_PUSH 8 m 4088 4104).2 [4104, 4088] ∧
      (∃ m', DLIST_POP 8 m 4088 = (m', 0, 4088)) ∧ ∃ m', DLIST_REMOVE_FROM 8 m 4088 4088 = (m', 0) := by
  intro m
  obtain ⟨hinit, hinsert, hpush, hpop, hremove, hinit', hpush', hpop', hremove'⟩ := operations_refine
  have hr : Rings m [4096] [4112] := rings_small
  have hp₁ : Placed [4096] := hr.placed.mono (by decide)
  have hp₂ : Placed [4112] := hr.placed.mono (by decide)
  have hl : IsList m 4096 [4096] := ⟨hr.left, rfl, hp₁⟩
  have hl' : IsListOf 8 m 4088 [4088] := ⟨hr.left, rfl, hp₁, by decide⟩
  obtain ⟨m₁, d₁, hrun₁, hd₁, -⟩ := hpop m 4096 4096 [] hl
  obtain ⟨m₂, d₂, hrun₂, hd₂, -⟩ := hremove m 4096 [] 4096 [] hl
  obtain ⟨m₃, d₃, hrun₃, hd₃, -⟩ := hpop' 8 m 4088 4088 [] hl'
  obtain ⟨m₄, d₄, hrun₄, hd₄, -⟩ := hremove' 8 m 4088 [] 4088 [] hl'
  obtain rfl : d₁ = 0 := hd₁.head
  obtain rfl : d₂ = 0 := hd₂.head
  obtain rfl : d₃ = 0 := hd₃.head
  obtain rfl : d₄ = 0 := hd₄.head
  exact ⟨(hinit m 4112 hp₂).1, (hinit' 8 m 4104 hp₂).1, (hinsert m [] 4096 [] 4112 [] hr).1.1,
    (hpush m 4096 [4096] 4112 [] hl hr).1, ⟨m₁, hrun₁⟩, ⟨m₂, hrun₂⟩,
    (hpush' 8 m 4088 [4088] 4104 [] hl' hr (by decide)).1, ⟨m₃, hrun₃⟩, ⟨m₄, hrun₄⟩⟩

end OcamlRpi.DList
