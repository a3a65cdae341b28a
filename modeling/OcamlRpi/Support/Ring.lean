import Mathlib.Data.List.Cycle
import Mathlib.Data.List.Chain
import Mathlib.Logic.Function.Basic

namespace OcamlRpi.Support

open Function List

@[ext] structure Links (α : Type*) where
  next : α → α
  prev : α → α

namespace Links

variable {α : Type*} {L L' : Links α} {a b c d : α} {l k : List α}

/-- `b` follows `a`, as both nodes record it. -/
def Joined (L : Links α) (a b : α) : Prop := L.next a = b ∧ L.prev b = a

/-- The nodes of `l`, in this order, are one whole circular list. -/
structure Ring (L : Links α) (l : List α) : Prop where
  nodup : l.Nodup
  chain : (l : Cycle α).Chain L.Joined

theorem ring_cons : L.Ring (a :: l) ↔ (a :: l).Nodup ∧ IsChain L.Joined (a :: (l ++ [a])) :=
  ⟨fun h ↦ ⟨h.nodup, (Cycle.chain_coe_cons _ _ _).mp h.chain⟩,
    fun h ↦ ⟨h.1, (Cycle.chain_coe_cons _ _ _).mpr h.2⟩⟩

/-- A circular list may be read from any of its nodes. -/
theorem Ring.rotate (h : L.Ring (l ++ k)) : L.Ring (k ++ l) := by
  have hr : ((l ++ k : List α) : Cycle α) = (k ++ l : List α) :=
    Cycle.coe_eq_coe.mpr isRotated_append
  exact ⟨nodup_append_comm.mp h.nodup, hr ▸ h.chain⟩

theorem ring_singleton : L.Ring [a] ↔ L.Joined a a := by
  simp [ring_cons]

theorem isChain_congr {R S : α → α → Prop} (h : IsChain R l)
    (hs : ∀ x ∈ l, ∀ y ∈ l, R x y → S x y) : IsChain S l := by
  induction l with
  | nil => exact .nil
  | cons x l ih =>
    cases l with
    | nil => exact .singleton x
    | cons y l =>
      rw [isChain_cons_cons] at h ⊢
      exact ⟨hs x (by simp) y (by simp) h.1, ih h.2 fun u hu v hv ↦
        hs u (mem_cons_of_mem x hu) v (mem_cons_of_mem x hv)⟩

theorem Ring.congr (h : L.Ring l)
    (hl : ∀ x ∈ l, L'.next x = L.next x ∧ L'.prev x = L.prev x) : L'.Ring l := by
  cases l with
  | nil => exact ⟨nodup_nil, trivial⟩
  | cons a l =>
    rw [ring_cons] at h ⊢
    refine ⟨h.1, isChain_congr h.2 fun x hx y hy hxy ↦ ?_⟩
    have hx' := (hl x (by simpa [or_comm] using hx)).1
    have hy' := (hl y (by simpa [or_comm] using hy)).2
    exact ⟨hx'.trans hxy.1, hy'.trans hxy.2⟩

theorem Ring.joined (h : L.Ring (l ++ a :: b :: k)) : L.Joined a b := by
  have hr := ring_cons.mp (show L.Ring (a :: (b :: k ++ l)) from h.rotate)
  exact (isChain_cons_cons.mp hr.2).1

theorem Ring.joined_last (h : L.Ring (a :: l ++ [b])) : L.Joined b a := by
  have hr : L.Ring ([] ++ b :: a :: l) := h.rotate
  exact hr.joined

theorem Ring.next_mem (h : L.Ring (a :: l)) : L.next a ∈ a :: l := by
  cases l with
  | nil => simp [(ring_singleton.mp h).1]
  | cons b l => simp [(Ring.joined (l := []) h).1]

theorem Ring.prev_eq_getLast (h : L.Ring (a :: l)) :
    L.prev a = (a :: l).getLast (cons_ne_nil a l) := by
  rcases eq_nil_or_concat' l with rfl | ⟨l', e, rfl⟩
  · simpa using (ring_singleton.mp h).2
  · rw [← cons_append] at h
    simpa using (Ring.joined_last h).2

theorem Ring.prev_mem (h : L.Ring (a :: l)) : L.prev a ∈ a :: l :=
  h.prev_eq_getLast ▸ getLast_mem _

theorem Ring.joined_prev (h : L.Ring (a :: l)) : L.Joined (L.prev a) a := by
  rcases eq_nil_or_concat' l with rfl | ⟨l', e, rfl⟩
  · have hs := ring_singleton.mp h
    rwa [hs.2]
  · rw [← cons_append] at h
    have hj := h.joined_last
    rwa [hj.2]

theorem Ring.prev_next (h : L.Ring l) (ha : a ∈ l) : L.prev (L.next a) = a := by
  obtain ⟨k, m, rfl⟩ := append_of_mem ha
  have hr : L.Ring (a :: (m ++ k)) := h.rotate
  cases hm : m ++ k with
  | nil =>
    rw [hm, ring_singleton] at hr
    rw [hr.1, hr.2]
  | cons b n =>
    rw [hm] at hr
    have hj : L.Joined a b := Ring.joined (l := []) hr
    rw [hj.1, hj.2]

theorem Ring.next_prev (h : L.Ring l) (ha : a ∈ l) : L.next (L.prev a) = a := by
  obtain ⟨k, m, rfl⟩ := append_of_mem ha
  have hr : L.Ring (a :: (m ++ k)) := h.rotate
  exact hr.joined_prev.1

/-- The way from `b` to `a` is determined by the links. -/
theorem chain_unique (hl : IsChain L.Joined (b :: (l ++ [a]))) (hk : IsChain L.Joined (b :: (k ++ [a])))
    (hal : a ∉ l) (hak : a ∉ k) : l = k := by
  induction l generalizing k b with
  | nil =>
    cases k with
    | nil => rfl
    | cons y k =>
      have hy := (isChain_cons_cons.mp hk).1.1.symm.trans (isChain_cons_cons.mp hl).1.1
      simp [hy] at hak
  | cons z l ih =>
    have hz := isChain_cons_cons.mp hl
    cases k with
    | nil =>
      have hy := hz.1.1.symm.trans (isChain_cons_cons.mp hk).1.1
      simp [hy] at hal
    | cons y k =>
      have hy := isChain_cons_cons.mp hk
      obtain rfl : z = y := hz.1.1.symm.trans hy.1.1
      rw [mem_cons, not_or] at hal hak
      rw [ih hz.2 hy.2 hal.2 hak.2]

theorem Ring.eq_of_head (h : L.Ring (a :: l)) (h' : L.Ring (a :: k)) : l = k := by
  rw [ring_cons] at h h'
  exact chain_unique h.2 h'.2 (nodup_cons.mp h.1).1 (nodup_cons.mp h'.1).1

variable [DecidableEq α]

/-- Make `b` the successor of `a`. -/
def link (L : Links α) (a b : α) : Links α :=
  ⟨update L.next a b, update L.prev b a⟩

theorem link_joined (L : Links α) (a b : α) : (L.link a b).Joined a b := by
  simp [link, Joined]

theorem Joined.link (h : L.Joined c d) (hc : c ≠ a) (hd : d ≠ b) :
    (L.link a b).Joined c d := by
  simp only [Joined, Links.link, update_of_ne hc, update_of_ne hd]
  exact h

/-- A path keeps its links when `a` is at most its last node and `b` at most
its first. -/
theorem isChain_link (h : IsChain L.Joined l) (ha : a ∉ l.dropLast) (hb : b ∉ l.tail) :
    IsChain (L.link a b).Joined l := by
  induction l with
  | nil => exact .nil
  | cons x l ih =>
    cases l with
    | nil => exact .singleton x
    | cons y l =>
      rw [isChain_cons_cons] at h ⊢
      simp only [dropLast_cons_cons, mem_cons, not_or, tail_cons] at ha hb
      exact ⟨h.1.link (Ne.symm ha.1) (Ne.symm hb.1), ih h.2 ha.2 hb.2⟩

theorem Ring.link_of_notMem (h : L.Ring l) (ha : a ∉ l) (hb : b ∉ l) : (L.link a b).Ring l := by
  refine h.congr fun x hx ↦ ?_
  have hxa : x ≠ a := fun he ↦ ha (he ▸ hx)
  have hxb : x ≠ b := fun he ↦ hb (he ▸ hx)
  simp [link, update_of_ne hxa, update_of_ne hxb]

/-- Splice the ring of `b` in right after `a`. -/
def insertAfter (L : Links α) (a b : α) : Links α :=
  (L.link a b).link (L.prev b) (L.next a)

/-- Splice the ring of `b` in right before `a`. -/
def insertBefore (L : Links α) (a b : α) : Links α :=
  (L.link (L.prev a) b).link (L.prev b) a

/-- Take `a` out of its ring, leaving it a ring of its own. -/
def remove (L : Links α) (a : α) : Links α :=
  (L.link (L.prev a) (L.next a)).link a a

theorem Ring.insertAfter (h : L.Ring (a :: l)) (h' : L.Ring (b :: k))
    (hd : Disjoint (a :: l) (b :: k)) : (L.insertAfter a b).Ring (a :: (b :: k ++ l)) := by
  obtain ⟨n, l', hl⟩ : ∃ n l', l ++ [a] = n :: l' := exists_cons_of_ne_nil (by simp)
  obtain ⟨k', e, hk⟩ : ∃ k' e, b :: k = k' ++ [e] := (eq_nil_or_concat' (b :: k)).resolve_left
    (cons_ne_nil b k)
  have hprev : L.prev b = e := by rw [h'.prev_eq_getLast]; simp [hk]
  rw [ring_cons] at h h'
  have hnext : L.next a = n := by
    have hc := h.2
    rw [hl] at hc
    exact (isChain_cons_cons.mp hc).1.1
  have hla : (n :: l').Nodup := by
    rw [← hl]
    simpa using nodup_append_comm.mp (show ([a] ++ l).Nodup from h.1)
  have hmem : ∀ x, x ∈ n :: l' ↔ x ∈ a :: l := fun x ↦ by
    rw [← hl]; simp [or_comm]
  have hne : ∀ {x y}, x ∈ n :: l' → y ∈ b :: k → x ≠ y := fun hx hy he ↦
    hd ((hmem _).mp hx) (he ▸ hy)
  have hn : n ∈ n :: l' := mem_cons_self
  have ha : a ∈ n :: l' := (hmem a).mpr mem_cons_self
  have he : e ∈ b :: k := by rw [hk]; simp
  have hb : b ∈ b :: k := mem_cons_self
  -- the two stretches that keep all their links
  have hout : IsChain ((L.link a b).link e n).Joined (n :: l') := by
    refine isChain_link (isChain_link ?_ ?_ ?_) ?_ ?_
    · have hc := h.2.tail
      simpa [hl] using hc
    · rw [← hl, dropLast_concat]
      exact (nodup_cons.mp h.1).1
    · exact fun hx ↦ hne (mem_of_mem_tail hx) hb rfl
    · exact fun hx ↦ hne (mem_of_mem_dropLast hx) he rfl
    · exact (nodup_cons.mp hla).1
  have hin : IsChain ((L.link a b).link e n).Joined (b :: k) := by
    refine isChain_link (isChain_link ?_ ?_ ?_) ?_ ?_
    · have hc := h'.2
      rw [← cons_append] at hc
      exact hc.left_of_append
    · exact fun hx ↦ hne ha (mem_of_mem_dropLast hx) rfl
    · exact (nodup_cons.mp h'.1).1
    · rw [hk, dropLast_concat]
      have hnd := h'.1
      rw [hk] at hnd
      exact fun hx ↦ (nodup_append.mp hnd).2.2 e hx e (by simp) rfl
    · exact fun hx ↦ hne hn (mem_of_mem_tail hx) rfl
  have hab : ((L.link a b).link e n).Joined a b :=
    (L.link_joined a b).link (hne ha he) (fun hx ↦ hne hn hb hx.symm)
  have hen : ((L.link a b).link e n).Joined e n := link_joined _ e n
  unfold Links.insertAfter
  rw [hprev, hnext, ring_cons]
  constructor
  · have hnd := nodup_append.mpr ⟨h.1, h'.1, fun x hx y hy he ↦ hd hx (he ▸ hy)⟩
    have hp : (a :: l ++ b :: k).Perm (a :: (b :: k ++ l)) :=
      (perm_append_comm : (l ++ b :: k).Perm (b :: k ++ l)).cons a
    exact hp.nodup_iff.mp hnd
  · have hcat : b :: k ++ l ++ [a] = b :: k ++ n :: l' := by rw [append_assoc, hl]
    rw [hcat, cons_append, isChain_cons_cons]
    refine ⟨hab, ?_⟩
    rw [← cons_append]
    refine hin.append hout fun x hx y hy ↦ ?_
    rw [hk, getLast?_concat] at hx
    simp only [Option.mem_def, Option.some.injEq, head?_cons] at hx hy
    exact hx ▸ hy ▸ hen

theorem Ring.insertBefore (h : L.Ring (a :: l)) (h' : L.Ring (b :: k))
    (hd : Disjoint (a :: l) (b :: k)) : (L.insertBefore a b).Ring (b :: k ++ a :: l) := by
  obtain ⟨m, e, hm⟩ : ∃ m e, a :: l = m ++ [e] := (eq_nil_or_concat' (a :: l)).resolve_left
    (cons_ne_nil a l)
  have hprev : L.prev a = e := by rw [h.prev_eq_getLast]; simp [hm]
  have hr : L.Ring (e :: m) := by
    have hx := h
    rw [hm] at hx
    exact hx.rotate
  have hnext : L.next e = a := hprev ▸ h.joined_prev.1
  have hd' : Disjoint (e :: m) (b :: k) := fun x hx hy ↦
    hd (show x ∈ a :: l by rw [hm]; simpa [or_comm] using hx) hy
  have hi := hr.insertAfter h' hd'
  have heq : L.insertAfter e b = L.insertBefore a b := by
    simp only [Links.insertAfter, Links.insertBefore, hprev, hnext]
  rw [heq] at hi
  have hrot : (L.insertBefore a b).Ring (b :: k ++ m ++ [e]) := Ring.rotate (l := [e]) hi
  rwa [append_assoc, ← hm] at hrot

theorem Ring.remove_self (L : Links α) (a : α) : (L.remove a).Ring [a] :=
  ring_singleton.mpr (link_joined _ a a)

theorem Ring.remove (h : L.Ring (a :: l)) : (L.remove a).Ring l := by
  cases l with
  | nil => exact ⟨nodup_nil, trivial⟩
  | cons n l =>
    obtain ⟨l', e, hl⟩ : ∃ l' e, n :: l = l' ++ [e] := (eq_nil_or_concat' (n :: l)).resolve_left
      (cons_ne_nil n l)
    have hnext : L.next a = n := (Ring.joined (l := []) h).1
    have hprev : L.prev a = e := by rw [h.prev_eq_getLast]; simp [hl]
    have hnd := nodup_cons.mp h.nodup
    have hc := (ring_cons.mp h).2
    rw [cons_append, isChain_cons_cons, ← cons_append] at hc
    have hkeep : IsChain (L.link e n).Joined (n :: l) := by
      refine isChain_link hc.2.left_of_append ?_ (nodup_cons.mp hnd.2).1
      rw [hl, dropLast_concat]
      have hx := hnd.2
      rw [hl] at hx
      exact fun hm ↦ (nodup_append.mp hx).2.2 e hm e (by simp) rfl
    have hring : (L.link e n).Ring (n :: l) := by
      refine ring_cons.mpr ⟨hnd.2, ?_⟩
      rw [← cons_append]
      refine hkeep.append (.singleton n) fun x hx y hy ↦ ?_
      rw [hl, getLast?_concat] at hx
      simp only [Option.mem_def, Option.some.injEq, head?_cons] at hx hy
      exact hx ▸ hy ▸ link_joined L e n
    unfold Links.remove
    rw [hprev, hnext]
    exact hring.link_of_notMem hnd.1 hnd.1

theorem Ring.insertAfter_other {m : List α} (hm : L.Ring m) (h : L.Ring (a :: l))
    (h' : L.Ring (b :: k)) (hda : Disjoint (a :: l) m) (hdb : Disjoint (b :: k) m) :
    (L.insertAfter a b).Ring m := by
  exact (hm.link_of_notMem (fun hx ↦ hda mem_cons_self hx)
    (fun hx ↦ hdb mem_cons_self hx)).link_of_notMem (fun hx ↦ hdb h'.prev_mem hx)
      (fun hx ↦ hda h.next_mem hx)

theorem Ring.insertBefore_other {m : List α} (hm : L.Ring m) (h : L.Ring (a :: l))
    (h' : L.Ring (b :: k)) (hda : Disjoint (a :: l) m) (hdb : Disjoint (b :: k) m) :
    (L.insertBefore a b).Ring m := by
  exact (hm.link_of_notMem (fun hx ↦ hda h.prev_mem hx)
    (fun hx ↦ hdb mem_cons_self hx)).link_of_notMem (fun hx ↦ hdb h'.prev_mem hx)
      (fun hx ↦ hda mem_cons_self hx)

theorem Ring.remove_other {m : List α} (hm : L.Ring m) (h : L.Ring (a :: l))
    (hd : Disjoint (a :: l) m) : (L.remove a).Ring m := by
  have ha : a ∉ m := fun hx ↦ hd mem_cons_self hx
  exact (hm.link_of_notMem (fun hx ↦ hd h.prev_mem hx)
    (fun hx ↦ hd h.next_mem hx)).link_of_notMem ha ha

end Links

end OcamlRpi.Support
