import OcamlRpi.Support.Memory
import OcamlRpi.Support.Ring

namespace OcamlRpi

open Support Function

/-- Subtraction of 32-bit unsigned values. -/
def sub32 (a b : ℕ) : ℕ := (a + 2 ^ 32 - b) % 2 ^ 32

theorem sub32_of_le {a b : ℕ} (h : b ≤ a) (ha : a < 2 ^ 32) : sub32 a b = a - b := by
  simp only [sub32]
  omega

theorem sub32_of_lt {a b : ℕ} (h : a < b) : sub32 a b = a + 2 ^ 32 - b :=
  Nat.mod_eq_of_lt (by omega)

namespace DList

/-- `d->next` -/
def next (m : Mem) (d : ℕ) : ℕ := m.load d

/-- `d->prev` -/
def prev (m : Mem) (d : ℕ) : ℕ := m.load (d + 4)

def setNext (m : Mem) (d v : ℕ) : Mem := m.store d v

def setPrev (m : Mem) (d v : ℕ) : Mem := m.store (d + 4) v

def dlistInit (m : Mem) (dlist : ℕ) : Mem :=
  let m := setNext m dlist dlist
  setPrev m dlist dlist

def dlistInsertAfter (m : Mem) (d1 d2 : ℕ) : Mem :=
  let n1 := next m d1
  let e2 := prev m d2
  let m := setNext m d1 d2
  let m := setPrev m d2 d1
  let m := setNext m e2 n1
  setPrev m n1 e2

def dlistInsertBefore (m : Mem) (d1 d2 : ℕ) : Mem :=
  let e1 := prev m d1
  let e2 := prev m d2
  let m := setNext m e1 d2
  let m := setPrev m d2 e1
  let m := setNext m e2 d1
  setPrev m d1 e2

def dlistRemove (m : Mem) (d : ℕ) : Mem :=
  let m := setNext m (prev m d) (next m d)
  let m := setPrev m (next m d) (prev m d)
  let m := setNext m d d
  setPrev m d d

/-- The head variable `*d1p` is passed and returned by value. -/
def dlistPush (m : Mem) (d1p d2 : ℕ) : Mem × ℕ :=
  let m := if d1p ≠ 0 then dlistInsertBefore m d1p d2 else m
  (m, d2)

/-- The memory, the new `*dp` and the node taken. -/
def dlistPop (m : Mem) (dp : ℕ) : Mem × ℕ × ℕ :=
  let d1 := dp
  let d2 := next m d1
  let m := dlistRemove m d1
  (m, if d1 = d2 then 0 else d2, d1)

def dlistRemoveFrom (m : Mem) (d1p d2 : ℕ) : Mem × ℕ :=
  if d1p = d2 then
    let (m, d, _) := dlistPop m d1p
    (m, d)
  else (dlistRemove m d2, d1p)

/-- The container of the link field `v` at offset `l`. -/
def CONTAINER (l v : ℕ) : ℕ := sub32 v l

/-- The macros take the offset `l` of the link field and return the new
value of the list variable `*h`. -/
def DLIST_REMOVE_FROM (l : ℕ) (m : Mem) (h d : ℕ) : Mem × ℕ :=
  let head := h + l
  let (m, head) := dlistRemoveFrom m head (d + l)
  (m, if head = 0 then 0 else CONTAINER l head)

def DLIST_PUSH (l : ℕ) (m : Mem) (h v : ℕ) : Mem × ℕ :=
  let head := h + l
  let head := if h = 0 then 0 else head
  let (m, head) := dlistPush m head (v + l)
  (m, CONTAINER l head)

def DLIST_POP (l : ℕ) (m : Mem) (h : ℕ) : Mem × ℕ × ℕ :=
  let head := h + l
  let (m, head, res) := dlistPop m head
  (m, if head = 0 then 0 else CONTAINER l head, CONTAINER l res)

/-- The links stored in memory. -/
def links (m : Mem) : Links ℕ := ⟨next m, prev m⟩

/-- Where the list nodes and the other words of interest lie. -/
structure Layout where
  nodes : Set ℕ
  words : Set ℕ
  node_top : ∀ d ∈ nodes, d + 8 ≤ 2 ^ 32
  nodes_apart : ∀ d ∈ nodes, ∀ e ∈ nodes, d ≠ e → d + 8 ≤ e ∨ e + 8 ≤ d
  words_apart : ∀ w ∈ words, ∀ v ∈ words, w ≠ v → w + 4 ≤ v ∨ v + 4 ≤ w
  apart : ∀ d ∈ nodes, ∀ w ∈ words, d + 8 ≤ w ∨ w + 4 ≤ d

/-- The byte `x` belongs to no node and to no word of the layout. -/
def Layout.Outside (Y : Layout) (x : ℕ) : Prop :=
  (∀ d ∈ Y.nodes, x < d ∨ d + 8 ≤ x) ∧ ∀ w ∈ Y.words, x < w ∨ w + 4 ≤ x

theorem Layout.links_congr {Y : Layout} {m m' : Mem} {d : ℕ} (hm : ∀ x, m' x ≠ m x → Y.Outside x)
    (hd : d ∈ Y.nodes) : next m' d = next m d ∧ prev m' d = prev m d := by
  have hsame : ∀ x, d ≤ x → x < d + 8 → m' x = m x := by
    intro x hx hx'
    by_contra hne
    have hs := (hm x hne).1 d hd
    omega
  exact ⟨Mem.load_congr fun y _ _ ↦ hsame y (by omega) (by omega),
    Mem.load_congr fun y _ _ ↦ hsame y (by omega) (by omega)⟩

theorem Layout.word_congr {Y : Layout} {m m' : Mem} {w : ℕ} (hm : ∀ x, m' x ≠ m x → Y.Outside x)
    (hw : w ∈ Y.words) : m'.load w = m.load w := by
  apply Mem.load_congr
  intro x hx hx'
  by_contra hne
  have hs := (hm x hne).2 w hw
  omega

theorem Layout.Outside.of_update {Y : Layout} {m : Mem} {x y : ℕ} {v : UInt8} (hx : Y.Outside x)
    (hy : update m x v y ≠ m y) : Y.Outside y := by
  by_cases hyx : y = x
  · exact hyx ▸ hx
  · exact absurd (update_of_ne hyx _ _) hy

theorem Layout.Outside.links_update {Y : Layout} {m : Mem} {x d : ℕ} {v : UInt8} (hx : Y.Outside x)
    (hd : d ∈ Y.nodes) : next (update m x v) d = next m d ∧ prev (update m x v) d = prev m d :=
  Layout.links_congr (fun _ hy ↦ hx.of_update hy) hd

theorem Layout.Outside.word_update {Y : Layout} {m : Mem} {x w : ℕ} {v : UInt8} (hx : Y.Outside x)
    (hw : w ∈ Y.words) : Mem.load (update m x v) w = m.load w :=
  Layout.word_congr (fun _ hy ↦ hx.of_update hy) hw

/-- `m'` comes from `m` by writes inside the layout, and now holds the links
`L` and the words `f` there. -/
structure Holds (Y : Layout) (m : Mem) (L : Links ℕ) (f : ℕ → ℕ) (m' : Mem) : Prop where
  next : ∀ d ∈ Y.nodes, next m' d = L.next d
  prev : ∀ d ∈ Y.nodes, prev m' d = L.prev d
  word : ∀ w ∈ Y.words, m'.load w = f w
  frame : ∀ x, Y.Outside x → m' x = m x

namespace Holds

variable {Y : Layout} {m m' : Mem} {L : Links ℕ} {f : ℕ → ℕ} {a b d w v : ℕ} {l : List ℕ}

theorem refl (Y : Layout) (m : Mem) : Holds Y m (links m) m.load m :=
  ⟨fun _ _ ↦ rfl, fun _ _ ↦ rfl, fun _ _ ↦ rfl, fun _ _ ↦ rfl⟩

theorem ring (h : Holds Y m L f m') (hr : L.Ring l) (hl : ∀ x ∈ l, x ∈ Y.nodes) :
    (links m').Ring l :=
  hr.congr fun x hx ↦ ⟨h.next x (hl x hx), h.prev x (hl x hx)⟩

theorem store_next (h : Holds Y m L f m') (ha : a ∈ Y.nodes) (hv : v < 2 ^ 32) :
    Holds Y m ⟨update L.next a v, L.prev⟩ f (setNext m' a v) where
  next d hd := by
    by_cases hda : d = a
    · subst hda
      simp [DList.next, setNext, Mem.load_store_self hv]
    · have hs := Y.nodes_apart d hd a ha hda
      simp only [update_of_ne hda, ← h.next d hd]
      exact Mem.load_store_apart (by omega)
  prev d hd := by
    have hs := Y.nodes_apart d hd a ha
    rw [← h.prev d hd]
    exact Mem.load_store_apart (by omega)
  word w hw := by
    have hs := Y.apart a ha w hw
    rw [← h.word w hw]
    exact Mem.load_store_apart (by omega)
  frame x hx := by
    have hs := hx.1 a ha
    rw [← h.frame x hx]
    exact Mem.store_of_apart (by omega)

theorem store_prev (h : Holds Y m L f m') (ha : a ∈ Y.nodes) (hv : v < 2 ^ 32) :
    Holds Y m ⟨L.next, update L.prev a v⟩ f (setPrev m' a v) where
  next d hd := by
    have hs := Y.nodes_apart d hd a ha
    rw [← h.next d hd]
    exact Mem.load_store_apart (by omega)
  prev d hd := by
    by_cases hda : d = a
    · subst hda
      simp [DList.prev, setPrev, Mem.load_store_self hv]
    · have hs := Y.nodes_apart d hd a ha hda
      simp only [update_of_ne hda, ← h.prev d hd]
      exact Mem.load_store_apart (by omega)
  word w hw := by
    have hs := Y.apart a ha w hw
    rw [← h.word w hw]
    exact Mem.load_store_apart (by omega)
  frame x hx := by
    have hs := hx.1 a ha
    rw [← h.frame x hx]
    exact Mem.store_of_apart (by omega)

theorem store_word (h : Holds Y m L f m') (hw : w ∈ Y.words) (hv : v < 2 ^ 32) :
    Holds Y m L (update f w v) (m'.store w v) where
  next d hd := by
    have hs := Y.apart d hd w hw
    rw [← h.next d hd]
    exact Mem.load_store_apart (by omega)
  prev d hd := by
    have hs := Y.apart d hd w hw
    rw [← h.prev d hd]
    exact Mem.load_store_apart (by omega)
  word u hu := by
    by_cases huw : u = w
    · subst huw
      simp [Mem.load_store_self hv]
    · have hs := Y.words_apart u hu w hw huw
      rw [update_of_ne huw, ← h.word u hu]
      exact Mem.load_store_apart (by omega)
  frame x hx := by
    have hs := hx.2 w hw
    rw [← h.frame x hx]
    exact Mem.store_of_apart (by omega)

theorem node_lt (ha : a ∈ Y.nodes) : a < 2 ^ 32 := by
  have h := Y.node_top a ha
  omega

/-- The two stores `a->next = b; b->prev = a`. -/
theorem link (h : Holds Y m L f m') (ha : a ∈ Y.nodes) (hb : b ∈ Y.nodes) :
    Holds Y m (L.link a b) f (setPrev (setNext m' a b) b a) :=
  (h.store_next ha (node_lt hb)).store_prev hb (node_lt ha)

theorem dlistInit (h : Holds Y m L f m') (hd : d ∈ Y.nodes) :
    Holds Y m (L.link d d) f (DList.dlistInit m' d) := h.link hd hd

theorem dlistInsertAfter (h : Holds Y m L f m') (ha : a ∈ Y.nodes) (hb : b ∈ Y.nodes)
    (hn : L.next a ∈ Y.nodes) (he : L.prev b ∈ Y.nodes) :
    Holds Y m (L.insertAfter a b) f (DList.dlistInsertAfter m' a b) := by
  have hl := (h.link ha hb).link he hn
  rw [← h.next a ha, ← h.prev b hb] at hl
  rw [Links.insertAfter, ← h.next a ha, ← h.prev b hb]
  exact hl

theorem dlistInsertBefore (h : Holds Y m L f m') (ha : a ∈ Y.nodes) (hb : b ∈ Y.nodes)
    (he₁ : L.prev a ∈ Y.nodes) (he₂ : L.prev b ∈ Y.nodes) :
    Holds Y m (L.insertBefore a b) f (DList.dlistInsertBefore m' a b) := by
  have hl := (h.link he₁ hb).link he₂ ha
  rw [← h.prev a ha, ← h.prev b hb] at hl
  rw [Links.insertBefore, ← h.prev a ha, ← h.prev b hb]
  exact hl

/-- The second store re-reads `d->next` and `d->prev`; the first store can
only have touched `d->next`, and then with the value it had. -/
theorem dlistRemove (h : Holds Y m L f m') (hd : d ∈ Y.nodes)
    (hn : L.next d ∈ Y.nodes) (hp : L.prev d ∈ Y.nodes) :
    Holds Y m (L.remove d) f (DList.dlistRemove m' d) := by
  have h₁ := h.store_next hp (node_lt hn)
  have hnext : DList.next (setNext m' (L.prev d) (L.next d)) d = L.next d := by
    rw [h₁.next d hd]
    by_cases hpd : d = L.prev d
    · simp only [← hpd, update_self]
    · simp only [update_of_ne hpd]
  have hprev : DList.prev (setNext m' (L.prev d) (L.next d)) d = L.prev d := h₁.prev d hd
  have hl := (h.link hp hn).link hd hd
  simp only [DList.dlistRemove, h.next d hd, h.prev d hd, hnext, hprev]
  exact hl

end Holds

end DList

end OcamlRpi
