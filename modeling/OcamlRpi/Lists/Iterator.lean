import OcamlRpi.Lists.Operations

namespace OcamlRpi.DList

open Support Function List

/-- The body of the loop takes the current element out of the list, or not. -/
def takeOut (o : ℕ) (b : Bool) (m : Mem) (h it : ℕ) : Mem × ℕ :=
  if b then DLIST_REMOVE_FROM o m h it else (m, h)

/-- The loop from a pass on that finds `iter` and `last`. It returns the memory,
the list variable and the elements it has come to; `c` has the choices of the
passes to come. -/
def iterate (o : ℕ) : ℕ → (ℕ → Bool) → Mem → ℕ → ℕ → ℕ → Option (Mem × ℕ × List ℕ)
  | 0, _, _, _, _, _ => none
  | n + 1, c, m, h, last, iter =>
    let nxt := if iter = last then 0 else next m iter
    let it := CONTAINER o iter
    let (m, h) := takeOut o (c 0) m h it
    if nxt = 0 then some (m, h, [it])
    else (iterate o n (fun i ↦ c (i + 1)) m h last nxt).map fun (m, h, its) ↦ (m, h, it :: its)

/-- `DLIST_ITERATOR_BEGIN` to `DLIST_ITERATOR_END` -/
def DLIST_ITERATOR (o n : ℕ) (c : ℕ → Bool) (m : Mem) (h : ℕ) : Option (Mem × ℕ × List ℕ) :=
  iterate o n c m h (prev m (h + o)) (h + o)

/-- The elements of the list that the choices leave there. -/
def kept (c : ℕ → Bool) : List ℕ → List ℕ
  | [] => []
  | a :: l => (if c 0 then [] else [a]) ++ kept (fun i ↦ c (i + 1)) l

variable {m : Mem} {l p : List ℕ} {a h o last : ℕ} {c : ℕ → Bool}

theorem takeOut_spec (b : Bool) (hl : IsListOf o m h (p ++ a :: l)) :
    ∃ m' h', takeOut o b m h a = (m', h') ∧ IsListOf o m' h' (p ++ (if b then [] else [a]) ++ l) ∧
      Changes m m' ((p ++ a :: l).map (· + o)) ∧ (b = true → (links m').Ring [a + o]) := by
  cases b with
  | false =>
    refine ⟨m, h, rfl, ?_, ⟨fun _ _ ↦ rfl, fun _ _ _ hr ↦ hr⟩, nofun⟩
    rw [if_neg Bool.false_ne_true, append_assoc]
    exact hl
  | true =>
    obtain ⟨m', h', hrun, hrest, -, hself, hc⟩ := DLIST_REMOVE_FROM_isListOf hl
    refine ⟨m', h', hrun, ?_, hc, fun _ ↦ hself⟩
    rwa [if_pos rfl, append_nil]

theorem IsListOf.container (hl : IsListOf o m h (p ++ a :: l)) : CONTAINER o (a + o) = a :=
  container_add (hl.nodes a (mem_append_right p mem_cons_self))

/-- The elements `p` are what is left of those before `a`. -/
theorem iterate_spec (hl : IsListOf o m h (p ++ a :: l))
    (hlast : ((a :: l).map (· + o)).getLast? = some last) :
    ∃ m' h', (∀ n, l.length < n → iterate o n c m h last (a + o) = some (m', h', a :: l)) ∧
      IsListOf o m' h' (p ++ kept c (a :: l)) ∧ Changes m m' ((p ++ a :: l).map (· + o)) ∧
      ∀ x ∈ a :: l, x ∉ kept c (a :: l) → (links m').Ring [x + o] := by
  induction l generalizing m h p a c with
  | nil =>
    obtain rfl : a + o = last := by simpa using hlast
    obtain ⟨m', h', hrun, hrest, hc, hself⟩ := takeOut_spec (c 0) hl
    refine ⟨m', h', fun n hn ↦ ?_, ?_, hc, fun x hx hk ↦ ?_⟩
    · obtain ⟨n, rfl⟩ : ∃ k, n = k + 1 := ⟨n - 1, by omega⟩
      rw [iterate]
      dsimp only
      rw [if_pos rfl, if_pos rfl, hl.container, hrun]
    · rw [kept, kept, append_nil]
      rwa [append_nil] at hrest
    · obtain rfl := mem_singleton.mp hx
      refine hself ?_
      by_contra hne
      exact hk (by simp [kept, hne])
  | cons b l ih =>
    have hring := hl.ring
    rw [map_append, map_cons, map_cons] at hring
    have hnext : next m (a + o) = b + o := hring.joined.1
    have hb : b ≠ 0 := fun he ↦ hl.pos (he ▸ by simp)
    have hlast' : ((b :: l).map (· + o)).getLast? = some last := by
      rw [map_cons, map_cons, getLast?_cons_cons] at hlast
      exact hlast
    have hne : a + o ≠ last := by
      intro he
      have hmem := mem_of_getLast? hlast'
      rw [← he, map_cons] at hmem
      exact (nodup_cons.mp (nodup_append.mp hring.nodup).2.1).1 hmem
    obtain ⟨m₁, h₁, hrun, hrest, hc, hself⟩ := takeOut_spec (c 0) hl
    obtain ⟨m', h', hloop, hkept, hc', hselves⟩ := ih (c := fun i ↦ c (i + 1)) hrest hlast'
    have hsub : p ++ (if c 0 then [] else [a]) ++ b :: l ⊆ p ++ a :: b :: l := by
      intro x hx
      split_ifs at hx <;> simp only [mem_append, mem_cons] at hx ⊢ <;> grind
    have hc₁ : Changes m₁ m' ((p ++ a :: b :: l).map (· + o)) := hc'.mono (map_subset _ hsub)
    refine ⟨m', h', fun n hn ↦ ?_, ?_, hc.trans hc₁, fun x hx hk ↦ ?_⟩
    · obtain ⟨n, rfl⟩ : ∃ k, n = k + 1 := ⟨n - 1, by omega⟩
      rw [length_cons] at hn
      rw [iterate]
      dsimp only
      rw [if_neg hne, hnext, hl.container, hrun, if_neg (by omega), hloop n (by omega)]
      rfl
    · rw [append_assoc] at hkept
      exact hkept
    · rw [kept, mem_append, not_or] at hk
      rcases mem_cons.mp hx with rfl | hx
      · have hcx : c 0 = true := by
          by_contra hne
          exact hk.1 (by rw [if_neg hne]; exact mem_cons_self)
        rw [if_pos hcx, append_nil] at hc'
        have hout : x + o ∉ (p ++ b :: l).map (· + o) := by
          rw [map_append, map_cons]
          exact (nodup_cons.mp (nodup_middle.mp hring.nodup)).1
        refine hc'.rings [x + o] (hl.placed.mono ?_) (disjoint_singleton.mpr hout) (hself hcx)
        refine append_subset.mpr ⟨map_subset _ fun y hy ↦ ?_, ?_⟩
        · simp only [mem_append, mem_cons] at hy ⊢
          tauto
        · simp
      · exact hselves x hx hk.2

/-- The loop comes to each element once, in the order of the list, and leaves
the elements that are not taken out in the list. -/
theorem iterator_visits (c : ℕ → Bool) (hl : IsListOf o m h l) (h0 : h ≠ 0) :
    ∃ m' h', (∀ n, l.length ≤ n → DLIST_ITERATOR o n c m h = some (m', h', l)) ∧
      IsListOf o m' h' (kept c l) ∧ Changes m m' (l.map (· + o)) ∧
      ∀ x ∈ l, x ∉ kept c l → (links m').Ring [x + o] := by
  cases l with
  | nil => exact absurd hl.head h0
  | cons a l =>
    obtain rfl : h = a := hl.head
    have hlast : ((h :: l).map (· + o)).getLast? = some (prev m (h + o)) := by
      have hp : prev m (h + o) = _ := hl.ring.prev_eq_getLast
      rw [hp]
      exact getLast?_eq_getLast_of_ne_nil _
    exact iterate_spec (p := []) hl hlast

/-- The first of two elements is taken out. -/
theorem iterator_visits_small :
    let m := dlistInsertAfter (dlistInit (dlistInit (fun _ ↦ 0) 4096) 4112) 4096 4112
    ∃ m', DLIST_ITERATOR 8 2 (fun i ↦ i == 0) m 4088 = some (m', 4104, [4088, 4104]) := by
  intro m
  have hl : IsListOf 8 m 4088 [4088, 4104] :=
    ⟨(insertAfter_first rings_small).1, rfl, rings_small.placed, by decide⟩
  obtain ⟨m', h', hrun, hkept, -⟩ := iterator_visits (fun i ↦ i == 0) hl (by decide)
  obtain rfl : h' = 4104 := hkept.head
  exact ⟨m', hrun 2 (by decide)⟩

end OcamlRpi.DList
