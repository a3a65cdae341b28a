import Mathlib.Data.List.Nodup
import OcamlRpi.Support.Run

namespace OcamlRpi.Support.RoundRobin

open List

/-- What the head of the queue may do: let the next one run, or let a new one
run at once. In both cases it goes to the end of the queue. -/
inductive Move (α : Type*) where
  | yield
  | spawn (x : α)

inductive Event (α : Type*) where
  | created (c x : α)
  | started (x : α)
  | resumed (x : α)
deriving DecidableEq

variable {α : Type*} {l q r : List α} {m : Move α} {ms : List (Move α)}
  {es pre mid post : List (Event α)} {c h t u x : α}

def step : List α → Move α → Option (List α)
  | [], _ => none
  | t :: l, .yield => some (l ++ [t])
  | t :: l, .spawn x => some (x :: l ++ [t])

def events : List α → Move α → List (Event α)
  | [], _ => []
  | t :: _, .spawn x => [.created t x, .started x]
  | t :: l, .yield => [.resumed (l.headD t)]

def Event.resumed? : Event α → Option α
  | .resumed x => some x
  | _ => none

def Event.started? : Event α → Option α
  | .started x => some x
  | _ => none

def Event.created? : Event α → Option α
  | .created _ x => some x
  | _ => none

def log (q : List α) (ms : List (Move α)) : List (Event α) := trace step (fun q m _ ↦ events q m) q ms

theorem log_cons (h : step q m = some r) (ms : List (Move α)) :
    log q (m :: ms) = events q m ++ log r ms :=
  trace_cons h ms

theorem log_spawn (t : α) (l : List α) (x : α) (ms : List (Move α)) :
    log (t :: l) (.spawn x :: ms) = .created t x :: .started x :: log (x :: l ++ [t]) ms :=
  log_cons rfl ms

theorem log_yield (t : α) (l : List α) (ms : List (Move α)) :
    log (t :: l) (.yield :: ms) = .resumed (l.headD t) :: log (l ++ [t]) ms :=
  log_cons rfl ms

theorem spawn_split (he : .created c x :: .started x :: es = mid ++ .resumed t :: post) :
    ∃ mid', mid = .created c x :: .started x :: mid' ∧ es = mid' ++ .resumed t :: post := by
  rcases mid with - | ⟨e, - | ⟨e', mid⟩⟩
  · cases he
  · cases he
  · obtain ⟨he₁, he⟩ := cons.inj he
    obtain ⟨he₂, he⟩ := cons.inj he
    exact ⟨mid, by rw [he₁, he₂], he⟩

theorem yield_split (he : .resumed x :: es = mid ++ .resumed t :: post) :
    (mid = [] ∧ x = t ∧ es = post) ∨ ∃ mid', mid = .resumed x :: mid' ∧ es = mid' ++ .resumed t :: post := by
  cases mid with
  | nil =>
    obtain ⟨hx, he⟩ := cons.inj he
    exact .inl ⟨rfl, Event.resumed.inj hx, he⟩
  | cons e mid =>
    obtain ⟨hx, he⟩ := cons.inj he
    exact .inr ⟨mid, by rw [hx], he⟩

/-- Once `t` has left the head of the queue, those between the head and `t`
are resumed in turn, before `t` is. -/
theorem turns_away {rem done : List α} (ht : t ∉ rem)
    (he : log (h :: (rem ++ t :: done)) ms = mid ++ .resumed t :: post) (hn : .resumed t ∉ mid) :
    mid.filterMap Event.resumed? = rem := by
  induction ms generalizing h rem done mid with
  | nil => simp [log, trace] at he
  | cons m ms ih =>
    cases m with
    | spawn x =>
      rw [log_spawn] at he
      obtain ⟨mid', rfl, he'⟩ := spawn_split he
      rw [cons_append, append_assoc] at he'
      have hrem := ih ht he' fun hm ↦ hn (mem_cons_of_mem _ (mem_cons_of_mem _ hm))
      exact hrem
    | yield =>
      rw [log_yield] at he
      cases rem with
      | nil =>
        rcases yield_split he with ⟨rfl, -⟩ | ⟨mid, rfl, -⟩
        · rfl
        · exact absurd mem_cons_self hn
      | cons v rem =>
        rcases yield_split he with ⟨rfl, hv, -⟩ | ⟨mid', rfl, he'⟩
        · exact absurd (hv ▸ mem_cons_self) ht
        · rw [cons_append, cons_append, append_assoc] at he'
          have hrem := ih (fun hm ↦ ht (mem_cons_of_mem v hm)) he' fun hm ↦ hn (mem_cons_of_mem _ hm)
          exact congrArg (v :: ·) hrem

/-- From one turn of `t` to the next, all the others that were in the queue are
resumed in its order. -/
theorem turns (ht : t ∉ l) (he : log (t :: l) ms = mid ++ .resumed t :: post) (hn : .resumed t ∉ mid) :
    mid.filterMap Event.resumed? = l := by
  cases ms with
  | nil => simp [log, trace] at he
  | cons m ms =>
    cases m with
    | spawn x =>
      rw [log_spawn] at he
      obtain ⟨mid', rfl, he'⟩ := spawn_split he
      have hrem := turns_away ht he' fun hm ↦ hn (mem_cons_of_mem _ (mem_cons_of_mem _ hm))
      exact hrem
    | yield =>
      rw [log_yield] at he
      cases l with
      | nil =>
        rcases yield_split he with ⟨rfl, -⟩ | ⟨mid, rfl, -⟩
        · rfl
        · exact absurd mem_cons_self hn
      | cons u l =>
        rcases yield_split he with ⟨rfl, hu, -⟩ | ⟨mid', rfl, he'⟩
        · exact absurd (hu ▸ mem_cons_self) ht
        · have hrem := turns_away (fun hm ↦ ht (mem_cons_of_mem u hm)) he' fun hm ↦ hn (mem_cons_of_mem _ hm)
          exact congrArg (u :: ·) hrem

/-- A run can be cut where `t` is resumed: there it is at the head. -/
theorem cut (hr : run step q ms = some r) (he : log q ms = pre ++ .resumed t :: post) :
    ∃ ms₁ ms₂ l, run step q ms₁ = some (t :: l) ∧ log q ms₁ = pre ++ [.resumed t] ∧
      run step (t :: l) ms₂ = some r ∧ log (t :: l) ms₂ = post := by
  induction ms generalizing q pre with
  | nil => simp [log, trace] at he
  | cons m ms ih =>
    obtain ⟨q₁, hq, hr⟩ := run_cons.mp hr
    cases q with
    | nil => cases hq
    | cons u l =>
      cases m with
      | spawn x =>
        obtain rfl : x :: l ++ [u] = q₁ := Option.some.inj hq
        rw [log_spawn] at he
        obtain ⟨pre', rfl, he'⟩ := spawn_split he
        obtain ⟨ms₁, ms₂, l', h₁, h₂, h₃, h₄⟩ := ih hr he'
        refine ⟨.spawn x :: ms₁, ms₂, l', run_cons.mpr ⟨_, hq, h₁⟩, ?_, h₃, h₄⟩
        rw [log_spawn, h₂, cons_append, cons_append]
      | yield =>
        obtain rfl : l ++ [u] = q₁ := Option.some.inj hq
        rw [log_yield] at he
        rcases yield_split he with ⟨rfl, hu, he'⟩ | ⟨pre', rfl, he'⟩
        · have hl : l ++ [u] = t :: (l ++ [u]).tail := by
            subst hu
            cases l <;> rfl
          rw [hl] at hq hr he'
          refine ⟨[.yield], ms, (l ++ [u]).tail, run_cons.mpr ⟨_, hq, rfl⟩, ?_, hr, he'⟩
          exact congrArg (fun v ↦ [Event.resumed v]) hu
        · obtain ⟨ms₁, ms₂, l', h₁, h₂, h₃, h₄⟩ := ih hr he'
          refine ⟨.yield :: ms₁, ms₂, l', run_cons.mpr ⟨_, hq, h₁⟩, ?_, h₃, h₄⟩
          rw [log_yield, h₂, cons_append]

theorem starts_eq (q : List α) (ms : List (Move α)) :
    (log q ms).filterMap Event.started? = (log q ms).filterMap Event.created? := by
  induction ms generalizing q with
  | nil => rfl
  | cons m ms ih =>
    cases hq : step q m with
    | none => simp [log, trace, hq]
    | some r =>
      rw [log_cons hq, filterMap_append, filterMap_append, ih]
      congr 1
      cases m with
      | spawn x => cases q <;> rfl
      | yield => cases q <;> rfl

/-- Nobody leaves the queue, and only those that are created come into it. -/
theorem run_perm (hr : run step q ms = some r) :
    r.Perm ((log q ms).filterMap Event.created? ++ q) := by
  induction ms generalizing q with
  | nil =>
    obtain rfl := Option.some.inj hr
    exact .refl _
  | cons m ms ih =>
    obtain ⟨q₁, hq, hr⟩ := run_cons.mp hr
    have hp := ih hr
    rw [log_cons hq, filterMap_append]
    cases q with
    | nil => cases hq
    | cons t l =>
      cases m with
      | spawn x =>
        obtain rfl : x :: l ++ [t] = q₁ := Option.some.inj hq
        apply hp.trans
        have hx : (x :: l ++ [t]).Perm (x :: t :: l) := (perm_append_singleton t l).cons x
        exact (hx.append_left _).trans perm_middle
      | yield =>
        obtain rfl : l ++ [t] = q₁ := Option.some.inj hq
        exact hp.trans ((perm_append_singleton t l).append_left _)

theorem start_follows (q : List α) (ms : List (Move α)) (hx : .created c x ∈ log q ms) :
    ∃ pre post, log q ms = pre ++ .created c x :: .started x :: post := by
  induction ms generalizing q with
  | nil => cases hx
  | cons m ms ih =>
    cases hq : step q m with
    | none => simp [log, trace, hq] at hx
    | some r =>
      rw [log_cons hq] at hx ⊢
      rcases mem_append.mp hx with hx | hx
      · cases m with
        | yield => cases q <;> simp [events] at hx
        | spawn y =>
          cases q with
          | nil => cases hx
          | cons t l =>
            obtain ⟨rfl, rfl⟩ : c = t ∧ x = y := by simpa [events] using hx
            exact ⟨[], log r ms, rfl⟩
      · obtain ⟨pre, post, he⟩ := ih r hx
        exact ⟨events q m ++ pre, post, by rw [append_assoc, he]⟩

theorem mem_created {es : List (Event α)} : x ∈ es.filterMap Event.created? ↔ ∃ c, .created c x ∈ es := by
  simp only [mem_filterMap]
  constructor
  · intro h
    obtain ⟨e, he, hx⟩ := h
    cases e with
    | created c y =>
      obtain rfl := Option.some.inj hx
      exact ⟨c, he⟩
    | _ => cases hx
  · intro h
    obtain ⟨c, hc⟩ := h
    exact ⟨_, hc, rfl⟩

section Counting

variable [DecidableEq α]

theorem count_resumed (es : List (Event α)) (x : α) :
    es.count (.resumed x) = (es.filterMap Event.resumed?).count x := by
  rw [count_filterMap]
  apply countP_congr
  intro e _
  cases e <;> simp [Event.resumed?]

theorem count_started (es : List (Event α)) (x : α) :
    es.count (.started x) = (es.filterMap Event.started?).count x := by
  rw [count_filterMap]
  apply countP_congr
  intro e _
  cases e <;> simp [Event.started?]

/-- Between two consecutive turns of `t`, each of the others that were there
has one turn, and each that comes in between starts once, as soon as it is
created. -/
theorem fair (hr : run step q ms = some r) (hd : r.Nodup)
    (he : log q ms = pre ++ .resumed t :: (mid ++ .resumed t :: post)) (hn : .resumed t ∉ mid) :
    (∀ u, (u ∈ q ∨ ∃ c, .created c u ∈ pre) → u ≠ t → mid.count (.resumed u) = 1) ∧
    ∀ c u, .created c u ∈ mid → mid.count (.started u) = 1 ∧
      ∃ x y, mid = x ++ .created c u :: .started u :: y := by
  obtain ⟨ms₁, ms₂, l, hr₁, he₁, hr₂, he₂⟩ := cut hr he
  obtain ⟨ms₃, ms₄, l', hr₃, he₃, hr₄, he₄⟩ := cut hr₂ he₂
  have hp := run_perm hr₁
  have hp' := run_perm hr₂
  rw [he₁] at hp
  have hd' := hp'.nodup_iff.mp hd
  have hdl := hd'.of_append_right
  rw [he₂] at hd'
  constructor
  · intro u hu hut
    have hul : u ∈ t :: l := by
      apply hp.mem_iff.mpr
      rcases hu with hu | ⟨c, hu⟩
      · exact mem_append_right _ hu
      · exact mem_append_left _ (mem_created.mpr ⟨c, mem_append_left _ hu⟩)
    have hul := (mem_cons.mp hul).resolve_left hut
    rw [count_resumed, turns (nodup_cons.mp hdl).1 he₂ hn]
    exact count_eq_one_of_mem (nodup_cons.mp hdl).2 hul
  · intro c u hu
    have hs := starts_eq (t :: l) ms₃
    rw [he₃] at hs
    have hc : (mid ++ [Event.resumed t]).count (.started u) = mid.count (.started u) := by simp
    constructor
    · rw [← hc, count_started, hs]
      apply count_eq_one_of_mem
      · have hm : (mid ++ [Event.resumed t]).filterMap Event.created? <+
            (mid ++ .resumed t :: post).filterMap Event.created? :=
          (Sublist.append_left (by simp) mid).filterMap _
        exact hd'.of_append_left.sublist hm
      · exact mem_created.mpr ⟨c, mem_append_left _ hu⟩
    · have hu' : .created c u ∈ log (t :: l) ms₃ := by
        rw [he₃]
        exact mem_append_left _ hu
      obtain ⟨x, y, hxy⟩ := start_follows (t :: l) ms₃ hu'
      rw [he₃] at hxy
      rcases eq_nil_or_concat' y with rfl | ⟨y, e, rfl⟩
      · have hl := congrArg getLast? hxy
        simp at hl
      · refine ⟨x, y, ?_⟩
        have hxy : mid ++ [.resumed t] = (x ++ .created c u :: .started u :: y) ++ [e] := by simp [hxy]
        exact (append_inj' hxy rfl).1

end Counting

end OcamlRpi.Support.RoundRobin
