import OcamlRpi.Thread.Channel

namespace OcamlRpi.Thread

open Support Function List

/-- What a step may do to the channels: a channel is only released by the
thread that holds it, and a thread that raises releases the one of its channels
that it locked last. -/
structure IoOp.Releases (op : IoOp) (s s' : Io) : Prop where
  own : ∀ chan, s.mutexes.mutex chan = true → s'.mutexes.mutex chan = false →
    chan ∈ s.held s.runner
  last : ∀ chan, op = .raise → (s.held s.runner).head? = some chan →
    s'.mutexes.mutex = update s.mutexes.mutex chan false

/-- The latest use of a lock was that the running thread took it, or there was
none since the last release and the thread holds no channel. -/
def Io.LatestIsOwn (s : Io) : Prop :=
  match s.recent with
  | some (t, _) => t = s.runner
  | none => s.held s.runner = []

namespace Io

structure Inv (s : Io) : Prop where
  last : s.mutexes.lastChannelLocked = (s.recent.map Prod.snd).getD 0
  recent : ∀ t chan, s.recent = some (t, chan) → (s.held t).head? = some chan
  locked : ∀ chan, s.mutexes.mutex chan = true ↔ ∃ t, chan ∈ s.held t
  apart : ∀ t u chan, chan ∈ s.held t → chan ∈ s.held u → t = u
  pos : ∀ t, 0 ∉ s.held t

variable {s s' : Io} {op : IoOp} {chan t : ℕ}

theorem Inv.of_init (b : Boot) : (init b).Inv := by
  refine ⟨rfl, ?_, ?_, ?_, ?_⟩ <;> simp [init]

theorem Inv.congr (h : s.Inv) (hm : s'.mutexes = s.mutexes) (hh : s'.held = s.held)
    (hr : s'.recent = s.recent) : s'.Inv := by
  cases s
  cases s'
  cases hm
  cases hh
  cases hr
  exact ⟨h.last, h.recent, h.locked, h.apart, h.pos⟩

theorem Inv.lock (h : s.Inv) (hc : chan ≠ 0) (hl : s.mutexes.mutex chan = false)
    (hm : s'.mutexes = ⟨update s.mutexes.mutex chan true, chan⟩)
    (hh : s'.held = update s.held t (chan :: s.held t)) (hr : s'.recent = some (t, chan)) :
    s'.Inv := by
  have hfree : ∀ u, chan ∉ s.held u := by
    intro u hu
    have hx := (h.locked chan).mpr ⟨u, hu⟩
    rw [hl] at hx
    cases hx
  have hmem : ∀ c u, c ∈ s'.held u ↔ (c = chan ∧ u = t) ∨ c ∈ s.held u := by
    intro c u
    by_cases hu : u = t <;> simp [hh, hu]
  refine ⟨?_, ?_, ?_, ?_, ?_⟩
  · simp [hm, hr]
  · intro u c hc
    rw [hr] at hc
    cases hc
    simp [hh]
  · intro c
    simp only [hm, hmem]
    by_cases hcc : c = chan
    · simp [hcc]
    · simpa [hcc] using h.locked c
  · intro u v c hu hv
    rw [hmem] at hu hv
    rcases hu with ⟨rfl, rfl⟩ | hu <;> rcases hv with ⟨he, rfl⟩ | hv
    · rfl
    · exact absurd hv (hfree v)
    · exact absurd (he ▸ hu) (hfree u)
    · exact h.apart u v c hu hv
  · intro u hu
    rcases (hmem 0 u).mp hu with hu | hu
    · exact hc hu.1.symm
    · exact h.pos u hu

theorem Inv.release {m : Mutexes} (h : s.Inv) (hl : m.lastChannelLocked = 0)
    (hm : ∀ c, m.mutex c = true → s.mutexes.mutex c = true) : (s.release m).Inv := by
  refine ⟨hl, ?_, ?_, ?_, ?_⟩
  · intro t c hc
    cases hc
  · intro c
    simp only [Io.release, mem_filter, exists_and_right, ← h.locked c]
    exact ⟨fun hx ↦ ⟨hm c hx, hx⟩, And.right⟩
  · intro t u c ht hu
    exact h.apart t u c (mem_filter.mp ht).1 (mem_filter.mp hu).1
  · intro t ht
    exact h.pos t (mem_filter.mp ht).1

theorem step_inv (h : s.Inv) (hc : s.step op = some s') : s'.Inv := by
  cases op with
  | thread op =>
    simp only [step] at hc
    split_ifs at hc
    obtain ⟨w, -, rfl⟩ := Option.map_eq_some_iff.mp hc
    exact h.congr rfl rfl rfl
  | lock chan =>
    simp only [step] at hc
    split_ifs at hc with hw
    by_cases hl : s.mutexes.mutex chan = false
    · simp only [Mutexes.camlIoMutexLock, if_pos hl] at hc
      obtain rfl := Option.some.inj hc
      exact h.lock hw.1 hl rfl rfl rfl
    · simp only [Mutexes.camlIoMutexLock, if_neg hl] at hc
      obtain ⟨w, -, rfl⟩ := Option.map_eq_some_iff.mp hc
      exact h.congr rfl rfl rfl
  | unlock chan =>
    simp only [step] at hc
    split_ifs at hc with hw
    obtain rfl := Option.some.inj hc
    refine h.release rfl fun c ↦ ?_
    by_cases hcc : c = chan <;> simp [Mutexes.camlIoMutexUnlock, hcc]
  | raise =>
    simp only [step] at hc
    split_ifs at hc with hw
    obtain rfl := Option.some.inj hc
    unfold Mutexes.camlIoMutexUnlockExn
    split_ifs with hl
    · refine h.release rfl fun c ↦ ?_
      by_cases hcc : c = s.mutexes.lastChannelLocked <;> simp [Mutexes.camlIoMutexUnlock, hcc]
    · exact h.release (not_not.mp hl) fun c hx ↦ hx

theorem Inv.unlockExn_none (h : s.Inv) (hr : s.recent = none) :
    s.mutexes.camlIoMutexUnlockExn = s.mutexes := by
  have hl := h.last
  rw [hr] at hl
  exact if_neg (not_not.mpr hl)

theorem Inv.unlockExn_some (h : s.Inv) (hr : s.recent = some (t, chan)) :
    s.mutexes.camlIoMutexUnlockExn.mutex = update s.mutexes.mutex chan false := by
  have hl := h.last
  have hmem : chan ∈ s.held t := mem_of_mem_head? (h.recent t chan hr)
  have hne : chan ≠ 0 := fun he ↦ h.pos t (he ▸ hmem)
  rw [hr] at hl
  simp only [Option.map_some, Option.getD_some] at hl
  rw [Mutexes.camlIoMutexUnlockExn, hl, if_pos hne]
  rfl

theorem Inv.raise_none (h : s.Inv) (hm : s'.mutexes = s.mutexes.camlIoMutexUnlockExn)
    (hr : s.recent = none) : IoOp.raise.Releases s s' ↔ s.held s.runner = [] := by
  rw [h.unlockExn_none hr] at hm
  constructor
  · intro hx
    cases hh : s.held s.runner with
    | nil => rfl
    | cons chan l =>
      have hset : s.mutexes.mutex chan = true := (h.locked chan).mpr ⟨s.runner, hh ▸ mem_cons_self⟩
      have hclear := congrFun (hx.last chan rfl (by rw [hh, head?_cons])) chan
      rw [hm, hset, update_self] at hclear
      cases hclear
  · intro hh
    refine ⟨fun chan hs hu ↦ ?_, fun chan _ hd ↦ ?_⟩
    · rw [hm, hs] at hu
      cases hu
    · rw [hh] at hd
      cases hd

theorem Inv.raise_some (h : s.Inv) (hm : s'.mutexes = s.mutexes.camlIoMutexUnlockExn)
    (hr : s.recent = some (t, chan)) : IoOp.raise.Releases s s' ↔ t = s.runner := by
  have hu := h.unlockExn_some hr
  have hd := h.recent t chan hr
  have hmem : chan ∈ s.held t := mem_of_mem_head? hd
  rw [← hm] at hu
  constructor
  · intro hx
    have hset : s.mutexes.mutex chan = true := (h.locked chan).mpr ⟨t, hmem⟩
    have hclear : s'.mutexes.mutex chan = false := by rw [hu, update_self]
    exact h.apart t _ chan hmem (hx.own chan hset hclear)
  · intro he
    subst he
    refine ⟨fun c hs hc ↦ ?_, fun c _ hc ↦ ?_⟩
    · by_cases hcc : c = chan
      · exact hcc ▸ hmem
      · rw [hu, update_of_ne hcc, hs] at hc
        cases hc
    · rw [hd] at hc
      cases hc
      exact hu

theorem releases_of_ne (hop : op ≠ .raise)
    (hown : ∀ c, s.mutexes.mutex c = true → s'.mutexes.mutex c = false → c ∈ s.held s.runner) :
    op.Releases s s' ↔ (op = .raise → s.LatestIsOwn) :=
  iff_of_true ⟨hown, fun _ hx ↦ absurd hx hop⟩ fun hx ↦ absurd hx hop

theorem releases_iff (h : s.Inv) (hc : s.step op = some s') :
    op.Releases s s' ↔ (op = .raise → s.LatestIsOwn) := by
  cases op with
  | thread op =>
    simp only [step] at hc
    split_ifs at hc
    obtain ⟨w, -, rfl⟩ := Option.map_eq_some_iff.mp hc
    apply releases_of_ne IoOp.noConfusion
    intro c hs hu
    cases hs.symm.trans hu
  | lock chan =>
    simp only [step] at hc
    split_ifs at hc with hw
    apply releases_of_ne IoOp.noConfusion
    intro c hs hu
    by_cases hl : s.mutexes.mutex chan = false
    · simp only [Mutexes.camlIoMutexLock, if_pos hl] at hc
      obtain rfl := Option.some.inj hc
      have hcc : c ≠ chan := by
        intro he
        subst he
        cases hs.symm.trans hl
      have hx : update s.mutexes.mutex chan true c = false := hu
      rw [update_of_ne hcc] at hx
      cases hs.symm.trans hx
    · simp only [Mutexes.camlIoMutexLock, if_neg hl] at hc
      obtain ⟨w, -, rfl⟩ := Option.map_eq_some_iff.mp hc
      cases hs.symm.trans hu
  | unlock chan =>
    simp only [step] at hc
    split_ifs at hc with hw
    obtain rfl := Option.some.inj hc
    apply releases_of_ne IoOp.noConfusion
    intro c hs hu
    by_cases hcc : c = chan
    · exact hcc ▸ hw.2
    · simp only [release, Mutexes.camlIoMutexUnlock, update_of_ne hcc] at hu
      cases hs.symm.trans hu
  | raise =>
    simp only [step] at hc
    split_ifs at hc with hw
    obtain rfl := Option.some.inj hc
    simp only [forall_const, LatestIsOwn]
    cases hr : s.recent with
    | none => exact h.raise_none rfl hr
    | some p => exact h.raise_some rfl hr

/-- All channels are released as they should be throughout a run exactly if
every thread that raises was the latest to use a lock, and used it to lock, or
holds no channel while none was locked since the last release. -/
theorem channels_released_iff (b : Boot) (ops : List IoOp) :
    (∀ p op, p ++ [op] <+: ops → ∀ s s', run step (init b) p = some s → s.step op = some s' →
      op.Releases s s') ↔
    ∀ p op, p ++ [op] <+: ops → ∀ s s', run step (init b) p = some s → s.step op = some s' →
      op = .raise → s.LatestIsOwn := by
  have hinv : ∀ p s, run step (init b) p = some s → s.Inv := fun p s hs ↦
    run_invariant (Inv.of_init b) (fun _ _ _ hI hc ↦ step_inv hI hc) hs
  constructor
  · intro h p op hp s s' hs hc
    exact (releases_iff (hinv p s hs) hc).mp (h p op hp s s' hs hc)
  · intro h p op hp s s' hs hc
    exact (releases_iff (hinv p s hs) hc).mpr (h p op hp s s' hs hc)

theorem step_raise (hw : s.waiting s.runner = none) :
    s.step .raise = some (s.release s.mutexes.camlIoMutexUnlockExn) := if_pos hw

/-- A thread that raises with channel 1 locked releases channel 2 of another
thread. -/
theorem channels_released_wrong : ¬ ∀ (b : Boot) (s : Io), Reachable b s → ∀ op s',
    s.step op = some s' → op.Releases s s' := by
  intro h
  have hw : (after .small [.lock 1, .thread (.create 9 4200 65536), .lock 2,
      .thread .schedule]).waiting (after .small [.lock 1, .thread (.create 9 4200 65536), .lock 2,
      .thread .schedule]).runner = none := by decide +kernel
  have hown := (h .small _ (reachable_after _ _) .raise _ (step_raise hw)).own 2
    (by decide +kernel) (by decide +kernel)
  exact absurd hown (by decide +kernel)

end Io

end OcamlRpi.Thread
