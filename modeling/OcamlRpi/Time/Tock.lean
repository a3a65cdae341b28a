import Mathlib.Algebra.Ring.Nat
import OcamlRpi.Support.Run

namespace OcamlRpi.Time.Tock

open Support List

def TICKS_PER_TOCK : ℕ := 1000000

/-- Where the code is: in `caml_time_init`, which has read `lo` from `TIMER_CLO`,
before it stores to `TIMER_C1`, clears the flag and enables the interrupt; in the
program; or in `time_irq_timer1`, before it moves `TIMER_C1`, clears the flag and
calls `caml_record_signal`. -/
inductive Point where
  | start (lo : BitVec 32)
  | clear
  | enable
  | program
  | move
  | acknowledge
  | record
deriving DecidableEq

/-- `now` is the time in microseconds, of which `TIMER_CLO` has the low half, and
`match1` the flag `MATCH1` in `TIMER_CS`. -/
structure State where
  now : ℕ
  c1 : BitVec 32
  match1 : Bool
  point : Point
  signals : ℕ
deriving DecidableEq

/-- A microsecond passes, the CPU takes the interrupt, or the code goes on. -/
inductive Event where
  | tick
  | irq
  | cpu
deriving DecidableEq

def step (s : State) : Event → Option State
  | .tick =>
    some { s with now := s.now + 1, match1 := s.match1 || decide (BitVec.ofNat 32 (s.now + 1) = s.c1) }
  | .irq => if s.match1 ∧ s.point = .program then some { s with point := .move } else none
  | .cpu =>
    match s.point with
    | .start lo => some { s with c1 := lo + BitVec.ofNat 32 TICKS_PER_TOCK, point := .clear }
    | .clear => some { s with match1 := false, point := .enable }
    | .enable => some { s with point := .program }
    | .program => none
    | .move => some { s with c1 := s.c1 + BitVec.ofNat 32 TICKS_PER_TOCK, point := .acknowledge }
    | .acknowledge => some { s with match1 := false, point := .record }
    | .record => some { s with signals := s.signals + 1, point := .program }

/-- `caml_time_init` has read the time `t`. What the registers held is left from
before. -/
def init (t : ℕ) (c1 : BitVec 32) (match1 : Bool) : State := ⟨t, c1, match1, .start (BitVec.ofNat 32 t), 0⟩

/-- The interrupts that are taken and not yet recorded. -/
def Point.serving : Point → ℕ
  | .move | .acknowledge | .record => 1
  | _ => 0

/-- The flag is one of a tock for which no interrupt is taken yet. -/
def Point.listens : Point → Bool
  | .enable | .program | .record => true
  | _ => false

namespace State

variable (s : State)

def pending : ℕ := s.point.serving + (s.point.listens && s.match1).toNat

/-- Since the time `t`, every tock is recorded or pending, once. -/
def Counts (t : ℕ) : Prop := (s.now - t) / TICKS_PER_TOCK = s.signals + s.pending

/-- The timer is set up, and the flag of the last tock is cleared. -/
def Ready : Prop := s.point.listens ∧ s.match1 = false

end State

/-- When the next tock comes, the flag of the last one is cleared. -/
def InTime (t : ℕ) (s : State) (e : Event) : Prop := e = .tick → TICKS_PER_TOCK ∣ s.now + 1 - t → s.Ready

/-- The tocks that `TIMER_C1` is ahead of those recorded, but for the next one. -/
def Point.moved : Point → ℕ
  | .acknowledge | .record => 1
  | _ => 0

structure Inv (t : ℕ) (s : State) : Prop where
  le_now : t ≤ s.now
  started : ∀ lo, s.point = .start lo → lo = BitVec.ofNat 32 t ∧ s.signals = 0
  compare : (∀ lo, s.point ≠ .start lo) →
    s.c1 = BitVec.ofNat 32 (t + (s.signals + 1 + s.point.moved) * TICKS_PER_TOCK)
  raised : s.point = .move ∨ s.point = .acknowledge → s.match1

variable {t : ℕ} {s u : State} {e : Event} {l : List Event} {c1 : BitVec 32} {match1 : Bool}

theorem init_inv : Inv t (init t c1 match1) where
  le_now := le_rfl
  started lo h := ⟨(Point.start.inj h).symm, rfl⟩
  compare h := absurd rfl (h _)
  raised h := by rcases h with h | h <;> cases h

theorem init_counts : (init t c1 match1).Counts t := by
  rw [State.Counts, init, Nat.sub_self, Nat.zero_div]
  rfl

/-- The timer compares the low half only, and yet the flag is set by the next tock
and not before. -/
theorem match_iff {now k : ℕ} (ht : t ≤ now) (hk : (now - t) / TICKS_PER_TOCK = k) :
    BitVec.ofNat 32 (now + 1) = BitVec.ofNat 32 (t + (k + 1) * TICKS_PER_TOCK) ↔ TICKS_PER_TOCK ∣ now + 1 - t := by
  have hT : TICKS_PER_TOCK = 1000000 := rfl
  rw [hT] at hk ⊢
  rw [← BitVec.toNat_inj, BitVec.toNat_ofNat, BitVec.toNat_ofNat]
  constructor <;> intro h <;> omega

theorem Inv.cpu (h : Inv t s) (hs : step s .cpu = some u) : Inv t u := by
  obtain ⟨now, c1, m, point, signals⟩ := s
  have hmove (k : ℕ) : BitVec.ofNat 32 (t + k * TICKS_PER_TOCK) + BitVec.ofNat 32 TICKS_PER_TOCK =
      BitVec.ofNat 32 (t + (k + 1) * TICKS_PER_TOCK) := by
    rw [← BitVec.ofNat_add, Nat.add_assoc, ← Nat.succ_mul]
  cases point with
  | start lo =>
    obtain rfl := Option.some.inj hs
    obtain ⟨rfl, rfl⟩ : lo = BitVec.ofNat 32 t ∧ signals = 0 := h.started lo rfl
    exact ⟨h.le_now, nofun, fun _ ↦ by simpa [Point.moved] using hmove 0, by simp⟩
  | clear =>
    obtain rfl := Option.some.inj hs
    exact ⟨h.le_now, nofun, fun _ ↦ h.compare nofun, by simp⟩
  | enable =>
    obtain rfl := Option.some.inj hs
    exact ⟨h.le_now, nofun, fun _ ↦ h.compare nofun, by simp⟩
  | program => cases hs
  | move =>
    obtain rfl := Option.some.inj hs
    have hc : c1 = BitVec.ofNat 32 (t + (signals + 1) * TICKS_PER_TOCK) := h.compare nofun
    refine ⟨h.le_now, nofun, fun _ ↦ ?_, fun _ ↦ h.raised (.inl rfl)⟩
    rw [hc]
    exact hmove (signals + 1)
  | acknowledge =>
    obtain rfl := Option.some.inj hs
    exact ⟨h.le_now, nofun, fun _ ↦ h.compare nofun, by simp⟩
  | record =>
    obtain rfl := Option.some.inj hs
    exact ⟨h.le_now, nofun, fun _ ↦ h.compare nofun, by simp⟩

theorem Inv.step (h : Inv t s) (hs : step s e = some u) : Inv t u := by
  cases e with
  | cpu => exact h.cpu hs
  | tick =>
    obtain rfl := Option.some.inj hs
    exact ⟨Nat.le_succ_of_le h.le_now, h.started, h.compare, fun hp ↦ by simp [h.raised hp]⟩
  | irq =>
    obtain ⟨⟨hm, hp⟩, rfl⟩ : (s.match1 ∧ s.point = .program) ∧ { s with point := .move } = u := by
      simpa [Tock.step] using hs
    have hc := h.compare (by simp [hp])
    rw [hp] at hc
    exact ⟨h.le_now, nofun, fun _ ↦ hc, fun _ ↦ hm⟩

/-- The next tock raises the flag, if it is not raised already. -/
theorem tick_ready (h : Inv t s) (hc : s.Counts t) (hr : s.Ready) :
    BitVec.ofNat 32 (s.now + 1) = s.c1 ↔ TICKS_PER_TOCK ∣ s.now + 1 - t := by
  obtain ⟨hl, hm⟩ := hr
  have hserving : s.point.serving = s.point.moved := by
    cases hp : s.point <;> simp_all [Point.listens, Point.serving, Point.moved]
  have hstart (lo : BitVec 32) : s.point ≠ .start lo := fun hp ↦ by simp [hp, Point.listens] at hl
  have hk : (s.now - t) / TICKS_PER_TOCK = s.signals + s.point.moved := by
    simpa [State.Counts, State.pending, hm, hserving] using hc
  rw [h.compare hstart, Nat.add_right_comm]
  exact match_iff h.le_now hk

theorem counts_tick (h : Inv t s) (hc : s.Counts t) (hs : step s .tick = some u) :
    u.Counts t ↔ InTime t s .tick := by
  obtain rfl := Option.some.inj hs
  have hsucc : (s.now + 1 - t) / TICKS_PER_TOCK =
      (s.now - t) / TICKS_PER_TOCK + if TICKS_PER_TOCK ∣ s.now + 1 - t then 1 else 0 := by
    rw [Nat.sub_add_comm h.le_now, Nat.succ_div]
  have htick := tick_ready h hc
  rw [State.Counts, State.pending] at hc
  change (s.now + 1 - t) / TICKS_PER_TOCK = s.signals + (s.point.serving + (s.point.listens &&
    (s.match1 || decide (BitVec.ofNat 32 (s.now + 1) = s.c1))).toNat) ↔ _
  rw [hsucc, hc]
  by_cases hr : s.Ready
  · refine iff_of_true ?_ fun _ _ ↦ hr
    rw [hr.1, hr.2, Bool.false_or, Bool.true_and, Bool.true_and, Bool.toNat_false]
    by_cases hd : TICKS_PER_TOCK ∣ s.now + 1 - t
    · rw [if_pos hd, decide_eq_true ((htick hr).mpr hd), Bool.toNat_true, Nat.add_assoc]
    · rw [if_neg hd, decide_eq_false (mt (htick hr).mp hd), Bool.toNat_false, Nat.add_zero (_ + _)]
  · have hflag (b : Bool) : (s.point.listens && (s.match1 || b)) = (s.point.listens && s.match1) := by
      cases hl : s.point.listens with
      | false => rfl
      | true =>
        have hm : s.match1 = true := eq_true_of_ne_false fun hm ↦ hr ⟨hl, hm⟩
        rw [hm]
        rfl
    rw [hflag, Nat.add_eq_left]
    by_cases hd : TICKS_PER_TOCK ∣ s.now + 1 - t
    · rw [if_pos hd]
      exact iff_of_false Nat.one_ne_zero fun h ↦ hr (h rfl hd)
    · rw [if_neg hd]
      exact iff_of_true rfl fun _ hd' ↦ absurd hd' hd

theorem counts_of (hc : s.Counts t) (hn : u.now = s.now) (hp : u.signals + u.pending = s.signals + s.pending) :
    u.Counts t := by
  rw [State.Counts, hn, hp]
  exact hc

/-- Nothing but the passing of time adds to the tocks. -/
theorem counts_other (hc : s.Counts t) (he : e ≠ .tick) (hs : step s e = some u) : u.Counts t := by
  cases e with
  | tick => exact absurd rfl he
  | irq =>
    obtain ⟨⟨hm, hp⟩, rfl⟩ : (s.match1 ∧ s.point = .program) ∧ { s with point := .move } = u := by
      simpa [Tock.step] using hs
    exact counts_of hc rfl (by simp [State.pending, hp, hm, Point.serving, Point.listens])
  | cpu =>
    obtain ⟨now, c1, m, point, signals⟩ := s
    cases point with
    | program => cases hs
    | acknowledge =>
      obtain rfl := Option.some.inj hs
      exact counts_of hc rfl (by simp [State.pending, Point.serving, Point.listens])
    | record =>
      obtain rfl := Option.some.inj hs
      exact counts_of hc rfl (by simp [State.pending, Point.serving, Point.listens, Nat.add_assoc])
    | _ =>
      obtain rfl := Option.some.inj hs
      exact counts_of hc rfl (by simp [State.pending, Point.serving, Point.listens])

/-- No tock is lost and none is counted twice, and the tocks come at multiples of
their length from the start, as long as the flag of each is cleared before the
next one comes. -/
theorem tocks_counted (t : ℕ) (c1 : BitVec 32) (match1 : Bool) (l : List Event) :
    (∀ p, p <+: l → ∀ s, run step (init t c1 match1) p = some s → s.Counts t) ↔
      ∀ p e, p ++ [e] <+: l → ∀ s u, run step (init t c1 match1) p = some s → step s e = some u → InTime t s e := by
  refine run_forall_iff (I := Inv t) init_inv init_counts (fun s e u ↦ Inv.step) fun s e u h hc hs ↦ ?_
  by_cases he : e = .tick
  · subst he
    exact counts_tick h hc hs
  · exact iff_of_true (counts_other hc he hs) fun h ↦ absurd h he

end OcamlRpi.Time.Tock
