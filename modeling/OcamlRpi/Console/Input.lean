import OcamlRpi.Console.Uart
import OcamlRpi.Support.Schedule

namespace OcamlRpi.Console.Input

open Support List

/-- Where a call of `getc` is: before its next read of `UART0_FR`, or before its
read of `UART0_DR`. -/
inductive Point where
  | poll
  | read
deriving DecidableEq

/-- A program that calls `getc` again and again, and what it got. -/
structure State where
  uart : Uart
  point : Point
  got : List UInt8

/-- The CPU executes its next access to the UART, or a character comes in. -/
inductive Event where
  | cpu
  | arrive (c : UInt8)
deriving DecidableEq

def step (s : State) : Event → State
  | .cpu =>
    match s.point with
    | .poll =>
      let r := s.uart.mmioRead UART0_FR
      if r.1 &&& bit 4 = 0 then { s with point := .read, uart := r.2 } else { s with uart := r.2 }
    | .read =>
      let r := s.uart.mmioRead UART0_DR
      ⟨r.2, .poll, s.got ++ [r.1.toUInt8]⟩
  | .arrive c => { s with uart := s.uart.receive c }

def start (u : Uart) : State := ⟨u, .poll, []⟩

/-- The characters that come in. -/
def arrived (es : List Event) : List UInt8 := es.filterMap fun e ↦ match e with
  | .cpu => none
  | .arrive c => some c

/-- Of the characters that come in, those that find fewer than `d` waiting. -/
def fitting (d : ℕ) : State → List Event → List UInt8
  | _, [] => []
  | s, .cpu :: es => fitting d (step s .cpu) es
  | s, .arrive c :: es => (if s.uart.rx.length < d then [c] else []) ++ fitting d (step s (.arrive c)) es

/-- The characters that the program got or that wait for it. -/
def State.kept (s : State) : List UInt8 := s.got ++ s.uart.rx

/-- The program reads the data register only when a character is there. -/
def Waits (d : ℕ) (s : State) : Prop := s.uart.depth = d ∧ (s.point = .read → s.uart.rx ≠ [])

variable {u : Uart} {s : State} {c : UInt8} {cs : List UInt8} {es : List Event} {sched : ℕ → Event} {d : ℕ}

theorem step_poll (hp : s.point = .poll) : step s .cpu = if s.uart.rx = [] then s else { s with point := .read } := by
  obtain ⟨u, p, got⟩ := s
  obtain rfl : p = .poll := hp
  by_cases hr : u.rx = []
  · have hfr : u.fr &&& bit 4 ≠ 0 := Uart.fr_empty.mpr hr
    simp [step, hr, hfr]
  · have hfr : u.fr &&& bit 4 = 0 := not_ne_iff.mp (mt Uart.fr_empty.mp hr)
    simp [step, hr, hfr]

theorem step_read (hp : s.point = .read) (hr : s.uart.rx = c :: cs) :
    step s .cpu = ⟨{ s.uart with rx := cs }, .poll, s.got ++ [c]⟩ := by
  rw [step, hp]
  dsimp only
  rw [Uart.mmioRead_dr, hr]
  simp

theorem step_arrive (s : State) (c : UInt8) : step s (.arrive c) =
    if s.uart.depth ≤ s.uart.rx.length then s else { s with uart := { s.uart with rx := s.uart.rx ++ [c] } } := by
  rw [step, Uart.receive]
  split_ifs <;> rfl

theorem Waits.step (h : Waits d s) (v : Event) : Waits d (Input.step s v) := by
  obtain ⟨hd, hr⟩ := h
  cases v with
  | cpu =>
    cases hp : s.point with
    | poll =>
      rw [step_poll hp]
      split_ifs with he
      · exact ⟨hd, fun h ↦ absurd (hp.symm.trans h) (by decide)⟩
      · exact ⟨hd, fun _ ↦ he⟩
    | read =>
      obtain ⟨c, cs, he⟩ := exists_cons_of_ne_nil (hr hp)
      rw [step_read hp he]
      exact ⟨hd, nofun⟩
  | arrive c =>
    rw [step_arrive]
    split_ifs
    · exact ⟨hd, hr⟩
    · exact ⟨hd, fun _ ↦ by simp⟩

theorem kept_cpu (h : Waits d s) : (step s .cpu).kept = s.kept := by
  cases hp : s.point with
  | poll =>
    rw [step_poll hp]
    split_ifs <;> rfl
  | read =>
    obtain ⟨c, cs, he⟩ := exists_cons_of_ne_nil (h.2 hp)
    rw [step_read hp he, State.kept, State.kept, he, append_assoc, singleton_append]

theorem kept_arrive (h : Waits d s) (c : UInt8) :
    (step s (.arrive c)).kept = s.kept ++ if s.uart.rx.length < d then [c] else [] := by
  rw [step_arrive, h.1]
  by_cases hd : s.uart.rx.length < d
  · rw [if_neg (Nat.not_le.mpr hd), if_pos hd, State.kept, State.kept, append_assoc]
  · rw [if_pos (Nat.not_lt.mp hd), if_neg hd, append_nil]

/-- A character is kept exactly if it finds room. -/
theorem run_kept (h : Waits d s) (es : List Event) : (es.foldl step s).kept = s.kept ++ fitting d s es := by
  induction es generalizing s with
  | nil => exact (append_nil _).symm
  | cons e es ih =>
    rw [foldl_cons, ih (h.step e)]
    cases e with
    | cpu => rw [kept_cpu h, fitting]
    | arrive c => rw [kept_arrive h, fitting, append_assoc]

theorem fitting_sublist (d : ℕ) (s : State) (es : List Event) : fitting d s es <+ arrived es := by
  induction es generalizing s with
  | nil => exact .slnil
  | cons e es ih =>
    cases e with
    | cpu => exact ih _
    | arrive c =>
      have hc : (if s.uart.rx.length < d then [c] else []) <+ [c] := by
        split_ifs
        · exact Sublist.refl _
        · exact nil_sublist _
      exact hc.append (ih _)

/-- All characters are kept exactly if none comes while the FIFO is full. -/
theorem fitting_eq_iff (d : ℕ) (s : State) (es : List Event) : fitting d s es = arrived es ↔
    ∀ p c, p ++ [.arrive c] <+: es → (p.foldl step s).uart.rx.length < d := by
  induction es generalizing s with
  | nil =>
    refine iff_of_true rfl fun p c hp ↦ ?_
    exact absurd (prefix_nil.mp hp) (by simp)
  | cons e es ih =>
    have hsplit : (∀ p c, p ++ [.arrive c] <+: e :: es → (p.foldl step s).uart.rx.length < d) ↔
        (∀ c, e = .arrive c → s.uart.rx.length < d) ∧ fitting d (step s e) es = arrived es := by
      rw [ih]
      constructor
      · intro h
        refine ⟨fun c hc ↦ h [] c (by rw [hc]; exact ⟨es, rfl⟩), fun p c hp ↦ ?_⟩
        exact h (e :: p) c ((prefix_cons_inj e).mpr hp)
      · rintro ⟨h, hes⟩ p c hp
        cases p with
        | nil => exact h c (cons_prefix_cons.mp hp).1.symm
        | cons b p =>
          obtain ⟨rfl, hrest⟩ := cons_prefix_cons.mp hp
          exact hes p c hrest
    rw [hsplit]
    cases e with
    | cpu => exact ⟨fun h ↦ ⟨nofun, h⟩, And.right⟩
    | arrive c =>
      have harrived : arrived (.arrive c :: es) = c :: arrived es := rfl
      rw [fitting, harrived]
      by_cases hlt : s.uart.rx.length < d
      · rw [if_pos hlt]
        simp [hlt]
      · rw [if_neg hlt]
        refine iff_of_false (fun he ↦ ?_) fun h ↦ hlt (h.1 c rfl)
        have hle := (fitting_sublist d (step s (.arrive c)) es).length_le
        have hlen := congrArg length he
        rw [nil_append, length_cons] at hlen
        omega

theorem kept_step (h : Waits d s) (v : Event) : s.kept <+: (step s v).kept := by
  cases v with
  | cpu => rw [kept_cpu h]
  | arrive c =>
    rw [kept_arrive h]
    exact prefix_append _ _

/-- The accesses of the CPU until the program has got `n` characters, if they are there. -/
def State.left (n : ℕ) (s : State) : ℕ := 2 * (n - s.got.length) + if s.point = .poll ∧ s.got.length < n then 1 else 0

theorem left_cpu (h : Waits d s) (n : ℕ) :
    (step s .cpu).left n ≤ s.left n ∧ (n ≤ s.kept.length → ¬n ≤ s.got.length → (step s .cpu).left n < s.left n) := by
  have hlen : s.kept.length = s.got.length + s.uart.rx.length := length_append
  cases hp : s.point with
  | poll =>
    rw [step_poll hp]
    split_ifs with hr
    · have hr' : s.uart.rx.length = 0 := length_eq_zero_iff.mpr hr
      exact ⟨Nat.le_refl _, fun _ _ ↦ by omega⟩
    · simp only [State.left, hp]
      split_ifs <;> simp_all
  | read =>
    obtain ⟨c, cs, he⟩ := exists_cons_of_ne_nil (h.2 hp)
    rw [step_read hp he]
    simp only [State.left, hp, length_append, length_singleton]
    have hcur : ¬((Point.read = .poll) ∧ s.got.length < n) := fun h ↦ by cases h.1
    rw [if_neg hcur]
    by_cases hn : s.got.length + 1 < n
    · rw [if_pos ⟨trivial, hn⟩]
      omega
    · rw [if_neg fun h ↦ hn h.2]
      omega

theorem left_step (h : Waits d s) (n : ℕ) (v : Event) : (step s v).left n ≤ s.left n := by
  cases v with
  | cpu => exact (left_cpu h n).1
  | arrive c =>
    rw [step_arrive]
    split_ifs <;> exact Nat.le_refl _

/-- The program gets everything that is kept, if it goes on. -/
theorem reads_on (h : Waits d s) (hcpu : Recurs sched .cpu) : ∃ T, s.kept <+: (after step s sched T).got := by
  have hI (u : State) (v : Event) (hu : Waits d u ∧ s.kept <+: u.kept) : Waits d (step u v) ∧ s.kept <+: (step u v).kept :=
    ⟨hu.1.step v, hu.2.trans (kept_step hu.1 v)⟩
  obtain ⟨T, hT⟩ := after_descends (G := fun u ↦ s.kept.length ≤ u.got.length) ⟨h, prefix_rfl⟩ hI
    (fun u v hu ↦ left_step hu.1 s.kept.length v) (fun u hu hG ↦ (left_cpu hu.1 _).2 hu.2.length_le hG) hcpu
  obtain ⟨-, hpre⟩ := after_invariant ⟨h, prefix_rfl⟩ (fun u t ↦ hI u (sched t)) T
  exact ⟨T, prefix_of_prefix_length_le hpre (prefix_append _ _) hT⟩

/-- Whenever characters come in, what `getc` returns and what waits for it are the
characters that found fewer than sixteen waiting, in order, and none of them twice: a
character is lost exactly when it comes while sixteen wait. If the program goes on to
call `getc`, it gets all that is kept. -/
theorem input_kept (u : Uart) :
    (∀ es, (es.foldl step (start u.init)).kept = u.init.rx ++ fitting 16 (start u.init) es ∧
      fitting 16 (start u.init) es <+ arrived es ∧ (fitting 16 (start u.init) es = arrived es ↔
        ∀ p c, p ++ [.arrive c] <+: es → (p.foldl step (start u.init)).uart.rx.length < 16)) ∧
      ∀ sched, Recurs sched .cpu → ∀ t, ∃ T, t ≤ T ∧
        (after step (start u.init) sched t).kept <+: (after step (start u.init) sched T).got := by
  have hw : Waits 16 (start u.init) := ⟨u.init_depth, nofun⟩
  refine ⟨fun es ↦ ⟨run_kept hw es, fitting_sublist _ _ es, fitting_eq_iff _ _ es⟩, fun sched hcpu t ↦ ?_⟩
  have hwt : Waits 16 (after step (start u.init) sched t) := after_invariant hw (fun s i h ↦ h.step _) t
  obtain ⟨T, hT⟩ := reads_on hwt (hcpu.drop t)
  refine ⟨t + T, Nat.le_add_right t T, ?_⟩
  rwa [after_add]

theorem input_kept_small : ∀ t, ∃ T, t ≤ T ∧
    (after step (start (Uart.init ⟨0, 0, [], [], []⟩)) (fun t ↦ if t % 2 = 0 then .arrive 72 else .cpu) t).kept <+:
      (after step (start (Uart.init ⟨0, 0, [], [], []⟩)) (fun t ↦ if t % 2 = 0 then .arrive 72 else .cpu) T).got := by
  refine (input_kept ⟨0, 0, [], [], []⟩).2 _ fun t ↦ ⟨t + 1, ?_⟩
  rw [if_neg (by omega)]

end OcamlRpi.Console.Input
