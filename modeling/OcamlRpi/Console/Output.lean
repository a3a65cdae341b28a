import Mathlib.Data.Nat.Count
import OcamlRpi.Console.Uart
import OcamlRpi.Printf.Console
import OcamlRpi.Support.Schedule

namespace OcamlRpi.Console

open Support List

/-- Where a call of `putchar` is: before its next read of `UART0_FR`, or before
its write to `UART0_DR`. -/
inductive Point where
  | poll
  | write
deriving DecidableEq

/-- Code that calls `putchar` with the characters `todo` in turn. -/
structure Sender where
  todo : List UInt8
  point : Point
deriving DecidableEq

/-- The next access of `putchar` to the UART. -/
def Sender.putchar (p : Sender) (u : Uart) : Sender × Uart :=
  match p.todo, p.point with
  | [], _ => (p, u)
  | _ :: _, .poll =>
    let r := u.mmioRead UART0_FR
    if r.1 &&& bit 5 = 0 then ({ p with point := .write }, r.2) else (p, r.2)
  | c :: cs, .write => (⟨cs, .poll⟩, u.mmioWrite UART0_DR c.toUInt32)

/-- The line that `exception_irq_handler` prints. -/
def irqLine : List UInt8 := Printf.trace "exception_irq_handler"

/-- The program, and the call of `exception_irq_handler` if it is interrupted. -/
structure State where
  uart : Uart
  program : Sender
  handler : Option Sender
deriving DecidableEq

/-- The CPU executes its next access to the UART, the UART sends a character, or
the timer interrupts. -/
inductive Event where
  | cpu
  | line
  | irq
deriving DecidableEq

/-- The program before it prints the text `cs`. -/
def start (u : Uart) (cs : List UInt8) : State := ⟨u, ⟨cs, .poll⟩, none⟩

/-- An interrupt is not taken while the handler of another runs. -/
def step (s : State) : Event → State
  | .cpu =>
    match s.handler with
    | none => { s with program := (s.program.putchar s.uart).1, uart := (s.program.putchar s.uart).2 }
    | some ⟨[], _⟩ => { s with handler := none }
    | some h => { s with handler := some (h.putchar s.uart).1, uart := (h.putchar s.uart).2 }
  | .line => { s with uart := s.uart.transmit }
  | .irq => if s.handler = none then { s with handler := some ⟨irqLine, .poll⟩ } else s

/-- The text `cs` with the lines of `n` interrupts in it is `out`. Each of them
may have cost the character that comes next. -/
inductive Mixed (line : List UInt8) : ℕ → List UInt8 → List UInt8 → Prop
  | nil : Mixed line 0 [] []
  | char {n : ℕ} {cs out : List UInt8} (h : Mixed line n cs out) (c : UInt8) : Mixed line n (cs ++ [c]) (out ++ [c])
  | irq {n : ℕ} {cs out : List UInt8} (h : Mixed line n cs out) : Mixed line (n + 1) cs (out ++ line)
  | lost {n : ℕ} {cs out : List UInt8} (h : Mixed line n cs out) (c : UInt8) :
      Mixed line (n + 1) (cs ++ [c]) (out ++ line)

/-- What of `irqLine` the handler has sent. If it is between its read of the
flags and its write, there is room for the character. -/
def Sent (u : Uart) (sent : List UInt8) : Option Sender → Prop
  | none => sent = []
  | some h => irqLine = sent ++ h.todo ∧ (h.point = .write → ¬u.Full)

/-- Of the text `cs` the part `done` is sent, which is `out` with the lines of
`n` interrupts. If the program is between its read of the flags and its write,
there is room for the character, or an interrupt came since. -/
structure Inv (before cs : List UInt8) (n : ℕ) (done out sent : List UInt8) (s : State) : Prop where
  mixed : Mixed irqLine n done out
  todo : cs = done ++ s.program.todo
  output : s.uart.line ++ s.uart.tx = before ++ out ++ sent
  handler : Sent s.uart sent s.handler
  room : s.handler = none → s.program.point = .write →
    ¬s.uart.Full ∨ ∃ k pre, n = k + 1 ∧ out = pre ++ irqLine ∧ Mixed irqLine k done pre

def State.pending (s : State) : ℕ := if s.handler = none then 0 else 1

/-- How many interrupts are taken up to the time `t`: those that come while no handler
runs. -/
def taken (s : State) (sched : ℕ → Event) (t : ℕ) : ℕ :=
  t.count fun i ↦ sched i = .irq ∧ (after step s sched i).handler = none

variable {u : Uart} {s : State} {e : Event} {p : Sender} {c : UInt8} {before cs done out sent msg : List UInt8} {n : ℕ}
  {sched : ℕ → Event}

/-- Without interrupts the text goes out as it is. -/
theorem Mixed.eq_of_zero (h : Mixed msg 0 cs out) : out = cs := by
  generalize hn : 0 = n at h
  induction h with
  | nil => rfl
  | char _ c ih => rw [ih hn]
  | irq => exact absurd hn (Nat.succ_ne_zero _).symm
  | lost => exact absurd hn (Nat.succ_ne_zero _).symm

namespace Uart

theorem send_of_room (h : ¬u.Full) (c : UInt8) : u.send c = { u with tx := u.tx ++ [c] } := if_neg h

theorem send_of_full (h : u.Full) (c : UInt8) : u.send c = u := if_pos h

theorem transmit_cases (u : Uart) : u.transmit = u ∨
    ∃ c cs, u.tx = c :: cs ∧ u.transmit = { u with tx := cs, line := u.line ++ [c] } := by
  rw [transmit]
  split
  · exact .inl rfl
  · next c cs hc =>
    split_ifs
    · exact .inr ⟨c, cs, hc, rfl⟩
    · exact .inl rfl

theorem transmit_output (u : Uart) : u.transmit.line ++ u.transmit.tx = u.line ++ u.tx := by
  rcases u.transmit_cases with h | ⟨c, cs, hc, h⟩
  · rw [h]
  · rw [h, hc, append_assoc, singleton_append]

theorem transmit_room (h : ¬u.Full) : ¬u.transmit.Full := by
  rcases u.transmit_cases with ht | ⟨c, cs, hc, ht⟩
  · rwa [ht]
  · rw [Full, hc, length_cons] at h
    rw [ht]
    exact fun hf ↦ h (Nat.le_succ_of_le hf)

end Uart

theorem putchar_nil (h : p.todo = []) : p.putchar u = (p, u) := by
  obtain ⟨todo, point⟩ := p
  obtain rfl : todo = [] := h
  rfl

/-- What an access of `putchar` does. -/
theorem putchar_cases (p : Sender) (u : Uart) :
    (p.putchar u = (p, u) ∧ (p.todo = [] ∨ u.Full)) ∨
      (p.putchar u = (⟨p.todo, .write⟩, u) ∧ p.point = .poll ∧ ¬u.Full) ∨
        ∃ c cs, p.putchar u = (⟨cs, .poll⟩, u.send c) ∧ p.point = .write ∧ p.todo = c :: cs := by
  obtain ⟨todo, point⟩ := p
  cases todo with
  | nil => exact .inl ⟨rfl, .inl rfl⟩
  | cons c cs =>
    cases point with
    | write => exact .inr (.inr ⟨c, cs, congrArg (Prod.mk _) Uart.mmioWrite_dr, rfl, rfl⟩)
    | poll =>
      simp only [Sender.putchar, Uart.mmioRead_fr]
      by_cases hu : u.Full
      · exact .inl ⟨if_neg (Uart.fr_full.mpr hu), .inr hu⟩
      · exact .inr (.inl ⟨if_pos (not_not.mp (mt Uart.fr_full.mp hu)), trivial, hu⟩)

theorem poll_ne_write : Point.poll ≠ .write := by decide

theorem step_program (h : s.handler = none) :
    step s .cpu = { s with program := (s.program.putchar s.uart).1, uart := (s.program.putchar s.uart).2 } := by
  simp only [step, h]

theorem step_return {q : Point} (h : s.handler = some ⟨[], q⟩) : step s .cpu = { s with handler := none } := by
  simp only [step, h]

theorem step_handler (h : s.handler = some p) (hp : p.todo ≠ []) :
    step s .cpu = { s with handler := some (p.putchar s.uart).1, uart := (p.putchar s.uart).2 } := by
  obtain ⟨todo, point⟩ := p
  cases todo with
  | nil => exact absurd rfl hp
  | cons c cs => simp only [step, h]

namespace Inv

theorem program (h : Inv before cs n done out sent s) (hh : s.handler = none) :
    ∃ done out, Inv before cs n done out sent (step s .cpu) := by
  rw [step_program hh]
  obtain rfl : sent = [] := by simpa only [hh, Sent] using h.handler
  rcases putchar_cases s.program s.uart with ⟨hp, -⟩ | ⟨hp, -, hu⟩ | ⟨c, rest, hp, hw, hc⟩
  · rw [hp]
    exact ⟨done, out, h⟩
  · rw [hp]
    exact ⟨done, out, h.mixed, h.todo, h.output, h.handler, fun _ _ ↦ .inl hu⟩
  · rw [hp]
    have htodo : cs = done ++ [c] ++ rest := by rw [h.todo, hc, append_assoc, singleton_append]
    have hsent (v : Uart) : Sent v [] s.handler := by rw [hh, Sent]
    by_cases hu : s.uart.Full
    · rw [Uart.send_of_full hu]
      obtain ⟨k, pre, rfl, rfl, hk⟩ := (h.room hh hw).resolve_left (not_not.mpr hu)
      exact ⟨done ++ [c], pre ++ irqLine, hk.lost c, htodo, h.output, hsent _, fun _ hq ↦ absurd hq poll_ne_write⟩
    · rw [Uart.send_of_room hu]
      refine ⟨done ++ [c], out ++ [c], h.mixed.char c, htodo, ?_, hsent _, fun _ hq ↦ absurd hq poll_ne_write⟩
      have hout := h.output
      rw [append_nil] at hout ⊢
      rw [← append_assoc, hout, append_assoc]

theorem handled (h : Inv before cs n done out sent s) (hh : s.handler = some p) (hp : p.todo ≠ []) :
    ∃ sent, Inv before cs n done out sent (step s .cpu) := by
  rw [step_handler hh hp]
  obtain ⟨hline, hroom⟩ : irqLine = sent ++ p.todo ∧ (p.point = .write → ¬s.uart.Full) := by
    simpa only [hh, Sent] using h.handler
  rcases putchar_cases p s.uart with ⟨hq, -⟩ | ⟨hq, -, hu⟩ | ⟨c, rest, hq, hw, hc⟩
  · rw [hq]
    exact ⟨sent, h.mixed, h.todo, h.output, ⟨hline, hroom⟩, nofun⟩
  · rw [hq]
    exact ⟨sent, h.mixed, h.todo, h.output, ⟨hline, fun _ ↦ hu⟩, nofun⟩
  · rw [hq, Uart.send_of_room (hroom hw)]
    refine ⟨sent ++ [c], h.mixed, h.todo, ?_, ⟨?_, fun hq ↦ absurd hq poll_ne_write⟩, nofun⟩
    · rw [← append_assoc, h.output, append_assoc]
    · rw [hline, hc, append_assoc, singleton_append]

theorem returned {q : Point} (h : Inv before cs n done out sent s) (hh : s.handler = some ⟨[], q⟩) :
    Inv before cs (n + 1) done (out ++ irqLine) [] (step s .cpu) := by
  rw [step_return hh]
  obtain ⟨hline, -⟩ : irqLine = sent ++ [] ∧ (q = .write → ¬s.uart.Full) := by
    simpa only [hh, Sent] using h.handler
  rw [append_nil] at hline
  refine ⟨h.mixed.irq, h.todo, ?_, rfl, fun _ _ ↦ .inr ⟨n, out, rfl, rfl, h.mixed⟩⟩
  rw [hline, append_nil, ← append_assoc]
  exact h.output

theorem line (h : Inv before cs n done out sent s) : Inv before cs n done out sent (step s .line) := by
  refine ⟨h.mixed, h.todo, (Uart.transmit_output _).trans h.output, ?_, fun hh hw ↦ ?_⟩
  · have hs := h.handler
    change Sent s.uart.transmit sent s.handler
    cases hh : s.handler with
    | none => rwa [hh] at hs
    | some p =>
      rw [hh] at hs
      exact ⟨hs.1, fun hw ↦ Uart.transmit_room (hs.2 hw)⟩
  · exact (h.room hh hw).imp_left Uart.transmit_room

theorem irq (h : Inv before cs n done out sent s) : Inv before cs n done out sent (step s .irq) := by
  rw [step]
  split_ifs with hh
  · obtain rfl : sent = [] := by simpa only [hh, Sent] using h.handler
    exact ⟨h.mixed, h.todo, h.output, ⟨rfl, fun hw ↦ absurd hw poll_ne_write⟩, nofun⟩
  · exact h

/-- A step keeps the invariant, and an interrupt that is taken adds to the number of
those that are handled or pending. -/
theorem step (h : Inv before cs n done out sent s) (e : Event) :
    ∃ k done out sent, Inv before cs k done out sent (Console.step s e) ∧
      k + (Console.step s e).pending = n + s.pending + if e = .irq ∧ s.handler = none then 1 else 0 := by
  cases e with
  | line => exact ⟨n, done, out, sent, h.line, rfl⟩
  | irq =>
    refine ⟨n, done, out, sent, h.irq, ?_⟩
    by_cases hh : s.handler = none
    · simp [Console.step, State.pending, hh]
    · simp [Console.step, State.pending, hh]
  | cpu =>
    rw [if_neg fun h ↦ nomatch h.1]
    cases hh : s.handler with
    | none =>
      obtain ⟨done', out', h'⟩ := h.program hh
      refine ⟨n, done', out', sent, h', ?_⟩
      rw [step_program hh]
      rfl
    | some p =>
      obtain ⟨todo, point⟩ := p
      have hs : s.pending = 1 := by
        rw [State.pending, hh]
        rfl
      cases todo with
      | nil =>
        refine ⟨n + 1, done, out ++ irqLine, [], h.returned hh, ?_⟩
        rw [step_return hh, hs]
        rfl
      | cons c rest =>
        obtain ⟨sent', h'⟩ := h.handled hh (by simp)
        refine ⟨n, done, out, sent', h', ?_⟩
        rw [step_handler hh (by simp), hs]
        rfl

end Inv

theorem start_inv (u : Uart) (cs : List UInt8) : Inv (u.line ++ u.tx) cs 0 [] [] [] (start u cs) :=
  ⟨.nil, rfl, by simp [start], rfl, fun _ hw ↦ absurd hw poll_ne_write⟩

/-- At every time, what was sent is a part of the text with the lines of the
interrupts so far. -/
theorem run_inv (u : Uart) (cs : List UInt8) (sched : ℕ → Event) (t : ℕ) :
    ∃ n done out sent, Inv (u.line ++ u.tx) cs n done out sent (after step (start u cs) sched t) ∧
      n + (after step (start u cs) sched t).pending = taken (start u cs) sched t := by
  induction t with
  | zero => exact ⟨0, [], [], [], start_inv u cs, rfl⟩
  | succ t ih =>
    obtain ⟨n, done, out, sent, h, hn⟩ := ih
    obtain ⟨k, done', out', sent', h', hk⟩ := h.step (sched t)
    refine ⟨k, done', out', sent', h', ?_⟩
    rw [taken, Nat.count_succ, ← taken, ← hn]
    exact hk

/-- The accesses and transmissions that are left to do. -/
def Sender.left (p : Sender) : ℕ := 3 * p.todo.length + if p.point = .poll then 1 else 0

def State.left (s : State) : ℕ :=
  s.program.left + (match s.handler with | none => 0 | some h => h.left + 1) + s.uart.tx.length

def State.Done (s : State) : Prop := s.program.todo = [] ∧ s.handler = none ∧ s.uart.tx = []

theorem putchar_left (p : Sender) (u : Uart) :
    p.putchar u = (p, u) ∨ (p.putchar u).1.left + (p.putchar u).2.tx.length < p.left + u.tx.length := by
  rcases putchar_cases p u with ⟨hp, -⟩ | ⟨hp, hw, -⟩ | ⟨c, rest, hp, hw, hc⟩
  · exact .inl hp
  · right
    rw [hp, Sender.left, Sender.left, if_neg poll_ne_write.symm, if_pos hw]
    dsimp only
    omega
  · right
    have hsend : (u.send c).tx.length ≤ u.tx.length + 1 := by
      rw [Uart.send]
      split_ifs <;> simp
    rw [hp, Sender.left, Sender.left, hc, hw, if_neg poll_ne_write.symm, if_pos rfl, length_cons]
    dsimp only
    omega

theorem step_left (s : State) (he : e ≠ .irq) : step s e = s ∨ (step s e).left < s.left := by
  cases e with
  | irq => exact absurd rfl he
  | line =>
    rcases s.uart.transmit_cases with h | ⟨c, rest, hc, h⟩
    · left
      rw [step, h]
    · right
      rw [step, h, State.left, State.left, hc, length_cons]
      exact Nat.lt_succ_self _
  | cpu =>
    cases hh : s.handler with
    | none =>
      rw [step_program hh]
      rcases putchar_left s.program s.uart with h | h
      · left
        rw [h]
      · right
        simp only [State.left, hh]
        omega
    | some p =>
      by_cases hp : p.todo = []
      · obtain ⟨todo, point⟩ := p
        obtain rfl : todo = [] := hp
        right
        rw [step_return hh]
        simp only [State.left, hh]
        omega
      · rw [step_handler hh hp]
        rcases putchar_left p s.uart with h | h
        · left
          rw [h, ← hh]
        · right
          simp only [State.left, hh]
          omega

theorem putchar_ne (hp : p.todo ≠ []) (hu : u.tx = []) : p.putchar u ≠ (p, u) := by
  intro heq
  rcases putchar_cases p u with ⟨-, h⟩ | ⟨h, hw, -⟩ | ⟨c, rest, h, hw, -⟩
  · exact h.elim hp (Uart.not_full hu)
  · have h' : (⟨p.todo, .write⟩ : Sender) = p := congrArg Prod.fst (h.symm.trans heq)
    exact poll_ne_write (hw.symm.trans (congrArg Sender.point h'.symm))
  · have h' : (⟨rest, .poll⟩ : Sender) = p := congrArg Prod.fst (h.symm.trans heq)
    exact poll_ne_write ((congrArg Sender.point h').trans hw)

/-- As long as not everything is sent, the UART or the CPU can go on. -/
theorem exists_move (hu : s.uart.Enabled) (hs : ¬s.Done) : ∃ e, e ≠ .irq ∧ step s e ≠ s := by
  cases htx : s.uart.tx with
  | cons c rest =>
    refine ⟨.line, by decide, fun h ↦ ?_⟩
    have ht : s.uart.transmit.tx = s.uart.tx := congrArg (fun s ↦ s.uart.tx) h
    rw [Uart.transmit] at ht
    simp [htx, hu] at ht
  | nil =>
    refine ⟨.cpu, by decide, fun h ↦ ?_⟩
    cases hh : s.handler with
    | none =>
      have hp : s.program.todo ≠ [] := fun hp ↦ hs ⟨hp, hh, htx⟩
      rw [step_program hh] at h
      exact putchar_ne hp htx (Prod.ext (congrArg State.program h) (congrArg State.uart h))
    | some p =>
      by_cases hp : p.todo = []
      · obtain ⟨todo, point⟩ := p
        obtain rfl : todo = [] := hp
        rw [step_return hh] at h
        exact absurd ((congrArg State.handler h).trans hh) (by simp)
      · rw [step_handler hh hp] at h
        have h' : some (p.putchar s.uart).1 = some p := (congrArg State.handler h).trans hh
        exact putchar_ne hp htx (Prod.ext (Option.some.inj h') (congrArg State.uart h))

theorem putchar_cr (p : Sender) (u : Uart) : (p.putchar u).2.cr = u.cr := by
  rcases putchar_cases p u with ⟨h, -⟩ | ⟨h, -⟩ | ⟨c, rest, h, -⟩
  · rw [h]
  · rw [h]
  · rw [h, Uart.send]
    split_ifs <;> rfl

theorem step_cr (s : State) (e : Event) : (step s e).uart.cr = s.uart.cr := by
  cases e with
  | irq =>
    rw [step]
    split_ifs <;> rfl
  | line =>
    change s.uart.transmit.cr = s.uart.cr
    rcases s.uart.transmit_cases with h | ⟨c, rest, -, h⟩ <;> rw [h]
  | cpu =>
    cases hh : s.handler with
    | none =>
      rw [step_program hh]
      exact putchar_cr _ _
    | some p =>
      by_cases hp : p.todo = []
      · obtain ⟨todo, point⟩ := p
        obtain rfl : todo = [] := hp
        rw [step_return hh]
      · rw [step_handler hh hp]
        exact putchar_cr _ _

theorem step_enabled (h : s.uart.Enabled) (e : Event) : (step s e).uart.Enabled := by
  rwa [Uart.Enabled, step_cr]

theorem step_done (h : s.Done) (he : e ≠ .irq) : step s e = s := by
  obtain ⟨hp, hh, htx⟩ := h
  cases e with
  | irq => exact absurd rfl he
  | line => simp [step, Uart.transmit, htx]
  | cpu =>
    rw [step_program hh, putchar_nil hp]

theorem Inv.sent_prefix (h : Inv before cs n done out sent s) : sent <+: irqLine := by
  have hs := h.handler
  cases hh : s.handler with
  | none =>
    obtain rfl : sent = [] := by rwa [hh] at hs
    exact nil_prefix
  | some p =>
    rw [hh] at hs
    exact ⟨_, hs.1.symm⟩

/-- Once there are no more interrupts, everything gets sent. -/
theorem exists_done (u : Uart) (cs : List UInt8) (hcpu : Recurs sched .cpu) (hline : Recurs sched .line) {T : ℕ}
    (hT : ∀ t, T ≤ t → sched t ≠ .irq) : ∃ k, (after step (start u.init cs) sched (T + k)).Done := by
  have hen : (after step (start u.init cs) sched T).uart.Enabled :=
    after_invariant (I := fun s : State ↦ s.uart.Enabled) u.init_enabled (fun s t h ↦ step_enabled h _) T
  have hfair (s : State) (hs : s.uart.Enabled) (hd : ¬s.Done) :
      ∃ e, Recurs (fun k ↦ sched (T + k)) e ∧ step s e ≠ s := by
    obtain ⟨e, he, hmove⟩ := exists_move hs hd
    refine ⟨e, ?_, hmove⟩
    cases e with
    | cpu => exact hcpu.drop T
    | line => exact hline.drop T
    | irq => exact absurd rfl he
  obtain ⟨k, hk⟩ := after_eventually (I := fun s : State ↦ s.uart.Enabled) hen (fun s t h ↦ step_enabled h _)
    (fun s t _ ↦ step_left s (hT _ (Nat.le_add_right T t))) hfair
  exact ⟨k, by rwa [after_add]⟩

theorem taken_add (s : State) {T : ℕ} (hT : ∀ t, T ≤ t → sched t ≠ .irq) (k : ℕ) :
    taken s sched (T + k) = taken s sched T := by
  induction k with
  | zero => rfl
  | succ k ih =>
    rw [← ih, taken, ← Nat.add_assoc, Nat.count_succ, if_neg fun h ↦ hT _ (Nat.le_add_right T k) h.1]
    rfl

/-- However fast the UART sends, and whenever interrupts come: what goes to the
line is the text with the line of each interrupt in it as a whole, and an
interrupt costs at most the one character that comes next. If the CPU and the
UART go on and the interrupts come to an end, all of it is sent. -/
theorem text_sent (u : Uart) (cs : List UInt8) (sched : ℕ → Event) :
    (∀ t, ∃ n done out sent, Mixed irqLine n done out ∧ done <+: cs ∧ sent <+: irqLine ∧
      n + (after step (start u.init cs) sched t).pending = taken (start u.init cs) sched t ∧
      ((after step (start u.init cs) sched t).handler = none → sent = []) ∧
      (after step (start u.init cs) sched t).uart.line ++ (after step (start u.init cs) sched t).uart.tx =
        u.init.line ++ u.init.tx ++ out ++ sent) ∧
      (Recurs sched .cpu → Recurs sched .line → (∃ T, ∀ t, T ≤ t → sched t ≠ .irq) →
        ∃ T out, ∀ t, T ≤ t → Mixed irqLine (taken (start u.init cs) sched t) cs out ∧
          (after step (start u.init cs) sched t).uart.line = u.init.line ++ u.init.tx ++ out) := by
  refine ⟨fun t ↦ ?_, fun hcpu hline ⟨T, hT⟩ ↦ ?_⟩
  · obtain ⟨n, done, out, sent, h, hn⟩ := run_inv u.init cs sched t
    refine ⟨n, done, out, sent, h.mixed, ⟨_, h.todo.symm⟩, h.sent_prefix, hn, fun hh ↦ ?_, h.output⟩
    simpa only [hh, Sent] using h.handler
  · obtain ⟨k, hk⟩ := exists_done u cs hcpu hline hT
    obtain ⟨n, done, out, sent, h, hn⟩ := run_inv u.init cs sched (T + k)
    obtain ⟨hp, hh, htx⟩ := hk
    obtain rfl : sent = [] := by simpa only [hh, Sent] using h.handler
    obtain rfl : cs = done := by rw [h.todo, hp, append_nil]
    have hdone : ∀ t, T + k ≤ t → sched t ≠ .irq := fun t ht ↦ hT t (by omega)
    refine ⟨T + k, out, fun t ht ↦ ?_⟩
    obtain ⟨j, rfl⟩ := Nat.exists_eq_add_of_le ht
    constructor
    · rw [State.pending, if_pos hh, Nat.add_zero] at hn
      rw [taken_add _ hdone, ← hn]
      exact h.mixed
    · rw [after_add, after_of_fixed fun i ↦ step_done ⟨hp, hh, htx⟩ (hdone _ (Nat.le_add_right _ i))]
      have hout := h.output
      rwa [htx, append_nil, append_nil] at hout

theorem text_sent_small :
    let s := start (Uart.init ⟨0, 0, [], [], []⟩) [72, 105]
    let sched (t : ℕ) : Event := if t = 1 then .irq else if t % 2 = 0 then .cpu else .line
    ∃ T out, ∀ t, T ≤ t → Mixed irqLine (taken s sched t) [72, 105] out ∧ (after step s sched t).uart.line = out := by
  refine (text_sent ⟨0, 0, [], [], []⟩ [72, 105] _).2 (fun t ↦ ⟨t, ?_⟩) (fun t ↦ ⟨t + 3, ?_⟩) ⟨2, fun t ht ↦ ?_⟩
  · rw [if_neg (by omega), if_pos (by omega)]
  · rw [if_neg (by omega), if_neg (by omega)]
  · rw [if_neg (by omega)]
    split_ifs <;> decide

set_option maxRecDepth 8000 in
-- The interrupt comes between `putchar`'s read of the flags and its write, and the handler fills the FIFO.
example : ∃ es : List Event, let s := es.foldl step (start (Uart.init ⟨0, 0, [], [], []⟩) [72])
    s.program.todo = [] ∧ s.handler = none ∧ s.uart.line ++ s.uart.tx = irqLine :=
  ⟨.cpu :: .irq :: replicate 32 .cpu ++ (replicate 10 [.line, .cpu, .cpu]).flatten ++ [.cpu, .cpu], by decide⟩

end OcamlRpi.Console
