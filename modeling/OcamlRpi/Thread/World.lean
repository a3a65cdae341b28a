import OcamlRpi.Support.Run
import OcamlRpi.Thread.Schedule

namespace OcamlRpi.Thread

open Support Function

/-- A machine with its threads: where their stacks lie, and with which
variables and which stack pointer each of them last gave up the processor. -/
structure World where
  machine : Machine
  created : List ℕ
  stackLo : ℕ → ℕ
  stackHi : ℕ → ℕ
  lastVars : ℕ → Vars
  lastSp : ℕ → ℕ

/-- What the running thread may do: compute, which changes the variables, its
own stack and its stack pointer, or call one of the two functions. `th` and
`stack` are what the allocator returns. -/
inductive Op where
  | compute (vars : Vars) (sp : ℕ) (frames : ℕ → Option Frame)
  | schedule
  | create (fn th stack : ℕ)

/-- The step ends with the return of `schedule` or at the callback of
`starter`. -/
def Op.Schedules : Op → Prop
  | .compute .. => False
  | .schedule => True
  | .create _ th stack => th ≠ 0 ∧ stack ≠ 0

namespace World

/-- The stack pointer lies in the stack of the thread `t`. -/
def OnStack (w : World) (t sp : ℕ) : Prop := w.stackLo t < sp ∧ sp ≤ w.stackHi t

instance (w : World) (t sp : ℕ) : Decidable (w.OnStack t sp) :=
  inferInstanceAs (Decidable (_ ∧ _))

/-- The thread whose stack is active. -/
def runner (w : World) : ℕ := (w.created.find? fun t ↦ w.OnStack t w.machine.sp).getD 0

/-- Take down what the running thread calls `schedule` with. -/
def note (w : World) : World :=
  { w with
    lastVars := update w.lastVars w.runner w.machine.vars
    lastSp := update w.lastSp w.runner (w.machine.sp - SWITCH_FRAME) }

def add (w : World) (th stack : ℕ) : World :=
  { w with
    created := th :: w.created
    stackLo := update w.stackLo th stack
    stackHi := update w.stackHi th (stack + THREAD_STACK_SIZE)
    lastVars := update w.lastVars th .fresh
    lastSp := update w.lastSp th (stack + THREAD_STACK_SIZE - STARTER_FRAME - SWITCH_FRAME) }

/-- There is room on the stack for the frame of `switch_thread`. -/
def Room (w : World) : Prop := w.stackLo w.runner + SWITCH_FRAME ≤ w.machine.sp

/-- The allocator returns memory that is not in use. -/
def Fresh (w : World) (th stack : ℕ) : Prop :=
  th ∉ w.created ∧ stack + THREAD_STACK_SIZE ≤ 2 ^ 32 ∧
    ∀ t ∈ w.created, w.stackHi t ≤ stack ∨ stack + THREAD_STACK_SIZE ≤ w.stackLo t

instance (w : World) : Decidable w.Room := inferInstanceAs (Decidable (_ ≤ _))

instance (w : World) (th stack : ℕ) : Decidable (w.Fresh th stack) :=
  inferInstanceAs (Decidable (_ ∧ _))

def step (w : World) : Op → Option World
  | .compute vars sp frames =>
    if w.OnStack w.runner sp then
      let own := fun a ↦ w.stackLo w.runner ≤ a ∧ a < w.stackHi w.runner
      some { w with machine := { w.machine with
        vars := vars
        sp := sp
        frames := fun a ↦ if own a then frames a else w.machine.frames a } }
    else none
  | .schedule =>
    if w.Room then w.machine.schedule.map fun m ↦ { w.note with machine := m } else none
  | .create fn th stack =>
    if th = 0 ∨ stack = 0 then
      (w.machine.camlThreadCreate fn th stack).map fun m ↦ { w with machine := m }
    else if w.Room ∧ w.Fresh th stack then
      (w.machine.camlThreadCreate fn th stack).map fun m ↦ { w.note.add th stack with machine := m }
    else none

end World

/-- A machine on which `ocaml_thread_init` is called: the descriptor it
allocates, the stack of the program, and whatever else there is. -/
structure Boot where
  th : ℕ
  lo : ℕ
  hi : ℕ
  machine : Machine
  th_ne : th ≠ 0
  no_thread : machine.currThread = 0
  sp_gt : lo < machine.sp
  sp_le : machine.sp ≤ hi

/-- Room for one stack of a thread above that of the program. -/
def Boot.small : Boot where
  th := 4096
  lo := 8192
  hi := 16384
  machine := ⟨0, fun _ ↦ ⟨0, 0, 0, .fresh, 0⟩, .fresh, 16000, fun _ ↦ none⟩
  th_ne := by decide
  no_thread := rfl
  sp_gt := by decide
  sp_le := by decide

def World.init (b : Boot) : World where
  machine := b.machine.ocamlThreadInit b.th b.machine.sp
  created := [b.th]
  stackLo _ := b.lo
  stackHi _ := b.hi
  lastVars _ := .fresh
  lastSp _ := 0

namespace World

/-- The state `w` is reached from the call of `ocaml_thread_init`. -/
def Reachable (b : Boot) (w : World) : Prop := ∃ ops, run step (init b) ops = some w

/-- The state after the operations `ops`, or the first one where one of them
is not allowed. -/
def after (b : Boot) (ops : List Op) : World := (run step (init b) ops).getD (init b)

theorem reachable_after (b : Boot) (ops : List Op) : Reachable b (after b ops) :=
  exists_run_getD _ _ _

theorem run_after {b : Boot} {ops : List Op} (h : (run step (init b) ops).isSome) :
    run step (init b) ops = some (after b ops) :=
  run_getD h

end World

end OcamlRpi.Thread
