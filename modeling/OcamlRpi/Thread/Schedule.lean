import Mathlib.Algebra.Ring.Nat
import Mathlib.Logic.Function.Basic

namespace OcamlRpi.Thread

open Function

/-- The stack-related global variables of the OCaml runtime. -/
structure Vars where
  bottomOfStack : ℕ
  lastRetaddr : ℕ
  gcRegs : ℕ
  exceptionPointer : ℕ
  localRoots : ℕ
  backtracePos : ℕ
  backtraceBuffer : ℕ
  backtraceLastExn : ℕ
deriving DecidableEq

/-- `struct caml_thread_struct`, with the saved variables as one field. -/
structure Descriptor where
  next : ℕ
  prev : ℕ
  topOfStack : ℕ
  saved : Vars
  stack : ℕ

def VAL_UNIT : ℕ := 1

def THREAD_STACK_SIZE : ℕ := 1024 * 1024

/-- What `vpush {d8-d15}` and `push {r4-r12,r14}` take of the stack. -/
def SWITCH_FRAME : ℕ := 104

/-- The five words that `starter_stub` pops. -/
def STARTER_FRAME : ℕ := 20

/-- The variables of a thread that has not run yet. -/
def Vars.fresh : Vars := ⟨0, 1, 0, 0, 0, 0, 0, VAL_UNIT⟩

/-- What a saved stack pointer points to: the registers of a call of
`switch_thread` in `schedule`, or the frames built for a new thread. -/
inductive Frame where
  | schedule
  | starter (th fn : ℕ)
deriving DecidableEq

/-- The global variables, the descriptors by address, the stack pointer, and
the frames by the address of their last word. -/
structure Machine where
  currThread : ℕ
  threads : ℕ → Descriptor
  vars : Vars
  sp : ℕ
  frames : ℕ → Option Frame

namespace Machine

def saveVars (s : Machine) : Machine :=
  let curr := s.threads s.currThread
  { s with threads := update s.threads s.currThread { curr with saved := s.vars } }

def loadVars (s : Machine) : Machine :=
  { s with vars := (s.threads s.currThread).saved }

/-- `switch_thread(&th->stack, newStack)`, up to its `bx lr` on the new stack:
the frame popped there tells what runs next. -/
def switchThread (s : Machine) (th newStack : ℕ) : Machine × Option Frame :=
  let sp := s.sp - SWITCH_FRAME
  let frames := update s.frames sp (some .schedule)
  let threads := update s.threads th { s.threads th with stack := sp }
  ({ s with frames := frames, threads := threads, sp := newStack + SWITCH_FRAME }, frames newStack)

/-- The rest of `schedule` after `switch_thread`. -/
def scheduleRest (s : Machine) : Machine :=
  loadVars { s with currThread := (s.threads s.currThread).next }

/-- `starter` up to the callback. -/
def starter (s : Machine) (th : ℕ) : Machine :=
  loadVars { s with currThread := th }

/-- Nothing is known of code that would run without one of the frames. -/
def resume (s : Machine) : Option Frame → Option Machine
  | some .schedule => some (scheduleRest s)
  | some (.starter th _) => some (starter { s with sp := s.sp + STARTER_FRAME } th)
  | none => none

def schedule (s : Machine) : Option Machine :=
  let curr := s.currThread
  let next := (s.threads curr).next
  if curr ≠ 0 ∧ curr ≠ next then
    let s := s.saveVars
    let (s, frame) := s.switchThread curr (s.threads next).stack
    s.resume frame
  else some s

/-- `caml_thread_create` up to its call of `schedule`; `th` and `stack` are
what `malloc` and `stat_alloc` returned. -/
def linkThread (s : Machine) (fn th stack : ℕ) : Machine :=
  let top := stack + THREAD_STACK_SIZE
  let saved := top - STARTER_FRAME - SWITCH_FRAME
  let curr := s.currThread
  let threads := update s.threads th ⟨(s.threads curr).next, curr, top, .fresh, saved⟩
  let next := (threads curr).next
  let threads := update threads next { threads next with prev := th }
  let threads := update threads curr { threads curr with next := th }
  { s with threads := threads, frames := update s.frames saved (some (.starter th fn)) }

def camlThreadCreate (s : Machine) (fn th stack : ℕ) : Option Machine :=
  if th = 0 then some s
  else if stack = 0 then some s
  else (s.linkThread fn th stack).schedule

/-- The saved stack pointer of the first thread is not initialised. -/
def ocamlThreadInit (s : Machine) (th top : ℕ) : Machine :=
  if s.currThread ≠ 0 then s
  else
    { s with
      currThread := th
      threads := update s.threads th ⟨th, th, top, .fresh, (s.threads th).stack⟩ }

end Machine

end OcamlRpi.Thread
