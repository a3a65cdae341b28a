import OcamlRpi.Thread.World

namespace OcamlRpi.Thread

open Support Function

/-- Which channels have their `mutex` set, and `last_channel_locked`. -/
structure Mutexes where
  mutex : ℕ → Bool
  lastChannelLocked : ℕ

namespace Mutexes

/-- One pass through the loop of `caml_io_mutex_lock`; where it does not
return, it goes on to `schedule` and the next pass. -/
def camlIoMutexLock (s : Mutexes) (chan : ℕ) : Option Mutexes :=
  if s.mutex chan = false then some ⟨update s.mutex chan true, chan⟩ else none

def camlIoMutexUnlock (s : Mutexes) (chan : ℕ) : Mutexes := ⟨update s.mutex chan false, 0⟩

def camlIoMutexUnlockExn (s : Mutexes) : Mutexes :=
  if s.lastChannelLocked ≠ 0 then s.camlIoMutexUnlock s.lastChannelLocked else s

end Mutexes

/-- Threads that use channels. A thread in the loop of `caml_io_mutex_lock`
waits for its channel. `held` lists the channels that a thread has set and that
are set since, the latest first, and `recent` is the thread and the channel of
the latest lock, unless an unlock or a raise came later. -/
structure Io where
  world : World
  mutexes : Mutexes
  waiting : ℕ → Option ℕ
  held : ℕ → List ℕ
  recent : Option (ℕ × ℕ)

/-- What the running thread may do: a step without channels, a pass of
`caml_io_mutex_lock`, `caml_io_mutex_unlock` on a channel it holds, or a raise,
which calls `caml_io_mutex_unlock_exn`. -/
inductive IoOp where
  | thread (op : Op)
  | lock (chan : ℕ)
  | unlock (chan : ℕ)
  | raise

namespace Io

def runner (s : Io) : ℕ := s.world.runner

/-- The channels of all threads after one or none of them was released. -/
def release (s : Io) (m : Mutexes) : Io :=
  { s with mutexes := m, held := fun t ↦ (s.held t).filter m.mutex, recent := none }

def step (s : Io) : IoOp → Option Io
  | .thread op =>
    if s.waiting s.runner = none then (s.world.step op).map fun w ↦ { s with world := w } else none
  | .lock chan =>
    if chan ≠ 0 ∧ (s.waiting s.runner = none ∨ s.waiting s.runner = some chan) then
      match s.mutexes.camlIoMutexLock chan with
      | some m =>
        some { s with
          mutexes := m
          waiting := update s.waiting s.runner none
          held := update s.held s.runner (chan :: s.held s.runner)
          recent := some (s.runner, chan) }
      | none =>
        (s.world.step .schedule).map fun w ↦
          { s with world := w, waiting := update s.waiting s.runner (some chan) }
    else none
  | .unlock chan =>
    if s.waiting s.runner = none ∧ chan ∈ s.held s.runner then
      some (s.release (s.mutexes.camlIoMutexUnlock chan))
    else none
  | .raise =>
    if s.waiting s.runner = none then some (s.release s.mutexes.camlIoMutexUnlockExn) else none

def init (b : Boot) : Io := ⟨.init b, ⟨fun _ ↦ false, 0⟩, fun _ ↦ none, fun _ ↦ [], none⟩

def Reachable (b : Boot) (s : Io) : Prop := ∃ ops, run step (init b) ops = some s

/-- The state after the operations `ops`, or the first one where one of them
is not allowed. -/
def after (b : Boot) (ops : List IoOp) : Io := (run step (init b) ops).getD (init b)

theorem reachable_after (b : Boot) (ops : List IoOp) : Reachable b (after b ops) :=
  exists_run_getD _ _ _

end Io

end OcamlRpi.Thread
