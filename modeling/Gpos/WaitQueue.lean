import Mathlib.Logic.Function.Basic

/-! The wait queues of `kernel/schedule.c`. A queue is a task pointer `*p`;
the rest of it is the variable `tmp` on the kernel stack of every task that is
inside one of the two sleep functions. -/

namespace Gpos

/-- The values of `state` in a task structure that the sleep functions use. -/
inductive TaskState
  | running | interruptible | uninterruptible
  deriving DecidableEq

inductive SleepFn
  | sleepOn | interruptibleSleepOn
  deriving DecidableEq

/-- A task between its call of a sleep function and the return from it. -/
structure Sleeper (T : Type*) where
  fn : SleepFn
  tmp : Option T

structure WaitQueue (T : Type*) where
  head : Option T
  state : T → TaskState
  frame : T → Option (Sleeper T)

namespace WaitQueue

variable {T : Type*} [DecidableEq T]

def setState (q : WaitQueue T) (t : T) (st : TaskState) : WaitQueue T :=
  { q with state := Function.update q.state t st }

/-- What both sleep functions do before they call `schedule`. -/
def enter (fn : SleepFn) (st : TaskState) (t : T) (q : WaitQueue T) : WaitQueue T :=
  { head := some t
    state := Function.update q.state t st
    frame := Function.update q.frame t (some ⟨fn, q.head⟩) }

def sleepOn (t : T) (q : WaitQueue T) : WaitQueue T :=
  enter .sleepOn .uninterruptible t q

def interruptibleSleepOn (t : T) (q : WaitQueue T) : WaitQueue T :=
  enter .interruptibleSleepOn .interruptible t q

/-- The end of both sleep functions: `*p = tmp; if (tmp) tmp->state = TASK_RUNNING`. -/
def leave (t : T) (tmp : Option T) (q : WaitQueue T) : WaitQueue T :=
  let q' : WaitQueue T := { q with head := tmp, frame := Function.update q.frame t none }
  match tmp with
  | none => q'
  | some u => q'.setState u .running

/-- `sleep_on` after `schedule` returns. -/
def sleepOnTail (t : T) (tmp : Option T) (q : WaitQueue T) : WaitQueue T :=
  leave t tmp q

/-- `interruptible_sleep_on` after `schedule` returns. The `goto repeat` wakes
the task found in `*p` and sleeps again, with the same `tmp`. -/
def interruptibleSleepOnTail (t : T) (tmp : Option T) (q : WaitQueue T) : WaitQueue T :=
  match q.head with
  | none => leave t tmp q
  | some h => if h = t then leave t tmp q else (q.setState h .running).setState t .interruptible

def tail (t : T) (f : Sleeper T) (q : WaitQueue T) : WaitQueue T :=
  match f.fn with
  | .sleepOn => sleepOnTail t f.tmp q
  | .interruptibleSleepOn => interruptibleSleepOnTail t f.tmp q

def wakeUp (q : WaitQueue T) : WaitQueue T :=
  match q.head with
  | none => q
  | some h => { q.setState h .running with head := none }

inductive Action (T : Type*)
  | sleepOn (t : T)
  | interruptibleSleepOn (t : T)
  | wakeUp
  | resume (t : T)

/-- One step of the tasks that share the queue. Task 0 never gets as far as
the queue: `sleep_on` spins and `interruptible_sleep_on` panics for it. -/
def step (initTask : T) : Action T → WaitQueue T → Option (WaitQueue T)
  | .sleepOn t, q =>
    if t ≠ initTask ∧ q.state t = .running ∧ (q.frame t).isNone then some (q.sleepOn t) else none
  | .interruptibleSleepOn t, q =>
    if t ≠ initTask ∧ q.state t = .running ∧ (q.frame t).isNone then
      some (q.interruptibleSleepOn t) else none
  | .wakeUp, q => some q.wakeUp
  | .resume t, q =>
    if q.state t = .running then (q.frame t).map fun f => q.tail t f else none

def empty (state : T → TaskState) : WaitQueue T :=
  { head := none, state := state, frame := fun _ => none }

@[simp] theorem leave_head (t : T) (tmp : Option T) (q : WaitQueue T) :
    (q.leave t tmp).head = tmp := by
  cases tmp <;> rfl

@[simp] theorem leave_frame (t : T) (tmp : Option T) (q : WaitQueue T) :
    (q.leave t tmp).frame = Function.update q.frame t none := by
  cases tmp <;> rfl

theorem leave_state (t : T) (tmp : Option T) (q : WaitQueue T) (u : T) :
    (q.leave t tmp).state u = if tmp = some u then .running else q.state u := by
  cases tmp with
  | none => simp [leave]
  | some v => simp [leave, setState, Function.update_apply, eq_comm]

@[simp] theorem wakeUp_head (q : WaitQueue T) : q.wakeUp.head = none := by
  unfold wakeUp
  split <;> simp_all

@[simp] theorem wakeUp_frame (q : WaitQueue T) : q.wakeUp.frame = q.frame := by
  unfold wakeUp
  split <;> rfl

theorem wakeUp_state (q : WaitQueue T) (u : T) :
    q.wakeUp.state u = if q.head = some u then .running else q.state u := by
  unfold wakeUp
  split
  next h => simp [h]
  next h hh => simp [hh, setState, Function.update_apply, eq_comm]

/-- What a resumption does: the task leaves the queue, or it finds another
task in `*p`, wakes that one and goes back to sleep. -/
theorem tail_cases (t : T) (f : Sleeper T) (q : WaitQueue T) :
    (q.tail t f = q.leave t f.tmp ∧ (f.fn = .sleepOn ∨ q.head = none ∨ q.head = some t)) ∨
      ∃ h, f.fn = .interruptibleSleepOn ∧ q.head = some h ∧ h ≠ t ∧
        q.tail t f = (q.setState h .running).setState t .interruptible := by
  obtain ⟨fn, tmp⟩ := f
  cases fn with
  | sleepOn => exact .inl ⟨rfl, .inl rfl⟩
  | interruptibleSleepOn =>
    cases hq : q.head with
    | none => exact .inl ⟨by simp [tail, interruptibleSleepOnTail, hq], .inr (.inl rfl)⟩
    | some h =>
      by_cases he : h = t
      · exact .inl ⟨by simp [tail, interruptibleSleepOnTail, hq, he], .inr (.inr (by rw [he]))⟩
      · exact .inr ⟨h, rfl, rfl, he, by simp [tail, interruptibleSleepOnTail, hq, he]⟩

end WaitQueue

end Gpos
