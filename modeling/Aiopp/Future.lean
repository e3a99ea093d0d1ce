import Aiopp.Foundations.Transition

/-!
A promise set on another thread while the loop thread waits for its future. The two
threads interleave between any two operations on the mutex, the condition variable
and the eventfd; the kernel completes the eventfd read when the counter allows it.
-/
namespace Aiopp
namespace Future
open Transition

inductive Thread where
  | setter
  | loop
  deriving DecidableEq, Repr

/-- Named by the operation of `Promise::set` that comes next. -/
inductive Setter where
  | lock
  | assign
  | unlock
  | notify
  | write
  | returned
  deriving DecidableEq, Repr

/-- Named by the operation of `IoQueue::wait` that comes next; between `queued` and
   `completed` the coroutine is suspended on its read. -/
inductive Waiter where
  | lockReady
  | checkReady
  | unlockReady (ready : Bool)
  | issueRead
  | queued
  | pending
  | completed (buf : Nat)
  | lockGet
  | checkGet
  | sleeping
  | unlockGet
  | returned
  deriving DecidableEq, Repr

structure State (T : Type) where
  mutex : Option Thread := none
  value : Option T := none
  /-- the counter of the eventfd -/
  counter : Nat := 0
  argument : T
  setter : Setter := .lock
  waiter : Waiter := .lockReady

variable {T : Type}

def start (argument : T) : State T := { argument := argument }

def Waiter.wake : Waiter → Waiter
  | .sleeping => .lockGet
  | waiter => waiter

def setterStep (s : State T) : Option (State T) :=
  match s.setter with
  | .lock => if s.mutex.isNone then some { s with mutex := some .setter, setter := .assign } else none
  | .assign =>
    if s.value.isNone then some { s with value := some s.argument, setter := .unlock } else none
  | .unlock => some { s with mutex := none, setter := .notify }
  | .notify => some { s with setter := .write, waiter := s.waiter.wake }
  | .write => some { s with counter := s.counter + 1, setter := .returned }
  | .returned => none

/-- A sleeping `cv.wait` may also wake without a notification. -/
def waiterStep (s : State T) : Option (State T) :=
  match s.waiter with
  | .lockReady =>
    if s.mutex.isNone then some { s with mutex := some .loop, waiter := .checkReady } else none
  | .checkReady => some { s with waiter := .unlockReady s.value.isSome }
  | .unlockReady ready =>
    some { s with mutex := none, waiter := if ready then .lockGet else .issueRead }
  | .issueRead => some { s with waiter := .queued }
  | .queued => none
  | .pending => none
  | .completed buf => if buf = 1 then some { s with waiter := .lockGet } else none
  | .lockGet =>
    if s.mutex.isNone then some { s with mutex := some .loop, waiter := .checkGet } else none
  | .checkGet =>
    if s.value.isSome then some { s with waiter := .unlockGet }
    else some { s with mutex := none, waiter := .sleeping }
  | .sleeping => some { s with waiter := .lockGet }
  | .unlockGet => some { s with mutex := none, waiter := .returned }
  | .returned => none

inductive Action where
  | set
  | wait
  | submit
  | completeRead
  deriving DecidableEq, Repr

/-- A read of the eventfd takes the whole counter and pends while it is zero. -/
def step (s : State T) (a : Action) : Option (State T × Action) :=
  match a with
  | .set => (setterStep s).map fun s' => (s', a)
  | .wait => (waiterStep s).map fun s' => (s', a)
  | .submit => if s.waiter = .queued then some ({ s with waiter := .pending }, a) else none
  | .completeRead =>
    if s.waiter = .pending ∧ 0 < s.counter then
      some ({ s with waiter := .completed s.counter, counter := 0 }, a)
    else none

/-- `set` has returned, `wait` is suspended on a read that has not completed, and
    nothing is left in the eventfd that could complete it. -/
def SleepsThrough (s : State T) : Prop :=
  s.setter = .returned ∧ (s.waiter = .queued ∨ s.waiter = .pending) ∧ s.counter = 0

instance (s : State T) : Decidable (SleepsThrough s) :=
  inferInstanceAs (Decidable (_ ∧ _ ∧ _))

def AnyOrder (_ : State T) (_ : List Action) (_ : Action) : Prop := True

instance (s : State T) (log : List Action) (a : Action) : Decidable (AnyOrder s log a) :=
  isTrue trivial

/-- `wait` has not completed a read yet. -/
def Unread : Waiter → Prop
  | .lockReady => True
  | .checkReady => True
  | .unlockReady _ => True
  | .issueRead => True
  | .queued => True
  | .pending => True
  | _ => False

def Fed (s : State T) : Prop :=
  Unread s.waiter → s.counter = if s.setter = .returned then 1 else 0

section Steps
variable {s s' : State T}

theorem setter_fed (fed : Fed s) (taken : setterStep s = some s') : Fed s' := by
  unfold setterStep at taken
  intro unread
  split at taken
  · rename_i state
    split at taken
    · cases taken
      simpa [state] using fed unread
    · simp at taken
  · rename_i state
    split at taken
    · cases taken
      simpa [state] using fed unread
    · simp at taken
  · rename_i state
    cases taken
    simpa [state] using fed unread
  · rename_i state
    cases taken
    have before : Unread s.waiter := by
      cases point : s.waiter <;> simp_all [Waiter.wake, Unread]
    simpa [state] using fed before
  · rename_i state
    cases taken
    have before := fed unread
    simp only [state] at before
    simp [before]
  · simp at taken

theorem waiter_fed (fed : Fed s) (taken : waiterStep s = some s') : Fed s' := by
  unfold waiterStep at taken
  intro unread
  cases state : s.waiter with
  | lockReady =>
    simp only [state] at taken
    split at taken
    · cases taken
      exact fed (by simp [state, Unread])
    · simp at taken
  | checkReady | issueRead | unlockReady ready =>
    simp only [state] at taken
    cases taken
    exact fed (by simp [state, Unread])
  | queued | pending | returned => simp [state] at taken
  | lockGet =>
    simp only [state] at taken
    split at taken
    · cases taken
      exact unread.elim
    · simp at taken
  | completed buf =>
    simp only [state] at taken
    split at taken
    · cases taken
      exact unread.elim
    · simp at taken
  | checkGet =>
    simp only [state] at taken
    split at taken
    all_goals
      cases taken
      exact unread.elim
  | sleeping | unlockGet =>
    simp only [state] at taken
    cases taken
    exact unread.elim

/-- Only a completed read takes from the counter, and only `write` adds to it. -/
theorem step_fed {a e : Action} (fed : Fed s) (taken : step s a = some (s', e)) : Fed s' := by
  cases a with
  | set =>
    obtain ⟨s₁,moved,eq⟩ := Option.map_eq_some_iff.mp taken
    cases eq
    exact setter_fed fed moved
  | wait =>
    obtain ⟨s₁,moved,eq⟩ := Option.map_eq_some_iff.mp taken
    cases eq
    exact waiter_fed fed moved
  | submit =>
    simp only [step] at taken
    split at taken
    · rename_i queued
      cases taken
      intro _
      exact fed (by simp [queued, Unread])
    · simp at taken
  | completeRead =>
    simp only [step] at taken
    split at taken
    · cases taken
      intro unread
      exact unread.elim
    · simp at taken

theorem run_fed {argument : T} {log : List Action}
    (run : Run step AnyOrder (start argument) s log) : Fed s := by
  apply run.invariant (fun s _ => Fed s)
  · intro _
    rfl
  · intro s older a s' e fed _ taken
    exact step_fed fed taken

end Steps

/-- Once `set` has returned, a `wait` that is suspended on its read finds something in the
    eventfd. -/
theorem never_sleeps_through {argument : T} {s : State T} {log : List Action}
    (run : Run step AnyOrder (start argument) s log) : ¬ SleepsThrough s := by
  rintro ⟨finished,reading,empty⟩
  have unread : Unread s.waiter := by
    rcases reading with queued | pending
    · simp [queued, Unread]
    · simp [pending, Unread]
  have written := run_fed run unread
  simp [finished, empty] at written

theorem late_read_fed :
    ∃ (s : State Nat) (log : List Action), Run step AnyOrder (start 7) s log ∧
      s.setter = .returned ∧ s.waiter = .pending ∧ ¬ SleepsThrough s := by
  have computed : (replay step AnyOrder (start 7) []
      [.wait, .wait, .wait, .set, .set, .set, .set, .set, .wait, .submit]).map
      (fun (s, _) => decide (s.setter = .returned ∧ s.waiter = .pending)) = some true := by decide
  obtain ⟨s,log,run,facts⟩ := replay_reaches computed
  obtain ⟨returned,pending⟩ := of_decide_eq_true facts
  exact ⟨s,log,run,returned,pending,never_sleeps_through run⟩

end Future
end Aiopp
