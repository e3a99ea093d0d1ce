import Aiopp.Foundations.Transition
import Mathlib.Data.Fintype.Basic
import Mathlib.Logic.Function.Basic

/-!
The thread pool: any number of workers and pushing threads and the destructor,
interleaved between any two operations on the mutex, the condition variable and the
running flag. A blocked worker is woken by a notification or spuriously.
-/
namespace Aiopp
namespace ThreadPool

/-- Named by what comes next in `workerFunc`. `testTasks` and `testRunning` are the two
   reads of the predicate; a false predicate leads to `block`, which releases the mutex
   and blocks at once. -/
inductive Worker (T : Type) where
  | loadRunning
  | lock
  | testTasks
  | testRunning
  | block
  | blocked
  | woken
  | reloadRunning
  | take
  | unlockTask (task : T)
  | call (task : T)
  | running (task : T)
  | unlock
  | exited
  deriving DecidableEq, Repr

/-- Named by what comes next in `push`. Nobody else reads the queue before the mutex is
   released, so `push` stands for the push and the release. -/
inductive Pusher (T : Type) where
  | idle
  | lock (task : T)
  | push (task : T)
  | notify
  deriving DecidableEq, Repr

inductive Destructor where
  | idle
  | notifyAll
  | join
  | finished
  deriving DecidableEq, Repr

inductive Owner (W P : Type) where
  | worker (w : W)
  | pusher (p : P)
  deriving DecidableEq, Repr

def Worker.isBlocked {T : Type} : Worker T → Bool
  | .blocked => true
  | _ => false

def Worker.holds {T : Type} : Worker T → Bool
  | .testTasks | .testRunning | .block | .reloadRunning | .take | .unlockTask _ | .unlock => true
  | _ => false

def Pusher.holds {T : Type} : Pusher T → Bool
  | .push _ => true
  | _ => false

end ThreadPool

open ThreadPool

structure ThreadPool (W P T : Type) where
  running_ : Bool := true
  tasks_ : List T := []
  tasksMutex_ : Option (Owner W P) := none
  threads_ : W → Worker T := fun _ => .loadRunning
  pushers : P → Pusher T := fun _ => .idle
  destructor : Destructor := .idle

namespace ThreadPool
variable {W P T : Type} [DecidableEq W] [DecidableEq P]

inductive Action (W P T : Type) where
  | call (p : P) (task : T)
  | push (p : P)
  | notifyOne (p : P) (target : Option W)
  | work (w : W)
  | wake (w : W)
  | complete (w : W)
  | destroy
  | notifyAll
  | join
  deriving DecidableEq, Repr

inductive Event (W P T : Type) where
  | called (p : P) (task : T)
  | pushed (p : P) (task : T)
  | notified (target : Option W)
  | stepped
  | reloaded (w : W) (value : Bool)
  | taken (w : W) (task : T)
  | invoked (w : W) (task : T)
  | completed (w : W) (task : T)
  | stored
  | notifiedAll
  | joined
  deriving DecidableEq, Repr

def moveWorker (s : ThreadPool W P T) (w : W) (next : Worker T) : ThreadPool W P T :=
  { s with threads_ := Function.update s.threads_ w next }

def movePusher (s : ThreadPool W P T) (p : P) (next : Pusher T) : ThreadPool W P T :=
  { s with pushers := Function.update s.pushers p next }

def acquire (s : ThreadPool W P T) (owner : Owner W P) : Option (ThreadPool W P T) :=
  if s.tasksMutex_.isNone then some { s with tasksMutex_ := some owner } else none

def release (s : ThreadPool W P T) : ThreadPool W P T := { s with tasksMutex_ := none }

/-- `front` and `pop` on an empty queue have no successor. -/
def workerFunc (s : ThreadPool W P T) (w : W) : Option (ThreadPool W P T × Event W P T) :=
  match s.threads_ w with
  | .loadRunning => some (s.moveWorker w (if s.running_ then .lock else .exited), .stepped)
  | .lock | .woken =>
    (s.acquire (.worker w)).map fun s => (s.moveWorker w .testTasks, .stepped)
  | .testTasks =>
    some (s.moveWorker w (if s.tasks_.isEmpty then .testRunning else .reloadRunning), .stepped)
  | .testRunning => some (s.moveWorker w (if s.running_ then .block else .reloadRunning), .stepped)
  | .block => some (s.release.moveWorker w .blocked, .stepped)
  | .reloadRunning =>
    some (s.moveWorker w (if s.running_ then .take else .unlock), .reloaded w s.running_)
  | .take =>
    match s.tasks_ with
    | [] => none
    | task :: rest =>
      some ({ s with tasks_ := rest }.moveWorker w (.unlockTask task), .taken w task)
  | .unlockTask task => some (s.release.moveWorker w (.call task), .stepped)
  | .call task => some (s.moveWorker w (.running task), .invoked w task)
  | .unlock => some (s.release.moveWorker w .loadRunning, .stepped)
  | .blocked | .running _ | .exited => none

def push (s : ThreadPool W P T) (p : P) : Option (ThreadPool W P T × Event W P T) :=
  match s.pushers p with
  | .lock task => (s.acquire (.pusher p)).map fun s => (s.movePusher p (.push task), .stepped)
  | .push task =>
    some ({ s with tasks_ := s.tasks_ ++ [task] }.release.movePusher p .notify, .pushed p task)
  | .idle | .notify => none

/-- A notification wakes one blocked worker, any of them, and is lost when there is none. -/
def notifyOne [Fintype W] (s : ThreadPool W P T) : Option W → Option (ThreadPool W P T)
  | some w => if (s.threads_ w).isBlocked then some (s.moveWorker w .woken) else none
  | none => if ∀ w, (s.threads_ w).isBlocked = false then some s else none

def wakeAll (s : ThreadPool W P T) : ThreadPool W P T :=
  { s with threads_ := fun w => if (s.threads_ w).isBlocked then .woken else s.threads_ w }

variable [Fintype W]

def step (s : ThreadPool W P T) :
    Action W P T → Option (ThreadPool W P T × Event W P T)
  | .call p task =>
    match s.pushers p with
    | .idle => some (s.movePusher p (.lock task), .called p task)
    | _ => none
  | .push p => s.push p
  | .notifyOne p target =>
    match s.pushers p with
    | .notify => (s.notifyOne target).map fun s => (s.movePusher p .idle, .notified target)
    | _ => none
  | .work w => s.workerFunc w
  | .wake w =>
    if (s.threads_ w).isBlocked then some (s.moveWorker w .woken, .stepped) else none
  | .complete w =>
    match s.threads_ w with
    | .running task => some (s.moveWorker w .loadRunning, .completed w task)
    | _ => none
  | .destroy =>
    match s.destructor with
    | .idle => some ({ s with running_ := false, destructor := .notifyAll }, .stored)
    | _ => none
  | .notifyAll =>
    match s.destructor with
    | .notifyAll => some ({ s.wakeAll with destructor := .join }, .notifiedAll)
    | _ => none
  | .join =>
    match s.destructor with
    | .join =>
      if ∀ w, s.threads_ w matches .exited then some ({ s with destructor := .finished }, .joined)
      else none
    | _ => none

inductive Moved (s : ThreadPool W P T) : ThreadPool W P T → Event W P T → Prop where
  | called {p : P} {task : T} (here : s.pushers p = .idle) :
      Moved s (s.movePusher p (.lock task)) (.called p task)
  | locked {p : P} {task : T} (here : s.pushers p = .lock task) (free : s.tasksMutex_ = none) :
      Moved s ({ s with tasksMutex_ := some (.pusher p) }.movePusher p (.push task)) .stepped
  | pushed {p : P} {task : T} (here : s.pushers p = .push task) :
      Moved s ({ s with tasks_ := s.tasks_ ++ [task] }.release.movePusher p .notify)
        (.pushed p task)
  | notifiedOne {p : P} {w : W} (here : s.pushers p = .notify) (waits : s.threads_ w = .blocked) :
      Moved s ((s.moveWorker w .woken).movePusher p .idle) (.notified (some w))
  | notifiedNobody {p : P} (here : s.pushers p = .notify)
      (nobody : ∀ w, s.threads_ w ≠ .blocked) : Moved s (s.movePusher p .idle) (.notified none)
  | entered {w : W} (here : s.threads_ w = .loadRunning) (running : s.running_ = true) :
      Moved s (s.moveWorker w .lock) .stepped
  | exited {w : W} (here : s.threads_ w = .loadRunning) (stopped : s.running_ = false) :
      Moved s (s.moveWorker w .exited) .stepped
  | acquired {w : W} (here : s.threads_ w = .lock ∨ s.threads_ w = .woken)
      (free : s.tasksMutex_ = none) :
      Moved s ({ s with tasksMutex_ := some (.worker w) }.moveWorker w .testTasks) .stepped
  | sawTask {w : W} (here : s.threads_ w = .testTasks) (filled : s.tasks_ ≠ []) :
      Moved s (s.moveWorker w .reloadRunning) .stepped
  | sawNone {w : W} (here : s.threads_ w = .testTasks) (drained : s.tasks_ = []) :
      Moved s (s.moveWorker w .testRunning) .stepped
  | sawRunning {w : W} (here : s.threads_ w = .testRunning) (running : s.running_ = true) :
      Moved s (s.moveWorker w .block) .stepped
  | sawStopped {w : W} (here : s.threads_ w = .testRunning) (stopped : s.running_ = false) :
      Moved s (s.moveWorker w .reloadRunning) .stepped
  | blocked {w : W} (here : s.threads_ w = .block) :
      Moved s (s.release.moveWorker w .blocked) .stepped
  | reloadedRunning {w : W} (here : s.threads_ w = .reloadRunning) (running : s.running_ = true) :
      Moved s (s.moveWorker w .take) (.reloaded w true)
  | reloadedStopped {w : W} (here : s.threads_ w = .reloadRunning) (stopped : s.running_ = false) :
      Moved s (s.moveWorker w .unlock) (.reloaded w false)
  | taken {w : W} {task : T} {rest : List T} (here : s.threads_ w = .take)
      (front : s.tasks_ = task :: rest) :
      Moved s ({ s with tasks_ := rest }.moveWorker w (.unlockTask task)) (.taken w task)
  | unlocked {w : W} {task : T} (here : s.threads_ w = .unlockTask task) :
      Moved s (s.release.moveWorker w (.call task)) .stepped
  | invoked {w : W} {task : T} (here : s.threads_ w = .call task) :
      Moved s (s.moveWorker w (.running task)) (.invoked w task)
  | released {w : W} (here : s.threads_ w = .unlock) :
      Moved s (s.release.moveWorker w .loadRunning) .stepped
  | woken {w : W} (here : s.threads_ w = .blocked) : Moved s (s.moveWorker w .woken) .stepped
  | completed {w : W} {task : T} (here : s.threads_ w = .running task) :
      Moved s (s.moveWorker w .loadRunning) (.completed w task)
  | stored (here : s.destructor = .idle) :
      Moved s { s with running_ := false, destructor := .notifyAll } .stored
  | notifiedAll (here : s.destructor = .notifyAll) :
      Moved s { s.wakeAll with destructor := .join } .notifiedAll
  | joined (here : s.destructor = .join) : Moved s { s with destructor := .finished } .joined

omit [DecidableEq W] [DecidableEq P] [Fintype W] in
theorem isBlocked_iff (worker : Worker T) : worker.isBlocked ↔ worker = .blocked := by
  cases worker <;> simp [Worker.isBlocked]

section Inversion
variable {s s' : ThreadPool W P T} {e : Event W P T}

omit [DecidableEq W] [DecidableEq P] [Fintype W] in
theorem acquire_some {owner : Owner W P} (run : s.acquire owner = some s') :
    s.tasksMutex_ = none ∧ s' = { s with tasksMutex_ := some owner } := by
  unfold acquire at run
  split at run
  · rename_i free
    exact ⟨by simpa using free,(Option.some.inj run).symm⟩
  · simp at run

omit [Fintype W] in
theorem workerFunc_moved {w : W} (run : s.workerFunc w = some (s', e)) : Moved s s' e := by
  unfold workerFunc at run
  cases here : s.threads_ w with
  | loadRunning =>
    simp only [here] at run
    cases run
    split
    · exact .entered here (by assumption)
    · exact .exited here (by simp_all)
  | lock =>
    simp only [here] at run
    obtain ⟨held,acquired,eq⟩ := Option.map_eq_some_iff.mp run
    obtain ⟨free,rfl⟩ := acquire_some acquired
    cases eq
    exact .acquired (.inl here) free
  | woken =>
    simp only [here] at run
    obtain ⟨held,acquired,eq⟩ := Option.map_eq_some_iff.mp run
    obtain ⟨free,rfl⟩ := acquire_some acquired
    cases eq
    exact .acquired (.inr here) free
  | testTasks =>
    simp only [here] at run
    cases run
    split
    · exact .sawNone here (by simp_all)
    · exact .sawTask here (by simp_all)
  | testRunning =>
    simp only [here] at run
    cases run
    split
    · exact .sawRunning here (by assumption)
    · exact .sawStopped here (by simp_all)
  | block =>
    simp only [here] at run
    cases run
    exact .blocked here
  | reloadRunning =>
    simp only [here] at run
    cases run
    cases running : s.running_ with
    | true => exact .reloadedRunning here running
    | false => exact .reloadedStopped here running
  | take =>
    simp only [here] at run
    split at run
    · simp at run
    · rename_i task rest front
      cases run
      exact .taken here front
  | unlockTask task =>
    simp only [here] at run
    cases run
    exact .unlocked here
  | call task =>
    simp only [here] at run
    cases run
    exact .invoked here
  | unlock =>
    simp only [here] at run
    cases run
    exact .released here
  | blocked => simp [here] at run
  | running task => simp [here] at run
  | exited => simp [here] at run

omit [Fintype W] in
theorem push_moved {p : P} (run : s.push p = some (s', e)) : Moved s s' e := by
  unfold push at run
  cases here : s.pushers p with
  | lock task =>
    simp only [here] at run
    obtain ⟨held,acquired,eq⟩ := Option.map_eq_some_iff.mp run
    obtain ⟨free,rfl⟩ := acquire_some acquired
    cases eq
    exact .locked here free
  | push task =>
    simp only [here] at run
    cases run
    exact .pushed here
  | idle => simp [here] at run
  | notify => simp [here] at run

theorem notifyOne_moved {p : P} {target : Option W} {woken : ThreadPool W P T}
    (here : s.pushers p = .notify) (run : s.notifyOne target = some woken) :
    Moved s (woken.movePusher p .idle) (.notified target) := by
  cases target with
  | some w =>
    simp only [notifyOne] at run
    split at run
    · rename_i waits
      cases run
      exact .notifiedOne here ((isBlocked_iff _).mp waits)
    · simp at run
  | none =>
    simp only [notifyOne] at run
    split at run
    · rename_i nobody
      cases run
      refine .notifiedNobody here fun w waits => ?_
      have awake := nobody w
      simp [waits, Worker.isBlocked] at awake
    · simp at run

theorem step_moved {a : Action W P T} (taken : s.step a = some (s', e)) : Moved s s' e := by
  cases a with
  | call p task =>
    simp only [step] at taken
    split at taken
    · rename_i here
      cases taken
      exact .called here
    · simp at taken
  | push p => exact push_moved taken
  | notifyOne p target =>
    simp only [step] at taken
    split at taken
    · rename_i here
      obtain ⟨woken,run,eq⟩ := Option.map_eq_some_iff.mp taken
      cases eq
      exact notifyOne_moved here run
    · simp at taken
  | work w => exact workerFunc_moved taken
  | wake w =>
    simp only [step] at taken
    split at taken
    · rename_i waits
      cases taken
      exact .woken ((isBlocked_iff _).mp waits)
    · simp at taken
  | complete w =>
    simp only [step] at taken
    split at taken
    · rename_i here
      cases taken
      exact .completed here
    · simp at taken
  | destroy =>
    simp only [step] at taken
    split at taken
    · rename_i here
      cases taken
      exact .stored here
    · simp at taken
  | notifyAll =>
    simp only [step] at taken
    split at taken
    · rename_i here
      cases taken
      exact .notifiedAll here
    · simp at taken
  | join =>
    simp only [step] at taken
    split at taken
    · rename_i here
      split at taken
      · cases taken
        exact .joined here
      · simp at taken
    · simp at taken

def Event.source : Event W P T → Option (Action W P T)
  | .called p task => some (.call p task)
  | .completed w _ => some (.complete w)
  | .stored => some .destroy
  | .notifiedAll => some .notifyAll
  | .joined => some .join
  | _ => none

theorem step_source {a b : Action W P T} (taken : s.step a = some (s', e))
    (source : e.source = some b) : a = b := by
  cases a with
  | work w =>
    simp only [step, workerFunc] at taken
    grind [Option.map_eq_some_iff, Event.source]
  | push p =>
    simp only [step, push] at taken
    grind [Option.map_eq_some_iff, Event.source]
  | _ =>
    simp only [step] at taken
    grind [Option.map_eq_some_iff, Event.source]

end Inversion

end ThreadPool
end Aiopp
