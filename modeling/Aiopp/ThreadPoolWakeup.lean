import Aiopp.ThreadPoolQueue

/-!
Who can still be waiting on the condition variable. A worker that found the queue empty
and the flag set blocks a moment later; a push cannot come between, because it needs the
mutex, but the destructor's store and notification can.
-/
namespace Aiopp
namespace ThreadPool
open Transition
variable {W P T : Type} [DecidableEq W] [DecidableEq P]

/-- The destructor joins a worker that nobody will wake. -/
def WakeupLost (s : ThreadPool W P T) : Prop :=
  s.destructor = .join ∧ ∃ w, s.threads_ w = .blocked

/-- A notification to all finds no worker between its last look at the flag and its wait. -/
def Settled (s : ThreadPool W P T) (_ : List (Event W P T)) (a : Action W P T) : Prop :=
  a = .notifyAll → ∀ w, s.threads_ w ≠ .block

instance [Fintype W] [DecidableEq T] (s : ThreadPool W P T) (log : List (Event W P T))
    (a : Action W P T) : Decidable (Settled s log a) :=
  inferInstanceAs (Decidable (a = .notifyAll → ∀ w, s.threads_ w ≠ .block))

structure Awake (s : ThreadPool W P T) : Prop where
  stopped : s.destructor ≠ .idle → s.running_ = false
  awake : s.destructor = .join → ∀ w, s.threads_ w ≠ .block ∧ s.threads_ w ≠ .blocked

section Moved
variable {s s' : ThreadPool W P T} {e : Event W P T}

theorem moved_block {w : W} (moved : Moved s s' e) (here : s'.threads_ w = .block) :
    s.threads_ w = .block ∨ s.running_ = true := by
  cases moved with
  | sawRunning sees running => exact .inr running
  | notifiedAll =>
    simp only [wakeAll] at here
    split at here
    · simp at here
    · exact .inl here
  | _ =>
    simp only [moveWorker, movePusher, release, Function.update_apply] at here
    grind

theorem moved_blocked {w : W} (moved : Moved s s' e) (here : s'.threads_ w = .blocked) :
    (s.threads_ w = .blocked ∧ e ≠ .notifiedAll) ∨ s.threads_ w = .block := by
  cases moved with
  | notifiedAll =>
    simp only [wakeAll] at here
    split at here
    · simp at here
    · rename_i awake
      simp [here, Worker.isBlocked] at awake
  | _ =>
    simp only [moveWorker, movePusher, release, Function.update_apply] at here
    grind

theorem moved_awake (awake : Awake s) (moved : Moved s s' e)
    (settled : e = .notifiedAll → ∀ w, s.threads_ w ≠ .block) : Awake s' := by
  constructor
  · intro started
    cases moved with
    | stored here => rfl
    | notifiedAll here => exact awake.stopped (by simp [here])
    | joined here => exact awake.stopped (by simp [here])
    | _ => exact awake.stopped started
  · intro joining w
    by_cases notified : e = .notifiedAll
    · subst notified
      have settled := settled rfl
      constructor
      · intro here
        cases moved with
        | notifiedAll at_ =>
          simp only [wakeAll] at here
          split at here
          · simp at here
          · exact settled w here
      · intro here
        rcases moved_blocked moved here with ⟨_,other⟩ | before
        · exact other rfl
        · exact settled w before
    · have before : s.destructor = .join := by
        cases moved with
        | notifiedAll => simp at notified
        | stored => simp at joining
        | joined => simp at joining
        | _ => exact joining
      have stopped := awake.stopped (by simp [before])
      obtain ⟨block,blocked⟩ := awake.awake before w
      constructor
      · intro here
        rcases moved_block moved here with same | running
        · exact block same
        · simp [stopped] at running
      · intro here
        rcases moved_blocked moved here with ⟨same,_⟩ | same
        · exact blocked same
        · exact block same

end Moved

variable [Fintype W] {s s' : ThreadPool W P T} {log : List (Event W P T)}

theorem run_awake (run : Run step Settled {} s log) : Awake s := by
  refine run.invariant (fun s _ => Awake s) ⟨by simp,by simp⟩ ?_
  intro s older a s' e awake settled taken
  refine moved_awake awake (step_moved taken) ?_
  rintro rfl
  exact settled (step_source taken rfl)

/-- The two steps that lose the wake-up. -/
theorem notified_early (run : Run step AnyOrder {} s log) (storing : s.destructor = .notifyAll)
    {w : W} (block : s.threads_ w = .block) :
    ∃ s', Run step AnyOrder {} s' (.stepped :: .notifiedAll :: log) ∧ WakeupLost s' := by
  have notify : s.step .notifyAll = some ({ s.wakeAll with destructor := .join }, .notifiedAll) := by
    simp only [step, storing]
  have still : s.wakeAll.threads_ w = .block := by simp [wakeAll, block, Worker.isBlocked]
  have wait : step { s.wakeAll with destructor := .join } (.work w) =
      some ({ s.wakeAll with destructor := .join }.release.moveWorker w .blocked, .stepped) := by
    simp only [step, workerFunc, still]
  refine ⟨_,.next (.next run trivial notify) trivial wait,rfl,w,?_⟩
  rw [moveWorker_threads, if_pos rfl]

/-- Whether the wake-up is lost is decided where the destructor notifies. -/
theorem shutdown_wakes_workers :
    (∀ (s : ThreadPool W P T) log, Run step Settled {} s log → ¬ WakeupLost s) ∧
    ∀ (s : ThreadPool W P T) log, Run step AnyOrder {} s log → s.destructor = .notifyAll →
      (∃ w, s.threads_ w = .block) →
      ∃ s', Run step AnyOrder {} s' (.stepped :: .notifiedAll :: log) ∧ WakeupLost s' := by
  constructor
  · intro s log run lost
    obtain ⟨joining,w,waits⟩ := lost
    exact ((run_awake run).awake joining w).2 waits
  · intro s log run storing waiting
    obtain ⟨w,block⟩ := waiting
    exact notified_early run storing block

instance [DecidableEq T] (s : ThreadPool W P T) : Decidable (WakeupLost s) :=
  inferInstanceAs (Decidable (s.destructor = .join ∧ ∃ w, s.threads_ w = .blocked))

theorem woken_before_join :
    ∃ s : ThreadPool Bool Bool Nat, ∃ log, Run step Settled {} s log ∧ s.destructor = .join ∧
      s.threads_ true = .woken ∧ s.threads_ false = .reloadRunning ∧ ¬ WakeupLost s := by
  let actions : List (Action Bool Bool Nat) := [.work true, .work true, .work true, .work true,
    .work false, .work true, .work false, .work false, .destroy, .work false, .notifyAll]
  have computed : (replay step Settled ({} : ThreadPool Bool Bool Nat) [] actions).map
      (fun (s, _) => decide (s.destructor = .join ∧ s.threads_ true = .woken ∧
        s.threads_ false = .reloadRunning)) = some true := by
    decide +kernel
  obtain ⟨s,log,run,facts⟩ := replay_reaches computed
  obtain ⟨joining,woken,tests⟩ := of_decide_eq_true facts
  exact ⟨s,log,run,joining,woken,tests,shutdown_wakes_workers.1 s log run⟩

/-- The only worker saw the flag set; store and notification come before it blocks. -/
theorem worker_sleeps_through_shutdown :
    ¬ ∀ (s : ThreadPool Unit Unit Nat) log, Run step AnyOrder {} s log → ¬ WakeupLost s := by
  intro claim
  let actions : List (Action Unit Unit Nat) := [.work (), .work (), .work (), .work (), .destroy,
    .notifyAll, .work ()]
  have computed : (replay step AnyOrder ({} : ThreadPool Unit Unit Nat) [] actions).map
      (fun (s, _) => decide (WakeupLost s)) = some true := by
    decide +kernel
  obtain ⟨s,log,run,facts⟩ := replay_reaches computed
  exact claim s log run (of_decide_eq_true facts)

/-- A queued task has somebody who will look at it: a push that still has to notify, or a
   worker that is not asleep. -/
def Served (s : ThreadPool W P T) : Prop :=
  s.tasks_ ≠ [] → (∃ p, s.pushers p = .notify) ∨ ∃ w, s.threads_ w ≠ .blocked

def AllServing (s : ThreadPool W P T) : Prop :=
  s.destructor = .idle → s.running_ = true ∧ ∀ w, s.threads_ w ≠ .exited

section Served
variable {e : Event W P T}

omit [DecidableEq P] [Fintype W] in
theorem served_moveWorker {w : W} {next : Worker T} (awake : next ≠ .blocked) :
    Served (s.moveWorker w next) := by
  intro filled
  refine .inr ⟨w,?_⟩
  rw [moveWorker_threads, if_pos rfl]
  exact awake

omit [DecidableEq W] [Fintype W] in
theorem served_movePusher {p : P} {next : Pusher T} (served : Served s)
    (other : s.pushers p ≠ .notify) (same : s'.tasks_ = s.tasks_) (threads : s'.threads_ = s.threads_)
    (pushers : s'.pushers = Function.update s.pushers p next) : Served s' := by
  intro filled
  rw [same] at filled
  rcases served filled with ⟨q,waiting⟩ | ⟨w,awake⟩
  · refine .inl ⟨q,?_⟩
    have distinct : q ≠ p := fun eq => other (eq ▸ waiting)
    rw [pushers, Function.update_of_ne distinct, waiting]
  · exact .inr ⟨w,threads ▸ awake⟩

omit [Fintype W] in
theorem moved_served [Nonempty W] (guarded : Guarded s) (served : Served s)
    (moved : Moved s s' e) : Served s' := by
  obtain ⟨someone⟩ := ‹Nonempty W›
  cases moved with
  | called here => exact served_movePusher served (by simp [here]) rfl rfl rfl
  | locked here free => exact served_movePusher served (by simp [here]) rfl rfl rfl
  | @pushed p task here =>
    intro filled
    exact .inl ⟨p,by rw [movePusher_pushers, if_pos rfl]⟩
  | @notifiedOne p w here waits =>
    intro filled
    refine .inr ⟨w,?_⟩
    change (s.moveWorker w .woken).threads_ w ≠ .blocked
    rw [moveWorker_threads, if_pos rfl]
    simp
  | notifiedNobody here nobody => exact fun filled => .inr ⟨someone,nobody someone⟩
  | @blocked w here =>
    -- the worker still holds the mutex, and the queue it found empty is empty
    have knows : Knows s w .block := here ▸ guarded.workers w
    exact fun filled => absurd knows.2 filled
  | stored here => exact served
  | joined here => exact served
  | notifiedAll here =>
    intro filled
    refine .inr ⟨someone,?_⟩
    simp only [wakeAll]
    split
    · simp
    · rename_i awake
      exact fun waits => awake ((isBlocked_iff _).mpr waits)
  | _ => exact served_moveWorker (by simp)

omit [Fintype W] in
theorem moved_serving (serving : AllServing s) (moved : Moved s s' e) : AllServing s' := by
  intro idle
  cases moved with
  | exited here stopped =>
    have running := (serving idle).1
    simp [stopped] at running
  | stored | notifiedAll | joined => simp at idle
  | _ =>
    obtain ⟨running,inside⟩ := serving idle
    refine ⟨running,fun w => ?_⟩
    have before := inside w
    simp only [moveWorker, movePusher, release, Function.update_apply]
    grind

end Served

/-- Before the destructor starts, a queued task whose push has notified has a worker that
is neither asleep nor gone. -/
theorem push_never_stranded [Nonempty W] (run : Run step AnyOrder {} s log)
    (before : s.destructor = .idle) (queued : s.tasks_ ≠ [])
    (notified : ∀ p, s.pushers p ≠ .notify) :
    ∃ w, s.threads_ w ≠ .blocked ∧ s.threads_ w ≠ .exited := by
  have invariant : Served s ∧ AllServing s := by
    refine (run.invariant (fun s _ => Guarded s ∧ Served s ∧ AllServing s) ?_ ?_).2
    · exact ⟨start_guarded,by simp [Served],by simp [AllServing]⟩
    · intro s older a s' e holds _ taken
      have moved := step_moved taken
      exact ⟨moved_guarded holds.1 moved,moved_served holds.1 holds.2.1 moved,
        moved_serving holds.2.2 moved⟩
  obtain ⟨served,serving⟩ := invariant
  rcases served queued with ⟨p,waiting⟩ | ⟨w,awake⟩
  · exact absurd waiting (notified p)
  · exact ⟨w,awake,(serving before).2 w⟩

theorem lost_notification_not_stranded :
    ∃ s : ThreadPool Unit Unit Nat, ∃ log, Run step AnyOrder {} s log ∧ s.destructor = .idle ∧
      .notified none ∈ log ∧ s.tasks_ = [7, 8] ∧ (∀ p, s.pushers p ≠ .notify) ∧
      ∃ w, s.threads_ w ≠ .blocked ∧ s.threads_ w ≠ .exited := by
  let actions : List (Action Unit Unit Nat) := [.work (), .work (), .work (), .work (), .work (),
    .call () 7, .push (), .push (), .notifyOne () (some ()), .call () 8, .push (), .push (),
    .notifyOne () none]
  have computed : (replay step AnyOrder ({} : ThreadPool Unit Unit Nat) [] actions).map
      (fun (s, log) => decide (s.destructor = .idle ∧ .notified none ∈ log ∧ s.tasks_ = [7, 8] ∧
        ∀ p, s.pushers p ≠ .notify)) = some true := by
    decide +kernel
  obtain ⟨s,log,run,facts⟩ := replay_reaches computed
  obtain ⟨idle,lost,tasks,notified⟩ := of_decide_eq_true facts
  exact ⟨s,log,run,idle,lost,tasks,notified,
    push_never_stranded run idle (by simp [tasks]) notified⟩

end ThreadPool
end Aiopp
