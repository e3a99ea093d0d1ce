import Aiopp.ThreadPoolShutdown

/-!
The pool at work. Left to itself it comes to rest after boundedly many steps, in whatever
order the threads take them, and it rests only when all workers are asleep and every task
that `push` was called with has been completed.
-/
namespace Aiopp
namespace ThreadPool
open Transition
variable {W P T : Type}

def Worker.effort : Worker T → Nat
  | .blocked | .exited => 0
  | .block => 1
  | .testRunning => 2
  | .take => 3
  | .reloadRunning => 4
  | .testTasks => 5
  | .lock | .woken => 6
  | .loadRunning => 7
  | .running _ | .unlock => 8
  | .call _ => 9
  | .unlockTask _ => 10

/-- A notification wakes a worker that comes to the queue once more. -/
def Pusher.effort : Pusher T → Nat
  | .idle => 0
  | .notify => 7
  | .push _ => 16
  | .lock _ => 17

/-- A queued task stands for the steps of the worker that takes it. -/
def effort [Fintype W] [Fintype P] (s : ThreadPool W P T) : Nat :=
  ∑ w, (s.threads_ w).effort + 8 * s.tasks_.length + ∑ p, (s.pushers p).effort

def broughtIn : Event W P T → Nat
  | .called .. => 18
  | _ => 0

/-- The destructor has not begun, and no worker wakes by itself. -/
def Undisturbed (_ : ThreadPool W P T) : Action W P T → Prop
  | .wake _ => False
  | .destroy => False
  | _ => True

/-- Everybody who pushed has returned, the workers sleep and nothing is queued. -/
structure AtRest (s : ThreadPool W P T) : Prop where
  pushers : ∀ p, s.pushers p = .idle
  workers : ∀ w, s.threads_ w = .blocked
  tasks : s.tasks_ = []

section Effort
variable [DecidableEq W] [DecidableEq P] [Fintype W] [Fintype P] {s s' : ThreadPool W P T}
  {e : Event W P T}

omit [DecidableEq P] in
theorem worker_effort (s s' : ThreadPool W P T) (w : W) {next : Worker T}
    (threads : s'.threads_ = Function.update s.threads_ w next)
    (pushers : s'.pushers = s.pushers) :
    effort s' + (s.threads_ w).effort + 8 * s.tasks_.length =
      effort s + next.effort + 8 * s'.tasks_.length := by
  have total := sum_update Worker.effort s.threads_ w next
  simp only [effort, threads, pushers]
  omega

omit [DecidableEq W] in
theorem pusher_effort (s s' : ThreadPool W P T) (p : P) {next : Pusher T}
    (threads : s'.threads_ = s.threads_) (pushers : s'.pushers = Function.update s.pushers p next) :
    effort s' + (s.pushers p).effort + 8 * s.tasks_.length =
      effort s + next.effort + 8 * s'.tasks_.length := by
  have total := sum_update Pusher.effort s.pushers p next
  simp only [effort, threads, pushers]
  omega

omit [DecidableEq P] in
theorem worker_lowers {w : W} {next : Worker T}
    (threads : s'.threads_ = Function.update s.threads_ w next) (pushers : s'.pushers = s.pushers)
    (tasks : s'.tasks_ = s.tasks_) (less : next.effort < (s.threads_ w).effort) :
    effort s' + 1 ≤ effort s := by
  have total := worker_effort s s' w threads pushers
  rw [tasks] at total
  omega

omit [DecidableEq W] in
theorem pusher_lowers {p : P} {next : Pusher T} (threads : s'.threads_ = s.threads_)
    (pushers : s'.pushers = Function.update s.pushers p next) (tasks : s'.tasks_ = s.tasks_)
    (less : next.effort < (s.pushers p).effort) : effort s' + 1 ≤ effort s := by
  have total := pusher_effort s s' p threads pushers
  rw [tasks] at total
  omega

/-- While the flag is set, every step that is not a call spends effort. -/
theorem moved_effort (running : s.running_ = true) (before : s.destructor = .idle)
    (moved : Moved s s' e) (stored : e ≠ .stored)
    (asleep : e = .stepped → ∀ w, s.threads_ w = .blocked → s'.threads_ w = .blocked) :
    effort s' + 1 ≤ effort s + broughtIn e := by
  cases moved with
  | @called p task here =>
    have total := pusher_effort s (s.movePusher p (.lock task)) p rfl rfl
    simp only [movePusher, here, Pusher.effort] at total ⊢
    simp only [broughtIn]
    omega
  | locked here | notifiedNobody here =>
    exact pusher_lowers rfl rfl rfl (by simp [here, Pusher.effort])
  | @pushed p task here =>
    have total := pusher_effort s
      ({ s with tasks_ := s.tasks_ ++ [task] }.release.movePusher p .notify) p rfl rfl
    simp only [movePusher, release, here, Pusher.effort, List.length_append,
      List.length_singleton] at total ⊢
    simp only [broughtIn]
    omega
  | @notifiedOne p w here waits =>
    have woken := worker_effort s (s.moveWorker w .woken) w rfl rfl
    have waited : (s.moveWorker w .woken).pushers p = .notify := here
    have notified := pusher_effort (s.moveWorker w .woken)
      ((s.moveWorker w .woken).movePusher p .idle) p rfl rfl
    rw [waits] at woken
    rw [waited] at notified
    simp only [Worker.effort, Pusher.effort, moveWorker, movePusher] at woken notified ⊢
    simp only [broughtIn]
    omega
  | exited here stopped | sawStopped here stopped | reloadedStopped here stopped =>
    simp [running] at stopped
  | @acquired w here free =>
    have outside : (s.threads_ w).effort = 6 := by
      rcases here with here | here <;> rw [here] <;> rfl
    exact worker_lowers rfl rfl rfl (outside ▸ Nat.lt_succ_self 5)
  | @taken w task rest here front =>
    have total := worker_effort s ({ s with tasks_ := rest }.moveWorker w (.unlockTask task)) w
      rfl rfl
    simp only [here, front, moveWorker, Worker.effort, List.length_cons] at total ⊢
    simp only [broughtIn]
    omega
  | @woken w here =>
    have still := asleep rfl w here
    simp [moveWorker] at still
  | stored here => exact absurd rfl stored
  | notifiedAll here | joined here => simp [before] at here
  | entered here | sawTask here | sawNone here | sawRunning here | blocked here
  | reloadedRunning here | unlocked here | invoked here | released here | completed here =>
    exact worker_lowers rfl rfl rfl (by simp [here, Worker.effort])

end Effort

section Rest
variable [DecidableEq W] [DecidableEq P] [Fintype W] {s s' : ThreadPool W P T} {e : Event W P T}

theorem step_asleep {a : Action W P T} (undisturbed : Undisturbed s a)
    (taken : s.step a = some (s', e)) (silent : e = .stepped) {w : W}
    (waits : s.threads_ w = .blocked) : s'.threads_ w = .blocked := by
  subst silent
  cases a with
  | wake w' => exact absurd undisturbed not_false
  | destroy => exact absurd undisturbed not_false
  | work w' =>
    have other : w ≠ w' := by
      rintro rfl
      simp [step, workerFunc, waits] at taken
    simp only [step, workerFunc, acquire] at taken
    grind [Option.map_eq_some_iff, moveWorker_threads, release]
  | push p =>
    simp only [step, push, acquire] at taken
    grind [Option.map_eq_some_iff, movePusher, release]
  | _ =>
    simp only [step] at taken
    grind [Option.map_eq_some_iff]

theorem notify_steps {p : P} (here : s.pushers p = .notify) : GetsOn s := by
  by_cases asleep : ∃ w, s.threads_ w = .blocked
  · obtain ⟨w,waits⟩ := asleep
    refine ⟨.notifyOne p (some w),(s.moveWorker w .woken).movePusher p .idle,.notified (some w),
      trivial,?_⟩
    simp [step, here, notifyOne, (isBlocked_iff _).mpr waits]
  · have nobody : ∀ w, (s.threads_ w).isBlocked = false := by
      intro w
      rw [← Bool.not_eq_true, isBlocked_iff]
      exact fun waits => asleep ⟨w,waits⟩
    refine ⟨.notifyOne p none,s.movePusher p .idle,.notified none,trivial,?_⟩
    simp [step, here, notifyOne, nobody]

theorem pusher_steps (guarded : Guarded s) (held : Held s) {p : P} (busy : s.pushers p ≠ .idle) :
    GetsOn s := by
  by_cases free : s.tasksMutex_ = none
  · cases here : s.pushers p with
    | idle => exact absurd here busy
    | notify => exact notify_steps here
    | lock task => exact push_steps (p := p) (by simp [push, here, acquire, free])
    | push task => exact push_steps (p := p) (by simp [push, here])
  · exact owner_steps guarded held free

theorem rests_or_steps [Nonempty W] (guarded : Guarded s) (held : Held s) (served : Served s)
    (serving : AllServing s) (before : s.destructor = .idle) : AtRest s ∨ GetsOn s := by
  by_cases waiting : ∀ p, s.pushers p = .idle
  · by_cases asleep : ∀ w, s.threads_ w = .blocked
    · refine .inl ⟨waiting,asleep,?_⟩
      by_contra filled
      rcases served filled with ⟨p,notifies⟩ | ⟨w,awake⟩
      · simp [waiting p] at notifies
      · exact awake (asleep w)
    · obtain ⟨w,awake⟩ := not_forall.mp asleep
      exact .inr (loop_steps guarded held awake ((serving before).2 w))
  · obtain ⟨p,busy⟩ := not_forall.mp waiting
    exact .inr (pusher_steps guarded held busy)

theorem rest_stays (rest : AtRest s) : ¬ GetsOn s := by
  intro inner
  obtain ⟨a,s',e,inner,taken⟩ := inner
  cases a with
  | push p => simp [step, push, rest.pushers p] at taken
  | notifyOne p target => simp [step, rest.pushers p] at taken
  | work w => simp [step, workerFunc, rest.workers w] at taken
  | complete w => simp [step, rest.workers w] at taken
  | _ => exact inner

omit [Fintype W] in
theorem moved_before (before : s.destructor = .idle) (moved : Moved s s' e) (stored : e ≠ .stored) :
    s'.destructor = .idle := by
  cases moved with
  | stored => exact absurd rfl stored
  | notifiedAll here | joined here => simp [before] at here
  | _ => exact before

theorem undisturbed_unstored {a : Action W P T} (undisturbed : Undisturbed s a)
    (taken : s.step a = some (s', e)) : e ≠ .stored := by
  rintro rfl
  have same : a = .destroy := step_source taken rfl
  subst same
  exact undisturbed

omit [DecidableEq W] [DecidableEq P] [Fintype W] in
theorem inner_undisturbed {a : Action W P T} (inner : Inner a) : Undisturbed s a := by
  cases a with
  | push | notifyOne | work | complete => trivial
  | _ => exact absurd inner not_false

end Rest

section Runs
variable [DecidableEq W] [DecidableEq P] [Fintype W] {s final : ThreadPool W P T}
  {log more : List (Event W P T)}

theorem run_served [Nonempty W] (run : Run step AnyOrder {} s log) : Served s ∧ AllServing s := by
  refine (run.invariant (fun s _ => Guarded s ∧ Served s ∧ AllServing s) ?_ ?_).2
  · exact ⟨start_guarded,by simp [Served],by simp [AllServing]⟩
  · intro s older a s' e holds _ taken
    obtain ⟨guarded,served,serving⟩ := holds
    have moved := step_moved taken
    exact ⟨moved_guarded guarded moved,moved_served guarded served moved,
      moved_serving serving moved⟩

theorem undisturbed_run (run : Run step AnyOrder {} s log) (before : s.destructor = .idle)
    (rest : Run step (fun s _ a => Undisturbed s a) s final more) :
    Run step AnyOrder {} final (more ++ log) ∧ final.destructor = .idle := by
  refine rest.invariant (fun s' more => Run step AnyOrder {} s' (more ++ log) ∧
    s'.destructor = .idle) ⟨run,before⟩ ?_
  intro s' older a next e earlier undisturbed taken
  exact ⟨.next earlier.1 trivial taken,
    moved_before earlier.2 (step_moved taken) (undisturbed_unstored undisturbed taken)⟩

theorem step_effort [Nonempty W] [Fintype P] {s' : ThreadPool W P T} {a : Action W P T}
    {e : Event W P T} (run : Run step AnyOrder {} s log) (before : s.destructor = .idle)
    (undisturbed : Undisturbed s a) (taken : s.step a = some (s', e)) :
    effort s' + 1 ≤ effort s + broughtIn e :=
  moved_effort ((run_served run).2 before).1 before (step_moved taken)
    (undisturbed_unstored undisturbed taken)
    fun silent _ waits => step_asleep undisturbed taken silent waits

theorem run_effort [Nonempty W] [Fintype P] (run : Run step AnyOrder {} s log)
    (before : s.destructor = .idle)
    (rest : Run step (fun s _ a => Undisturbed s a) s final more) :
    more.length + effort final ≤ effort s + 18 * (calledTasks more).length := by
  induction rest with
  | nil => simp
  | @next middle after older a e rest undisturbed taken ih =>
    obtain ⟨whole,still⟩ := undisturbed_run run before rest
    have lowers := step_effort whole still undisturbed taken
    rw [List.length_cons]
    cases e with
    | called p task =>
      simp only [broughtIn, calledTasks, List.length_append, List.length_singleton] at lowers ⊢
      omega
    | _ =>
      simp only [broughtIn, calledTasks] at lowers ⊢
      omega

theorem run_rests [Nonempty W] (run : Run step AnyOrder {} s log) (before : s.destructor = .idle) :
    AtRest s ∨ GetsOn s := by
  obtain ⟨served,serving⟩ := run_served run
  exact rests_or_steps (run_guarded run) (run_held run) served serving before

theorem inner_effort [Nonempty W] [Fintype P] {s' : ThreadPool W P T} {a : Action W P T}
    {e : Event W P T} (run : Run step AnyOrder {} s log) (before : s.destructor = .idle)
    (inner : Inner a) (taken : s.step a = some (s', e)) : effort s' < effort s := by
  have lowers := step_effort run before (inner_undisturbed inner) taken
  cases e with
  | called p task =>
    have same : a = .call p task := step_source taken rfl
    subst same
    exact absurd inner not_false
  | _ =>
    simp only [broughtIn] at lowers
    omega

theorem inner_spends [Nonempty W] [Fintype P] (s : ThreadPool W P T) (log : List (Event W P T))
    (a : Action W P T) (s' : ThreadPool W P T) (e : Event W P T)
    (holds : Run step AnyOrder {} s log ∧ s.destructor = .idle) (inner : Inner a)
    (taken : s.step a = some (s', e)) :
    (Run step AnyOrder {} s' (e :: log) ∧ s'.destructor = .idle) ∧ effort s' < effort s := by
  obtain ⟨run,before⟩ := holds
  have unstored := undisturbed_unstored (inner_undisturbed (s := s) inner) taken
  exact ⟨⟨.next run trivial taken,moved_before before (step_moved taken) unstored⟩,
    inner_effort run before inner taken⟩

theorem comes_to_rest [Nonempty W] [Fintype P] (run : Run step AnyOrder {} s log)
    (before : s.destructor = .idle) :
    ∃ more final, Run step (fun _ _ a => Inner a) s final more ∧
      (Run step AnyOrder {} final (more ++ log) ∧ final.destructor = .idle) ∧ AtRest final :=
  Run.comes_to_rest _ _ AtRest inner_spends
    (fun _ _ holds busy => (run_rests holds.1 holds.2).resolve_left busy) ⟨run,before⟩

omit [DecidableEq W] [DecidableEq P] [Fintype W] in
theorem perm_of_filters {K : Type} [DecidableEq K] {entries done : List (K × T)}
    (same : ∀ key, entries.filter (fun entry => entry.1 = key) =
      done.filter (fun entry => entry.1 = key)) :
    (done.map Prod.snd).Perm (entries.map Prod.snd) := by
  apply List.Subperm.antisymm
  · exact subperm_of_hands (fun _ => []) fun key => by rw [same key]; simp
  · exact subperm_of_hands (fun _ => []) fun key => by rw [same key]; simp

theorem rest_complete (run : Run step AnyOrder {} s log) (rest : AtRest s) :
    ((completedTasks log).map Prod.snd).Perm ((calledTasks log).map Prod.snd) := by
  have accounts := run_accounts run
  have taken : ((completedTasks log).map Prod.snd).Perm ((takenTasks log).map Prod.snd) := by
    apply perm_of_filters
    intro w
    rw [accounts.hands w, run_inside run w, rest.workers w]
    simp [Worker.hand, Worker.inside]
  have pushed : ((pushedTasks log).map Prod.snd).Perm ((calledTasks log).map Prod.snd) := by
    apply perm_of_filters
    intro p
    rw [accounts.calls p, rest.pushers p]
    simp [Pusher.hand]
  have order := accounts.order
  rw [rest.tasks, List.append_nil] at order
  rw [order] at taken
  exact taken.trans pushed

/-- Before the destructor begins and without further calls, the pool comes to rest after
boundedly many steps of whichever threads; it stops short of that in no order of steps, and
at rest every task has been completed as often as `push` was called with it. -/
theorem pool_works_off [Nonempty W] [Fintype P] (run : Run step AnyOrder {} s log)
    (before : s.destructor = .idle) :
    (∀ more final, Run step (fun s _ a => Undisturbed s a) s final more →
      more.length + effort final ≤ effort s + 18 * (calledTasks more).length) ∧
    (AtRest s ↔ ¬ GetsOn s) ∧
    (∃ more final, Run step (fun _ _ a => Inner a) s final more ∧ AtRest final ∧
      ((completedTasks (more ++ log)).map Prod.snd).Perm
        ((calledTasks (more ++ log)).map Prod.snd)) ∧
    (AtRest s → ((completedTasks log).map Prod.snd).Perm ((calledTasks log).map Prod.snd)) := by
  refine ⟨fun more final rest => run_effort run before rest,⟨rest_stays,?_⟩,?_,rest_complete run⟩
  · exact fun stuck => (run_rests run before).resolve_right stuck
  · obtain ⟨more,final,inner,⟨whole,_⟩,rest⟩ := comes_to_rest run before
    exact ⟨more,final,inner,rest,rest_complete whole rest⟩

end Runs

theorem two_pushes_done :
    ∃ s : ThreadPool Bool Bool Nat, ∃ log, Run step AnyOrder {} s log ∧ s.destructor = .idle ∧
      s.pushers true = .push 7 ∧ s.pushers false = .lock 8 ∧ completedTasks log = [] ∧
      ∃ more final, Run step (fun _ _ a => Inner a) s final more ∧ AtRest final ∧
        ((completedTasks (more ++ log)).map Prod.snd).Perm
          ((calledTasks (more ++ log)).map Prod.snd) := by
  let actions : List (Action Bool Bool Nat) := [.work true, .work true, .work true, .work true,
    .work true, .call true 7, .call false 8, .push true, .work false]
  have computed : (replay step AnyOrder ({} : ThreadPool Bool Bool Nat) [] actions).map
      (fun (s, log) => decide (s.destructor = .idle ∧ s.pushers true = .push 7 ∧
        s.pushers false = .lock 8 ∧ completedTasks log = [])) = some true := by
    decide +kernel
  obtain ⟨s,log,run,facts⟩ := replay_reaches computed
  obtain ⟨before,pushes,waits,completed⟩ := of_decide_eq_true facts
  exact ⟨s,log,run,before,pushes,waits,completed,(pool_works_off run before).2.2.1⟩

end ThreadPool
end Aiopp
