import Aiopp.ThreadPoolWakeup
import Mathlib.Algebra.BigOperators.Group.Finset.Basic
import Mathlib.Algebra.Order.BigOperators.Group.Finset

/-!
How the destructor of the pool ends. Once the flag is reset, every step of a thread brings
it nearer to its end, and while a worker is inside its loop somebody can step: the mutex
belongs to nobody, or to a thread that goes on to release it. What is still queued at the
end is never called.
-/
namespace Aiopp
namespace ThreadPool
open Transition
variable {W P T : Type}

/-- Steps to the end of `workerFunc` with the flag reset, `block` being furthest away. -/
def Worker.distance : Worker T → Nat
  | .exited => 0
  | .loadRunning => 1
  | .unlock | .running _ => 2
  | .reloadRunning | .call _ => 3
  | .testRunning | .unlockTask _ => 4
  | .testTasks | .take => 5
  | .lock | .woken => 6
  | .blocked => 7
  | .block => 8

def Pusher.distance : Pusher T → Nat
  | .idle => 0
  | .notify => 1
  | .push _ => 2
  | .lock _ => 3

def Destructor.distance : Destructor → Nat
  | .idle => 3
  | .notifyAll => 2
  | .join => 1
  | .finished => 0

def remaining [Fintype W] [Fintype P] (s : ThreadPool W P T) : Nat :=
  ∑ w, (s.threads_ w).distance + ∑ p, (s.pushers p).distance + s.destructor.distance

def asked : Event W P T → Nat
  | .called .. => 4
  | _ => 0

/-- Neither a new call nor a spurious wake-up. -/
def Unaided [DecidableEq W] (s : ThreadPool W P T) (a : Action W P T) : Prop :=
  Settled s [] a ∧ match a with
    | .call .. | .wake _ => False
    | _ => True

def Worker.inside : Worker T → List T
  | .running task => [task]
  | _ => []

def Worker.atFront : Worker T → Nat
  | .take => 1
  | _ => 0

def completedTasks : List (Event W P T) → List (W × T)
  | [] => []
  | .completed w task :: log => completedTasks log ++ [(w, task)]
  | _ :: log => completedTasks log

theorem sum_update {K S : Type} [Fintype K] [DecidableEq K] (cost : S → Nat) (states : K → S)
    (k : K) (next : S) : ∑ k', cost (Function.update states k next k') + cost (states k) =
      ∑ k', cost (states k') + cost next := by
  have others : ∑ k' ∈ Finset.univ.erase k, cost (Function.update states k next k') =
      ∑ k' ∈ Finset.univ.erase k, cost (states k') := by
    refine Finset.sum_congr rfl fun k' other => ?_
    rw [Function.update_of_ne (Finset.ne_of_mem_erase other)]
  have before := Finset.add_sum_erase Finset.univ (fun k' => cost (states k')) (Finset.mem_univ k)
  have after := Finset.add_sum_erase Finset.univ
    (fun k' => cost (Function.update states k next k')) (Finset.mem_univ k)
  simp only [Function.update_self] at before after
  omega

section Remaining
variable [DecidableEq W] [DecidableEq P] [Fintype W] [Fintype P] {s s' : ThreadPool W P T}
  {e : Event W P T}

omit [DecidableEq P] in
theorem worker_nearer {w : W} {next : Worker T}
    (threads : s'.threads_ = Function.update s.threads_ w next) (pushers : s'.pushers = s.pushers)
    (destructor : s'.destructor = s.destructor)
    (less : next.distance < (s.threads_ w).distance) : remaining s' + 1 ≤ remaining s := by
  have total := sum_update Worker.distance s.threads_ w next
  simp only [remaining, threads, pushers, destructor]
  omega

omit [DecidableEq W] in
theorem pusher_moved {p : P} {next : Pusher T} (threads : s'.threads_ = s.threads_)
    (pushers : s'.pushers = Function.update s.pushers p next)
    (destructor : s'.destructor = s.destructor) :
    remaining s' + (s.pushers p).distance = remaining s + next.distance := by
  have total := sum_update Pusher.distance s.pushers p next
  simp only [remaining, threads, pushers, destructor]
  omega

omit [DecidableEq W] in
theorem pusher_nearer {p : P} {next : Pusher T} (threads : s'.threads_ = s.threads_)
    (pushers : s'.pushers = Function.update s.pushers p next)
    (destructor : s'.destructor = s.destructor)
    (less : next.distance < (s.pushers p).distance) : remaining s' + 1 ≤ remaining s := by
  have total := pusher_moved threads pushers destructor
  omega

omit [DecidableEq W] [DecidableEq P] [Fintype P] in
theorem wakeAll_distance (s : ThreadPool W P T) :
    ∑ w, (s.wakeAll.threads_ w).distance ≤ ∑ w, (s.threads_ w).distance := by
  refine Finset.sum_le_sum fun w _ => ?_
  simp only [wakeAll]
  split
  · rename_i waits
    simp [(isBlocked_iff _).mp waits, Worker.distance]
  · exact Nat.le_refl _

/-- With the flag reset, a step leads nearer to the end, or is a call. -/
theorem moved_remaining (stopped : s.running_ = false) (started : s.destructor ≠ .idle)
    (moved : Moved s s' e) : remaining s' + 1 ≤ remaining s + asked e := by
  cases moved with
  | @called p task here =>
    have total : remaining (s.movePusher p (.lock task)) + (s.pushers p).distance =
      remaining s + (Pusher.lock task).distance := pusher_moved rfl rfl rfl
    simp only [here, Pusher.distance] at total
    simp only [asked]
    omega
  | locked here | pushed here | notifiedNobody here =>
    exact pusher_nearer rfl rfl rfl (by simp [here, Pusher.distance])
  | @notifiedOne p w here waits =>
    have woken : remaining (s.moveWorker w .woken) + 1 ≤ remaining s :=
      worker_nearer rfl rfl rfl (by simp [waits, Worker.distance])
    have waited : (s.moveWorker w .woken).pushers p = .notify := here
    have notified : remaining ((s.moveWorker w .woken).movePusher p .idle) + 1 ≤
        remaining (s.moveWorker w .woken) :=
      pusher_nearer rfl rfl rfl (by simp [waited, Pusher.distance])
    simp only [asked]
    omega
  | entered here running | sawRunning here running | reloadedRunning here running =>
    simp [stopped] at running
  | @acquired w here free =>
    have outside : (s.threads_ w).distance = 6 := by
      rcases here with here | here <;> rw [here] <;> rfl
    exact worker_nearer rfl rfl rfl (outside ▸ Nat.lt_succ_self 5)
  | stored here => exact absurd here started
  | notifiedAll here =>
    have total := wakeAll_distance s
    simp only [remaining, here, Destructor.distance, asked]
    simp only [wakeAll] at total ⊢
    omega
  | joined here =>
    simp only [remaining, here, Destructor.distance, asked]
    omega
  | exited here | sawTask here | sawNone here | sawStopped here | blocked here
  | reloadedStopped here | taken here | unlocked here | invoked here | released here | woken here
  | completed here =>
    exact worker_nearer rfl rfl rfl (by simp [here, Worker.distance])

end Remaining

structure Held (s : ThreadPool W P T) : Prop where
  workers : ∀ w, s.tasksMutex_ = some (.worker w) → (s.threads_ w).holds
  pushers : ∀ p, s.tasksMutex_ = some (.pusher p) → (s.pushers p).holds

section Steps
variable [DecidableEq W] [DecidableEq P] {s s' : ThreadPool W P T} {e : Event W P T}

theorem moved_held (held : Held s) (moved : Moved s s' e) : Held s' := by
  constructor
  · intro w owns
    have before := held.workers w
    cases moved with
    | notifiedAll here =>
      have holds := before owns
      simp only [wakeAll]
      split
      · rename_i waits
        simp [(isBlocked_iff _).mp waits, Worker.holds] at holds
      · exact holds
    | _ =>
      simp only [moveWorker, movePusher, release, Function.update_apply] at owns ⊢
      grind [Worker.holds]
  · intro p owns
    have before := held.pushers p
    cases moved with
    | _ =>
      simp only [moveWorker, movePusher, release, wakeAll, Function.update_apply] at owns ⊢
      grind [Pusher.holds]

theorem moved_started (started : s.destructor ≠ .idle) (moved : Moved s s' e) :
    s'.destructor ≠ .idle := by
  cases moved with
  | stored | notifiedAll | joined => simp
  | _ => exact started

theorem moved_exited {w : W} (here : s.threads_ w = .exited) (moved : Moved s s' e) :
    s'.threads_ w = .exited := by
  cases moved with
  | notifiedAll at_ => simp [wakeAll, here, Worker.isBlocked]
  | _ =>
    simp only [moveWorker, movePusher, release, Function.update_apply]
    grind

omit [DecidableEq P] in
theorem inside_moveWorker {w w' : W} {next : Worker T} (none : (s.threads_ w').inside = [])
    (still : next.inside = []) :
    ((s.moveWorker w' next).threads_ w).inside = (s.threads_ w).inside := by
  rw [moveWorker_threads]
  split
  · rename_i moved
    rw [moved, still, none]
  · rfl

theorem moved_inside {w : W} {log : List (Event W P T)} (moved : Moved s s' e)
    (inside : (invokedTasks log).filter (fun entry => entry.1 = w) =
      (completedTasks log).filter (fun entry => entry.1 = w) ++
        (s.threads_ w).inside.map (Prod.mk w)) :
    (invokedTasks (e :: log)).filter (fun entry => entry.1 = w) =
      (completedTasks (e :: log)).filter (fun entry => entry.1 = w) ++
        (s'.threads_ w).inside.map (Prod.mk w) := by
  cases moved with
  | @invoked w' task here =>
    simp only [invokedTasks, completedTasks, List.filter_append, filter_entry, inside]
    rw [moveWorker_threads]
    by_cases same : w = w'
    · subst same
      simp [here, Worker.inside]
    · simp [same, Ne.symm same]
  | @completed w' task here =>
    simp only [invokedTasks, completedTasks, List.filter_append, filter_entry, inside]
    rw [moveWorker_threads]
    by_cases same : w = w'
    · subst same
      simp [here, Worker.inside]
    · simp [same, Ne.symm same]
  | notifiedAll here =>
    refine inside.trans ?_
    simp only [wakeAll, completedTasks]
    split
    · rename_i waits
      rw [(isBlocked_iff _).mp waits]
      rfl
    · rfl
  | acquired here free =>
    refine inside.trans ?_
    rw [inside_moveWorker (by rcases here with here | here <;> simp [here, Worker.inside]) rfl]
    rfl
  | notifiedOne here waits =>
    refine inside.trans ?_
    change _ = _ ++ List.map (Prod.mk w) ((s.moveWorker _ .woken).threads_ w).inside
    rw [inside_moveWorker (by simp [waits, Worker.inside]) rfl]
    rfl
  | called | locked | pushed | notifiedNobody | stored | joined => exact inside
  | blocked here | unlocked here | released here | entered here | exited here | sawTask here
  | sawNone here | sawRunning here | sawStopped here | reloadedRunning here | reloadedStopped here
  | taken here | woken here =>
    refine inside.trans ?_
    rw [inside_moveWorker (by simp [release, here, Worker.inside]) rfl]
    rfl

theorem moved_atFront {w : W} (stopped : s.running_ = false) (moved : Moved s s' e) :
    (s'.threads_ w).atFront ≤ (s.threads_ w).atFront := by
  cases here : s'.threads_ w with
  | take =>
    rcases moved_take moved here with ⟨before,_⟩ | ⟨_,running⟩
    · rw [before]
    · simp [stopped] at running
  | _ => exact Nat.zero_le _

theorem moved_takes {w : W} {log : List (Event W P T)} (stopped : s.running_ = false)
    (moved : Moved s s' e) {bound : Nat}
    (takes : ((takenTasks log).filter (fun entry => entry.1 = w)).length +
      (s.threads_ w).atFront ≤ bound) :
    ((takenTasks (e :: log)).filter (fun entry => entry.1 = w)).length +
      (s'.threads_ w).atFront ≤ bound := by
  have fewer := moved_atFront (w := w) stopped moved
  cases moved with
  | @taken w' task rest here front =>
    simp only [takenTasks, List.filter_append, filter_entry, List.length_append]
    by_cases same : w = w'
    · subst same
      simp only [here, Worker.atFront] at takes
      simpa [moveWorker_threads, Worker.atFront] using takes
    · simp only [if_neg (Ne.symm same), List.length_nil]
      omega
  | _ => exact Nat.le_trans (Nat.add_le_add_left fewer _) takes

end Steps

section Progress
variable [DecidableEq W] [DecidableEq P] [Fintype W] {s : ThreadPool W P T}

def Inner : Action W P T → Prop
  | .push _ => True
  | .notifyOne .. => True
  | .work _ => True
  | .complete _ => True
  | _ => False

def GetsOn (s : ThreadPool W P T) : Prop := ∃ a s' e, Inner a ∧ s.step a = some (s', e)

omit [DecidableEq P] [Fintype W] in
theorem inner_unaided {a : Action W P T} (inner : Inner a) : Unaided s a := by
  cases a with
  | push | notifyOne | work | complete => exact ⟨by simp [Settled],trivial⟩
  | _ => exact absurd inner not_false

theorem worker_steps {w : W} (defined : (s.workerFunc w).isSome) : GetsOn s := by
  obtain ⟨⟨s',e⟩,taken⟩ := Option.isSome_iff_exists.mp defined
  exact ⟨.work w,s',e,trivial,taken⟩

theorem push_steps {p : P} (defined : (s.push p).isSome) : GetsOn s := by
  obtain ⟨⟨s',e⟩,taken⟩ := Option.isSome_iff_exists.mp defined
  exact ⟨.push p,s',e,trivial,taken⟩

theorem inside_steps (guarded : Guarded s) {w : W} (holds : (s.threads_ w).holds) :
    GetsOn s := by
  apply worker_steps (w := w)
  unfold workerFunc
  cases here : s.threads_ w with
  | take =>
    have knows : Knows s w .take := here ▸ guarded.workers w
    obtain ⟨task,rest,front⟩ := List.exists_cons_of_ne_nil knows.2
    simp [front]
  | testTasks | testRunning | block | reloadRunning | unlockTask task | unlock => simp
  | _ => simp [here, Worker.holds] at holds

theorem owner_steps (guarded : Guarded s) (held : Held s) (locked : s.tasksMutex_ ≠ none) :
    GetsOn s := by
  obtain ⟨owner,owned⟩ := Option.ne_none_iff_exists'.mp locked
  cases owner with
  | worker w => exact inside_steps guarded (held.workers w owned)
  | pusher p =>
    have holds := held.pushers p owned
    cases here : s.pushers p with
    | push task => exact push_steps (p := p) (by simp [push, here])
    | _ => simp [here, Pusher.holds] at holds

theorem loop_steps (guarded : Guarded s) (held : Held s) {w : W} (awake : s.threads_ w ≠ .blocked)
    (inside : s.threads_ w ≠ .exited) : GetsOn s := by
  by_cases free : s.tasksMutex_ = none
  · cases here : s.threads_ w with
    | running task =>
      have taken : s.step (.complete w) =
          some (s.moveWorker w .loadRunning, .completed w task) := by
        simp only [step, here]
      exact ⟨.complete w,_,_,trivial,taken⟩
    | take => exact inside_steps (w := w) guarded (by rw [here]; rfl)
    | blocked => exact absurd here awake
    | exited => exact absurd here inside
    | _ =>
      apply worker_steps (w := w)
      simp [workerFunc, here, acquire, free]
  · exact owner_steps guarded held free

def CanStep (s : ThreadPool W P T) : Prop := ∃ a s' e, Unaided s a ∧ s.step a = some (s', e)

theorem inner_canStep (inner : GetsOn s) : CanStep s := by
  obtain ⟨a,s',e,inner,taken⟩ := inner
  exact ⟨a,s',e,inner_unaided inner,taken⟩

/-- The destructor gets through, unless it waits for a worker that gets on. -/
theorem shutdown_steps (guarded : Guarded s) (held : Held s) (awake : Awake s)
    (started : s.destructor ≠ .idle) (unfinished : s.destructor ≠ .finished) : CanStep s := by
  cases stage : s.destructor with
  | idle => exact absurd stage started
  | finished => exact absurd stage unfinished
  | notifyAll =>
    by_cases late : ∃ w, s.threads_ w = .block
    · obtain ⟨w,here⟩ := late
      exact inner_canStep (worker_steps (w := w) (by simp [workerFunc, here]))
    · refine ⟨.notifyAll,{ s.wakeAll with destructor := .join },.notifiedAll,⟨?_,trivial⟩,?_⟩
      · exact fun _ w here => late ⟨w,here⟩
      · simp only [step, stage]
  | join =>
    by_cases gone : ∀ w, s.threads_ w = .exited
    · refine ⟨.join,{ s with destructor := .finished },.joined,⟨by simp [Settled],trivial⟩,?_⟩
      simp only [step, stage, gone]
      simp
    · obtain ⟨w,inside⟩ := not_forall.mp gone
      exact inner_canStep (loop_steps guarded held (awake.awake stage w).2 inside)

theorem joined_exited {s' : ThreadPool W P T} {e : Event W P T}
    (taken : s.step .join = some (s', e)) (w : W) : s.threads_ w = .exited := by
  simp only [step] at taken
  split at taken
  · split at taken
    · rename_i gone
      have here := gone w
      split at here
      · assumption
      · simp at here
    · simp at taken
  · simp at taken

end Progress

section Runs
variable [DecidableEq W] [DecidableEq P] [Fintype W] {s final : ThreadPool W P T}
  {log more : List (Event W P T)}

theorem run_held {policy : ThreadPool W P T → List (Event W P T) → Action W P T → Prop}
    (run : Run step policy {} s log) : Held s := by
  refine run.invariant (fun s _ => Held s) ⟨by simp,by simp⟩ ?_
  intro s older a s' e held _ taken
  exact moved_held held (step_moved taken)

theorem run_inside {policy : ThreadPool W P T → List (Event W P T) → Action W P T → Prop}
    (run : Run step policy {} s log) (w : W) :
    (invokedTasks log).filter (fun entry => entry.1 = w) =
      (completedTasks log).filter (fun entry => entry.1 = w) ++
        (s.threads_ w).inside.map (Prod.mk w) := by
  refine run.invariant (fun s log => (invokedTasks log).filter (fun entry => entry.1 = w) =
    (completedTasks log).filter (fun entry => entry.1 = w) ++
      (s.threads_ w).inside.map (Prod.mk w)) ?_ ?_
  · simp [invokedTasks, completedTasks, Worker.inside]
  · intro s older a s' e inside _ taken
    exact moved_inside (step_moved taken) inside

theorem run_finished {policy : ThreadPool W P T → List (Event W P T) → Action W P T → Prop}
    (run : Run step policy {} s log) : s.destructor = .finished → ∀ w, s.threads_ w = .exited := by
  refine run.invariant (fun s _ => s.destructor = .finished → ∀ w, s.threads_ w = .exited)
    (by simp) ?_
  intro s older a s' e earlier _ taken finished w
  have moved := step_moved taken
  by_cases joined : e = .joined
  · subst joined
    have same : a = .join := step_source taken rfl
    subst same
    exact moved_exited (joined_exited taken w) moved
  · refine moved_exited (earlier ?_ w) moved
    cases moved with
    | stored | notifiedAll => simp at finished
    | joined => exact absurd rfl joined
    | _ => exact finished

theorem finished_exact {policy : ThreadPool W P T → List (Event W P T) → Action W P T → Prop}
    (run : Run step policy {} s log) (finished : s.destructor = .finished) (w : W) :
    (takenTasks log).filter (fun entry => entry.1 = w) =
      (completedTasks log).filter (fun entry => entry.1 = w) := by
  have gone := run_finished run finished w
  rw [(run_accounts run).hands w, run_inside run w, gone]
  simp [Worker.hand, Worker.inside]

theorem stopped_started (run : Run step Settled {} s log) (started : s.destructor ≠ .idle)
    (rest : Run step Settled s final more) :
    Run step Settled {} final (more ++ log) ∧ final.destructor ≠ .idle := by
  refine rest.invariant (fun s' more => Run step Settled {} s' (more ++ log) ∧
    s'.destructor ≠ .idle) ⟨run,started⟩ ?_
  intro s' older a next e earlier settled taken
  exact ⟨.next earlier.1 settled taken,moved_started earlier.2 (step_moved taken)⟩

theorem stopped_takes (run : Run step Settled {} s log) (started : s.destructor ≠ .idle)
    (rest : Run step Settled s final more) (w : W) :
    ((takenTasks more).filter (fun entry => entry.1 = w)).length ≤ 1 := by
  have takes : ((takenTasks more).filter (fun entry => entry.1 = w)).length +
      (final.threads_ w).atFront ≤ 1 := by
    induction rest with
    | nil =>
      cases here : s.threads_ w with
      | _ => simp [takenTasks, Worker.atFront]
    | next rest settled taken ih =>
      obtain ⟨whole,still⟩ := stopped_started run started rest
      exact moved_takes ((run_awake whole).stopped still) (step_moved taken) ih
  omega

theorem stopped_remaining [Fintype P] (run : Run step Settled {} s log)
    (started : s.destructor ≠ .idle) (rest : Run step Settled s final more) :
    more.length + remaining final ≤ remaining s + 4 * (calledTasks more).length := by
  induction rest with
  | nil => simp
  | @next before after older a e rest settled taken ih =>
    obtain ⟨whole,still⟩ := stopped_started run started rest
    have nearer := moved_remaining ((run_awake whole).stopped still) still (step_moved taken)
    rw [List.length_cons]
    cases e with
    | called p task =>
      simp only [asked, calledTasks, List.length_append, List.length_singleton] at nearer ⊢
      omega
    | _ =>
      simp only [asked, calledTasks] at nearer ⊢
      omega

theorem stopped_canStep (run : Run step Settled {} s log) (started : s.destructor ≠ .idle)
    (unfinished : s.destructor ≠ .finished) : CanStep s :=
  shutdown_steps (run_guarded run) (run_held run) (run_awake run) started unfinished

theorem unaided_spends [Fintype P] (s : ThreadPool W P T) (log : List (Event W P T))
    (a : Action W P T) (s' : ThreadPool W P T) (e : Event W P T)
    (holds : Run step Settled {} s log ∧ s.destructor ≠ .idle) (unaided : Unaided s a)
    (taken : s.step a = some (s', e)) :
    (Run step Settled {} s' (e :: log) ∧ s'.destructor ≠ .idle) ∧ remaining s' < remaining s := by
  obtain ⟨run,started⟩ := holds
  refine ⟨⟨.next run unaided.1 taken,moved_started started (step_moved taken)⟩,?_⟩
  have nearer := moved_remaining ((run_awake run).stopped started) started (step_moved taken)
  cases e with
  | called p task =>
    have same : a = .call p task := step_source taken rfl
    subst same
    exact absurd unaided.2 not_false
  | _ =>
    simp only [asked] at nearer
    omega

theorem shutdown_reaches [Fintype P] (run : Run step Settled {} s log)
    (started : s.destructor ≠ .idle) :
    ∃ more final, Run step (fun s _ a => Unaided s a) s final more ∧
      final.destructor = .finished := by
  obtain ⟨more,final,rest,_,finished⟩ := Run.comes_to_rest _ _ (fun s => s.destructor = .finished)
    unaided_spends (fun _ _ holds => stopped_canStep holds.1 holds.2) ⟨run,started⟩
  exact ⟨more,final,rest,finished⟩

/-- Once the destructor has begun, and if it does not notify into the gap of a worker, it ends
after boundedly many steps; workers finish what they took, and take one task more at most. -/
theorem shutdown_finishes [Fintype P] (run : Run step Settled {} s log)
    (started : s.destructor ≠ .idle) :
    (s.destructor ≠ .finished → ∃ a s' e, Unaided s a ∧ s.step a = some (s', e)) ∧
    (∃ more final, Run step (fun s _ a => Unaided s a) s final more ∧
      final.destructor = .finished) ∧
    (∀ more final, Run step Settled s final more →
      more.length + remaining final ≤ remaining s + 4 * (calledTasks more).length ∧
      ∀ w, ((takenTasks more).filter (fun entry => entry.1 = w)).length ≤ 1) ∧
    (s.destructor = .finished → (∀ w, s.threads_ w = .exited) ∧
      (∀ w, (takenTasks log).filter (fun entry => entry.1 = w) =
        (completedTasks log).filter (fun entry => entry.1 = w)) ∧
      (takenTasks log).map Prod.snd ++ s.tasks_ = (pushedTasks log).map Prod.snd) := by
  refine ⟨stopped_canStep run started,shutdown_reaches run started,?_,?_⟩
  · intro more final rest
    exact ⟨stopped_remaining run started rest,stopped_takes run started rest⟩
  · intro finished
    exact ⟨run_finished run finished,finished_exact run finished,(run_accounts run).order⟩

end Runs

theorem shutdown_abandons_queue :
    ∃ s : ThreadPool Bool Bool Nat, ∃ log, Run step Settled {} s log ∧ s.destructor = .notifyAll ∧
      s.threads_ true = .running 7 ∧ s.tasks_ = [8] ∧
      (∃ more final, Run step (fun s _ a => Unaided s a) s final more ∧
        final.destructor = .finished) ∧
      ∃ s' : ThreadPool Bool Bool Nat, ∃ log', Run step Settled {} s' log' ∧
        s'.destructor = .finished ∧ s'.tasks_ = [8] ∧ completedTasks log' = [(true, 7)] ∧
        ∀ w, s'.threads_ w = .exited := by
  let actions : List (Action Bool Bool Nat) := [.call true 7, .push true, .push true,
    .notifyOne true none, .call false 8, .push false, .push false, .notifyOne false none,
    .work true, .work true, .work true, .work true, .work true, .work true, .work true, .destroy]
  let ending : List (Action Bool Bool Nat) :=
    actions ++ [.notifyAll, .complete true, .work true, .work false, .join]
  have computed : (replay step Settled ({} : ThreadPool Bool Bool Nat) [] actions).map
      (fun (s, _) => decide (s.destructor = .notifyAll ∧ s.threads_ true = .running 7 ∧
        s.tasks_ = [8])) = some true := by
    decide +kernel
  have ended : (replay step Settled ({} : ThreadPool Bool Bool Nat) [] ending).map
      (fun (s, log) => decide (s.destructor = .finished ∧ s.tasks_ = [8] ∧
        completedTasks log = [(true, 7)])) = some true := by
    decide +kernel
  obtain ⟨s,log,run,facts⟩ := replay_reaches computed
  obtain ⟨begun,working,queued⟩ := of_decide_eq_true facts
  obtain ⟨s',log',run',facts'⟩ := replay_reaches ended
  obtain ⟨finished,left,completed⟩ := of_decide_eq_true facts'
  refine ⟨s,log,run,begun,working,queued,?_,s',log',run',finished,left,completed,?_⟩
  · exact (shutdown_finishes run (by simp [begun])).2.1
  · exact ((shutdown_finishes run' (by simp [finished])).2.2.2 finished).1

end ThreadPool
end Aiopp
