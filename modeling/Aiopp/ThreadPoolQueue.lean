import Aiopp.ThreadPool
import Mathlib.Data.List.Perm.Subperm

/-!
What each thread of the pool knows at each of its points, in particular that a worker
which passed the second test of the flag finds a task: the flag never comes back, and
nobody else touches the queue while the worker holds the mutex. The order of the tasks
follows from it.
-/
namespace Aiopp
namespace ThreadPool
open Transition
variable {W P T : Type}

/-- What a worker knows at a point of `workerFunc`. -/
def Knows (s : ThreadPool W P T) (w : W) : Worker T → Prop
  | .testTasks | .unlockTask _ | .unlock => s.tasksMutex_ = some (.worker w)
  | .testRunning | .block => s.tasksMutex_ = some (.worker w) ∧ s.tasks_ = []
  | .reloadRunning =>
    s.tasksMutex_ = some (.worker w) ∧ (s.tasks_ = [] → s.running_ = false)
  | .take => s.tasksMutex_ = some (.worker w) ∧ s.tasks_ ≠ []
  | _ => True

structure Guarded (s : ThreadPool W P T) : Prop where
  workers : ∀ w, Knows s w (s.threads_ w)
  pushers : ∀ p, (s.pushers p).holds → s.tasksMutex_ = some (.pusher p)

section Knows
variable {s s' : ThreadPool W P T} {w : W} {worker : Worker T}

theorem knows_free (free : worker.holds = false) : Knows s w worker := by
  cases worker <;> simp_all [Knows, Worker.holds]

theorem knows_owner (knows : Knows s w worker) (holds : worker.holds) :
    s.tasksMutex_ = some (.worker w) := by
  cases worker <;> simp_all [Knows, Worker.holds]

theorem knows_same (knows : Knows s w worker) (mutex : s'.tasksMutex_ = s.tasksMutex_)
    (tasks : s'.tasks_ = s.tasks_) (flag : s.running_ = false → s'.running_ = false) :
    Knows s' w worker := by
  cases worker with
  | reloadRunning =>
    unfold Knows at knows ⊢
    rw [mutex, tasks]
    exact ⟨knows.1,fun drained => flag (knows.2 drained)⟩
  | testTasks | unlockTask | unlock | testRunning | block | take =>
    simp only [Knows, mutex, tasks] at knows ⊢
    exact knows
  | _ => trivial

theorem guarded_outside (guarded : Guarded s) (away : s.tasksMutex_ ≠ some (.worker w)) :
    (s.threads_ w).holds = false := by
  cases holds : (s.threads_ w).holds with
  | false => rfl
  | true => exact absurd (knows_owner (guarded.workers w) holds) away

theorem guarded_outside_pusher {p : P} (guarded : Guarded s)
    (away : s.tasksMutex_ ≠ some (.pusher p)) : (s.pushers p).holds = false := by
  cases holds : (s.pushers p).holds with
  | false => rfl
  | true => exact absurd (guarded.pushers p holds) away

theorem guarded_quiet (guarded : Guarded s) (mutex : s'.tasksMutex_ = s.tasksMutex_)
    (tasks : s'.tasks_ = s.tasks_) (flag : s.running_ = false → s'.running_ = false)
    (workers : ∀ w, s'.threads_ w = s.threads_ w ∨ Knows s' w (s'.threads_ w))
    (pushers : ∀ p, (s'.pushers p).holds → (s.pushers p).holds) : Guarded s' := by
  constructor
  · intro w
    rcases workers w with same | knows
    · rw [same]
      exact knows_same (guarded.workers w) mutex tasks flag
    · exact knows
  · intro p holds
    rw [mutex]
    exact guarded.pushers p (pushers p holds)

theorem guarded_owner {owner : Owner W P} (guarded : Guarded s)
    (held : s.tasksMutex_ = none ∨ s.tasksMutex_ = some owner)
    (workers : ∀ w, (owner ≠ .worker w ∧ s'.threads_ w = s.threads_ w) ∨
      Knows s' w (s'.threads_ w))
    (pushers : ∀ p, (owner ≠ .pusher p ∧ s'.pushers p = s.pushers p) ∨
      ((s'.pushers p).holds → s'.tasksMutex_ = some (.pusher p))) : Guarded s' := by
  constructor
  · intro w
    rcases workers w with ⟨other,same⟩ | knows
    · rw [same]
      apply knows_free
      apply guarded_outside guarded
      rcases held with free | mine
      · simp [free]
      · simpa [mine] using other
    · exact knows
  · intro p holds
    rcases pushers p with ⟨other,same⟩ | knows
    · rw [same] at holds
      have outside : (s.pushers p).holds = false := by
        apply guarded_outside_pusher guarded
        rcases held with free | mine
        · simp [free]
        · simpa [mine] using other
      simp [outside] at holds
    · exact knows holds

end Knows

section Worker
variable [DecidableEq W] {s : ThreadPool W P T} {w : W} {next : Worker T}

@[simp] theorem knows_moveWorker (s : ThreadPool W P T) (w w' : W) (next worker : Worker T) :
    Knows (s.moveWorker w next) w' worker ↔ Knows s w' worker := by
  cases worker <;> exact Iff.rfl

theorem moveWorker_threads (s : ThreadPool W P T) (w w' : W) (next : Worker T) :
    (s.moveWorker w next).threads_ w' = if w' = w then next else s.threads_ w' := by
  simp [moveWorker, Function.update_apply]

theorem guarded_worker (guarded : Guarded s) (knows : Knows s w next) :
    Guarded (s.moveWorker w next) := by
  refine guarded_quiet guarded rfl rfl id (fun w' => ?_) (fun p holds => holds)
  rw [moveWorker_threads]
  split
  · rename_i same
    subst same
    exact .inr ((knows_moveWorker ..).mpr knows)
  · exact .inl rfl

theorem guarded_owning {mutex : Option (Owner W P)} {tasks : List T} (guarded : Guarded s)
    (held : s.tasksMutex_ = none ∨ s.tasksMutex_ = some (.worker w))
    (knows : Knows { s with tasksMutex_ := mutex, tasks_ := tasks } w next) :
    Guarded ({ s with tasksMutex_ := mutex, tasks_ := tasks }.moveWorker w next) := by
  refine guarded_owner guarded held (fun w' => ?_) (fun p => .inl ⟨by simp,rfl⟩)
  rw [moveWorker_threads]
  split
  · rename_i same
    subst same
    exact .inr ((knows_moveWorker ..).mpr knows)
  · rename_i other
    exact .inl ⟨by simpa using Ne.symm other,rfl⟩

end Worker

section Pusher
variable [DecidableEq P] {s : ThreadPool W P T} {p : P} {next : Pusher T}

theorem movePusher_pushers (s : ThreadPool W P T) (p p' : P) (next : Pusher T) :
    (s.movePusher p next).pushers p' = if p' = p then next else s.pushers p' := by
  simp [movePusher, Function.update_apply]

theorem guarded_pusher (guarded : Guarded s) (free : next.holds = false) :
    Guarded (s.movePusher p next) := by
  refine guarded_quiet guarded rfl rfl id (fun w => .inl rfl) (fun p' => ?_)
  rw [movePusher_pushers]
  split
  · simp [free]
  · exact id

theorem guarded_pushing {mutex : Option (Owner W P)} {tasks : List T} (guarded : Guarded s)
    (held : s.tasksMutex_ = none ∨ s.tasksMutex_ = some (.pusher p))
    (owns : next.holds → mutex = some (.pusher p)) :
    Guarded ({ s with tasksMutex_ := mutex, tasks_ := tasks }.movePusher p next) := by
  refine guarded_owner guarded held (fun w => .inl ⟨by simp,rfl⟩) (fun p' => ?_)
  rw [movePusher_pushers]
  split
  · rename_i same
    subst same
    exact .inr owns
  · rename_i other
    exact .inl ⟨by simpa using Ne.symm other,rfl⟩

end Pusher

section Moved
variable [DecidableEq W] [DecidableEq P] {s s' : ThreadPool W P T} {e : Event W P T}

theorem moved_guarded (guarded : Guarded s) (moved : Moved s s' e) : Guarded s' := by
  cases moved with
  | called here => exact guarded_pusher guarded rfl
  | @locked p task here free =>
    exact @guarded_pushing _ _ _ _ s p _ _ s.tasks_ guarded (.inl free) fun _ => rfl
  | @pushed p task here =>
    have held := guarded.pushers p (by rw [here]; rfl)
    exact @guarded_pushing _ _ _ _ s p .notify none (s.tasks_ ++ [task]) guarded (.inr held)
      (by simp [Pusher.holds])
  | notifiedOne here waits => exact guarded_pusher (guarded_worker guarded trivial) rfl
  | notifiedNobody here nobody => exact guarded_pusher guarded rfl
  | entered here running => exact guarded_worker guarded trivial
  | exited here stopped => exact guarded_worker guarded trivial
  | acquired here free => exact guarded_owning guarded (.inl free) rfl
  | @sawTask w here filled =>
    have knows : Knows s w .testTasks := here ▸ guarded.workers w
    exact guarded_worker guarded ⟨knows,fun drained => absurd drained filled⟩
  | @sawNone w here drained =>
    have knows : Knows s w .testTasks := here ▸ guarded.workers w
    exact guarded_worker guarded ⟨knows,drained⟩
  | @sawRunning w here running =>
    have knows : Knows s w .testRunning := here ▸ guarded.workers w
    exact guarded_worker guarded knows
  | @sawStopped w here stopped =>
    have knows : Knows s w .testRunning := here ▸ guarded.workers w
    exact guarded_worker guarded ⟨knows.1,fun _ => stopped⟩
  | @blocked w here =>
    have knows : Knows s w .block := here ▸ guarded.workers w
    exact guarded_owning guarded (.inr knows.1) trivial
  | @reloadedRunning w here running =>
    have knows : Knows s w .reloadRunning := here ▸ guarded.workers w
    refine guarded_worker guarded ⟨knows.1,fun drained => ?_⟩
    have stopped := knows.2 drained
    simp [running] at stopped
  | @reloadedStopped w here stopped =>
    have knows : Knows s w .reloadRunning := here ▸ guarded.workers w
    exact guarded_worker guarded knows.1
  | @taken w task rest here front =>
    have knows : Knows s w .take := here ▸ guarded.workers w
    exact guarded_owning guarded (.inr knows.1) knows.1
  | @unlocked w task here =>
    have knows : Knows s w (.unlockTask task) := here ▸ guarded.workers w
    exact guarded_owning guarded (.inr knows) trivial
  | invoked here => exact guarded_worker guarded trivial
  | @released w here =>
    have knows : Knows s w .unlock := here ▸ guarded.workers w
    exact guarded_owning guarded (.inr knows) trivial
  | woken here => exact guarded_worker guarded trivial
  | completed here => exact guarded_worker guarded trivial
  | stored here => exact guarded_quiet guarded rfl rfl (fun _ => rfl) (fun w => .inl rfl) fun p => id
  | notifiedAll here =>
    refine guarded_quiet guarded rfl rfl id (fun w => ?_) fun p => id
    simp only [wakeAll]
    split
    · exact .inr trivial
    · exact .inl rfl
  | joined here => exact guarded_quiet guarded rfl rfl id (fun w => .inl rfl) fun p => id

end Moved

def calledTasks : List (Event W P T) → List (P × T)
  | [] => []
  | .called p task :: log => calledTasks log ++ [(p, task)]
  | _ :: log => calledTasks log

def pushedTasks : List (Event W P T) → List (P × T)
  | [] => []
  | .pushed p task :: log => pushedTasks log ++ [(p, task)]
  | _ :: log => pushedTasks log

def takenTasks : List (Event W P T) → List (W × T)
  | [] => []
  | .taken w task :: log => takenTasks log ++ [(w, task)]
  | _ :: log => takenTasks log

def invokedTasks : List (Event W P T) → List (W × T)
  | [] => []
  | .invoked w task :: log => invokedTasks log ++ [(w, task)]
  | _ :: log => invokedTasks log

/-- The last test of the flag in the worker's loop found it set, before the store. -/
def ReloadedBeforeStore (w : W) (log : List (Event W P T)) : Prop :=
  ∃ since before, log = since ++ .reloaded w true :: before ∧
    (∀ value, .reloaded w value ∉ since) ∧ .stored ∉ before

def Worker.hand : Worker T → List T
  | .unlockTask task | .call task => [task]
  | _ => []

def Pusher.hand : Pusher T → List T
  | .lock task | .push task => [task]
  | _ => []

structure Accounts [DecidableEq W] [DecidableEq P] (s : ThreadPool W P T)
    (log : List (Event W P T)) : Prop where
  order : (takenTasks log).map Prod.snd ++ s.tasks_ = (pushedTasks log).map Prod.snd
  flag : s.running_ = true ↔ .stored ∉ log
  reload : ∀ w, s.threads_ w = .take → ReloadedBeforeStore w log
  hands : ∀ w, (takenTasks log).filter (fun entry => entry.1 = w) =
    (invokedTasks log).filter (fun entry => entry.1 = w) ++ (s.threads_ w).hand.map (Prod.mk w)
  calls : ∀ p, (calledTasks log).filter (fun entry => entry.1 = p) =
    (pushedTasks log).filter (fun entry => entry.1 = p) ++ (s.pushers p).hand.map (Prod.mk p)

section Accounts
variable [DecidableEq W] [DecidableEq P] {s s' : ThreadPool W P T} {e : Event W P T}
  {log : List (Event W P T)}

theorem moved_order (moved : Moved s s' e)
    (order : (takenTasks log).map Prod.snd ++ s.tasks_ = (pushedTasks log).map Prod.snd) :
    (takenTasks (e :: log)).map Prod.snd ++ s'.tasks_ = (pushedTasks (e :: log)).map Prod.snd := by
  cases moved with
  | pushed here =>
    simp only [takenTasks, pushedTasks, movePusher, release, List.map_append, ← order,
      List.append_assoc, List.map_cons, List.map_nil]
  | taken here front =>
    simp only [takenTasks, pushedTasks, moveWorker, ← order, front]
    simp
  | _ => exact order

theorem moved_flag (moved : Moved s s' e) (flag : s.running_ = true ↔ .stored ∉ log) :
    s'.running_ = true ↔ .stored ∉ e :: log := by
  cases moved with
  | stored here => simp
  | _ => simpa [moveWorker, movePusher, release, wakeAll] using flag

omit [DecidableEq W] [DecidableEq P] in
theorem reload_kept {w : W} (reload : ReloadedBeforeStore w log)
    (other : ∀ value, e ≠ .reloaded w value) : ReloadedBeforeStore w (e :: log) := by
  obtain ⟨since,before,rfl,none,early⟩ := reload
  refine ⟨e :: since,before,rfl,fun value member => ?_,early⟩
  rcases List.mem_cons.mp member with same | old
  · exact other value same.symm
  · exact none value old

/-- A worker comes to the front of the queue from its test of the flag only. -/
theorem moved_take {w : W} (moved : Moved s s' e) (here : s'.threads_ w = .take) :
    (s.threads_ w = .take ∧ ∀ value, e ≠ .reloaded w value) ∨
    (e = .reloaded w true ∧ s.running_ = true) := by
  cases moved with
  | @reloadedRunning w' loads running =>
    by_cases same : w = w'
    · subst same
      exact .inr ⟨rfl,running⟩
    · rw [moveWorker_threads, if_neg same] at here
      exact .inl ⟨here,by simp [Ne.symm same]⟩
  | @reloadedStopped w' loads stopped =>
    by_cases same : w = w'
    · simp [moveWorker_threads, same] at here
    · rw [moveWorker_threads, if_neg same] at here
      exact .inl ⟨here,by simp [Ne.symm same]⟩
  | notifiedAll =>
    simp only [wakeAll] at here
    split at here
    · simp at here
    · exact .inl ⟨here,by simp⟩
  | _ =>
    -- the points these steps move a worker to are not `take`
    simp only [moveWorker, movePusher, release, Function.update_apply] at here
    grind

omit [DecidableEq P] in
theorem hand_moveWorker {w w' : W} {next : Worker T} (same : next.hand = (s.threads_ w').hand) :
    ((s.moveWorker w' next).threads_ w).hand = (s.threads_ w).hand := by
  rw [moveWorker_threads]
  split
  · rename_i moved
    rw [moved, same]
  · rfl

omit [DecidableEq W] [DecidableEq P] in
theorem filter_entry {K : Type} [DecidableEq K] (w w' : K) (task : T) :
    [(w', task)].filter (fun entry => entry.1 = w) = if w' = w then [(w, task)] else [] := by
  by_cases same : w' = w
  · simp [same]
  · simp [same]

theorem moved_hands {w : W} (moved : Moved s s' e)
    (hands : (takenTasks log).filter (fun entry => entry.1 = w) =
      (invokedTasks log).filter (fun entry => entry.1 = w) ++ (s.threads_ w).hand.map (Prod.mk w)) :
    (takenTasks (e :: log)).filter (fun entry => entry.1 = w) =
      (invokedTasks (e :: log)).filter (fun entry => entry.1 = w) ++
        (s'.threads_ w).hand.map (Prod.mk w) := by
  cases moved with
  | @taken w' task rest here front =>
    simp only [takenTasks, invokedTasks, List.filter_append, filter_entry, hands]
    rw [moveWorker_threads]
    by_cases same : w = w'
    · subst same
      simp [here, Worker.hand]
    · simp [same, Ne.symm same]
  | @invoked w' task here =>
    simp only [takenTasks, invokedTasks, List.filter_append, filter_entry, hands]
    rw [moveWorker_threads]
    by_cases same : w = w'
    · subst same
      simp [here, Worker.hand]
    · simp [same, Ne.symm same]
  | notifiedAll here =>
    refine hands.trans ?_
    simp only [wakeAll, invokedTasks]
    split
    · rename_i waits
      rw [(isBlocked_iff _).mp waits]
      rfl
    · rfl
  | acquired here free =>
    refine hands.trans ?_
    rw [hand_moveWorker (by rcases here with here | here <;> rw [here] <;> rfl)]
    rfl
  | notifiedOne here waits =>
    refine hands.trans ?_
    change _ = _ ++ List.map (Prod.mk w) ((s.moveWorker _ .woken).threads_ w).hand
    rw [hand_moveWorker (by rw [waits]; rfl)]
    rfl
  | called | locked | pushed | notifiedNobody | stored | joined => exact hands
  | blocked here | unlocked here | released here =>
    refine hands.trans ?_
    rw [hand_moveWorker (by simp only [release]; rw [here]; rfl)]
    rfl
  | entered here | exited here | sawTask here | sawNone here | sawRunning here | sawStopped here
  | reloadedRunning here | reloadedStopped here | woken here | completed here =>
    refine hands.trans ?_
    rw [hand_moveWorker (by rw [here]; rfl)]
    rfl

omit [DecidableEq W] in
theorem hand_movePusher {p p' : P} {next : Pusher T} (same : next.hand = (s.pushers p').hand) :
    ((s.movePusher p' next).pushers p).hand = (s.pushers p).hand := by
  rw [movePusher_pushers]
  split
  · rename_i moved
    rw [moved, same]
  · rfl

theorem moved_calls {p : P} (moved : Moved s s' e)
    (calls : (calledTasks log).filter (fun entry => entry.1 = p) =
      (pushedTasks log).filter (fun entry => entry.1 = p) ++ (s.pushers p).hand.map (Prod.mk p)) :
    (calledTasks (e :: log)).filter (fun entry => entry.1 = p) =
      (pushedTasks (e :: log)).filter (fun entry => entry.1 = p) ++
        (s'.pushers p).hand.map (Prod.mk p) := by
  cases moved with
  | @called p' task here =>
    simp only [calledTasks, pushedTasks, List.filter_append, filter_entry, calls]
    rw [movePusher_pushers]
    by_cases same : p = p'
    · subst same
      simp [here, Pusher.hand]
    · simp [same, Ne.symm same]
  | @pushed p' task here =>
    simp only [calledTasks, pushedTasks, List.filter_append, filter_entry, calls]
    rw [movePusher_pushers]
    by_cases same : p = p'
    · subst same
      simp [here, Pusher.hand]
    · simp [same, Ne.symm same, release]
  | locked here free =>
    refine calls.trans ?_
    rw [hand_movePusher (by rw [here]; rfl)]
    rfl
  | notifiedOne here waits =>
    refine calls.trans ?_
    rw [hand_movePusher (by simp only [moveWorker]; rw [here]; rfl)]
    rfl
  | notifiedNobody here nobody =>
    refine calls.trans ?_
    rw [hand_movePusher (by rw [here]; rfl)]
    rfl
  | _ => exact calls

theorem moved_running {w : W} {task : T} (moved : Moved s s' e)
    (here : s'.threads_ w = .running task) : s.threads_ w = .running task ∨ e = .invoked w task := by
  cases moved with
  | @invoked w' ready point =>
    by_cases same : w = w'
    · subst same
      rw [moveWorker_threads, if_pos rfl] at here
      obtain rfl := Worker.running.inj here
      exact .inr rfl
    · rw [moveWorker_threads, if_neg same] at here
      exact .inl here
  | notifiedAll =>
    simp only [wakeAll] at here
    split at here
    · simp at here
    · exact .inl here
  | _ =>
    simp only [moveWorker, movePusher, release, Function.update_apply] at here
    grind

omit [DecidableEq W] [DecidableEq P] in
theorem invokedTasks_cons {entry : W × T} (invoked : entry ∈ invokedTasks log) :
    entry ∈ invokedTasks (e :: log) := by
  cases e with
  | invoked w task => exact List.mem_append_left _ invoked
  | _ => exact invoked

theorem moved_accounts (accounts : Accounts s log) (moved : Moved s s' e) :
    Accounts s' (e :: log) := by
  constructor
  · exact moved_order moved accounts.order
  · exact moved_flag moved accounts.flag
  · intro w here
    rcases moved_take moved here with ⟨before,other⟩ | ⟨rfl,running⟩
    · exact reload_kept (accounts.reload w before) other
    · exact ⟨[],log,rfl,by simp,accounts.flag.mp running⟩
  · intro w
    exact moved_hands moved (accounts.hands w)
  · intro p
    exact moved_calls moved (accounts.calls p)

omit [DecidableEq W] [DecidableEq P] in
/-- Thread by thread, what is done is what was begun, less what is still in hand. -/
theorem subperm_of_hands {K : Type} [DecidableEq K] {entries done : List (K × T)}
    (hand : K → List T) (hands : ∀ key, entries.filter (fun entry => entry.1 = key) =
      done.filter (fun entry => entry.1 = key) ++ (hand key).map (Prod.mk key)) :
    (done.map Prod.snd).Subperm (entries.map Prod.snd) := by
  classical
  have pairs : done.Subperm entries := by
    rw [List.subperm_ext_iff]
    intro entry member
    have mine (list : List (K × T)) :
        (list.filter fun other => other.1 = entry.1).count entry = list.count entry :=
      List.count_filter (by simp)
    have hands := congrArg (List.count entry) (hands entry.1)
    rw [List.count_append, mine, mine] at hands
    omega
  obtain ⟨list,perm,sublist⟩ := pairs
  exact ⟨list.map Prod.snd,perm.map Prod.snd,sublist.map Prod.snd⟩

theorem invoked_subperm (accounts : Accounts s log) :
    ((invokedTasks log).map Prod.snd).Subperm ((pushedTasks log).map Prod.snd) := by
  have first : (takenTasks log).map Prod.snd <+: (pushedTasks log).map Prod.snd :=
    ⟨s.tasks_,accounts.order⟩
  exact (subperm_of_hands _ accounts.hands).trans first.sublist.subperm

theorem invoked_subperm_called (accounts : Accounts s log) :
    ((invokedTasks log).map Prod.snd).Subperm ((calledTasks log).map Prod.snd) :=
  (invoked_subperm accounts).trans (subperm_of_hands _ accounts.calls)

end Accounts

section Runs
variable [DecidableEq W] [DecidableEq P] [Fintype W] {s : ThreadPool W P T}
  {log : List (Event W P T)}

def AnyOrder (_ : ThreadPool W P T) (_ : List (Event W P T)) (_ : Action W P T) : Prop := True

instance (s : ThreadPool W P T) (log : List (Event W P T)) (a : Action W P T) :
    Decidable (AnyOrder s log a) := isTrue trivial

omit [DecidableEq W] [DecidableEq P] [Fintype W] in
theorem start_guarded : Guarded ({} : ThreadPool W P T) := by
  constructor
  · intro w
    trivial
  · simp [Pusher.holds]

theorem run_guarded {policy : ThreadPool W P T → List (Event W P T) → Action W P T → Prop}
    (run : Run step policy {} s log) : Guarded s := by
  refine run.invariant (fun s _ => Guarded s) start_guarded ?_
  intro s older a s' e guarded _ taken
  exact moved_guarded guarded (step_moved taken)

theorem run_accounts {policy : ThreadPool W P T → List (Event W P T) → Action W P T → Prop}
    (run : Run step policy {} s log) : Accounts s log := by
  refine run.invariant Accounts ?_ ?_
  · constructor <;>
      simp [takenTasks, calledTasks, pushedTasks, invokedTasks, Worker.hand, Pusher.hand]
  · intro s older a s' e accounts _ taken
    exact moved_accounts accounts (step_moved taken)

theorem run_running {policy : ThreadPool W P T → List (Event W P T) → Action W P T → Prop}
    (run : Run step policy {} s log) {w : W} {task : T} (here : s.threads_ w = .running task) :
    (w, task) ∈ invokedTasks log := by
  revert here
  refine run.invariant (fun s log => s.threads_ w = .running task → (w, task) ∈ invokedTasks log)
    (by simp) ?_
  intro s older a s' e earlier _ taken here
  rcases moved_running (step_moved taken) here with before | rfl
  · exact invokedTasks_cons (earlier before)
  · simp [invokedTasks]

/-- Front and pop meet a task, tasks are taken in the order of the pushes and called at
most once, and by workers only that read the flag before it was reset. -/
theorem pool_dequeues_in_order (run : Run step AnyOrder {} s log) :
    (∀ w, s.threads_ w = .take → s.tasks_ ≠ []) ∧
    (takenTasks log).map Prod.snd <+: (pushedTasks log).map Prod.snd ∧
    ((invokedTasks log).map Prod.snd).Subperm ((pushedTasks log).map Prod.snd) ∧
    ∀ later older w task, log = later ++ .taken w task :: older → ReloadedBeforeStore w older := by
  have accounts := run_accounts run
  refine ⟨fun w here => ?_,⟨s.tasks_,accounts.order⟩,invoked_subperm accounts,?_⟩
  · have knows : Knows s w .take := here ▸ (run_guarded run).workers w
    exact knows.2
  · intro later older w task split
    subst split
    obtain ⟨before,a,after,earlier,_,taken,_⟩ := run.split
    have here : before.threads_ w = .take := by
      cases step_moved taken
      assumption
    exact (run_accounts earlier).reload w here

end Runs

theorem late_take_in_order :
    ∃ s : ThreadPool Bool Bool Nat, ∃ log, Run step AnyOrder {} s log ∧
      pushedTasks log = [(true, 7), (false, 8)] ∧ takenTasks log = [(true, 7), (false, 8)] ∧
      s.running_ = false ∧
      (takenTasks log).map Prod.snd <+: (pushedTasks log).map Prod.snd := by
  let actions : List (Action Bool Bool Nat) := [.call true 7, .push true, .push true, .call false 8,
    .notifyOne true none, .push false, .push false, .work true, .work true, .work true, .work true,
    .work true, .work false, .work true, .work true, .work false, .work false, .work false,
    .destroy, .work false, .notifyAll]
  have computed : (replay step AnyOrder ({} : ThreadPool Bool Bool Nat) [] actions).map
      (fun (s, log) => decide (pushedTasks log = [(true, 7), (false, 8)] ∧
        takenTasks log = [(true, 7), (false, 8)] ∧ s.running_ = false)) = some true := by
    decide +kernel
  obtain ⟨s,log,run,facts⟩ := replay_reaches computed
  obtain ⟨pushes,takes,stopped⟩ := of_decide_eq_true facts
  exact ⟨s,log,run,pushes,takes,stopped,(pool_dequeues_in_order run).2.1⟩

end ThreadPool
end Aiopp
