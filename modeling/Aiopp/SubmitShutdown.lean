import Aiopp.SubmitHistory
import Aiopp.ThreadPoolShutdown

/-!
What becomes of a submission when the pool is destroyed. A lambda that a worker took runs to
its end and fulfils its promise; one that is still queued is dropped, and its future is never
ready, whoever waits for it.
-/
namespace Aiopp
namespace Submit
open Transition Future ThreadPool
variable {W P Q J O : Type} {R : J → Type}

def Body.late {T : Type} : Body T → Bool
  | .setting _ .unlock => true
  | .setting _ .notify => true
  | .setting _ .write => true
  | .setting _ .returned => true
  | _ => false

section Step
variable [DecidableEq W] [DecidableEq P] [DecidableEq Q] [DecidableEq J] [Fintype W]
  {residue : (j : J) → R j → R j} {s s' : Submit W P Q J O R}
  {e : Event W P J O R} {log : List (Event W P J O R)} {w : W} {j : J}

omit [DecidableEq P] [DecidableEq Q] [Fintype W] in
theorem late_setBody {w' : W} {i : J} {body : Body (R i)}
    (late : ((s.setBody w' i body).bodies w j).late) :
    (body.late ∧ w = w' ∧ i = j) ∨ (s.bodies w j).late := by
  by_cases here : w = w'
  · by_cases same : j = i
    · subst here same
      rw [setBody_same] at late
      exact .inl ⟨late,rfl,rfl⟩
    · rw [setBody_other _ _ _ _ same] at late
      exact .inr late
  · simp only [setBody, Function.update_of_ne here] at late
    exact .inr late

omit [DecidableEq P] [DecidableEq Q] [Fintype W] in
theorem late_invoke {bodies : W → (j : J) → Body (R j)} {event : ThreadPool.Event W P (J ⊕ O)}
    (late : (invoke bodies event w j).late) : (bodies w j).late := by
  by_cases now : event = .invoked w (.inl j)
  · subst now
    simp [invoke, Body.late] at late
  · rwa [invoke_other now] at late

omit [DecidableEq Q] in
theorem late_body {w' : W} {i : J} (run : s.body w' i = some (s', e))
    (late : (s'.bodies w j).late) : (s.bodies w j).late ∨ (s'.shared j).value.isSome := by
  unfold body at run
  split at run
  · cases run
    rcases late_setBody late with ⟨early,_⟩ | before
    · simp [Body.late] at early
    · exact .inl before
  · simp at run
  · split at run
    · cases run
      rcases late_setBody late with ⟨early,_⟩ | before
      · simp [Body.late] at early
      · exact .inl before
    · simp at run
  · split at run
    · cases run
      rcases late_setBody late with ⟨_,_,rfl⟩ | before
      · exact .inr (by simp [setBody, setShared])
      · exact .inl before
    · simp at run
  · rename_i argument point
    cases run
    rcases late_setBody late with ⟨_,rfl,rfl⟩ | before
    · exact .inl (by rw [point]; rfl)
    · exact .inl before
  · rename_i argument point
    cases run
    rcases late_setBody late with ⟨_,rfl,rfl⟩ | before
    · exact .inl (by rw [point]; rfl)
    · exact .inl before
  · rename_i argument point
    cases run
    rcases late_setBody late with ⟨_,rfl,rfl⟩ | before
    · exact .inl (by rw [point]; rfl)
    · exact .inl before
  · obtain ⟨⟨pool,event⟩,_,eq⟩ := Option.map_eq_some_iff.mp run
    cases eq
    exact .inl late

omit [DecidableEq W] [DecidableEq P] [Fintype W] in
theorem read_bodies {q : Q} (run : s.read residue q = some (s', e)) : s'.bodies = s.bodies := by
  unfold read at run
  split at run
  · simp at run
  · split at run
    · cases run
      rfl
    · simp at run
  · cases run
    rfl
  · split at run <;> cases run <;> rfl
  · cases run
    rfl
  · cases run
    rfl

theorem step_late {a : Action W P Q J O R} (taken : step residue s a = some (s', e))
    (late : (s'.bodies w j).late) : (s.bodies w j).late ∨ (s'.shared j).value.isSome := by
  cases a with
  | submit p i =>
    simp only [step] at taken
    split at taken
    · simp at taken
    · obtain ⟨⟨pool,event⟩,_,eq⟩ := Option.map_eq_some_iff.mp taken
      cases eq
      exact .inl late
  | pool a =>
    simp only [step] at taken
    split at taken
    · obtain ⟨⟨pool,event⟩,_,eq⟩ := Option.map_eq_some_iff.mp taken
      cases eq
      exact .inl (late_invoke late)
    · simp at taken
  | work w' =>
    simp only [step] at taken
    split at taken
    · exact late_body taken late
    · simp at taken
  | returns w' i v =>
    simp only [step] at taken
    split at taken
    · split at taken
      · cases taken
        rcases late_setBody late with ⟨early,_⟩ | before
        · simp [Body.late] at early
        · exact .inl before
      · simp at taken
    · simp at taken
  | ask q i question =>
    simp only [step] at taken
    split at taken
    · split at taken
      · cases taken
        exact .inl late
      · simp at taken
    · simp at taken
  | read q =>
    rw [read_bodies taken] at late
    exact .inl late

theorem moved_value (moved : Moved residue s s' e) (full : (s.shared j).value.isSome) :
    (s'.shared j).value.isSome := by
  cases moved with
  | @locked w i v shared here point same | @left w i v next shared readers here late same
  | @read q i next shared same =>
    by_cases own : j = i
    · subst own
      simpa [setBody, moveReader, setShared, same] using full
    · simpa [setBody, moveReader, setShared, own] using full
  | @assigned w i v here point | @got q i v next here =>
    by_cases own : j = i
    · subst own
      simp [setBody, moveReader, setShared]
    · simpa [setBody, moveReader, setShared, own] using full
  | _ => exact full

theorem completed_late {a : Action W P Q J O R}
    (taken : step residue s a = some (s', .pool (.completed w (.inl j)))) :
    (s.bodies w j).late := by
  cases a with
  | submit p i =>
    simp only [step] at taken
    split at taken
    · simp at taken
    · obtain ⟨⟨pool,event⟩,moves,eq⟩ := Option.map_eq_some_iff.mp taken
      cases eq
      simpa using ThreadPool.step_source moves rfl
  | pool a =>
    simp only [step] at taken
    split at taken
    · rename_i passed
      obtain ⟨⟨pool,event⟩,moves,eq⟩ := Option.map_eq_some_iff.mp taken
      cases eq
      obtain rfl := ThreadPool.step_source moves rfl
      simp only [ThreadPool.step] at moves
      split at moves
      · rename_i here
        cases moves
        simp [passes, here] at passed
      · simp at moves
    · simp at taken
  | work w' =>
    simp only [step] at taken
    split at taken
    · rename_i i here
      unfold body at taken
      split at taken
      · simp at taken
      · simp at taken
      · split at taken <;> simp at taken
      · split at taken <;> simp at taken
      · simp at taken
      · simp at taken
      · simp at taken
      · rename_i argument point
        obtain ⟨⟨pool,event⟩,moves,eq⟩ := Option.map_eq_some_iff.mp taken
        cases eq
        obtain rfl := Action.complete.inj (ThreadPool.step_source moves rfl)
        simp only [ThreadPool.step, here] at moves
        cases moves
        rw [point]
        rfl
    · simp at taken
  | returns w' i v =>
    simp only [step] at taken
    split at taken
    · split at taken <;> simp at taken
    · simp at taken
  | ask q i question =>
    simp only [step] at taken
    split at taken
    · split at taken <;> simp at taken
    · simp at taken
  | read q =>
    simp only [step, read] at taken
    grind

omit [DecidableEq W] [DecidableEq P] [DecidableEq Q] [DecidableEq J] [Fintype W] in
theorem completed_cons {task : J ⊕ O}
    (completed : (w, task) ∈ completedTasks (poolLog (e :: log))) :
    (w, task) ∈ completedTasks (poolLog log) ∨ e = .pool (.completed w task) := by
  cases e with
  | pool event =>
    cases event with
    | completed w' task' =>
      simp only [poolLog, completedTasks, List.mem_append, List.mem_singleton] at completed
      rcases completed with earlier | now
      · exact .inl earlier
      · cases now
        exact .inr rfl
    | _ => exact .inl completed
  | _ => exact .inl completed

omit [DecidableEq W] [DecidableEq P] [DecidableEq Q] [DecidableEq J] [Fintype W] in
theorem called_cons {p : P} {task : J ⊕ O} (called : (p, task) ∈ calledTasks (poolLog log)) :
    (p, task) ∈ calledTasks (poolLog (e :: log)) := by
  cases e with
  | pool event =>
    cases event with
    | called p' task' => exact List.mem_append_left _ called
    | _ => exact called
  | _ => exact called

theorem moved_submitted (moved : Moved residue s s' e) (submitted : s'.submitted j = true) :
    s.submitted j = true ∨ ∃ p, e = .pool (.called p (.inl j)) := by
  cases moved with
  | @submitted p i pool event fresh taken =>
    by_cases same : j = i
    · subst same
      refine .inr ⟨p,?_⟩
      simp only [ThreadPool.step] at taken
      split at taken
      · cases taken
        rfl
      · simp at taken
    · exact .inl (by simpa [same] using submitted)
  | _ => exact .inl submitted

end Step

section Runs
variable [DecidableEq W] [DecidableEq P] [DecidableEq Q] [DecidableEq J] [Fintype W]
  {residue : (j : J) → R j → R j} {s final : Submit W P Q J O R}
  {log more : List (Event W P J O R)} {j : J}

theorem run_late (run : Run (step residue) AnyOrder {} s log) (w : W) (j : J)
    (late : (s.bodies w j).late) : (s.shared j).value.isSome := by
  revert late
  refine run.invariant (fun s _ => (s.bodies w j).late → (s.shared j).value.isSome) ?_ ?_
  · simp [Body.late]
  · intro s older a s' e earlier _ taken late
    rcases step_late taken late with before | now
    · exact moved_value (step_moved taken) (earlier before)
    · exact now

theorem run_completed (run : Run (step residue) AnyOrder {} s log) {w : W}
    (completed : (w, .inl j) ∈ completedTasks (poolLog log)) : (s.shared j).value.isSome := by
  induction run with
  | nil => simp [poolLog, completedTasks] at completed
  | @next s s' older a e run allowed taken ih =>
    have kept := moved_value (j := j) (step_moved taken)
    rcases completed_cons completed with earlier | now
    · exact kept (ih earlier)
    · subst now
      exact kept (run_late run w j (completed_late taken))

theorem run_submitted (run : Run (step residue) AnyOrder {} s log)
    (submitted : s.submitted j = true) : ∃ p, (p, .inl j) ∈ calledTasks (poolLog log) := by
  induction run with
  | nil => simp at submitted
  | next run allowed taken ih =>
    rcases moved_submitted (step_moved taken) submitted with before | ⟨p,rfl⟩
    · obtain ⟨p,called⟩ := ih before
      exact ⟨p,called_cons called⟩
    · exact ⟨p,List.mem_append_right _ (List.mem_singleton.mpr rfl)⟩

def Taken (j : J) (log : List (Event W P J O R)) : Prop :=
  ∃ w, (w, .inl j) ∈ takenTasks (poolLog log)

theorem invoked_taken (run : Run (step residue) AnyOrder {} s log) (invoked : Invoked j log) :
    Taken j log := by
  obtain ⟨w,member⟩ := invoked
  have hands := (run_accounts (run_pool run)).hands w
  have mine : (w, .inl j) ∈ (takenTasks (poolLog log)).filter (fun entry => entry.1 = w) := by
    rw [hands]
    exact List.mem_append_left _ (List.mem_filter.mpr ⟨member,by simp⟩)
  exact ⟨w,(List.mem_filter.mp mine).1⟩

theorem submitted_somewhere (run : Run (step residue) AnyOrder {} s log)
    (submitted : s.submitted j = true) :
    Taken j log ∨ .inl j ∈ s.pool.tasks_ ∨ ∃ p, .inl j ∈ (s.pool.pushers p).hand := by
  obtain ⟨p,called⟩ := run_submitted run submitted
  have accounts := run_accounts (run_pool run)
  have mine : (p, .inl j) ∈ (calledTasks (poolLog log)).filter (fun entry => entry.1 = p) :=
    List.mem_filter.mpr ⟨called,by simp⟩
  rw [accounts.calls p] at mine
  rcases List.mem_append.mp mine with pushed | hand
  · have queued := List.mem_map_of_mem (f := Prod.snd) (List.mem_filter.mp pushed).1
    rw [← accounts.order] at queued
    rcases List.mem_append.mp queued with taken | waiting
    · obtain ⟨⟨w,task⟩,member,eq⟩ := List.mem_map.mp taken
      obtain rfl : task = .inl j := eq
      exact .inl ⟨w,member⟩
    · exact .inr (.inl waiting)
  · obtain ⟨task,held,eq⟩ := List.mem_map.mp hand
    cases eq
    exact .inr (.inr ⟨p,held⟩)

theorem finished_value (run : Run (step residue) AnyOrder {} s log)
    (finished : s.pool.destructor = .finished) (taken : Taken j log) :
    (s.shared j).value.isSome := by
  obtain ⟨w,member⟩ := taken
  have mine : (w, .inl j) ∈ (takenTasks (poolLog log)).filter (fun entry => entry.1 = w) :=
    List.mem_filter.mpr ⟨member,by simp⟩
  rw [finished_exact (run_pool run) finished w] at mine
  exact run_completed run (List.mem_filter.mp mine).1

omit [Fintype W] [DecidableEq J] in
theorem finished_quiet {pool pool' : ThreadPool W P (J ⊕ O)}
    {event : ThreadPool.Event W P (J ⊕ O)} (ended : pool.destructor = .finished)
    (gone : ∀ w, pool.threads_ w = .exited) (moved : ThreadPool.Moved pool pool' event) :
    pool'.destructor = .finished ∧ ∀ log, takenTasks (event :: log) = takenTasks log := by
  cases moved with
  | stored here | notifiedAll here | joined here => simp [ended] at here
  | @taken w task rest here front => simp [gone w] at here
  | _ => exact ⟨ended,fun _ => rfl⟩

theorem finished_takes (run : Run (step residue) AnyOrder {} s log)
    (finished : s.pool.destructor = .finished)
    (rest : Run (step residue) AnyOrder s final more) :
    Run (step residue) AnyOrder {} final (more ++ log) ∧ final.pool.destructor = .finished ∧
      takenTasks (poolLog (more ++ log)) = takenTasks (poolLog log) := by
  refine rest.invariant (fun s' more => Run (step residue) AnyOrder {} s' (more ++ log) ∧
    s'.pool.destructor = .finished ∧
      takenTasks (poolLog (more ++ log)) = takenTasks (poolLog log)) ⟨run,finished,rfl⟩ ?_
  intro s' older a next e earlier _ taken
  obtain ⟨whole,ended,same⟩ := earlier
  refine ⟨.next whole trivial taken,?_⟩
  rcases moved_pool (older ++ log) (step_moved taken) with ⟨b,event,moves,rfl⟩ | ⟨still,quiet⟩
  · have gone := run_finished (run_pool whole) ended
    obtain ⟨still,quiet⟩ := finished_quiet ended gone (ThreadPool.step_moved moves)
    exact ⟨still,(quiet _).trans same⟩
  · rw [still, List.cons_append, quiet]
    exact ⟨ended,same⟩

/-- When the destructor of the pool has ended, a submitted function has been called, has
returned and its future is ready; or it was dropped with the queue, and then its future is
never ready. -/
theorem destruction_settles_submissions (run : Run (step residue) AnyOrder {} s log)
    (finished : s.pool.destructor = .finished) (submitted : s.submitted j = true) :
    ((s.shared j).value.isSome ∧ Fulfilled s log j) ∨
    ((.inl j ∈ s.pool.tasks_ ∨ ∃ p, .inl j ∈ (s.pool.pushers p).hand) ∧
      ∀ more final, Run (step residue) AnyOrder s final more →
        history j (more ++ log) = [] ∧ (final.shared j).value = none) := by
  by_cases taken : Taken j log
  · have ready := finished_value run finished taken
    exact .inl ⟨ready,(run_kept run j).ready ready⟩
  · refine .inr ⟨(submitted_somewhere run submitted).resolve_left taken,?_⟩
    intro more final rest
    obtain ⟨whole,_,same⟩ := finished_takes run finished rest
    apply (run_kept whole j).fresh
    intro invoked
    obtain ⟨w,member⟩ := invoked_taken whole invoked
    exact taken ⟨w,same ▸ member⟩

end Runs

theorem queued_function_dropped :
    ∃ s : Submit Unit Unit Unit Bool Empty fun _ => Nat, ∃ log,
      Run (step fun _ => id) AnyOrder {} s log ∧ s.pool.destructor = .finished ∧
      (s.shared true).value = some 42 ∧ Fulfilled s log true ∧
      s.pool.tasks_ = [.inl false] ∧
      ∀ more final, Run (step fun _ => id) AnyOrder s final more →
        (final.shared false).value = none := by
  let actions : List (Action Unit Unit Unit Bool Empty fun _ => Nat) :=
    toLambda () () true ++ [.work (), .pool (.notifyOne () none), .submit () false,
      .pool (.push ()), .pool (.push ()), .pool .destroy, .pool .notifyAll,
      .returns () true 42, .work (), .work (), .work (), .work (), .work (), .work (),
      .pool (.work ()), .pool .join]
  have computed : (replay (step fun _ => id) AnyOrder
      ({} : Submit Unit Unit Unit Bool Empty fun _ => Nat) [] actions).map
      (fun (s, _) => (decide (s.pool.destructor = .finished ∧ s.submitted true ∧ s.submitted false ∧
        s.pool.tasks_ = [.inl false]), (s.shared true).value,
        (s.shared false).value.isSome)) = some (true, some 42, false) := by
    decide +kernel
  obtain ⟨s,log,run,facts⟩ := replay_reaches computed
  obtain ⟨held,rest⟩ := Prod.mk.inj facts
  obtain ⟨value,empty⟩ := Prod.mk.inj rest
  obtain ⟨finished,first,second,queued⟩ := of_decide_eq_true held
  refine ⟨s,log,run,finished,value,?_,queued,?_⟩
  · rcases destruction_settles_submissions run finished first with ⟨_,done⟩ | ⟨_,never⟩
    · exact done
    · have none := (never [] s .nil).2
      rw [none] at value
      contradiction
  · rcases destruction_settles_submissions run finished second with ⟨ready,_⟩ | ⟨_,never⟩
    · simp [empty] at ready
    · exact fun more final rest => (never more final rest).2

end Submit
end Aiopp
