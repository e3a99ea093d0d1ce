import Aiopp.CoroutineMemory
import Aiopp.TaskAwaits
import Aiopp.TaskOwnership

/-!
The frames of nested tasks as tasks. Each goes through the promise of one `Task`, awaited by
the frame that called it; and the `Task` objects in the frames that wait own the frames of
the tasks, one each.
-/
namespace Aiopp
namespace Coroutine
open DirectStyle IoQueue Transition UniquePointer
variable {C V L : Type}

def Point.task (caller : Nat) : Point V L → Task Nat V
  | .running _ => { point := .running, continuation := some caller }
  | .issued _ _ => { point := .running, continuation := some caller }
  | .suspended _ _ => { point := .suspended, continuation := some caller, inner := 1 }
  | .awaiting _ _ => { point := .suspended, continuation := some caller, inner := 1 }
  | .final v => { point := .returning, continuation := some caller, result := some v }

/-- A top-level coroutine is no task, and where there is no frame none has begun. -/
def promiseOf : Option (Frame C V L) → Task Nat V
  | some ⟨_, some caller, point⟩ => point.task caller
  | _ => {}

/-- The `Task` in a frame lives from the call to the end of the `co_await`. -/
def taskIn : Option (Frame C V L) → Option (Option Nat)
  | some ⟨_, _, .awaiting task _⟩ => some (some task)
  | _ => none

def ofTask : Option (Frame C V L) → Option Unit
  | some ⟨_, some _, _⟩ => some ()
  | _ => none

def tasksOf (frameAt : Nat → Option (Frame C V L)) : Store Nat Unit where
  pointer f := taskIn (frameAt f)
  cell f := ofTask (frameAt f)

/-- Whoever awaits a task is its continuation. -/
def Paired (frameAt : Nat → Option (Frame C V L)) : Prop :=
  ∀ f c continuation task k, frameAt f = some ⟨c,continuation,.awaiting task k⟩ →
    ∃ c' point, frameAt task = some ⟨c',some f,point⟩

section Pairs
variable {frameAt : Nat → Option (Frame C V L)} {f task : Nat} {c c' : C}
  {continuation continuation' : Option Nat} {point point' : Point V L} {l : L} {k : V → L} {v : V}

theorem continues_point {owner : C} {caller : Nat} {place : Point V L}
    (stored : frameAt f = some ⟨c,continuation,point⟩)
    (there : frameAt task = some ⟨owner,some caller,place⟩) (next : Point V L) :
    ∃ owner' place', Function.update frameAt f (some ⟨c,continuation,next⟩) task =
      some ⟨owner',some caller,place'⟩ := by
  by_cases own : task = f
  · subst own
    obtain ⟨rfl,rfl,rfl⟩ := Frame.mk.inj (Option.some.inj (there.symm.trans stored))
    exact ⟨_,next,Function.update_self ..⟩
  · exact ⟨owner,place,by rw [Function.update_of_ne own, there]⟩

theorem paired_start (paired : Paired frameAt) (free : frameAt f = none) :
    Paired (Function.update frameAt f (some ⟨c,none,.running l⟩)) := by
  intro g c' continuation task k there
  by_cases here : g = f
  · simp [here] at there
  · rw [Function.update_of_ne here] at there
    obtain ⟨owner,point,stored⟩ := paired g _ _ _ _ there
    have apart : task ≠ f := by
      rintro rfl
      simp [free] at stored
    exact ⟨owner,point,by rw [Function.update_of_ne apart, stored]⟩

theorem paired_point (paired : Paired frameAt) (stored : frameAt f = some ⟨c,continuation,point⟩)
    (inner : Inner point') :
    Paired (Function.update frameAt f (some ⟨c,continuation,point'⟩)) := by
  intro g c' continuation' task k there
  by_cases here : g = f
  · subst here
    rw [Function.update_self] at there
    exact absurd (Frame.mk.inj (Option.some.inj there)).2.2 (inner task k)
  · rw [Function.update_of_ne here] at there
    obtain ⟨_,_,awaited⟩ := paired g _ _ _ _ there
    exact continues_point stored awaited point'

theorem paired_return (paired : Paired frameAt) (stored : frameAt f = some ⟨c,none,point⟩) :
    Paired (Function.update frameAt f none) := by
  intro g c' continuation task k there
  by_cases here : g = f
  · simp [here] at there
  · rw [Function.update_of_ne here] at there
    obtain ⟨owner,point,awaited⟩ := paired g _ _ _ _ there
    have apart : task ≠ f := by
      rintro rfl
      simp [stored] at awaited
    exact ⟨owner,point,by rw [Function.update_of_ne apart, awaited]⟩

theorem paired_call (paired : Paired frameAt) (stored : frameAt f = some ⟨c,continuation,point⟩)
    (free : frameAt task = none) :
    Paired (Function.update (Function.update frameAt task (some ⟨c,some f,.running l⟩)) f
      (some ⟨c,continuation,.awaiting task k⟩)) := by
  have apart : task ≠ f := by
    rintro rfl
    simp [free] at stored
  intro g c' continuation' task' k' there
  by_cases here : g = f
  · subst here
    rw [Function.update_self] at there
    obtain ⟨rfl,rfl,point⟩ := Frame.mk.inj (Option.some.inj there)
    cases point
    exact ⟨c,_,by rw [Function.update_of_ne apart, Function.update_self]⟩
  · rw [Function.update_of_ne here] at there
    by_cases new : g = task
    · simp [new] at there
    · rw [Function.update_of_ne new] at there
      obtain ⟨owner,point',awaited⟩ := paired g _ _ _ _ there
      have used : task' ≠ task := by
        rintro rfl
        simp [free] at awaited
      exact continues_point ((Function.update_of_ne apart.symm ..).trans stored)
        ((Function.update_of_ne used ..).trans awaited) _

theorem paired_hand (paired : Paired frameAt)
    (stored : frameAt f = some ⟨c,continuation,.awaiting task k⟩)
    (done : frameAt task = some ⟨c',continuation',.final v⟩) :
    Paired (Function.update (Function.update frameAt task none) f
      (some ⟨c,continuation,.running l⟩)) := by
  obtain ⟨_,_,mine⟩ := paired f _ _ _ _ stored
  have apart : f ≠ task := by
    rintro rfl
    simp [stored] at done
  intro g c' continuation' task' k' there
  by_cases here : g = f
  · simp [here] at there
  · rw [Function.update_of_ne here] at there
    by_cases gone : g = task
    · simp [gone] at there
    · rw [Function.update_of_ne gone] at there
      obtain ⟨owner,point',awaited⟩ := paired g _ _ _ _ there
      -- two frames that await one task would both be its continuation
      have other : task' ≠ task := by
        rintro rfl
        obtain ⟨_,same,_⟩ := Frame.mk.inj (Option.some.inj (awaited.symm.trans mine))
        exact here (Option.some.inj same)
      exact continues_point ((Function.update_of_ne apart ..).trans stored)
        ((Function.update_of_ne other ..).trans awaited) _

theorem moved_paired {p : Program C V L} {m m' : Machine C V L} {a : Action C} {e : Event C V}
    (paired : Paired m.frameAt) (moved : Moved p m a m' e) : Paired m'.frameAt := by
  cases moved with
  | started c kind idle free => exact paired_start paired free
  | ended active stored here => exact paired_point paired stored (by simp [Inner])
  | returned active stored here => exact paired_return paired stored
  | asked slot active stored here valid => exact paired_point paired stored (by simp [Inner])
  | called active stored here free => exact paired_call paired stored free
  | awaited active stored taken => exact paired_point paired stored (by simp [Inner])
  | released active stored lives taken => exact paired_point paired stored (by simp [Inner])
  | handed active stored done => exact paired_hand paired stored done
  | background | dropped | resumed => exact paired

end Pairs

section Promises
variable {residue : V → V} {frameAt : Nat → Option (Frame C V L)} {f : Nat} {c : C}
  {continuation : Option Nat} {point : Point V L} {t t' : Task Nat V}

def Lives (residue : V → V) (t : Task Nat V) : Prop :=
  ∃ history, Run (Task.step residue) Task.Apart {} t history

theorem lives_unstarted : Lives residue {} := ⟨[],.nil⟩

theorem lives_step {e : Task.Event Nat V} (lives : Lives residue t) (action : Task.Action Nat V)
    (allowed : ∀ log, Task.Apart t log action)
    (taken : Task.step residue t action = some (t', e)) : Lives residue t' := by
  obtain ⟨history,run⟩ := lives
  exact ⟨e :: history,run.next (allowed history) taken⟩

theorem lives_called (l : L) (caller : Nat) :
    Lives residue (promiseOf (some ⟨c,some caller,(.running l : Point V L)⟩)) :=
  ⟨_,Run.next (a := Task.Action.await caller) .nil ⟨.inl rfl,by simp [Task.awaiters]⟩ rfl⟩

theorem lives_update (lives : ∀ g, Lives residue (promiseOf (frameAt g)))
    {value : Option (Frame C V L)} (new : Lives residue (promiseOf value)) (g : Nat) :
    Lives residue (promiseOf (Function.update frameAt f value g)) := by
  by_cases here : g = f
  · rw [here, Function.update_self]
    exact new
  · rw [Function.update_of_ne here]
    exact lives g

theorem lives_point {point' : Point V L} (lives : Lives residue (promiseOf (frameAt f)))
    (stored : frameAt f = some ⟨c,continuation,point⟩)
    (goes : ∀ caller, Lives residue (point.task caller) → Lives residue (point'.task caller)) :
    Lives residue (promiseOf (some ⟨c,continuation,point'⟩)) := by
  cases continuation with
  | none => exact lives_unstarted
  | some caller =>
    rw [stored] at lives
    exact goes caller lives

theorem moved_lives {p : Program C V L} {m m' : Machine C V L} {a : Action C} {e : Event C V}
    (lives : ∀ g, Lives residue (promiseOf (m.frameAt g))) (moved : Moved p m a m' e) :
    ∀ g, Lives residue (promiseOf (m'.frameAt g)) := by
  cases moved with
  | started => exact lives_update lives lives_unstarted
  | @ended f caller c l v active stored here =>
    refine lives_update lives (lives_point (lives f) stored ?_)
    intro caller running
    exact lives_step running (.returnValue v) (fun _ => trivial) rfl
  | returned => exact lives_update lives lives_unstarted
  | @asked f c continuation l req k slot active stored here valid =>
    exact lives_update lives (lives_point (lives f) stored fun _ running => running)
  | @called f task c continuation l body k active stored here free =>
    refine lives_update (lives_update lives (lives_called _ f)) (lives_point (lives f) stored ?_)
    intro caller running
    exact lives_step running .suspend (fun _ => trivial) rfl
  | @awaited f address c continuation op k completer io qe active stored taken =>
    refine lives_update lives (lives_point (lives f) stored ?_)
    intro caller running
    exact lives_step running .suspend (fun _ => trivial) rfl
  | @released f address c continuation k slot awaiter io qe active stored lived taken =>
    refine lives_update lives (lives_point (lives f) stored ?_)
    intro caller suspended
    exact lives_step suspended .complete (fun _ => trivial) rfl
  | @handed f task c c' continuation continuation' k v active stored done =>
    refine lives_update (lives_update lives lives_unstarted) (lives_point (lives f) stored ?_)
    intro caller suspended
    exact lives_step suspended .complete (fun _ => trivial) rfl
  | background | dropped | resumed => exact lives

end Promises

section Ownership
variable {frameAt : Nat → Option (Frame C V L)} {f task : Nat} {c c' : C}
  {continuation continuation' : Option Nat} {point point' : Point V L} {l : L} {k : V → L} {v : V}

theorem tasksOf_update (frameAt : Nat → Option (Frame C V L)) (f : Nat)
    (value : Option (Frame C V L)) : tasksOf (Function.update frameAt f value) =
      ⟨Function.update (tasksOf frameAt).pointer f (taskIn value),
        Function.update (tasksOf frameAt).cell f (ofTask value)⟩ := by
  unfold tasksOf
  congr 1
  · funext g
    by_cases here : g = f <;> simp [here]
  · funext g
    by_cases here : g = f <;> simp [here]

theorem tasksOf_same {old value : Option (Frame C V L)} (stored : frameAt f = old)
    (pointer : taskIn value = taskIn old) (cell : ofTask value = ofTask old) :
    tasksOf (Function.update frameAt f value) = tasksOf frameAt := by
  have there : (tasksOf frameAt).pointer f = taskIn value := by rw [pointer, ← stored]; rfl
  have live : (tasksOf frameAt).cell f = ofTask value := by rw [cell, ← stored]; rfl
  rw [tasksOf_update, ← there, ← live, Function.update_eq_self, Function.update_eq_self]

theorem ofTask_point (point point' : Point V L) : ofTask (some ⟨c,continuation,point⟩) =
    ofTask (some ⟨c,continuation,point'⟩) := by
  cases continuation <;> rfl

theorem tasksOf_call (stored : frameAt f = some ⟨c,continuation,.running l⟩)
    (free : frameAt task = none) (body : L) :
    Tasks.call (tasksOf frameAt) f () task =
      some (tasksOf (Function.update (Function.update frameAt task
        (some ⟨c,some f,.running body⟩)) f (some ⟨c,continuation,.awaiting task k⟩))) := by
  have apart : f ≠ task := by
    rintro rfl
    simp [free] at stored
  have unused : (tasksOf frameAt).cell task = none := by simp [tasksOf, free, ofTask]
  have absent : (tasksOf frameAt).pointer f = none := by simp [tasksOf, stored, taskIn]
  have empty : (tasksOf frameAt).pointer task = none := by simp [tasksOf, free, taskIn]
  have own : Function.update (tasksOf frameAt).cell task (some ()) f =
      ofTask (some ⟨c,continuation,(.awaiting task k : Point V L)⟩) := by
    rw [Function.update_of_ne apart, ← ofTask_point (.running l), ← stored]
    rfl
  rw [tasksOf_update, tasksOf_update]
  simp only [taskIn, Tasks.call, Store.new, unused, Option.isNone_none, if_true, Option.bind_some,
    Store.construct, absent, Store.assign]
  rw [← empty, Function.update_eq_self, ofTask, ← own, Function.update_eq_self]

/-- The destructor of that `Task` destroys the frame at its final suspension. -/
theorem tasksOf_hand (stored : frameAt f = some ⟨c,continuation,.awaiting task k⟩)
    (done : frameAt task = some ⟨c',some f,.final v⟩) (l : L) :
    Tasks.destroy (tasksOf frameAt) f = some (tasksOf (Function.update
      (Function.update frameAt task none) f (some ⟨c,continuation,.running l⟩))) := by
  have apart : f ≠ task := by
    rintro rfl
    simp [stored] at done
  have points : (tasksOf frameAt).pointer f = some (some task) := by simp [tasksOf, stored, taskIn]
  have lives : (tasksOf frameAt).cell task = some () := by simp [tasksOf, done, ofTask]
  have empty : (tasksOf frameAt).pointer task = none := by simp [tasksOf, done, taskIn]
  have own : Function.update (tasksOf frameAt).cell task none f =
      ofTask (some ⟨c,continuation,(.running l : Point V L)⟩) := by
    rw [Function.update_of_ne apart, ← ofTask_point (.awaiting task k), ← stored]
    rfl
  rw [tasksOf_update, tasksOf_update]
  simp only [taskIn, Tasks.destroy, Tasks.destroyFrame, points, Option.bind_some, Store.delete,
    lives, Option.isSome_some, if_true, Option.map_some, Store.forget]
  have nothing : ofTask (none : Option (Frame C V L)) = none := rfl
  rw [← empty, Function.update_eq_self, nothing, ← own, Function.update_eq_self]

/-- Each step of the coroutines is one of their tasks, or none of them changes hands. -/
theorem moved_tasks {p : Program C V L} {m m' : Machine C V L} {a : Action C} {e : Event C V}
    (paired : Paired m.frameAt) (moved : Moved p m a m' e) :
    tasksOf m'.frameAt = tasksOf m.frameAt ∨
      ∃ action, Tasks.Keeps (tasksOf m.frameAt) [] action ∧
        Tasks.apply (tasksOf m.frameAt) action = some (tasksOf m'.frameAt) := by
  cases moved with
  | started c kind idle free => exact .inl (tasksOf_same free rfl rfl)
  | ended active stored here => exact .inl (tasksOf_same stored rfl rfl)
  | returned active stored here => exact .inl (tasksOf_same stored rfl rfl)
  | asked slot active stored here valid =>
    exact .inl (tasksOf_same stored rfl (ofTask_point _ _))
  | @called f task c continuation l body k active stored here free =>
    exact .inr ⟨.call f () task,trivial,tasksOf_call stored free body⟩
  | awaited active stored taken => exact .inl (tasksOf_same stored rfl (ofTask_point _ _))
  | released active stored lives taken =>
    exact .inl (tasksOf_same stored rfl (ofTask_point _ _))
  | @handed f task c c' continuation continuation' k v active stored done =>
    obtain ⟨_,_,mine⟩ := paired f _ _ _ _ stored
    obtain ⟨rfl,rfl,rfl⟩ := Frame.mk.inj (Option.some.inj (done.symm.trans mine))
    exact .inr ⟨.destroy f,trivial,tasksOf_hand stored done (k v)⟩
  | background | dropped | resumed => exact .inl rfl

end Ownership

section Runs
variable {p : Program C V L} {m m' : Machine C V L} {a : Action C} {e : Event C V}
  {log : List (Event C V)} {io : IoQueue}
  {policy : Machine C V L → List (Event C V) → Action C → Prop}

theorem run_paired (run : Run (step p) policy { io := io } m log) : Paired m.frameAt := by
  refine run.invariant (fun m _ => Paired m.frameAt) (fun _ _ _ _ _ there => nomatch there) ?_
  intro m log a m' e paired _ taken
  exact moved_paired paired (step_moved taken)

theorem run_lives (residue : V → V) (run : Run (step p) policy { io := io } m log) (f : Nat) :
    Lives residue (promiseOf (m.frameAt f)) := by
  refine run.invariant (fun m _ => ∀ f, Lives residue (promiseOf (m.frameAt f)))
    (fun _ => lives_unstarted) ?_ f
  intro m log a m' e lives _ taken
  exact moved_lives lives (step_moved taken)

theorem run_tasks (run : Run (step p) policy { io := io } m log) :
    ∃ history, Run (labelled Tasks.step) Tasks.Keeps {} (tasksOf m.frameAt) history := by
  induction run with
  | nil => exact ⟨[],.nil⟩
  | next before allowed taken ih =>
    obtain ⟨history,run⟩ := ih
    rcases moved_tasks (run_paired before) (step_moved taken) with same | ⟨action,keeps,done⟩
    · exact ⟨history,same ▸ run⟩
    · refine ⟨(action, ()) :: history,run.next (a := action) keeps ?_⟩
      rw [labelled, Tasks.step, done]
      rfl

theorem handed_returned (residue : V → V) (run : Run (step p) policy { io := io } m log)
    (taken : step p m a = some (m', e)) {c : C} {v : V} (handed : e.note = some (.handed c v)) :
    ∃ f task t history, (tasksOf m.frameAt).pointer f = some (some task) ∧
      Run (Task.step residue) Task.Apart {} t (.continued f v :: history) ∧
      Task.awaiters history = [f] ∧ Task.returns history = [v] ∧ m'.frameAt task = none := by
  cases step_moved taken with
  | @handed f task c c' continuation continuation' k v active stored done =>
    cases handed
    obtain ⟨_,_,mine⟩ := run_paired run f _ _ _ _ stored
    obtain ⟨rfl,rfl,rfl⟩ := Frame.mk.inj (Option.some.inj (done.symm.trans mine))
    obtain ⟨history,lived⟩ := run_lives residue run task
    rw [done] at lived
    have standing := Task.run_standing lived
    obtain ⟨_,⟨caller,busy⟩,⟨u,result,returned⟩,_⟩ := standing
    obtain rfl := Option.some.inj busy.continuation
    obtain rfl := Option.some.inj result
    have apart : task ≠ f := by
      rintro rfl
      simp [stored] at done
    refine ⟨f,task,_,history,by simp [tasksOf, stored, taskIn],
      lived.next (a := Task.Action.transfer) trivial rfl,busy.awaiters,returned,?_⟩
    exact (Function.update_of_ne apart ..).trans (Function.update_self ..)
  | _ => simp at handed

end Runs
end Coroutine
end Aiopp
