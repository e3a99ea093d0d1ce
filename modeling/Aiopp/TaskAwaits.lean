import Aiopp.Foundations.Transition
import Mathlib.Data.List.Nodup
import Mathlib.Logic.Function.Iterate

/-!
One `Task` and the coroutines that await it. The promise has one slot for the coroutine to
continue with and one for the result, which every await moves from. Awaits may come before
the body is started or after it has finished; one in between would take both slots over.
-/
namespace Aiopp
namespace Task

/-- Where the body is; `returning` is the final suspension before control goes over to the
   continuation. -/
inductive Point where
  | unstarted
  | running
  | suspended
  | returning
  | finished
  deriving DecidableEq, Repr

inductive Outcome (V : Type) where
  | started
  | reentered
  | ready (v : V)
  deriving DecidableEq, Repr

end Task

structure Task (A V : Type) where
  point : Task.Point := .unstarted
  continuation : Option A := none
  result : Option V := none
  /-- operations the body suspended on that have not completed -/
  inner : Nat := 0
  deriving DecidableEq, Repr

namespace Task
open Transition
variable {A V : Type}

inductive Action (A V : Type) where
  | await (a : A)
  | suspend
  | complete
  | returnValue (v : V)
  | transfer
  deriving DecidableEq, Repr

inductive Event (A V : Type) where
  | awaited (a : A) (outcome : Outcome V)
  | suspended
  | resumed
  | returned (v : V)
  | continued (a : A) (v : V)
  deriving DecidableEq, Repr

/-- `await_ready` asks whether the body is done; `await_suspend` stores the caller and
   resumes the body, wherever it is. Resuming a running body has no meaning. -/
def await (t : Task A V) (residue : V → V) (a : A) : Option (Task A V × Event A V) :=
  match t.point, t.result with
  | .unstarted, _ =>
    some ({ t with point := .running, continuation := some a }, .awaited a .started)
  | .suspended, _ =>
    some ({ t with point := .running, continuation := some a }, .awaited a .reentered)
  | .finished, some v => some ({ t with result := some (residue v) }, .awaited a (.ready v))
  | _, _ => none

/-- `residue` is what a move leaves behind. -/
def step (residue : V → V) (t : Task A V) : Action A V → Option (Task A V × Event A V)
  | .await a => t.await residue a
  | .suspend =>
    match t.point with
    | .running => some ({ t with point := .suspended, inner := t.inner + 1 }, .suspended)
    | _ => none
  | .complete =>
    match t.point, t.inner with
    | .suspended, inner + 1 => some ({ t with point := .running, inner := inner }, .resumed)
    | _, _ => none
  | .returnValue v =>
    match t.point with
    | .running => some ({ t with point := .returning, result := some v }, .returned v)
    | _ => none
  | .transfer =>
    match t.point, t.continuation, t.result with
    | .returning, some a, some v =>
      some ({ t with point := .finished, result := some (residue v) }, .continued a v)
    | _, _, _ => none

def awaiters : List (Event A V) → List A
  | [] => []
  | .awaited a _ :: log => awaiters log ++ [a]
  | _ :: log => awaiters log

def continuations : List (Event A V) → List (A × V)
  | [] => []
  | .awaited a (.ready v) :: log => continuations log ++ [(a, v)]
  | .continued a v :: log => continuations log ++ [(a, v)]
  | _ :: log => continuations log

def returns : List (Event A V) → List V
  | [] => []
  | .returned v :: log => returns log ++ [v]
  | _ :: log => returns log

def Event.starts : Event A V → Bool
  | .awaited _ .started => true
  | _ => false

def Event.reenters : Event A V → Bool
  | .awaited _ .reentered => true
  | _ => false

structure Busy (t : Task A V) (log : List (Event A V)) (a : A) : Prop where
  continuation : t.continuation = some a
  awaiters : awaiters log = [a]
  continuations : continuations log = []

structure Done (residue : V → V) (t : Task A V) (log : List (Event A V)) (v : V) : Prop where
  result : t.result = some (residue^[(awaiters log).length] v)
  order : (continuations log).map Prod.fst = awaiters log
  values : (continuations log).map Prod.snd =
    (List.range (awaiters log).length).map fun k => residue^[k] v

def Standing (residue : V → V) (t : Task A V) (log : List (Event A V)) : Prop :=
  match t.point with
  | .unstarted => t.inner = 0 ∧ awaiters log = [] ∧ continuations log = [] ∧ returns log = [] ∧
      log.countP Event.starts = 0
  | .running => t.inner = 0 ∧ (∃ a, Busy t log a) ∧ returns log = [] ∧ log.countP Event.starts = 1
  | .suspended => t.inner = 1 ∧ (∃ a, Busy t log a) ∧ returns log = [] ∧ log.countP Event.starts = 1
  | .returning => t.inner = 0 ∧ (∃ a, Busy t log a) ∧ (∃ v, t.result = some v ∧ returns log = [v]) ∧
      log.countP Event.starts = 1
  | .finished => t.inner = 0 ∧ (∃ v, Done residue t log v ∧ returns log = [v]) ∧
      log.countP Event.starts = 1

/-- Awaits of the task come before its body is started or after it has finished. -/
def Apart (t : Task A V) (log : List (Event A V)) : Action A V → Prop
  | .await a => (t.point = .unstarted ∨ t.point = .finished) ∧ a ∉ awaiters log
  | _ => True

instance [DecidableEq A] (t : Task A V) (log : List (Event A V)) :
    (action : Action A V) → Decidable (Apart t log action)
  | .await _ => inferInstanceAs (Decidable (_ ∧ _))
  | .suspend | .complete | .returnValue _ | .transfer => .isTrue trivial

section Step
variable {residue : V → V} {t t' : Task A V} {log : List (Event A V)} {e : Event A V}

theorem await_standing {a : A} (standing : Standing residue t log)
    (apart : t.point = .unstarted ∨ t.point = .finished)
    (taken : t.await residue a = some (t', e)) : Standing residue t' (e :: log) := by
  unfold await at taken
  rcases apart with fresh | ended
  · simp only [Standing, fresh] at standing
    obtain ⟨inner,none,silent,open_,unstarted⟩ := standing
    simp only [fresh] at taken
    cases taken
    refine ⟨inner,⟨a,rfl,?_,silent⟩,open_,?_⟩
    · simp [awaiters, none]
    · rw [List.countP_cons_of_pos rfl, unstarted]
  · simp only [Standing, ended] at standing
    obtain ⟨inner,⟨v,done,returned⟩,started⟩ := standing
    simp only [ended, done.result] at taken
    cases taken
    simp only [Standing]
    refine ⟨inner,⟨v,⟨?_,?_,?_⟩,returned⟩,?_⟩
    · simp [awaiters, Function.iterate_succ_apply']
    · simp [awaiters, continuations, done.order]
    · simp [awaiters, continuations, done.values, List.range_succ]
    · simpa [Event.starts] using started

theorem step_standing {action : Action A V} (standing : Standing residue t log)
    (allowed : Apart t log action) (taken : step residue t action = some (t', e)) :
    Standing residue t' (e :: log) := by
  cases action with
  | await a => exact await_standing standing allowed.1 taken
  | suspend =>
    simp only [step] at taken
    split at taken
    · rename_i running
      cases taken
      simp only [Standing, running] at standing
      obtain ⟨inner,⟨a,busy⟩,open_,started⟩ := standing
      refine ⟨by simp [inner],⟨a,busy.continuation,busy.awaiters,busy.continuations⟩,open_,?_⟩
      simpa [Event.starts] using started
    · simp at taken
  | complete =>
    simp only [step] at taken
    split at taken
    · rename_i inner suspended left
      cases taken
      simp only [Standing, suspended] at standing
      obtain ⟨one,⟨a,busy⟩,open_,started⟩ := standing
      refine ⟨by simp; omega,⟨a,busy.continuation,busy.awaiters,busy.continuations⟩,open_,?_⟩
      simpa [Event.starts] using started
    · simp at taken
  | returnValue v =>
    simp only [step] at taken
    split at taken
    · rename_i running
      cases taken
      simp only [Standing, running] at standing
      obtain ⟨inner,⟨a,busy⟩,open_,started⟩ := standing
      refine ⟨inner,⟨a,busy.continuation,busy.awaiters,busy.continuations⟩,⟨v,rfl,?_⟩,?_⟩
      · simp [returns, open_]
      · simpa [Event.starts] using started
    · simp at taken
  | transfer =>
    simp only [step] at taken
    split at taken
    · rename_i a v returning target stored
      cases taken
      simp only [Standing, returning] at standing
      obtain ⟨inner,⟨b,busy⟩,⟨u,result,returned⟩,started⟩ := standing
      obtain rfl := Option.some.inj (target.symm.trans busy.continuation)
      obtain rfl := Option.some.inj (stored.symm.trans result)
      refine ⟨inner,⟨v,⟨?_,?_,?_⟩,returned⟩,?_⟩
      · simp [awaiters, busy.awaiters]
      · simp [awaiters, continuations, busy.awaiters, busy.continuations]
      · simp [awaiters, continuations, busy.awaiters, busy.continuations]
      · simpa [Event.starts] using started
    · simp at taken

theorem step_apart {action : Action A V} (allowed : Apart t log action)
    (taken : step residue t action = some (t', e)) : e.reenters = false := by
  cases action with
  | await a =>
    simp only [step, await] at taken
    rcases allowed.1 with fresh | ended
    · simp only [fresh] at taken
      cases taken
      rfl
    · simp only [ended] at taken
      split at taken <;> simp_all
      obtain ⟨_,rfl⟩ := taken
      rfl
  | suspend | complete | returnValue | transfer =>
    simp only [step] at taken
    split at taken
    · cases taken
      rfl
    · simp at taken

end Step

section Runs
variable {residue : V → V} {t : Task A V} {log : List (Event A V)}

theorem run_standing (run : Run (step residue) Apart {} t log) : Standing residue t log := by
  refine run.invariant (Standing residue) ⟨rfl,rfl,rfl,rfl,rfl⟩ ?_
  intro t log action t' e standing allowed taken
  exact step_standing standing allowed taken

theorem run_reenters (run : Run (step residue) Apart {} t log) : ∀ e ∈ log, e.reenters = false := by
  refine run.invariant (fun _ log => ∀ e ∈ log, e.reenters = false) (by simp) ?_
  intro t log action t' e earlier allowed taken f member
  rcases List.mem_cons.mp member with rfl | old
  · exact step_apart allowed taken
  · exact earlier f old

theorem run_awaiters (run : Run (step residue) Apart {} t log) : (awaiters log).Nodup := by
  refine run.invariant (fun _ log => (awaiters log).Nodup) (by simp [awaiters]) ?_
  intro t log action t' e earlier allowed taken
  cases action with
  | await a =>
    have awaited : awaiters (e :: log) = awaiters log ++ [a] := by
      simp only [step, await] at taken
      split at taken
      all_goals
        first
        | cases taken
          rfl
        | simp at taken
    rw [awaited]
    exact List.nodup_append.mpr ⟨earlier,by simp,by
      intro b member c single
      obtain rfl := List.mem_singleton.mp single
      rintro rfl
      exact allowed.2 member⟩
  | suspend | complete | returnValue | transfer =>
    simp only [step] at taken
    split at taken
    · cases taken
      exact earlier
    · simp at taken

/-- The body is started once and resumed only by what it awaits itself. Nobody continues
before it has returned; then every awaiter has continued once, in the order of the awaits,
the first with the result and each further one with what the moves before it have left. -/
theorem awaits_apart_share_task (run : Run (step residue) Apart {} t log) :
    log.countP Event.starts ≤ 1 ∧ (∀ e ∈ log, e.reenters = false) ∧ (awaiters log).Nodup ∧
    (t.point ≠ .finished → continuations log = []) ∧
    (t.point = .finished → (continuations log).map Prod.fst = awaiters log ∧
      ∃ v, returns log = [v] ∧
        ∀ (k : Nat) a u, (continuations log)[k]? = some (a, u) → u = residue^[k] v) := by
  have standing := run_standing run
  refine ⟨?_,run_reenters run,run_awaiters run,?_,?_⟩
  · cases point : t.point with
    | unstarted | running | suspended | returning | finished =>
      simp only [Standing, point] at standing
      omega
  · intro unfinished
    cases point : t.point with
    | unstarted =>
      simp only [Standing, point] at standing
      exact standing.2.2.1
    | running | suspended | returning =>
      simp only [Standing, point] at standing
      obtain ⟨_,⟨a,busy⟩,_⟩ := standing
      exact busy.continuations
    | finished => exact absurd point unfinished
  · intro ended
    simp only [Standing, ended] at standing
    obtain ⟨_,⟨v,done,returned⟩,_⟩ := standing
    refine ⟨done.order,v,returned,?_⟩
    intro k a u found
    have value : ((continuations log).map Prod.snd)[k]? = some u := by simp [found]
    rw [done.values, List.getElem?_map] at value
    obtain ⟨i,inside,rfl⟩ := Option.map_eq_some_iff.mp value
    obtain ⟨_,rfl⟩ := List.getElem?_eq_some_iff.mp inside
    simp

end Runs

theorem late_awaits_continue :
    ∃ t : Task Nat Nat, ∃ log, Run (step fun _ => 0) Apart {} t log ∧ t.point = .finished ∧
      continuations log = [(1, 7), (2, 0), (3, 0)] ∧
      (continuations log).map Prod.fst = awaiters log := by
  let actions : List (Action Nat Nat) := [.await 1, .suspend, .complete, .returnValue 7, .transfer,
    .await 2, .await 3]
  have computed : (replay (step fun _ => 0) Apart ({} : Task Nat Nat) [] actions).map
      (fun (t, log) => decide (t.point = .finished ∧
        continuations log = [(1, 7), (2, 0), (3, 0)])) = some true := by
    decide
  obtain ⟨t,log,run,facts⟩ := replay_reaches computed
  obtain ⟨ended,values⟩ := of_decide_eq_true facts
  exact ⟨t,log,run,ended,values,((awaits_apart_share_task run).2.2.2.2 ended).1⟩

def AnyTime (_ : Task A V) (log : List (Event A V)) : Action A V → Prop
  | .await a => a ∉ awaiters log
  | _ => True

instance [DecidableEq A] (t : Task A V) (log : List (Event A V)) :
    (action : Action A V) → Decidable (AnyTime t log action)
  | .await _ => inferInstanceAs (Decidable (¬ _))
  | .suspend | .complete | .returnValue _ | .transfer => .isTrue trivial

/-- The second await resumes the body before its operation has completed and takes the
   continuation over; the first awaiter is never continued. -/
theorem overlapping_await_steals :
    ¬ ∀ (t : Task Nat Nat) log, Run (step id) AnyTime {} t log →
      (∀ e ∈ log, e.reenters = false) ∧
      (t.point = .finished → ∀ a ∈ awaiters log, a ∈ (continuations log).map Prod.fst) := by
  intro claim
  let actions : List (Action Nat Nat) := [.await 1, .suspend, .await 2, .returnValue 7, .transfer]
  have computed : (replay (step id) AnyTime ({} : Task Nat Nat) [] actions).map
      (fun (t, log) => decide (t.point = .finished ∧ 1 ∈ awaiters log ∧
        1 ∉ (continuations log).map Prod.fst)) = some true := by
    decide
  obtain ⟨t,log,run,facts⟩ := replay_reaches computed
  obtain ⟨ended,awaits,stranded⟩ := of_decide_eq_true facts
  exact stranded ((claim t log run).2 ended 1 awaits)

end Task
end Aiopp
