import Aiopp.Wait

/-!
`WaitAll` as a join. While every completion comes inside the call of `add` that started its
coroutine, the counter is the number of incomplete awaitables, and the awaiting coroutine
continues at the one step that makes it zero. A completion after that call has returned goes
through a lambda that is gone.
-/
namespace Aiopp
namespace Wait
variable {R : Type} {log : List (Event R)}

theorem incomplete_add (known : ∀ i ∈ completions log, i < started log) :
    incomplete (.started :: log) = incomplete log + 1 := by
  have fresh : started log ∉ (completions log).toFinset := by
    intro member
    have := known _ (List.mem_toFinset.mp member)
    omega
  unfold incomplete
  simp only [started, completions]
  rw [Finset.range_add_one, Finset.insert_sdiff_of_notMem _ fresh]
  apply Finset.card_insert_of_notMem
  simp

theorem incomplete_complete {i : Nat} {continues : Option R} (added : i < started log)
    (open_i : i ∉ completions log) :
    incomplete (.completed i continues :: log) + 1 = incomplete log := by
  have member : i ∈ Finset.range (started log) \ (completions log).toFinset := by
    simp [added, open_i]
  have erased : Finset.range (started log) \ (completions log ++ [i]).toFinset =
      (Finset.range (started log) \ (completions log).toFinset).erase i := by
    ext j
    simp only [List.toFinset_append, Finset.mem_sdiff, Finset.mem_union, Finset.mem_erase,
      List.mem_toFinset, List.mem_singleton]
    tauto
  unfold incomplete
  simp only [started, completions]
  rw [erased]
  exact Finset.card_erase_add_one member

theorem known_complete {i : Nat} (known : ∀ j ∈ completions log, j < started log)
    (added : i < started log) : ∀ j ∈ completions log ++ [i], j < started log := by
  intro j member
  rcases List.mem_append.mp member with old | new
  · exact known j old
  · rw [List.mem_singleton.mp new]
    exact added

end Wait

open Wait Transition

namespace WaitAll

structure Counted (w : WaitAll) (log : List (Event Unit)) : Prop where
  pending : w.pending_ = incomplete log
  known : ∀ i ∈ completions log, i < started log
  set : w.continuation_.isSome → awaited log
  parked : awaited log → continued log = [] → w.continuation_.isSome
  joined : (continued log).length = if awaited log ∧ incomplete log = 0 then 1 else 0

theorem decrement_positive {n : Nat} (positive : 0 < n) : decrement n + 1 = n := by
  unfold decrement
  split <;> omega

theorem step_in_time {w : WaitAll} {i : Nat} (in_time : i ∈ w.closures) :
    w.step (.complete i) =
      some (w.awaitableCompleted.1, .completed i w.awaitableCompleted.2) := if_pos in_time

theorem step_late {w : WaitAll} {i : Nat} (late : i ∉ w.closures) :
    w.step (.complete i) = some (w, .dangling i) := if_neg late

section Steps
variable {w w' : WaitAll} {log : List (Event Unit)} {e : Event Unit}

theorem add_counted (counted : Counted w log) (allowed : awaited log = false ∨ 0 < incomplete log) :
    Counted w.call (.started :: log) := by
  have grown := incomplete_add counted.known
  constructor
  · rw [grown, ← counted.pending]
    rfl
  · intro i member
    have := counted.known i member
    simp only [started]
    omega
  · exact counted.set
  · exact counted.parked
  · have joined := counted.joined
    simp only [continued, awaited, grown]
    rcases allowed with early | open_one
    · simpa [early] using joined
    · rw [if_neg (by omega)] at joined
      simpa using joined

/-- A completion finds its awaitable counted, so nothing has continued yet. -/
theorem completing (counted : Counted w log) {i : Nat}
    (added : i < started log) (open_i : i ∉ completions log) :
    0 < w.pending_ ∧ continued log = [] := by
  have shrunk : incomplete (.completed i none :: log) + 1 = incomplete log :=
    incomplete_complete added open_i
  have joined := counted.joined
  rw [if_neg (by omega)] at joined
  refine ⟨?_,List.eq_nil_of_length_eq_zero joined⟩
  rw [counted.pending]
  omega

theorem complete_counted (counted : Counted w log) {i : Nat} (added : i < started log)
    (open_i : i ∉ completions log) :
    Counted w.awaitableCompleted.1 (.completed i w.awaitableCompleted.2 :: log) := by
  have shrunk : ∀ continues : Option Unit,
      incomplete (.completed i continues :: log) + 1 = incomplete log :=
    fun continues => incomplete_complete added open_i
  obtain ⟨nonzero,silent⟩ := completing counted added open_i
  have positive : decrement w.pending_ + 1 = incomplete log :=
    (decrement_positive nonzero).trans counted.pending
  have known := known_complete counted.known added
  unfold awaitableCompleted
  by_cases last : w.continuation_.isSome ∧ decrement w.pending_ = 0
  · simp only [last, and_self, if_true]
    have zero : incomplete (.completed i (some ()) :: log) = 0 := by
      have := shrunk (some ())
      omega
    refine ⟨by rw [zero],known,counted.set,fun _ => by simp [continued],?_⟩
    rw [zero]
    simp [continued, silent, awaited, counted.set last.1]
  · rw [if_neg last]
    have rest : decrement w.pending_ = incomplete (.completed i none :: log) := by
      have := shrunk none
      omega
    refine ⟨rest,known,counted.set,fun waiting _ => counted.parked waiting silent,?_⟩
    rw [if_neg, continued, silent]
    · rfl
    · intro both
      exact last ⟨counted.parked both.1 silent,rest.trans both.2⟩

theorem await_counted (counted : Counted w log) (first : awaited log = false) (handle : Nat) :
    Counted (w.await handle).1 (.awaited (w.await handle).2 :: log) := by
  have silent : continued log = [] := by
    have joined := counted.joined
    rw [if_neg (by simp [first])] at joined
    exact List.eq_nil_of_length_eq_zero joined
  have same : ∀ continues : Option Unit, incomplete (.awaited continues :: log) = incomplete log :=
    fun _ => rfl
  unfold await
  by_cases done : w.pending_ = 0
  · rw [if_pos done]
    refine ⟨counted.pending,counted.known,fun _ => rfl,fun _ => by simp [continued],?_⟩
    rw [same, ← counted.pending]
    simp [continued, silent, done, awaited]
  · rw [if_neg done]
    refine ⟨counted.pending,counted.known,fun _ => rfl,fun _ _ => rfl,?_⟩
    rw [same, ← counted.pending]
    simp [continued, silent, done]

theorem leave_counted (counted : Counted w log) (outer : List Nat) :
    Counted { w with closures := outer } (.left :: log) :=
  ⟨counted.pending,counted.known,counted.set,counted.parked,counted.joined⟩

theorem step_counted {a : Action} (counted : Counted w log) (allowed : Schedule w log a)
    (in_time : InTime w a) (taken : w.step a = some (w', e)) : Counted w' (e :: log) := by
  cases a with
  | add =>
    cases taken
    exact add_counted counted allowed.2
  | leave =>
    simp only [step] at taken
    split at taken
    · simp at taken
    · cases taken
      exact leave_counted counted _
  | complete i =>
    rw [step_in_time in_time] at taken
    cases taken
    exact complete_counted counted allowed.2.1 allowed.2.2
  | await handle =>
    cases taken
    exact await_counted counted allowed.2 handle

theorem completed_continues (counted : Counted w log) {i : Nat} (added : i < started log)
    (open_i : i ∉ completions log) :
    w.awaitableCompleted.2 = some () ↔ awaited log ∧ incomplete log = 1 := by
  obtain ⟨positive,silent⟩ := completing counted added open_i
  have less := decrement_positive positive
  have pending := counted.pending
  unfold awaitableCompleted
  constructor
  · intro continues
    dsimp only at continues
    split at continues
    · rename_i last
      exact ⟨counted.set last.1,by omega⟩
    · simp at continues
  · intro both
    have zero : decrement w.pending_ = 0 := by omega
    simp [counted.parked both.1 silent, zero]

theorem awaited_continues (counted : Counted w log) (handle : Nat) :
    (w.await handle).2 = some () ↔ incomplete log = 0 := by
  unfold await
  rw [counted.pending]
  split <;> simp_all

end Steps

/-- The counter is exact and does not wrap at the next completion; the awaiting coroutine has
    continued once if it awaits and nothing is incomplete, and not at all otherwise; the
    latest step let it continue if it was an await with nothing incomplete, or the
    completion of the last. -/
structure Joins (w : WaitAll) (log : List (Event Unit)) : Prop where
  defined : dangling log = false
  pending : w.pending_ = incomplete log
  positive : ∀ i, Open log i → 0 < w.pending_
  joined : (continued log).length = if awaited log ∧ incomplete log = 0 then 1 else 0
  completion : ∀ i continues older, log = .completed i continues :: older →
    (continues = some () ↔ awaited older ∧ incomplete older = 1)
  await : ∀ continues older, log = .awaited continues :: older →
    (continues = some () ↔ incomplete older = 0)

section Joined
variable {w w' : WaitAll} {log : List (Event Unit)} {e : Event Unit}

theorem start_joins : Counted {} [] ∧ Joins {} [] := by
  constructor
  · exact ⟨rfl,by simp [completions],by simp,by simp [awaited],by simp [continued, awaited]⟩
  · exact ⟨rfl,rfl,by simp [Open, started],by simp [continued, awaited],by simp,by simp⟩

theorem counted_joins (counted : Counted w log) (defined : dangling log = false)
    (completion : ∀ i continues older, log = .completed i continues :: older →
      (continues = some () ↔ awaited older ∧ incomplete older = 1))
    (await : ∀ continues older, log = .awaited continues :: older →
      (continues = some () ↔ incomplete older = 0)) : Joins w log :=
  ⟨defined,counted.pending,fun _ opened => (completing counted opened.1 opened.2).1,counted.joined,
    completion,await⟩

theorem step_joins {a : Action} (counted : Counted w log) (allowed : Schedule w log a)
    (in_time : InTime w a) (taken : w.step a = some (w', e)) : Joins w' (e :: log) := by
  have after := step_counted counted allowed in_time taken
  cases a with
  | add =>
    cases taken
    exact counted_joins after allowed.1 (by simp) (by simp)
  | leave =>
    simp only [step] at taken
    split at taken
    · simp at taken
    · cases taken
      exact counted_joins after allowed.1 (by simp) (by simp)
  | complete i =>
    rw [step_in_time in_time] at taken
    cases taken
    refine counted_joins after allowed.1 ?_ (by simp)
    rintro _ _ _ ⟨⟩
    exact completed_continues counted allowed.2.1 allowed.2.2
  | await handle =>
    cases taken
    refine counted_joins after allowed.1 (by simp) ?_
    rintro _ _ ⟨⟩
    exact awaited_continues counted handle

theorem late_dangles {a : Action} (late : ¬ InTime w a) (taken : w.step a = some (w', e)) :
    dangling (e :: log) = true := by
  cases a with
  | complete i =>
    rw [step_late late] at taken
    cases taken
    rfl
  | add | leave | await handle => exact absurd trivial late

end Joined

/-- A `WaitAll` joins at every moment of a run exactly when every awaitable that completes
    does so before the call of `add` that took it has returned. -/
theorem wait_all_joins_iff {w : WaitAll} {log : List (Action × Event Unit)}
    (run : Run (labelled step) (byEvents Schedule) {} w log) :
    Throughout (labelled step) (byEvents Schedule) {}
        (fun w log => Joins w (log.map Prod.snd)) log ↔
      Run (labelled step) (fun w log a => byEvents Schedule w log a ∧ InTime w a) {} w log := by
  apply labelled_throughout_iff (fun w _ a => InTime w a)
    (fun w log => Counted w (log.map Prod.snd) ∧ Joins w (log.map Prod.snd))
    (fun w log => Joins w (log.map Prod.snd)) start_joins
  · intro s older inv
    exact inv.2
  · intro s older a s' e inv allowed in_time taken
    exact ⟨step_counted inv.1 allowed in_time taken,step_joins inv.1 allowed in_time taken⟩
  · intro s older a s' e inv allowed late taken joins
    have dangles : dangling (e :: older.map Prod.snd) = true := late_dangles late taken
    exact absurd joins.defined (ne_of_eq_of_ne dangles (by simp))
  · exact run

theorem nested_additions_join :
    ∃ (w : WaitAll) (log : List (Action × Event Unit)),
      Run (labelled step) (byEvents Schedule) {} w log ∧
      completions (log.map Prod.snd) = [0,2,1] ∧ continued (log.map Prod.snd) = [()] ∧
      Throughout (labelled step) (byEvents Schedule) {}
        (fun w log => Joins w (log.map Prod.snd)) log := by
  have computed : (replay (labelled step)
      (fun w log a => byEvents Schedule w log a ∧ InTime w a) {} []
      [.add, .complete 0, .leave, .add, .await 7, .add, .complete 2, .leave, .complete 1,
        .leave]).map (fun (_, log) => decide (completions (log.map Prod.snd) = [0,2,1] ∧
          continued (log.map Prod.snd) = [()])) = some true := by decide
  obtain ⟨w,log,in_time,facts⟩ := replay_reaches computed
  obtain ⟨order,once⟩ := of_decide_eq_true facts
  have run : Run (labelled step) (byEvents Schedule) {} w log :=
    in_time.relax fun _ _ _ allowed => allowed.1
  exact ⟨w,log,run,order,once,(wait_all_joins_iff run).mpr in_time⟩

/-- One awaitable that is not ready: it completes after `add` has returned. -/
theorem late_completion_dangles :
    ¬ ∀ (w : WaitAll) (log : List (Action × Event Unit)),
      Run (labelled step) (byEvents Schedule) {} w log → Joins w (log.map Prod.snd) := by
  intro claim
  have computed : (replay (labelled step) (byEvents Schedule) ({} : WaitAll) []
      [.add, .leave, .await 7, .complete 0]).map
      (fun (_, log) => dangling (log.map Prod.snd)) = some true := by decide
  obtain ⟨w,log,run,dangles⟩ := replay_reaches computed
  have defined := (claim w log run).defined
  simp only at dangles
  simp [dangles] at defined

end WaitAll
end Aiopp
