import Aiopp.WaitAll

/-!
One `WaitAll` over several rounds of adding, completing and awaiting. `continuation_`
outlives the resumption it was stored for, so the completion that ends a later round
resumes the coroutine of the round before unless another one has awaited since. As in a
single round, a completion has to come before its call of `add` has returned.
-/
namespace Aiopp
namespace WaitAll
open Wait Transition

/-- The steps of `WaitAll.step`, with the handle of the coroutine that continues. -/
def resumingStep (w : WaitAll) : Action → Option (WaitAll × Event Nat)
  | .add => some (w.call, .started)
  | .leave =>
    match w.closures with
    | [] => none
    | _ :: outer => some ({ w with closures := outer }, .left)
  | .complete i =>
    if i ∈ w.closures then
      let (w', continues) := w.awaitableCompleted
      some (w', .completed i (continues.bind fun _ => w.continuation_))
    else some (w, .dangling i)
  | .await handle =>
    let (w', continues) := w.await handle
    some (w', .awaited (continues.map fun _ => handle))

abbrev History := List (Action × Event Nat)

def unfinished (log : History) : Nat := incomplete (log.map Prod.snd)

def waits (handle : Nat) : History → Nat
  | [] => 0
  | (.await h, .awaited none) :: older =>
    if h = handle then waits handle older + 1 else waits handle older
  | _ :: older => waits handle older

def resumes (handle : Nat) : History → Nat
  | [] => 0
  | (_, .completed _ (some h)) :: older =>
    if h = handle then resumes handle older + 1 else resumes handle older
  | _ :: older => resumes handle older

/-- An awaitable completes once, after it was added. A coroutine that is suspended here
awaits nothing. What comes after a dangling access is undefined. -/
def Rounds (_ : WaitAll) (log : History) (a : Action) : Prop :=
  dangling (log.map Prod.snd) = false ∧ match a with
    | .add | .leave => True
    | .complete i => Open (log.map Prod.snd) i
    | .await handle => resumes handle log = waits handle log

instance (w : WaitAll) (log : History) (a : Action) : Decidable (Rounds w log a) :=
  match a with
  | .add | .leave => inferInstanceAs (Decidable (_ ∧ True))
  | .complete _ => inferInstanceAs (Decidable (_ ∧ Open _ _))
  | .await _ => inferInstanceAs (Decidable (_ ∧ _ = _))

/-- Nothing dangles, every resumption belongs to an await of its own, and no await is left
without one once nothing is incomplete. -/
def Matched (_ : WaitAll) (log : History) : Prop :=
  dangling (log.map Prod.snd) = false ∧
  ∀ handle, resumes handle log ≤ waits handle log ∧
    (unfinished log = 0 → resumes handle log = waits handle log)

def round : History → List Nat
  | [] => []
  | (a, e) :: older =>
    if unfinished ((a, e) :: older) = 0 then []
    else match a with
      | .await handle => round older ++ [handle]
      | _ => round older

def lastWaiter : History → Option Nat
  | [] => none
  | (.await handle, _) :: older => if unfinished older = 0 then lastWaiter older else some handle
  | _ :: older => lastWaiter older

/-- An awaitable completes before its call of `add` has returned, and the last incomplete one
only when exactly one coroutine has awaited since nothing was incomplete, or none ever has
while something was. -/
def OneWaiter (w : WaitAll) (log : History) : Action → Prop
  | .complete i =>
    i ∈ w.closures ∧ (unfinished log = 1 → (round log).length = 1 ∨ lastWaiter log = none)
  | _ => True

instance (w : WaitAll) (log : History) : (a : Action) → Decidable (OneWaiter w log a)
  | .complete _ => inferInstanceAs (Decidable (_ ∧ (_ → _ ∨ _)))
  | .add | .leave | .await _ => .isTrue trivial

theorem resumingStep_in_time {w : WaitAll} {i : Nat} (in_time : i ∈ w.closures) :
    w.resumingStep (.complete i) = some (w.awaitableCompleted.1,
      .completed i (w.awaitableCompleted.2.bind fun _ => w.continuation_)) := if_pos in_time

theorem resumingStep_late {w : WaitAll} {i : Nat} (late : i ∉ w.closures) :
    w.resumingStep (.complete i) = some (w, .dangling i) := if_neg late

structure InRound (w : WaitAll) (log : History) : Prop where
  defined : dangling (log.map Prod.snd) = false
  pending : w.pending_ = unfinished log
  known : ∀ i ∈ completions (log.map Prod.snd), i < started (log.map Prod.snd)
  stored : w.continuation_ = lastWaiter log
  latest : round log ≠ [] → (round log).getLast? = lastWaiter log
  unheard : lastWaiter log = none → round log = []
  closed : unfinished log = 0 → round log = []
  owed : ∀ handle, waits handle log = resumes handle log + (round log).count handle

section Steps
variable {w w' : WaitAll} {log : History} {e : Event Nat} {i handle : Nat}

theorem round_matched (inside : InRound w log) : Matched w log := by
  refine ⟨inside.defined,?_⟩
  intro handle
  have owed := inside.owed handle
  constructor
  · omega
  · intro nothing
    rw [inside.closed nothing, List.count_nil] at owed
    omega

theorem start_inRound : InRound {} [] := by
  constructor <;> simp [dangling, unfinished, incomplete, started, completions, lastWaiter, round,
    waits, resumes]

theorem add_inRound (inside : InRound w log) :
    InRound w.call ((.add, .started) :: log) := by
  have grown : unfinished ((.add, .started) :: log) = unfinished log + 1 := incomplete_add inside.known
  have same : round ((.add, .started) :: log) = round log := by simp [round, grown]
  constructor
  · exact inside.defined
  · simp [call, startAwaitable, inside.pending, grown]
  · intro j member
    have below := inside.known j member
    simp only [List.map_cons, started]
    omega
  · exact inside.stored
  · rw [same]
    exact inside.latest
  · rw [same]
    exact inside.unheard
  · intro nothing
    omega
  · rw [same]
    exact inside.owed

theorem leave_inRound (inside : InRound w log) (outer : List Nat) :
    InRound { w with closures := outer } ((.leave, .left) :: log) := by
  have same : unfinished ((.leave, .left) :: log) = unfinished log := rfl
  have rest : round ((.leave, .left) :: log) = round log := by
    by_cases nothing : unfinished log = 0
    · simp [round, same, nothing, inside.closed nothing]
    · simp [round, same, nothing]
  constructor
  · exact inside.defined
  · exact inside.pending
  · exact inside.known
  · exact inside.stored
  · rw [rest]
    exact inside.latest
  · rw [rest]
    exact inside.unheard
  · rw [rest]
    exact inside.closed
  · rw [rest]
    exact inside.owed

theorem await_inRound (inside : InRound w log) :
    InRound (w.await handle).1
      ((.await handle, .awaited ((w.await handle).2.map fun _ => handle)) :: log) := by
  have same : ∀ continues, unfinished ((.await handle, .awaited continues) :: log) = unfinished log :=
    fun _ => rfl
  have pending := inside.pending
  unfold await
  by_cases done : w.pending_ = 0
  · rw [if_pos done]
    have nothing : unfinished log = 0 := by omega
    have empty := inside.closed nothing
    constructor
    · exact inside.defined
    · exact pending
    · exact inside.known
    · simpa [lastWaiter, nothing] using inside.stored
    · simp [round, same, nothing]
    · simp [round, same, nothing]
    · simp [round, same, nothing]
    · intro h
      have owed := inside.owed h
      simpa [waits, resumes, round, same, nothing, empty] using owed
  · rw [if_neg done]
    have something : unfinished log ≠ 0 := by omega
    constructor
    · exact inside.defined
    · exact pending
    · exact inside.known
    · simp [lastWaiter, something]
    · simp [round, same, something, lastWaiter]
    · simp [lastWaiter, something]
    · intro nothing
      exact absurd nothing something
    · intro h
      have owed := inside.owed h
      simp only [Option.map_none, waits, resumes, round, same, something, if_false,
        List.count_append, List.count_singleton, beq_iff_eq]
      split
      · omega
      · omega

theorem complete_early (inside : InRound w log)
    (allowed : Open (log.map Prod.snd) i) (more : unfinished log ≠ 1) :
    w.awaitableCompleted.2 = none ∧
      InRound w.awaitableCompleted.1 ((.complete i, .completed i none) :: log) := by
  have shrunk : unfinished ((.complete i, .completed i none) :: log) + 1 = unfinished log :=
    incomplete_complete allowed.1 allowed.2
  have pending := inside.pending
  have less := decrement_positive (n := w.pending_) (by omega)
  have nonzero : decrement w.pending_ ≠ 0 := by omega
  have remaining : unfinished ((.complete i, .completed i none) :: log) ≠ 0 := by omega
  have same : round ((.complete i, .completed i none) :: log) = round log := by
    simp [round, remaining]
  unfold awaitableCompleted
  simp only [nonzero, and_false, if_false]
  refine ⟨trivial,?_⟩
  constructor
  · exact inside.defined
  · dsimp only
    omega
  · exact known_complete inside.known allowed.1
  · exact inside.stored
  · rw [same]
    exact inside.latest
  · rw [same]
    exact inside.unheard
  · intro nothing
    omega
  · rw [same]
    exact inside.owed

/-- The last completion of a round resumes whoever suspended last, in whichever round. -/
theorem complete_last (inside : InRound w log)
    (allowed : Open (log.map Prod.snd) i) (last : unfinished log = 1) :
    w.awaitableCompleted.2.bind (fun _ => w.continuation_) = lastWaiter log ∧
      unfinished ((.complete i, .completed i (lastWaiter log)) :: log) = 0 := by
  have shrunk : unfinished ((.complete i, .completed i (lastWaiter log)) :: log) + 1 = unfinished log :=
    incomplete_complete allowed.1 allowed.2
  have pending := inside.pending
  have less := decrement_positive (n := w.pending_) (by omega)
  have zero : decrement w.pending_ = 0 := by omega
  refine ⟨?_,by omega⟩
  rw [← inside.stored]
  unfold awaitableCompleted
  cases w.continuation_ <;> simp [zero]

theorem resumes_complete (h : Nat) (resumed : Option Nat) :
    resumes h ((.complete i, .completed i resumed) :: log) =
      resumes h log + resumed.toList.count h := by
  cases resumed with
  | none => simp [resumes]
  | some x =>
    simp only [resumes, Option.toList_some, List.count_singleton]
    split <;> simp_all

theorem last_matched_iff (inside : InRound w log)
    (done : unfinished ((.complete i, .completed i (lastWaiter log)) :: log) = 0) :
    Matched w' ((.complete i, .completed i (lastWaiter log)) :: log) ↔
      round log = (lastWaiter log).toList := by
  have counts : Matched w' ((.complete i, .completed i (lastWaiter log)) :: log) ↔
      ∀ h, (round log).count h = (lastWaiter log).toList.count h := by
    have defined : dangling (List.map Prod.snd
        ((Action.complete i, Event.completed i (lastWaiter log)) :: log)) = false := inside.defined
    rw [Matched, and_iff_right defined]
    apply forall_congr'
    intro h
    have owed := inside.owed h
    have waited : waits h ((.complete i, .completed i (lastWaiter log)) :: log) = waits h log := rfl
    rw [resumes_complete, waited]
    simp only [done, true_implies]
    omega
  rw [counts, ← List.perm_iff_count]
  cases lastWaiter log with
  | none => exact List.perm_nil
  | some h => exact List.perm_singleton

theorem oneWaiter_iff (inside : InRound w log) :
    (round log).length = 1 ∨ lastWaiter log = none ↔ round log = (lastWaiter log).toList := by
  constructor
  · rintro (one | nobody)
    · obtain ⟨h,alone⟩ := List.length_eq_one_iff.mp one
      have latest := inside.latest (by simp [alone])
      rw [← latest, alone]
      rfl
    · rw [nobody, inside.unheard nobody]
      rfl
  · intro same
    cases last : lastWaiter log with
    | none => exact .inr rfl
    | some h =>
      rw [same, last]
      exact .inl rfl

theorem last_inRound (inside : InRound w log) (allowed : Open (log.map Prod.snd) i)
    (last : unfinished log = 1) (own : round log = (lastWaiter log).toList) :
    InRound w.awaitableCompleted.1 ((.complete i, .completed i (lastWaiter log)) :: log) := by
  obtain ⟨_,done⟩ := complete_last inside allowed last
  have pending := inside.pending
  have less := decrement_positive (n := w.pending_) (by omega)
  have fields : w.awaitableCompleted.1 = { w with pending_ := decrement w.pending_ } := by
    unfold awaitableCompleted
    dsimp only
    split <;> rfl
  have empty : round ((.complete i, .completed i (lastWaiter log)) :: log) = [] := by
    simp [round, done]
  rw [fields]
  constructor
  · exact inside.defined
  · dsimp only
    omega
  · exact known_complete inside.known allowed.1
  · exact inside.stored
  · intro waiting
    exact absurd empty waiting
  · intro _
    exact empty
  · intro _
    exact empty
  · intro h
    have owed := inside.owed h
    have waited : waits h ((.complete i, .completed i (lastWaiter log)) :: log) = waits h log := rfl
    rw [waited, resumes_complete, empty, owed, own]
    simp

theorem resumingStep_inRound {a : Action} (inside : InRound w log) (allowed : Rounds w log a)
    (one : OneWaiter w log a) (taken : w.resumingStep a = some (w', e)) :
    InRound w' ((a, e) :: log) := by
  cases a with
  | add =>
    cases taken
    exact add_inRound inside
  | leave =>
    simp only [resumingStep] at taken
    split at taken
    · simp at taken
    · cases taken
      exact leave_inRound inside _
  | await handle =>
    cases taken
    exact await_inRound inside
  | complete i =>
    rw [resumingStep_in_time one.1] at taken
    cases taken
    by_cases last : unfinished log = 1
    · rw [(complete_last inside allowed.2 last).1]
      exact last_inRound inside allowed.2 last ((oneWaiter_iff inside).mp (one.2 last))
    · obtain ⟨silent,after⟩ := complete_early inside allowed.2 last
      rw [silent]
      exact after

theorem resumingStep_unmatched {a : Action} (inside : InRound w log) (allowed : Rounds w log a)
    (shared : ¬ OneWaiter w log a) (taken : w.resumingStep a = some (w', e)) :
    ¬ Matched w' ((a, e) :: log) := by
  cases a with
  | complete i =>
    by_cases in_time : i ∈ w.closures
    · rw [resumingStep_in_time in_time] at taken
      cases taken
      obtain ⟨last,other⟩ := Classical.not_imp.mp fun one => shared ⟨in_time,one⟩
      obtain ⟨resumed,done⟩ := complete_last inside allowed.2 last
      rw [resumed, last_matched_iff inside done, ← oneWaiter_iff inside]
      exact other
    · rw [resumingStep_late in_time] at taken
      cases taken
      intro matched
      simp [Matched, dangling] at matched
  | add | leave | await handle => exact absurd trivial shared

end Steps

/-- Over any number of rounds the resumptions match the awaits at all times exactly in the
runs in which every awaitable completes before its call of `add` has returned, and whenever
the last incomplete one does, one coroutine has awaited since nothing was incomplete, or none
ever had to wait. -/
theorem rounds_matched_iff {w : WaitAll} {log : History}
    (run : Run (labelled resumingStep) Rounds {} w log) :
    Throughout (labelled resumingStep) Rounds {} Matched log ↔
      Run (labelled resumingStep) (fun w log a => Rounds w log a ∧ OneWaiter w log a) {} w log := by
  apply labelled_throughout_iff OneWaiter InRound Matched start_inRound
  · intro s older inside
    exact round_matched inside
  · intro s older a s' e inside allowed one taken
    exact resumingStep_inRound inside allowed one taken
  · intro s older a s' e inside allowed shared taken
    exact resumingStep_unmatched inside allowed shared taken
  · exact run

theorem awaited_rounds_matched :
    ∃ (w : WaitAll) (log : History), Run (labelled resumingStep) Rounds {} w log ∧
      resumes 7 log = 2 ∧ waits 7 log = 2 ∧ resumes 9 log = 1 ∧
      Throughout (labelled resumingStep) Rounds {} Matched log := by
  let actions : List Action := [.add, .complete 0, .leave, .add, .await 7, .add, .complete 2, .leave,
    .complete 1, .await 7, .leave, .add, .await 7, .complete 3, .leave, .add, .await 9, .complete 4]
  have computed : (replay (labelled resumingStep)
      (fun w log a => Rounds w log a ∧ OneWaiter w log a) {} [] actions).map
      (fun (_, log) => decide (resumes 7 log = 2 ∧ waits 7 log = 2 ∧ resumes 9 log = 1)) =
      some true := by decide
  obtain ⟨w,log,careful,facts⟩ := replay_reaches computed
  obtain ⟨twice,waited,once⟩ := of_decide_eq_true facts
  have run : Run (labelled resumingStep) Rounds {} w log :=
    careful.relax fun _ _ _ allowed => allowed.1
  exact ⟨w,log,run,twice,waited,once,(rounds_matched_iff run).mpr careful⟩

/-- The coroutine has been resumed and goes on; an awaitable that is added later resumes
it once more as it completes, ready at once as it may be. -/
theorem later_round_resumes_stale :
    ¬ ∀ (w : WaitAll) (log : History), Run (labelled resumingStep) Rounds {} w log →
      Matched w log := by
  intro claim
  let actions : List Action := [.add, .await 7, .complete 0, .leave, .add, .complete 1]
  have computed : (replay (labelled resumingStep) Rounds {} [] actions).map
      (fun (_, log) => decide (resumes 7 log = 2 ∧ waits 7 log = 1)) = some true := by decide
  obtain ⟨w,log,run,facts⟩ := replay_reaches computed
  obtain ⟨twice,once⟩ := of_decide_eq_true facts
  have matched := ((claim w log run).2 7).1
  omega

end WaitAll
end Aiopp
