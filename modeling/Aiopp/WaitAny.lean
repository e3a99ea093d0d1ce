import Aiopp.Wait

/-!
`WaitAny` and the completions after the first. `continuation_` is never cleared, so
a coroutine that had to suspend is resumed by every completion that follows; and a completion
that comes after its call of `add` has returned goes through a lambda that is gone.
-/
namespace Aiopp
open Wait Transition

namespace WaitAny

def resumedBy (earlier later : List Nat) : List Nat :=
  match earlier with
  | first :: _ => [first]
  | [] => later.map fun _ => later.headD 0

structure Tracked (w : WaitAny) (log : List (Event Nat)) : Prop where
  frames : w.frames = List.range (started log)
  count : w.started_ = started log
  first : w.completed_ = (completions log).head?
  before : awaited log = false → w.continuation_ = none ∧ continued log = []

section Steps
variable {w w' : WaitAny} {log : List (Event Nat)} {e : Event Nat} {a : Action}

theorem awaitableCompleted_fields (w : WaitAny) (idx : Nat) :
    (w.awaitableCompleted idx).1.frames = w.frames ∧
    (w.awaitableCompleted idx).1.started_ = w.started_ ∧
    (w.awaitableCompleted idx).1.continuation_ = w.continuation_ ∧
    (w.awaitableCompleted idx).1.completed_ = some (w.completed_.getD idx) ∧
    (w.awaitableCompleted idx).2 =
      if w.continuation_.isSome then some (w.completed_.getD idx) else none := by
  unfold awaitableCompleted
  cases done : w.completed_ <;> cases parked : w.continuation_ <;> simp [done, parked]

theorem await_fields (w : WaitAny) (handle : Nat) :
    (w.await handle).1.frames = w.frames ∧ (w.await handle).1.started_ = w.started_ ∧
    (w.await handle).1.completed_ = w.completed_ ∧
    (w.await handle).1.continuation_ =
      (if w.completed_.isSome then w.continuation_ else some handle) ∧
    (w.await handle).2 = w.completed_ := by
  unfold await
  cases done : w.completed_ <;> simp [done]

theorem step_await (w : WaitAny) (handle : Nat) :
    w.step (.await handle) = some ((w.await handle).1, .awaited (w.await handle).2) := rfl

theorem step_complete {i : Nat} (taken : w.step (.complete i) = some (w', e)) :
    ∃ idx, w.frames[i]? = some idx ∧
      (i ∈ w.closures ∧ w' = (w.awaitableCompleted idx).1 ∧
          e = .completed i (w.awaitableCompleted idx).2 ∨
        i ∉ w.closures ∧ w' = w ∧ e = .dangling i) := by
  simp only [step] at taken
  split at taken
  · simp at taken
  · rename_i idx frame
    split at taken
    · rename_i in_time
      cases taken
      exact ⟨idx,frame,.inl ⟨in_time,rfl,rfl⟩⟩
    · rename_i late
      cases taken
      exact ⟨idx,frame,.inr ⟨late,rfl,rfl⟩⟩

theorem step_leave (taken : w.step .leave = some (w', e)) :
    ∃ outer, w' = { w with closures := outer } ∧ e = .left := by
  simp only [step] at taken
  split at taken
  · simp at taken
  · cases taken
    exact ⟨_,rfl,rfl⟩

theorem frame_own (tracked : Tracked w log) {i idx : Nat} (frame : w.frames[i]? = some idx) :
    idx = i := by
  rw [tracked.frames] at frame
  simpa using (List.getElem?_eq_some_iff.mp frame).2.symm

theorem step_tracked (tracked : Tracked w log) (taken : w.step a = some (w', e)) :
    Tracked w' (e :: log) := by
  cases a with
  | add =>
    cases taken
    constructor
    · simp [started, tracked.frames, tracked.count, List.range_succ]
    · simp [started, tracked.count]
    · exact tracked.first
    · exact tracked.before
  | leave =>
    obtain ⟨outer,rfl,rfl⟩ := step_leave taken
    exact ⟨tracked.frames,tracked.count,tracked.first,tracked.before⟩
  | complete i =>
    obtain ⟨idx,frame,⟨_,rfl,rfl⟩ | ⟨_,rfl,rfl⟩⟩ := step_complete taken
    · obtain ⟨frames,count,kept,done,continues⟩ := awaitableCompleted_fields w idx
      constructor
      · rw [frames]
        exact tracked.frames
      · rw [count]
        exact tracked.count
      · rw [done, tracked.first, frame_own tracked frame, completions]
        cases completions log <;> rfl
      · intro early
        obtain ⟨unset,silent⟩ := tracked.before early
        rw [kept, continues, unset]
        simp [continued, silent]
    · exact ⟨tracked.frames,tracked.count,tracked.first,tracked.before⟩
  | await handle =>
    rw [step_await] at taken
    cases taken
    obtain ⟨frames,count,done,_⟩ := await_fields w handle
    constructor
    · exact frames.trans tracked.frames
    · exact count.trans tracked.count
    · exact done.trans tracked.first
    · intro early
      simp [awaited] at early

end Steps

theorem run_tracked {w : WaitAny} {log : List (Event Nat)} (run : Run step Schedule {} w log) :
    Tracked w log := by
  apply run.invariant Tracked
  · exact ⟨rfl,rfl,rfl,by simp [continued]⟩
  · intro s older a s' e tracked _ taken
    exact step_tracked tracked taken

theorem awaited_append (later earlier : List (Event Nat)) (continues : Option Nat) :
    awaited (later ++ .awaited continues :: earlier) = true := by
  induction later with
  | nil => rfl
  | cons e later ih =>
    cases e with
    | awaited => rfl
    | _ => exact ih

theorem completions_append (later earlier : List (Event Nat)) :
    completions (later ++ earlier) = completions earlier ++ completions later := by
  induction later with
  | nil => simp [completions]
  | cons e later ih =>
    cases e with
    | completed i continues => simp [completions, ih]
    | _ => exact ih

theorem resumedBy_push (later : List Nat) (i : Nat) :
    resumedBy [] (later ++ [i]) = resumedBy [] later ++ [later.headD i] := by
  cases later with
  | nil => rfl
  | cons first rest => simp [resumedBy]

/-- Induction over the steps since the await: nothing is added any more. -/
theorem run_continued {w : WaitAny} {later earlier : List (Event Nat)} {continues : Option Nat}
    (run : Run step Schedule {} w (later ++ .awaited continues :: earlier)) :
    (w.continuation_.isSome ↔ completions earlier = []) ∧
    continued (later ++ .awaited continues :: earlier) =
      resumedBy (completions earlier) (completions later) := by
  induction later generalizing w with
  | nil =>
    cases run with
    | @next before _ _ a _ first allowed taken =>
      have tracked := run_tracked first
      cases a with
      | await handle =>
        rw [step_await] at taken
        obtain ⟨rfl,eq⟩ := Prod.mk.inj (Option.some.inj taken)
        obtain rfl := Event.awaited.inj eq
        obtain ⟨_,_,_,parked,value⟩ := await_fields before handle
        obtain ⟨unset,silent⟩ := tracked.before allowed.2.1
        rw [parked, value, tracked.first, unset]
        cases done : completions earlier with
        | nil => simp [continued, silent, resumedBy, completions]
        | cons i rest => simp [continued, silent, resumedBy]
      | add => simp [step] at taken
      | leave =>
        obtain ⟨_,_,eq⟩ := step_leave taken
        simp at eq
      | complete i =>
        obtain ⟨_,_,⟨_,_,eq⟩ | ⟨_,_,eq⟩⟩ := step_complete taken
        · simp at eq
        · simp at eq
  | cons e later ih =>
    cases run with
    | @next before _ _ a _ first allowed taken =>
      change Run step Schedule {} before (later ++ .awaited continues :: earlier) at first
      have tracked := run_tracked first
      obtain ⟨parked,so_far⟩ := ih first
      have waits := awaited_append later earlier continues
      cases a with
      | add =>
        have early : awaited (later ++ .awaited continues :: earlier) = false := allowed.2
        simp [waits] at early
      | await handle =>
        have early := allowed.2.1
        simp [waits] at early
      | leave =>
        obtain ⟨outer,rfl,rfl⟩ := step_leave taken
        exact ⟨parked,so_far⟩
      | complete i =>
        obtain ⟨idx,frame,⟨_,rfl,rfl⟩ | ⟨_,rfl,rfl⟩⟩ := step_complete taken
        · obtain ⟨_,_,kept,_,value⟩ := awaitableCompleted_fields before idx
          refine ⟨by rw [kept]; exact parked,?_⟩
          simp only [List.cons_append, continued, completions]
          rw [so_far, value, tracked.first, completions_append, frame_own tracked frame]
          cases done : completions earlier with
          | nil =>
            rw [if_pos (parked.mpr done), resumedBy_push]
            simp [completions, done, List.headD_eq_head?_getD]
          | cons j rest =>
            rw [if_neg (fun set => by simp [parked.mp set] at done)]
            simp [resumedBy]
        · exact ⟨parked,so_far⟩

theorem run_defined {policy : WaitAny → List (Event Nat) → Action → Prop} {w : WaitAny}
    {log : List (Event Nat)} (run : Run step policy {} w log)
    (in_time : ∀ w log a, policy w log a → InTime w a) : dangling log = false := by
  apply run.invariant (fun _ log => dangling log = false) rfl
  intro s older a s' e defined allowed taken
  cases a with
  | add | await handle =>
    cases taken
    exact defined
  | leave =>
    obtain ⟨_,_,rfl⟩ := step_leave taken
    exact defined
  | complete i =>
    obtain ⟨_,_,⟨_,_,rfl⟩ | ⟨late,_⟩⟩ := step_complete taken
    · exact defined
    · exact absurd (in_time _ _ _ allowed) late

theorem run_in_time {w : WaitAny} {log : List (Event Nat)} (run : Run step Schedule {} w log)
    (defined : dangling log = false) :
    Run step (fun w log a => Schedule w log a ∧ InTime w a) {} w log := by
  induction run with
  | nil => exact .nil
  | @next before after older a e run allowed taken ih =>
    refine .next (ih allowed.1) ⟨allowed,?_⟩ taken
    cases a with
    | complete i =>
      obtain ⟨_,_,⟨in_time,_⟩ | ⟨_,_,rfl⟩⟩ := step_complete taken
      · exact in_time
      · simp [dangling] at defined
    | add | leave | await handle => trivial

/-- At every moment since the await nothing dangles, and the coroutine has continued exactly
    once, with the index of the awaitable that completed first, or not at all while none has
    completed. -/
def ResumedOnce (later earlier : List (Event Nat)) (continues : Option Nat) : Prop :=
  ∀ newer since, later = newer ++ since →
    dangling (since ++ .awaited continues :: earlier) = false ∧
    continued (since ++ .awaited continues :: earlier) =
      (completions (since ++ .awaited continues :: earlier)).head?.toList

theorem resumedBy_once {earlier later : List Nat} (few : earlier ≠ [] ∨ later.length ≤ 1) :
    resumedBy earlier later = (earlier ++ later).head?.toList := by
  cases earlier with
  | cons first rest => rfl
  | nil =>
    cases later with
    | nil => rfl
    | cons i rest =>
      cases rest with
      | nil => rfl
      | cons j rest => simp at few

theorem completions_length (newer since : List (Event Nat)) :
    (completions since).length ≤ (completions (newer ++ since)).length := by
  rw [completions_append, List.length_append]
  omega

/-- The coroutine is resumed once, and by nothing that dangles, exactly if every awaitable
    that completes does so before its call of `add` has returned, and one had completed
    before the coroutine awaited or at most one completes afterwards. -/
theorem resumed_once_iff {w : WaitAny} {later earlier : List (Event Nat)}
    {continues : Option Nat}
    (run : Run step Schedule {} w (later ++ .awaited continues :: earlier)) :
    ResumedOnce later earlier continues ↔
      Run step (fun w log a => Schedule w log a ∧ InTime w a) {} w
        (later ++ .awaited continues :: earlier) ∧
      (completions earlier ≠ [] ∨ (completions later).length ≤ 1) := by
  constructor
  · intro once
    obtain ⟨defined,final⟩ := once [] later rfl
    refine ⟨run_in_time run defined,?_⟩
    rw [(run_continued run).2] at final
    by_cases early : completions earlier = []
    · right
      have lengths := congrArg List.length final
      rw [early] at lengths
      cases head : (completions (later ++ .awaited continues :: earlier)).head? with
      | none =>
        simp [resumedBy, head] at lengths
        simp [lengths]
      | some i =>
        simp [resumedBy, head] at lengths
        omega
    · exact .inl early
  · rintro ⟨in_time,few⟩ newer since split
    subst split
    rw [List.append_assoc] at run in_time
    obtain ⟨w',first⟩ := run.before
    obtain ⟨w'',timely⟩ := in_time.before
    have fewer : completions earlier ≠ [] ∨ (completions since).length ≤ 1 := by
      rcases few with early | one
      · exact .inl early
      · have := completions_length newer since
        exact .inr (by omega)
    refine ⟨run_defined timely fun _ _ _ allowed => allowed.2,?_⟩
    rw [(run_continued first).2, resumedBy_once fewer, completions_append]
    rfl

theorem ready_await_resumed_once :
    ∃ w later earlier, Run step Schedule {} w (later ++ .awaited (some 1) :: earlier) ∧
      completions earlier = [1] ∧ completions later = [0] ∧
      ResumedOnce later earlier (some 1) := by
  have computed : (replay step (fun w log a => Schedule w log a ∧ InTime w a) {} []
      [.add, .add, .complete 1, .leave, .await 7, .complete 0, .leave]).map
      Prod.snd = some ([.left, .completed 0 none] ++ .awaited (some 1) ::
        [.left, .completed 1 none, .started, .started]) := by decide
  obtain ⟨w,log,in_time,rfl⟩ := replay_reaches computed
  have run := in_time.relax fun _ _ _ allowed => allowed.1
  exact ⟨w,[.left, .completed 0 none],[.left, .completed 1 none, .started, .started],run,rfl,rfl,
    (resumed_once_iff run).mpr ⟨in_time,.inl (by decide)⟩⟩

/-- A single awaitable that is not ready completes after `add` has returned; and two that
   complete in time, but both after the await, resume the coroutine twice. -/
theorem later_completions_fail :
    (∃ w later earlier, Run step Schedule {} w (later ++ .awaited none :: earlier) ∧
      started (later ++ .awaited none :: earlier) = 1 ∧ ¬ ResumedOnce later earlier none) ∧
    ∃ w later earlier, Run step Schedule {} w (later ++ .awaited none :: earlier) ∧
      dangling (later ++ .awaited none :: earlier) = false ∧
      continued (later ++ .awaited none :: earlier) = [1,1] ∧
      ¬ ResumedOnce later earlier none := by
  constructor
  · have computed : (replay step Schedule {} [] [.add, .leave, .await 7, .complete 0]).map
        Prod.snd = some ([.dangling 0] ++ .awaited none :: [.left, .started]) := by decide
    obtain ⟨w,log,run,rfl⟩ := replay_reaches computed
    refine ⟨w,[.dangling 0],[.left, .started],run,rfl,?_⟩
    intro once
    have final := (once [] _ rfl).1
    simp [dangling] at final
  · have computed : (replay step Schedule {} []
        [.add, .add, .await 7, .complete 1, .complete 0]).map
        Prod.snd = some ([.completed 0 (some 1), .completed 1 (some 1)] ++ .awaited none ::
          [.started, .started]) := by decide
    obtain ⟨w,log,run,rfl⟩ := replay_reaches computed
    refine ⟨w,[.completed 0 (some 1), .completed 1 (some 1)],[.started, .started],
      run,rfl,rfl,?_⟩
    intro once
    have final := (once [] _ rfl).2
    simp [continued, completions] at final

end WaitAny
end Aiopp
