import Aiopp.Submit

/-!
The worker in `Promise::set` and a thread in `Future::get` of the same submission. Each step
of theirs is one of the two threads of a `Future`, whose loop thread is past its `ready`.
-/
namespace Aiopp
namespace Submit
open Transition Future ThreadPool
variable {W P Q J O : Type} {R : J → Type}

def threadOf : W ⊕ Q → Thread
  | .inl _ => .setter
  | .inr _ => .loop

def Reader.waiter [DecidableEq J] (j : J) : Reader J → Waiter
  | .lock i .get => if i = j then .lockGet else .returned
  | .check i .get => if i = j then .checkGet else .returned
  | .sleeping i => if i = j then .sleeping else .returned
  | .unlock i => if i = j then .unlockGet else .returned
  | _ => .returned

/-- A result that was moved from is still there. -/
def future [DecidableEq J] (s : Submit W P Q J O R) (w : W) (q : Q) (j : J) :
    Option (Future.State (R j)) :=
  match s.bodies w j with
  | .setting argument next => some
      { mutex := (s.shared j).mutex.map threadOf
        value := (s.shared j).value.map fun _ => argument
        counter := (s.shared j).counter
        argument := argument
        setter := next
        waiter := (s.readers q).waiter j }
  | _ => none

section Steps
variable [DecidableEq W] [DecidableEq P] [DecidableEq Q] [DecidableEq J] [Fintype W]
  (residue : (j : J) → R j → R j) {s s' : Submit W P Q J O R} {w : W} {q : Q} {j : J}
  {t t' : Future.State (R j)}

theorem wake_waiter (reader : Reader J) : (reader.wake j).waiter j = (reader.waiter j).wake := by
  cases reader with
  | sleeping i =>
    by_cases same : i = j
    · simp [Reader.wake, Reader.waiter, Waiter.wake, same]
    · simp [Reader.wake, Reader.waiter, Waiter.wake, same]
  | lock i question =>
    cases question with
    | ready => rfl
    | get => by_cases same : i = j <;> simp [Reader.wake, Reader.waiter, Waiter.wake, same]
  | check i question =>
    cases question with
    | ready => rfl
    | get => by_cases same : i = j <;> simp [Reader.wake, Reader.waiter, Waiter.wake, same]
  | unlock i => by_cases same : i = j <;> simp [Reader.wake, Reader.waiter, Waiter.wake, same]
  | idle => rfl

omit [DecidableEq Q] in
theorem body_sets (seen : s.future w q j = some t) (unfinished : t.setter ≠ .returned) :
    (s.body w j).map (fun done => done.1.future w q j) = (setterStep t).map some := by
  unfold future at seen
  split at seen
  · rename_i argument next point
    cases seen
    cases next with
    | lock =>
      simp only [body, point, setterStep, Option.isNone_map]
      split
      · simp [future, setBody, setShared, threadOf]
      · rfl
    | assign =>
      simp only [body, point, setterStep, Option.isNone_map]
      split
      · simp [future, setBody, setShared]
      · rfl
    | unlock => simp [body, point, setterStep, future, setBody, setShared]
    | notify => simp [body, point, setterStep, future, setBody, wake_waiter]
    | write => simp [body, point, setterStep, future, setBody, setShared]
    | returned => exact absurd rfl unfinished
  · simp at seen

theorem waiter_unfinished {reader : Reader J} (unfinished : reader.waiter j ≠ .returned) :
    reader = .lock j .get ∨ reader = .check j .get ∨ reader = .sleeping j ∨
      reader = .unlock j := by
  cases reader with
  | idle => exact absurd rfl unfinished
  | lock i question =>
    cases question with
    | ready => exact absurd rfl unfinished
    | get =>
      by_cases same : i = j
      · simp [same]
      · simp [Reader.waiter, same] at unfinished
  | check i question =>
    cases question with
    | ready => exact absurd rfl unfinished
    | get =>
      by_cases same : i = j
      · simp [same]
      · simp [Reader.waiter, same] at unfinished
  | sleeping i =>
    by_cases same : i = j
    · simp [same]
    · simp [Reader.waiter, same] at unfinished
  | unlock i =>
    by_cases same : i = j
    · simp [same]
    · simp [Reader.waiter, same] at unfinished

omit [DecidableEq W] [DecidableEq P] [Fintype W] in
theorem read_gets (seen : s.future w q j = some t) (unfinished : t.waiter ≠ .returned) :
    (s.read residue q).map (fun done => done.1.future w q j) = (waiterStep t).map some := by
  unfold future at seen
  split at seen
  · rename_i argument next point
    cases seen
    rcases waiter_unfinished unfinished with reader | reader | reader | reader
    · simp only [read, reader, Reader.waiter, waiterStep, Option.isNone_map, if_true]
      split
      · simp [future, setShared, moveReader, point, threadOf, Reader.waiter]
      · rfl
    · cases value : (s.shared j).value with
      | none =>
        simp [read, reader, value, Reader.waiter, waiterStep, future, setShared, moveReader, point]
      | some v =>
        simp [read, reader, value, Reader.waiter, waiterStep, future, setShared, moveReader, point]
    · simp [read, reader, Reader.waiter, waiterStep, future, moveReader, point]
    · simp [read, reader, Reader.waiter, waiterStep, future, setShared, moveReader, point]
  · simp at seen

omit [DecidableEq Q] in
theorem body_threads {e : Event W P J O R} (seen : s.future w q j = some t)
    (unfinished : t.setter ≠ .returned) (run : s.body w j = some (s', e)) :
    s'.pool.threads_ = s.pool.threads_ := by
  unfold future at seen
  split at seen
  · rename_i argument next point
    cases seen
    cases next with
    | returned => exact absurd rfl unfinished
    | lock | assign =>
      simp only [body, point] at run
      split at run
      · cases run
        rfl
      · simp at run
    | unlock | notify | write =>
      simp only [body, point] at run
      cases run
      rfl
  · simp at seen

omit [DecidableEq W] [DecidableEq P] [Fintype W] in
theorem read_threads {e : Event W P J O R} (run : s.read residue q = some (s', e)) :
    s'.pool.threads_ = s.pool.threads_ := by
  unfold read at run
  split at run
  · simp at run
  · split at run
    · cases run
      rfl
    · simp at run
  · cases run
    rfl
  · split at run
    all_goals
      cases run
      rfl
  · cases run
    rfl
  · cases run
    rfl

/-- The worker in its `set`, and the reader in its `get`. -/
def Alone (w : W) (q : Q) (j : J) (s : Submit W P Q J O R) : Action W P Q J O R → Prop
  | .work w' => w' = w ∧ ∃ t, s.future w q j = some t ∧ t.setter ≠ .returned
  | .read q' => q' = q ∧ (s.readers q).waiter j ≠ .returned
  | _ => False

def Threads {T : Type} (_ : Future.State T) (a : Future.Action) : Prop := a = .set ∨ a = .wait

omit [DecidableEq W] [DecidableEq P] [DecidableEq Q] [Fintype W] in
theorem future_waiter (seen : s.future w q j = some t) : t.waiter = (s.readers q).waiter j := by
  unfold future at seen
  split at seen
  · cases seen
    rfl
  · simp at seen

theorem alone_step {a : Action W P Q J O R} {e : Event W P J O R}
    (running : s.pool.threads_ w = .running (.inl j)) (seen : s.future w q j = some t)
    (alone : Alone w q j s a) (run : step residue s a = some (s', e)) :
    s'.pool.threads_ w = .running (.inl j) ∧ ∃ t' b, s'.future w q j = some t' ∧
      Threads t b ∧ Future.step t b = some (t', b) := by
  cases a with
  | work w' =>
    obtain ⟨rfl,t',seen',unfinished⟩ := alone
    obtain rfl := Option.some.inj (seen.symm.trans seen')
    simp only [step, running] at run
    have sets := body_sets seen unfinished
    rw [run, Option.map_some] at sets
    obtain ⟨t',taken,same⟩ := Option.map_eq_some_iff.mp sets.symm
    exact ⟨by rw [body_threads seen unfinished run, running],t',.set,same.symm,.inl rfl,by
      simp [Future.step, taken]⟩
  | read q' =>
    obtain ⟨rfl,unfinished⟩ := alone
    rw [← future_waiter seen] at unfinished
    have gets := read_gets residue seen unfinished
    rw [show s.read residue q' = some (s', e) from run, Option.map_some] at gets
    obtain ⟨t',taken,same⟩ := Option.map_eq_some_iff.mp gets.symm
    exact ⟨by rw [read_threads residue run, running],t',.wait,same.symm,.inr rfl,by
      simp [Future.step, taken]⟩
  | submit | pool | returns | ask => exact absurd alone not_false

theorem thread_step {b b' : Future.Action}
    (running : s.pool.threads_ w = .running (.inl j)) (seen : s.future w q j = some t)
    (threads : Threads t b) (taken : Future.step t b = some (t', b')) :
    ∃ a s' e, Alone w q j s a ∧ step residue s a = some (s', e) ∧
      s'.pool.threads_ w = .running (.inl j) ∧ s'.future w q j = some t' := by
  rcases threads with rfl | rfl
  · obtain ⟨_,set,eq⟩ := Option.map_eq_some_iff.mp taken
    cases eq
    have unfinished : t.setter ≠ .returned := by
      intro over_
      simp [setterStep, over_] at set
    have sets := body_sets seen unfinished
    rw [set, Option.map_some] at sets
    obtain ⟨⟨s',e⟩,run,same⟩ := Option.map_eq_some_iff.mp sets
    exact ⟨.work w,s',e,⟨rfl,t,seen,unfinished⟩,by simpa [step, running] using run,by
      rw [body_threads seen unfinished run, running],same⟩
  · obtain ⟨_,got,eq⟩ := Option.map_eq_some_iff.mp taken
    cases eq
    have unfinished : t.waiter ≠ .returned := by
      intro over_
      simp [waiterStep, over_] at got
    have gets := read_gets residue seen unfinished
    rw [got, Option.map_some] at gets
    obtain ⟨⟨s',e⟩,run,same⟩ := Option.map_eq_some_iff.mp gets
    exact ⟨.read q,s',e,⟨rfl,future_waiter seen ▸ unfinished⟩,run,by
      rw [read_threads residue run, running],same⟩

theorem alone_run {log : List (Event W P J O R)}
    (running : s.pool.threads_ w = .running (.inl j)) (seen : s.future w q j = some t)
    (run : Run (step residue) (fun s _ a => Alone w q j s a) s s' log) :
    s'.pool.threads_ w = .running (.inl j) ∧ ∃ t' history, s'.future w q j = some t' ∧
      Run Future.step (fun t _ b => Threads t b) t t' history := by
  induction run with
  | nil => exact ⟨running,t,[],seen,.nil⟩
  | next before alone taken ih =>
    obtain ⟨running₁,t₁,history,seen₁,run⟩ := ih
    obtain ⟨running₂,t₂,b,seen₂,threads,stepped⟩ := alone_step residue running₁ seen₁ alone taken
    exact ⟨running₂,t₂,b :: history,seen₂,run.next threads stepped⟩

theorem threads_run {history : List Future.Action}
    (running : s.pool.threads_ w = .running (.inl j)) (seen : s.future w q j = some t)
    (run : Run Future.step (fun t _ b => Threads t b) t t' history) :
    ∃ s' log, Run (step residue) (fun s _ a => Alone w q j s a) s s' log ∧
      s'.pool.threads_ w = .running (.inl j) ∧ s'.future w q j = some t' := by
  induction run with
  | nil => exact ⟨s,[],.nil,running,seen⟩
  | next before threads taken ih =>
    obtain ⟨s₁,log,run,running₁,seen₁⟩ := ih
    obtain ⟨a,s₂,e,alone,stepped,running₂,seen₂⟩ := thread_step residue running₁ seen₁ threads taken
    exact ⟨s₂,e :: log,run.next alone stepped,running₂,seen₂⟩

end Steps
end Submit
end Aiopp
