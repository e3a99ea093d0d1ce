import Aiopp.Future

/-!
`IoQueue::wait` on the future of a value. The two paths to `get` synchronise with `set`
through different objects, the mutex and the eventfd; on both the value is there, so the
loop thread never sleeps on the condition variable.
-/
namespace Aiopp
namespace Future
open Transition

structure Waiting (T : Type) where
  shared : State T
  result : Option T := none

namespace Waiting
variable {T : Type}

def start (argument : T) : Waiting T := { shared := Future.start argument }

/-- `get` moves the value out before it releases the mutex; `residue` is what that leaves. -/
def step (residue : T → T) (w : Waiting T) (a : Action) : Option (Waiting T × Action) :=
  if a = .wait ∧ w.shared.waiter = .unlockGet then
    some (⟨{ w.shared with
      mutex := none, value := w.shared.value.map residue, waiter := .returned },
      w.shared.value⟩, a)
  else (Future.step w.shared a).map fun (s, e) => (⟨s, w.result⟩, e)

def AnyOrder (_ : Waiting T) (_ : List Action) (_ : Action) : Prop := True

instance (w : Waiting T) (log : List Action) (a : Action) : Decidable (AnyOrder w log a) :=
  isTrue trivial

end Waiting

def Setter.isPast : Setter → Bool
  | .lock | .assign | .unlock => false
  | .notify | .write | .returned => true

def Setter.locks : Setter → Bool
  | .assign | .unlock => true
  | _ => false

def Waiter.locks : Waiter → Bool
  | .checkReady | .unlockReady _ | .checkGet | .unlockGet => true
  | _ => false

theorem past_unlocks {setter : Setter} (past : setter.isPast = true) : setter.locks = false := by
  cases setter <;> simp_all [Setter.isPast, Setter.locks]

/-- What the loop thread knows about `set` at each point of `wait`. -/
def Informed (setter : Setter) : Waiter → Prop
  | .unlockReady ready => ready = true → setter.isPast = true
  | .completed buf => buf = 1 ∧ setter = .returned
  | .lockGet | .checkGet | .unlockGet => setter.isPast = true
  | .sleeping => False
  | _ => True

structure Agreed {T : Type} (argument : T) (s : State T) : Prop where
  kept : s.argument = argument
  value : s.value = if s.setter = .lock ∨ s.setter = .assign then none else some argument
  setting : s.setter.locks = true ↔ s.mutex = some .setter
  waiting : s.waiter.locks = true ↔ s.mutex = some .loop
  informed : Informed s.setter s.waiter
  fed : Fed s

section Value
variable {T : Type} {argument : T} {s s' : State T}

theorem informed_later {setter next : Setter} {waiter : Waiter} (informed : Informed setter waiter)
    (past : setter.isPast = true → next.isPast = true) (running : setter ≠ .returned) :
    Informed next waiter := by
  cases waiter with
  | unlockReady ready => exact fun known => past (informed known)
  | completed buf => exact absurd informed.2 running
  | lockGet | checkGet | unlockGet => exact past informed
  | sleeping => exact informed.elim
  | _ => trivial

theorem setter_agreed (agreed : Agreed argument s) (taken : setterStep s = some s') :
    Agreed argument s' := by
  have fed := setter_fed agreed.fed taken
  obtain ⟨kept,value,setting,waiting,informed,_⟩ := agreed
  have later {next : Setter} (past : s.setter.isPast = true → next.isPast = true)
      (running : s.setter ≠ .returned) := informed_later informed past running
  unfold setterStep at taken
  cases state : s.setter with
  | lock =>
    simp only [state] at taken later value setting
    split at taken
    · rename_i free
      cases taken
      have unlocked : s.mutex = none := by simpa using free
      constructor
      · exact kept
      · simpa using value
      · simp [Setter.locks]
      · simpa [unlocked] using waiting
      · exact later (by simp [Setter.isPast]) (by simp)
      · exact fed
    · simp at taken
  | assign =>
    simp only [state] at taken later value setting
    split at taken
    · cases taken
      constructor
      · exact kept
      · simp [kept]
      · simpa [Setter.locks] using setting
      · exact waiting
      · exact later (by simp [Setter.isPast]) (by simp)
      · exact fed
    · simp at taken
  | unlock =>
    simp only [state] at taken later value setting
    cases taken
    have own : s.mutex = some .setter := by simpa [Setter.locks] using setting
    constructor
    · exact kept
    · simpa using value
    · simp [Setter.locks]
    · simpa [own] using waiting
    · exact later (by simp [Setter.isPast]) (by simp)
    · exact fed
  | notify =>
    simp only [state] at taken later value setting
    cases taken
    have awake : s.waiter.wake = s.waiter := by
      cases point : s.waiter with
      | sleeping =>
        rw [point] at informed
        exact informed.elim
      | _ => rfl
    constructor
    · exact kept
    · simpa using value
    · simpa [Setter.locks] using setting
    · simpa [awake] using waiting
    · have wrote : Informed .write s.waiter := later (by simp [Setter.isPast]) (by simp)
      simpa [awake] using wrote
    · exact fed
  | write =>
    simp only [state] at taken later value setting
    cases taken
    constructor
    · exact kept
    · simpa using value
    · simpa [Setter.locks] using setting
    · exact waiting
    · exact later (by simp [Setter.isPast]) (by simp)
    · exact fed
  | returned => simp [state] at taken

theorem past_value (agreed : Agreed argument s) (past : s.setter.isPast = true) :
    s.value = some argument := by
  rw [agreed.value, if_neg]
  rintro (lock | assign)
  · simp [lock, Setter.isPast] at past
  · simp [assign, Setter.isPast] at past

/-- Under the lock of the loop thread, a value means that `set` has left its block. -/
theorem value_past (agreed : Agreed argument s) (own : s.mutex = some .loop)
    (given : s.value.isSome = true) : s.setter.isPast = true := by
  have value := agreed.value
  have setting := agreed.setting
  cases state : s.setter with
  | lock | assign => simp [state, value] at given
  | unlock => simp [state, own, Setter.locks] at setting
  | _ => rfl

theorem waiter_agreed (agreed : Agreed argument s) (unfinished : s.waiter ≠ .unlockGet)
    (taken : waiterStep s = some s') : Agreed argument s' := by
  have fed := waiter_fed agreed.fed taken
  have past_set := past_value agreed
  have seen := value_past agreed
  obtain ⟨kept,value,setting,waiting,informed,_⟩ := agreed
  have own (locks : s.waiter.locks = true) : s.setter.locks = false ∧ s.mutex = some .loop := by
    have mine := waiting.mp locks
    refine ⟨?_,mine⟩
    simpa [mine] using setting
  unfold waiterStep at taken
  cases state : s.waiter with
  | lockReady | lockGet =>
    simp only [state] at taken informed
    split at taken
    · rename_i free
      cases taken
      have unlocked : s.mutex = none := by simpa using free
      refine ⟨kept,value,?_,by simp [Waiter.locks],informed,fed⟩
      simpa [unlocked] using setting
    · simp at taken
  | checkReady =>
    simp only [state] at taken waiting own
    cases taken
    exact ⟨kept,value,setting,waiting,seen (own rfl).2,fed⟩
  | unlockReady ready =>
    simp only [state] at taken informed own
    cases taken
    refine ⟨kept,value,by simp [own rfl],?_,?_,fed⟩
    · split <;> simp [Waiter.locks]
    · split
      · rename_i known
        exact informed known
      · trivial
  | issueRead =>
    simp only [state] at taken waiting
    cases taken
    exact ⟨kept,value,setting,waiting,trivial,fed⟩
  | completed buf =>
    simp only [state] at taken waiting informed
    split at taken
    · cases taken
      exact ⟨kept,value,setting,waiting,by rw [informed.2]; rfl,fed⟩
    · simp at taken
  | checkGet =>
    simp only [state] at taken waiting informed
    have given : s.value.isSome = true := by
      rw [past_set informed]
      rfl
    rw [if_pos given] at taken
    cases taken
    exact ⟨kept,value,setting,waiting,informed,fed⟩
  | sleeping =>
    rw [state] at informed
    exact informed.elim
  | unlockGet => exact absurd state unfinished
  | queued | pending | returned => simp [state] at taken

theorem step_agreed {a e : Action} (agreed : Agreed argument s)
    (unfinished : ¬ (a = .wait ∧ s.waiter = .unlockGet)) (taken : Future.step s a = some (s', e)) :
    Agreed argument s' := by
  cases a with
  | set =>
    obtain ⟨s₁,moved,eq⟩ := Option.map_eq_some_iff.mp taken
    cases eq
    exact setter_agreed agreed moved
  | wait =>
    obtain ⟨s₁,moved,eq⟩ := Option.map_eq_some_iff.mp taken
    cases eq
    exact waiter_agreed agreed (fun state => unfinished ⟨rfl,state⟩) moved
  | submit =>
    have fed := step_fed agreed.fed taken
    obtain ⟨kept,value,setting,waiting,informed,_⟩ := agreed
    simp only [Future.step] at taken
    split at taken
    · rename_i queued
      cases taken
      exact ⟨kept,value,setting,by simpa [queued, Waiter.locks] using waiting,trivial,fed⟩
    · simp at taken
  | completeRead =>
    have fed := step_fed agreed.fed taken
    obtain ⟨kept,value,setting,waiting,informed,before⟩ := agreed
    simp only [Future.step] at taken
    split at taken
    · rename_i ready
      obtain ⟨pending,positive⟩ := ready
      cases taken
      have written := before (by simp [pending, Unread])
      have done : s.setter = .returned ∧ s.counter = 1 := by
        split at written
        · rename_i returned
          exact ⟨returned,written⟩
        · omega
      exact ⟨kept,value,setting,by simpa [pending, Waiter.locks] using waiting,⟨done.2,done.1⟩,fed⟩
    · simp at taken

theorem setterStep_returned (taken : setterStep s = some s') :
    s'.waiter = .returned ↔ s.waiter = .returned := by
  unfold setterStep at taken
  split at taken
  case h_1 | h_2 =>
    split at taken
    · cases taken
      rfl
    · simp at taken
  case h_4 =>
    cases taken
    cases point : s.waiter <;> simp [Waiter.wake]
  case h_6 => simp at taken
  all_goals
    cases taken
    rfl

theorem step_returned {a e : Action} (unfinished : ¬ (a = .wait ∧ s.waiter = .unlockGet))
    (taken : Future.step s a = some (s', e)) : s'.waiter = .returned ↔ s.waiter = .returned := by
  cases a with
  | set =>
    obtain ⟨s₁,moved,eq⟩ := Option.map_eq_some_iff.mp taken
    cases eq
    exact setterStep_returned moved
  | wait =>
    obtain ⟨s₁,moved,eq⟩ := Option.map_eq_some_iff.mp taken
    cases eq
    unfold waiterStep at moved
    split at moved
    case h_11 state => exact absurd ⟨rfl,state⟩ unfinished
    all_goals grind
  | submit | completeRead =>
    simp only [Future.step] at taken
    split at taken
    · rename_i reading
      cases taken
      simp [reading]
    · simp at taken

end Value

namespace Waiting
variable {T : Type} {residue : T → T} {argument : T} {w w' : Waiting T} {log : List Action}

structure Handed (argument : T) (w : Waiting T) : Prop where
  agreed : w.shared.waiter ≠ .returned → Agreed argument w.shared
  settled : w.shared.waiter = .returned → w.result = some argument

theorem step_handed {a e : Action} (handed : Handed argument w)
    (taken : w.step residue a = some (w', e)) : Handed argument w' := by
  unfold step at taken
  split at taken
  · rename_i last
    cases taken
    constructor
    · intro unfinished
      exact absurd rfl unfinished
    · intro _
      have agreed := handed.agreed (by simp [last.2])
      have informed := agreed.informed
      rw [last.2] at informed
      exact past_value agreed informed
  · rename_i inner
    obtain ⟨⟨s,event⟩,moved,eq⟩ := Option.map_eq_some_iff.mp taken
    cases eq
    have returned := step_returned inner moved
    constructor
    · intro unfinished
      have before : w.shared.waiter ≠ .returned := fun finished => unfinished (returned.mpr finished)
      exact step_agreed (handed.agreed before) inner moved
    · intro finished
      exact handed.settled (returned.mp finished)

theorem run_handed (run : Run (step residue) AnyOrder (start argument) w log) :
    Handed argument w := by
  refine run.invariant (fun w _ => Handed argument w) ?_ ?_
  · constructor
    · intro _
      refine ⟨rfl,rfl,?_,?_,trivial,fun _ => rfl⟩
      · simp [start, Future.start, Setter.locks]
      · simp [start, Future.start, Waiter.locks]
    · simp [start, Future.start]
  · intro w log a w' e handed _ taken
    exact step_handed handed taken

/-- Whenever `wait` comes to `get` the value is there and nobody holds the mutex, so the
condition variable is never waited for; a completed read has taken exactly 1; what `wait`
returns is the promised value. -/
theorem wait_returns_promised (residue : T → T)
    (run : Run (step residue) AnyOrder (start argument) w log) :
    (w.shared.waiter = .lockGet → w.shared.value = some argument ∧ w.shared.mutex = none) ∧
    (w.shared.waiter = .checkGet ∨ w.shared.waiter = .unlockGet →
      w.shared.value = some argument) ∧
    w.shared.waiter ≠ .sleeping ∧ (∀ buf, w.shared.waiter = .completed buf → buf = 1) ∧
    (w.shared.waiter = .returned → w.result = some argument) := by
  have handed := run_handed run
  refine ⟨?_,?_,?_,?_,handed.settled⟩
  · intro state
    have agreed := handed.agreed (by simp [state])
    have informed := agreed.informed
    have setting := agreed.setting
    have waiting := agreed.waiting
    rw [state] at informed waiting
    refine ⟨past_value agreed informed,?_⟩
    cases held : w.shared.mutex with
    | none => rfl
    | some owner =>
      cases owner with
      | setter =>
        have locks := setting.mpr held
        simp [past_unlocks informed] at locks
      | loop => simp [held, Waiter.locks] at waiting
  · intro state
    have agreed := handed.agreed (by rcases state with state | state <;> simp [state])
    have informed := agreed.informed
    rcases state with state | state
    all_goals
      rw [state] at informed
      exact past_value agreed informed
  · intro state
    have informed := (handed.agreed (by simp [state])).informed
    rw [state] at informed
    exact informed
  · intro buf state
    have informed := (handed.agreed (by simp [state])).informed
    rw [state] at informed
    exact informed.1

theorem late_value_returned :
    ∃ (w : Waiting Nat) (log : List Action), Run (step fun _ => 0) AnyOrder (start 7) w log ∧
      .completeRead ∈ log ∧ w.shared.waiter = .returned ∧ w.result = some 7 := by
  let actions : List Action := [.wait, .wait, .wait, .set, .wait, .submit, .set, .set, .set, .set,
    .completeRead, .wait, .wait, .wait, .wait]
  have computed : (replay (step fun _ => 0) AnyOrder (start 7) [] actions).map
      (fun (w, log) => decide (.completeRead ∈ log ∧ w.shared.waiter = .returned)) =
      some true := by decide
  obtain ⟨w,log,run,facts⟩ := replay_reaches computed
  obtain ⟨read,returned⟩ := of_decide_eq_true facts
  exact ⟨w,log,run,read,returned,(wait_returns_promised (fun _ => 0) run).2.2.2.2 returned⟩

end Waiting
end Future
end Aiopp
