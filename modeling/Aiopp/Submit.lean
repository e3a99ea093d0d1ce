import Aiopp.Future
import Aiopp.ThreadPoolQueue

/-!
`ThreadPool::submit` over the pool: what the submitted lambda does on the worker that
runs it, the state it shares with its future, and any number of threads that read the
future. Other tasks are pushed to the same pool.
-/
namespace Aiopp
namespace Submit
open Transition Future ThreadPool

/-- The lambda on its worker: the call of `func`, then `Promise::set`. -/
inductive Body (T : Type) where
  | enter
  | calling
  | setting (argument : T) (next : Setter)

inductive Question where
  | ready
  | get
  deriving DecidableEq, Repr

inductive Reader (J : Type) where
  | idle
  | lock (j : J) (question : Question)
  | check (j : J) (question : Question)
  | sleeping (j : J)
  | unlock (j : J)
  deriving DecidableEq

def Reader.wake {J : Type} [DecidableEq J] (j : J) : Reader J → Reader J
  | .sleeping i => if i = j then .lock j .get else .sleeping i
  | reader => reader

structure Shared (W Q T : Type) where
  mutex : Option (W ⊕ Q) := none
  value : Option T := none
  counter : Nat := 0

inductive Note (T : Type) where
  | called
  | returned (v : T)
  | got (v : T)

def Note.isCalled {T : Type} : Note T → Bool
  | .called => true
  | _ => false

end Submit

open Submit Future ThreadPool

/-- `J` names the calls of `submit`, `R` their result types, `O` the other tasks. -/
structure Submit (W P Q J O : Type) (R : J → Type) where
  pool : ThreadPool W P (J ⊕ O) := {}
  submitted : J → Bool := fun _ => false
  bodies : W → (j : J) → Body (R j) := fun _ _ => .enter
  shared : (j : J) → Shared W Q (R j) := fun _ => {}
  readers : Q → Reader J := fun _ => .idle

namespace Submit
open Transition
variable {W P Q J O : Type} {R : J → Type}

inductive Action (W P Q J O : Type) (R : J → Type) where
  | submit (p : P) (j : J)
  | pool (a : ThreadPool.Action W P (J ⊕ O))
  | work (w : W)
  | returns (w : W) (j : J) (v : R j)
  | ask (q : Q) (j : J) (question : Question)
  | read (q : Q)

inductive Event (W P J O : Type) (R : J → Type) where
  | pool (e : ThreadPool.Event W P (J ⊕ O))
  | noted (j : J) (note : Note (R j))
  | answered (j : J) (ready : Bool)
  | stepped

section Step
variable [DecidableEq W] [DecidableEq P] [DecidableEq Q] [DecidableEq J]

def setBody (s : Submit W P Q J O R) (w : W) (j : J) (body : Body (R j)) : Submit W P Q J O R :=
  { s with bodies := Function.update s.bodies w (Function.update (s.bodies w) j body) }

def setShared (s : Submit W P Q J O R) (j : J) (shared : Shared W Q (R j)) :
    Submit W P Q J O R :=
  { s with shared := Function.update s.shared j shared }

def moveReader (s : Submit W P Q J O R) (q : Q) (next : Reader J) : Submit W P Q J O R :=
  { s with readers := Function.update s.readers q next }

/-- Calls of `push` come from `submit` or bring another task; the lambda of a submitted
   function completes by itself. -/
def passes (pool : ThreadPool W P (J ⊕ O)) : ThreadPool.Action W P (J ⊕ O) → Bool
  | .call _ (.inl _) => false
  | .complete w =>
    match pool.threads_ w with
    | .running (.inl _) => false
    | _ => true
  | _ => true

def invoke (bodies : W → (j : J) → Body (R j)) :
    ThreadPool.Event W P (J ⊕ O) → W → (j : J) → Body (R j)
  | .invoked w (.inl j) => Function.update bodies w (Function.update (bodies w) j .enter)
  | _ => bodies

variable [Fintype W]

/-- As in `Future.setterStep`, an assertion that fails has no successor. -/
def body (s : Submit W P Q J O R) (w : W) (j : J) :
    Option (Submit W P Q J O R × Event W P J O R) :=
  match s.bodies w j with
  | .enter => some (s.setBody w j .calling, .noted j .called)
  | .calling => none
  | .setting argument .lock =>
    if (s.shared j).mutex.isNone then
      some ((s.setShared j { s.shared j with mutex := some (.inl w) }).setBody w j
        (.setting argument .assign), .stepped)
    else none
  | .setting argument .assign =>
    if (s.shared j).value.isNone then
      some ((s.setShared j { s.shared j with value := some argument }).setBody w j
        (.setting argument .unlock), .stepped)
    else none
  | .setting argument .unlock =>
    some ((s.setShared j { s.shared j with mutex := none }).setBody w j
      (.setting argument .notify), .stepped)
  | .setting argument .notify =>
    some ({ s with readers := fun q => (s.readers q).wake j }.setBody w j
      (.setting argument .write), .stepped)
  | .setting argument .write =>
    some ((s.setShared j { s.shared j with counter := (s.shared j).counter + 1 }).setBody w j
      (.setting argument .returned), .stepped)
  | .setting _ .returned =>
    (s.pool.step (.complete w)).map fun (pool, e) => ({ s with pool := pool }, .pool e)

/-- `residue` is what a move leaves behind in the optional. -/
def read (residue : (j : J) → R j → R j) (s : Submit W P Q J O R) (q : Q) :
    Option (Submit W P Q J O R × Event W P J O R) :=
  match s.readers q with
  | .idle => none
  | .lock j question =>
    if (s.shared j).mutex.isNone then
      some ((s.setShared j { s.shared j with mutex := some (.inr q) }).moveReader q
        (.check j question), .stepped)
    else none
  | .check j .ready => some (s.moveReader q (.unlock j), .answered j (s.shared j).value.isSome)
  | .check j .get =>
    match (s.shared j).value with
    | some v =>
      some ((s.setShared j { s.shared j with value := some (residue j v) }).moveReader q
        (.unlock j), .noted j (.got v))
    | none =>
      some ((s.setShared j { s.shared j with mutex := none }).moveReader q (.sleeping j), .stepped)
  | .sleeping j => some (s.moveReader q (.lock j .get), .stepped)
  | .unlock j =>
    some ((s.setShared j { s.shared j with mutex := none }).moveReader q .idle, .stepped)

def step (residue : (j : J) → R j → R j) (s : Submit W P Q J O R) :
    Action W P Q J O R → Option (Submit W P Q J O R × Event W P J O R)
  | .submit p j =>
    if s.submitted j then none
    else (s.pool.step (.call p (.inl j))).map fun (pool, e) =>
      ({ s with pool := pool, submitted := Function.update s.submitted j true }, .pool e)
  | .pool a =>
    if passes s.pool a then (s.pool.step a).map fun (pool, e) =>
      ({ s with pool := pool, bodies := invoke s.bodies e }, .pool e)
    else none
  | .work w =>
    match s.pool.threads_ w with
    | .running (.inl j) => s.body w j
    | _ => none
  | .returns w j v =>
    match s.pool.threads_ w, s.bodies w j with
    | .running (.inl i), .calling =>
      if i = j then some (s.setBody w j (.setting v .lock), .noted j (.returned v)) else none
    | _, _ => none
  | .ask q j question =>
    match s.readers q with
    | .idle => if s.submitted j then some (s.moveReader q (.lock j question), .stepped) else none
    | _ => none
  | .read q => s.read residue q

inductive Moved (residue : (j : J) → R j → R j) (s : Submit W P Q J O R) :
    Submit W P Q J O R → Event W P J O R → Prop where
  | submitted {p : P} {j : J} {pool : ThreadPool W P (J ⊕ O)} {e : ThreadPool.Event W P (J ⊕ O)}
      (fresh : s.submitted j = false) (taken : s.pool.step (.call p (.inl j)) = some (pool, e)) :
      Moved residue s { s with pool := pool, submitted := Function.update s.submitted j true }
        (.pool e)
  | passed {a : ThreadPool.Action W P (J ⊕ O)} {pool : ThreadPool W P (J ⊕ O)}
      {e : ThreadPool.Event W P (J ⊕ O)} (other : passes s.pool a)
      (taken : s.pool.step a = some (pool, e)) :
      Moved residue s { s with pool := pool, bodies := invoke s.bodies e } (.pool e)
  | completed {w : W} {pool : ThreadPool W P (J ⊕ O)} {e : ThreadPool.Event W P (J ⊕ O)}
      (taken : s.pool.step (.complete w) = some (pool, e)) :
      Moved residue s { s with pool := pool } (.pool e)
  | entered {w : W} {j : J} (here : s.pool.threads_ w = .running (.inl j))
      (point : s.bodies w j = .enter) :
      Moved residue s (s.setBody w j .calling) (.noted j .called)
  | returned {w : W} {j : J} {v : R j} (here : s.pool.threads_ w = .running (.inl j))
      (point : s.bodies w j = .calling) :
      Moved residue s (s.setBody w j (.setting v .lock)) (.noted j (.returned v))
  | locked {w : W} {j : J} {v : R j} {shared : Shared W Q (R j)}
      (here : s.pool.threads_ w = .running (.inl j)) (point : s.bodies w j = .setting v .lock)
      (same : shared.value = (s.shared j).value) :
      Moved residue s ((s.setShared j shared).setBody w j (.setting v .assign)) .stepped
  | assigned {w : W} {j : J} {v : R j} (here : s.pool.threads_ w = .running (.inl j))
      (point : s.bodies w j = .setting v .assign) :
      Moved residue s ((s.setShared j { s.shared j with value := some v }).setBody w j
        (.setting v .unlock)) .stepped
  | left {w : W} {j : J} {v : R j} {next : Setter} {shared : Shared W Q (R j)}
      {readers : Q → Reader J} (here : s.pool.threads_ w = .running (.inl j))
      (late : next ≠ .lock ∧ next ≠ .assign) (same : shared.value = (s.shared j).value) :
      Moved residue s ({ s.setShared j shared with readers := readers }.setBody w j
        (.setting v next)) .stepped
  | asked {q : Q} {next : Reader J} {e : Event W P J O R}
      (silent : e = .stepped ∨ ∃ j ready, e = .answered j ready) :
      Moved residue s (s.moveReader q next) e
  | read {q : Q} {j : J} {next : Reader J} {shared : Shared W Q (R j)}
      (same : shared.value = (s.shared j).value) :
      Moved residue s ((s.setShared j shared).moveReader q next) .stepped
  | got {q : Q} {j : J} {v : R j} {next : Reader J} (full : (s.shared j).value = some v) :
      Moved residue s ((s.setShared j { s.shared j with value := some (residue j v) }).moveReader q
        next) (.noted j (.got v))

section Inversion
variable {residue : (j : J) → R j → R j} {s s' : Submit W P Q J O R}
  {e : Event W P J O R}

omit [DecidableEq W] [DecidableEq P] [DecidableEq Q] [Fintype W] in
theorem setShared_self (s : Submit W P Q J O R) (j : J) : s.setShared j (s.shared j) = s := by
  simp [setShared]

theorem body_moved {w : W} {j : J} (here : s.pool.threads_ w = .running (.inl j))
    (run : s.body w j = some (s', e)) : Moved residue s s' e := by
  unfold body at run
  split at run
  · rename_i point
    cases run
    exact .entered here point
  · simp at run
  · rename_i argument point
    split at run
    · cases run
      exact .locked here point rfl
    · simp at run
  · rename_i argument point
    split at run
    · cases run
      exact .assigned here point
    · simp at run
  · cases run
    exact .left here (by simp) rfl
  · rename_i argument point
    cases run
    have moved : Moved residue s ({ s.setShared j (s.shared j) with
        readers := fun q => (s.readers q).wake j }.setBody w j (.setting argument .write)) .stepped :=
      .left here (by simp) rfl
    rwa [setShared_self] at moved
  · cases run
    exact .left here (by simp) rfl
  · obtain ⟨⟨pool,event⟩,taken,eq⟩ := Option.map_eq_some_iff.mp run
    cases eq
    exact .completed taken

theorem read_moved {q : Q} (run : s.read residue q = some (s', e)) : Moved residue s s' e := by
  unfold read at run
  split at run
  · simp at run
  · split at run
    · cases run
      exact .read rfl
    · simp at run
  · cases run
    exact .asked (.inr ⟨_,_,rfl⟩)
  · split at run
    · rename_i full
      cases run
      exact .got full
    · cases run
      exact .read rfl
  · cases run
    exact .asked (.inl rfl)
  · cases run
    exact .read rfl

theorem step_moved {a : Action W P Q J O R} (run : step residue s a = some (s', e)) :
    Moved residue s s' e := by
  cases a with
  | submit p j =>
    simp only [step] at run
    split at run
    · simp at run
    · rename_i fresh
      obtain ⟨⟨pool,event⟩,taken,eq⟩ := Option.map_eq_some_iff.mp run
      cases eq
      exact .submitted (by simpa using fresh) taken
  | pool a =>
    simp only [step] at run
    split at run
    · rename_i other
      obtain ⟨⟨pool,event⟩,taken,eq⟩ := Option.map_eq_some_iff.mp run
      cases eq
      exact .passed other taken
    · simp at run
  | work w =>
    simp only [step] at run
    split at run
    · rename_i here
      exact body_moved here run
    · simp at run
  | returns w j v =>
    simp only [step] at run
    split at run
    · rename_i here point
      split at run
      · rename_i same
        subst same
        cases run
        exact .returned here point
      · simp at run
    · simp at run
  | ask q j question =>
    simp only [step] at run
    split at run
    · split at run
      · cases run
        exact .asked (.inl rfl)
      · simp at run
    · simp at run
  | read q => exact read_moved run

theorem submitted_stays {a : Action W P Q J O R} (taken : step residue s a = some (s', e)) {j : J}
    (submitted : s.submitted j = true) : s'.submitted j = true := by
  cases step_moved taken with
  | @submitted p i pool event fresh moves =>
    by_cases same : j = i
    · simp [same]
    · simpa [same] using submitted
  | _ => exact submitted

end Inversion
end Step
end Submit
end Aiopp
