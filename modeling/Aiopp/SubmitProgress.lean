import Aiopp.SubmitWakeup
import Aiopp.ThreadPoolProgress
import Mathlib.Algebra.BigOperators.Group.Finset.Piecewise

/-!
Submitted functions at work. Left to themselves the workers, the lambdas they run and the
threads inside `ready` or `get` come to rest, in whatever order they step: whoever holds the
mutex of a result goes on to release it, and nobody else keeps a lambda from its end. At rest
every submitted function has been called, its future is ready and every `get` has returned.
-/
namespace Aiopp
namespace Submit
open Transition Future ThreadPool
variable {W P Q J O : Type} {R : J → Type}

def Body.inside {T : Type} : Body T → Bool
  | .setting _ .assign => true
  | .setting _ .unlock => true
  | _ => false

def Reader.inside (j : J) : Reader J → Prop
  | .check i _ => i = j
  | .unlock i => i = j
  | _ => False

structure Owned (s : Submit W P Q J O R) : Prop where
  workers : ∀ j w, (s.shared j).mutex = some (.inl w) →
    s.pool.threads_ w = .running (.inl j) ∧ (s.bodies w j).inside
  readers : ∀ j q, (s.shared j).mutex = some (.inr q) → (s.readers q).inside j

def Body.rest {T : Type} : Body T → Nat
  | .enter => 7
  | .calling => 6
  | .setting _ .lock => 5
  | .setting _ .assign => 4
  | .setting _ .unlock => 3
  | .setting _ .notify => 2
  | .setting _ .write => 1
  | .setting _ .returned => 0

/-- Steps to the end of the call; before the value is there, a `get` may come to lie asleep
   and has a wake-up before it. -/
def Reader.rest (given : J → Bool) : Reader J → Nat
  | .idle => 0
  | .unlock _ => 1
  | .check _ .ready => 2
  | .lock _ .ready => 3
  | .sleeping _ => 4
  | .check j .get => if given j then 2 else 6
  | .lock j .get => if given j then 3 else 7

def readerRest (s : Submit W P Q J O R) (q : Q) : Nat :=
  (s.readers q).rest fun j => (s.shared j).value.isSome

def lambdaRest (s : Submit W P Q J O R) (w : W) : Nat :=
  match s.pool.threads_ w with
  | .running (.inl j) => (s.bodies w j).rest
  | _ => 0

def effort [Fintype W] [Fintype P] [Fintype Q] (s : Submit W P Q J O R) : Nat :=
  8 * s.pool.effort + ∑ w, lambdaRest s w + ∑ q, readerRest s q

/-- What goes on without new calls: the pool, the lambdas, the functions they call, and
readers that are not asleep. -/
def Inner (s : Submit W P Q J O R) : Action W P Q J O R → Prop
  | .pool a => ThreadPool.Inner a
  | .work _ => True
  | .returns .. => True
  | .read q => ∀ j, s.readers q ≠ .sleeping j
  | _ => False

section Owned
variable [DecidableEq W] [DecidableEq P] [DecidableEq Q] [DecidableEq J] [Fintype W]
  {residue : (j : J) → R j → R j} {s s' : Submit W P Q J O R}
  {e : Event W P J O R}

omit [DecidableEq P] [DecidableEq Q] [Fintype W] in
theorem owned_work (owned : Owned s) {w : W} {i : J} {body : Body (R i)}
    (here : s.pool.threads_ w = .running (.inl i)) (pool : s'.pool = s.pool)
    (bodies : s'.bodies = (s.setBody w i body).bodies)
    (readers : ∀ q j, (s.readers q).inside j → (s'.readers q).inside j)
    (others : ∀ j, j ≠ i → s'.shared j = s.shared j)
    (own : ((s'.shared i).mutex = (s.shared i).mutex ∧ ((s.bodies w i).inside → body.inside)) ∨
      ((s'.shared i).mutex = some (.inl w) ∧ body.inside) ∨ (s'.shared i).mutex = none) :
    Owned s' := by
  have same : (s'.bodies w i) = body := by rw [bodies, setBody_same]
  constructor
  · intro j w' owner
    rw [pool]
    by_cases mine : w' = w ∧ j = i
    · obtain ⟨rfl,rfl⟩ := mine
      refine ⟨here,?_⟩
      rw [same]
      rcases own with ⟨kept,stays⟩ | ⟨_,inside⟩ | free
      · exact stays (owned.workers j w' (kept ▸ owner)).2
      · exact inside
      · simp [free] at owner
    · have before : (s.shared j).mutex = some (.inl w') := by
        by_cases this : j = i
        · subst this
          rcases own with ⟨kept,_⟩ | ⟨taken,_⟩ | free
          · exact kept ▸ owner
          · rw [taken] at owner
            cases owner
            exact absurd ⟨rfl,rfl⟩ mine
          · simp [free] at owner
        · rwa [others j this] at owner
      rw [bodies, bodies_elsewhere mine]
      exact owned.workers j w' before
  · intro j q owner
    apply readers q j
    apply owned.readers j q
    by_cases this : j = i
    · subst this
      rcases own with ⟨kept,_⟩ | ⟨taken,_⟩ | free
      · exact kept ▸ owner
      · simp [taken] at owner
      · simp [free] at owner
    · rwa [others j this] at owner

omit [DecidableEq W] [DecidableEq P] [DecidableEq J] [Fintype W] in
theorem owned_read (owned : Owned s) {q : Q} {i : J} {next : Reader J} (pool : s'.pool = s.pool)
    (bodies : s'.bodies = s.bodies) (readers : s'.readers = Function.update s.readers q next)
    (only : ∀ j, (s.readers q).inside j → j = i) (others : ∀ j, j ≠ i → s'.shared j = s.shared j)
    (own : ((s'.shared i).mutex = (s.shared i).mutex ∧
        ((s.readers q).inside i → next.inside i)) ∨
      ((s'.shared i).mutex = some (.inr q) ∧ next.inside i) ∨ (s'.shared i).mutex = none) :
    Owned s' := by
  constructor
  · intro j w owner
    rw [pool, bodies]
    apply owned.workers j w
    by_cases this : j = i
    · subst this
      rcases own with ⟨kept,_⟩ | ⟨taken,_⟩ | free
      · exact kept ▸ owner
      · simp [taken] at owner
      · simp [free] at owner
    · rwa [others j this] at owner
  · intro j q' owner
    rw [readers]
    by_cases this : j = i
    · subst this
      rcases own with ⟨kept,stays⟩ | ⟨taken,inside⟩ | free
      · have before := owned.readers j q' (kept ▸ owner)
        by_cases mine : q' = q
        · subst mine
          simpa using stays before
        · simpa [mine] using before
      · rw [taken] at owner
        cases owner
        simpa using inside
      · simp [free] at owner
    · rw [others j this] at owner
      have before := owned.readers j q' owner
      by_cases mine : q' = q
      · subst mine
        exact absurd (only j before) this
      · simpa [mine] using before

omit [DecidableEq Q] in
theorem owned_pool (owned : Owned s) {a : ThreadPool.Action W P (J ⊕ O)}
    {event : ThreadPool.Event W P (J ⊕ O)} (taken : s.pool.step a = some (s'.pool, event))
    (bodies : s'.bodies = invoke s.bodies event) (shared : s'.shared = s.shared)
    (readers : s'.readers = s.readers)
    (outside : ∀ w j, a = .complete w → s.pool.threads_ w = .running (.inl j) →
      (s.bodies w j).inside = false) : Owned s' := by
  constructor
  · intro j w owner
    rw [shared] at owner
    obtain ⟨here,inside⟩ := owned.workers j w owner
    rcases running_stays taken here with ⟨still,other⟩ | completes
    · rw [bodies, invoke_other other]
      exact ⟨still,inside⟩
    · simp [outside w j completes here] at inside
  · intro j q owner
    rw [shared] at owner
    rw [readers]
    exact owned.readers j q owner

omit [DecidableEq Q] in
theorem body_owned (owned : Owned s) {w : W} {j : J}
    (here : s.pool.threads_ w = .running (.inl j)) (taken : s.body w j = some (s', e)) :
    Owned s' := by
  unfold body at taken
  split at taken
  · rename_i point
    cases taken
    exact owned_work owned here rfl rfl (fun _ _ kept => kept) (fun _ _ => rfl)
      (.inl ⟨rfl,by simp [point, Body.inside]⟩)
  · simp at taken
  · split at taken
    · cases taken
      refine owned_work owned here rfl rfl (fun _ _ kept => kept) ?_ (.inr (.inl ⟨?_,rfl⟩))
      · intro i other
        simp [setBody, setShared, other]
      · simp [setBody, setShared]
    · simp at taken
  · split at taken
    · cases taken
      refine owned_work owned here rfl rfl (fun _ _ kept => kept) ?_ (.inl ⟨?_,fun _ => rfl⟩)
      · intro i other
        simp [setBody, setShared, other]
      · simp [setBody, setShared]
    · simp at taken
  · cases taken
    refine owned_work owned here rfl rfl (fun _ _ kept => kept) ?_ (.inr (.inr ?_))
    · intro i other
      simp [setBody, setShared, other]
    · simp [setBody, setShared]
  · rename_i point
    cases taken
    refine owned_work owned here rfl rfl ?_ (fun _ _ => rfl)
      (.inl ⟨rfl,by simp [point, Body.inside]⟩)
    intro q i inside
    cases state : s.readers q with
    | sleeping k => simp [state, Reader.inside] at inside
    | _ => simpa [setBody, state, Reader.wake] using inside
  · rename_i point
    cases taken
    refine owned_work owned here rfl rfl (fun _ _ kept => kept) ?_ (.inl ⟨?_,by simp [point, Body.inside]⟩)
    · intro i other
      simp [setBody, setShared, other]
    · simp [setBody, setShared]
  · rename_i point
    obtain ⟨⟨pool,event⟩,moves,eq⟩ := Option.map_eq_some_iff.mp taken
    cases eq
    have same : event = .completed w (.inl j) := by
      simp only [ThreadPool.step, here] at moves
      cases moves
      rfl
    subst same
    refine owned_pool owned moves rfl rfl rfl ?_
    intro w' i completes there
    cases completes
    rw [here] at there
    cases there
    rw [point]
    rfl

omit [DecidableEq W] [DecidableEq P] [Fintype W] in
theorem read_owned (owned : Owned s) {q : Q} (taken : s.read residue q = some (s', e)) :
    Owned s' := by
  unfold read at taken
  split at taken
  · simp at taken
  · rename_i i question point
    split at taken
    · cases taken
      refine owned_read owned (i := i) rfl rfl rfl (by simp [point, Reader.inside]) ?_
        (.inr (.inl ⟨?_,rfl⟩))
      · intro j other
        simp [moveReader, setShared, other]
      · simp [moveReader, setShared]
    · simp at taken
  · rename_i i point
    cases taken
    exact owned_read owned (i := i) rfl rfl rfl (by simp [point, Reader.inside]) (fun _ _ => rfl)
      (.inl ⟨rfl,fun _ => rfl⟩)
  · rename_i i point
    split at taken
    · cases taken
      refine owned_read owned (i := i) rfl rfl rfl (by simp [point, Reader.inside]) ?_
        (.inl ⟨?_,fun _ => rfl⟩)
      · intro j other
        simp [moveReader, setShared, other]
      · simp [moveReader, setShared]
    · cases taken
      refine owned_read owned (i := i) rfl rfl rfl (by simp [point, Reader.inside]) ?_
        (.inr (.inr ?_))
      · intro j other
        simp [moveReader, setShared, other]
      · simp [moveReader, setShared]
  · rename_i i point
    cases taken
    exact owned_read owned (i := i) rfl rfl rfl (by simp [point, Reader.inside]) (fun _ _ => rfl)
      (.inl ⟨rfl,by simp [point, Reader.inside]⟩)
  · rename_i i point
    cases taken
    refine owned_read owned (i := i) rfl rfl rfl (by simp [point, Reader.inside]) ?_
      (.inr (.inr ?_))
    · intro j other
      simp [moveReader, setShared, other]
    · simp [moveReader, setShared]

theorem step_owned (owned : Owned s) {a : Action W P Q J O R}
    (taken : step residue s a = some (s', e)) : Owned s' := by
  cases a with
  | submit p j =>
    simp only [step] at taken
    split at taken
    · simp at taken
    · obtain ⟨⟨pool,event⟩,moves,eq⟩ := Option.map_eq_some_iff.mp taken
      cases eq
      have same : event = .called p (.inl j) := by
        simp only [ThreadPool.step] at moves
        split at moves
        · cases moves
          rfl
        · simp at moves
      subst same
      exact owned_pool owned moves rfl rfl rfl (by simp)
  | pool a =>
    simp only [step] at taken
    split at taken
    · rename_i passed
      obtain ⟨⟨pool,event⟩,moves,eq⟩ := Option.map_eq_some_iff.mp taken
      cases eq
      refine owned_pool owned moves rfl rfl rfl ?_
      rintro w j rfl here
      simp [passes, here] at passed
    · simp at taken
  | work w =>
    simp only [step] at taken
    split at taken
    · rename_i here
      exact body_owned owned here taken
    · simp at taken
  | returns w j v =>
    simp only [step] at taken
    split at taken
    · rename_i here point
      split at taken
      · rename_i same
        subst same
        cases taken
        exact owned_work owned here rfl rfl (fun _ _ kept => kept) (fun _ _ => rfl)
          (.inl ⟨rfl,by simp [point, Body.inside]⟩)
      · simp at taken
    · simp at taken
  | ask q j question =>
    simp only [step] at taken
    split at taken
    · rename_i idle
      split at taken
      · cases taken
        exact owned_read owned (i := j) rfl rfl rfl (by simp [idle, Reader.inside])
          (fun _ _ => rfl) (.inl ⟨rfl,by simp [idle, Reader.inside]⟩)
      · simp at taken
    · simp at taken
  | read q => exact read_owned owned taken

theorem run_owned {log : List (Event W P J O R)} (run : Run (step residue) AnyOrder {} s log) :
    Owned s := by
  refine run.invariant (fun s _ => Owned s) ⟨by simp,by simp⟩ ?_
  intro s older a s' e owned _ taken
  exact step_owned owned taken

end Owned

section Effort
variable [DecidableEq W] [DecidableEq P] [DecidableEq Q] [DecidableEq J] [Fintype W] [Fintype P]
  [Fintype Q] {residue : (j : J) → R j → R j} {s s' : Submit W P Q J O R}
  {e : Event W P J O R}

def started (w : W) : ThreadPool.Event W P (J ⊕ O) → Nat
  | .invoked w' _ => if w = w' then 7 else 0
  | _ => 0

omit [DecidableEq P] [DecidableEq J] [Fintype P] in
theorem started_once (event : ThreadPool.Event W P (J ⊕ O)) : ∑ w, started w event ≤ 7 := by
  cases event <;> simp [started]

omit [DecidableEq W] [DecidableEq P] [DecidableEq Q] [DecidableEq J] [Fintype W] [Fintype P]
  [Fintype Q] in
theorem rest_bound {T : Type} (body : Body T) : body.rest ≤ 7 := by
  cases body with
  | enter | calling => simp [Body.rest]
  | setting argument next => cases next <;> simp [Body.rest]

omit [DecidableEq W] [DecidableEq P] [DecidableEq Q] [DecidableEq J] [Fintype W] [Fintype P]
  [Fintype Q] in
theorem rest_given {given given' : J → Bool} (kept : ∀ j, given j = true → given' j = true)
    (reader : Reader J) : reader.rest given' ≤ reader.rest given := by
  have later (j : J) : (if given' j then 2 else 6) ≤ (if given j then 2 else 6) ∧
      (if given' j then 3 else 7) ≤ (if given j then 3 else 7) := by
    cases before : given j with
    | true => simp [kept j before]
    | false => cases given' j <;> simp
  cases reader with
  | lock j question | check j question =>
    cases question with
    | ready => rfl
    | get => simp only [Reader.rest, later]
  | _ => rfl

omit [DecidableEq W] [DecidableEq P] [DecidableEq Q] [Fintype W] [Fintype P] [Fintype Q] in
theorem rest_wake {given : J → Bool} {j : J} (there : given j = true) (reader : Reader J) :
    (reader.wake j).rest given ≤ reader.rest given := by
  cases reader with
  | sleeping i =>
    simp only [Reader.wake]
    split
    · simp [Reader.rest, there]
    · rfl
  | _ => rfl

omit [DecidableEq Q] [Fintype P] [Fintype Q] in
theorem pool_lambdas {a : ThreadPool.Action W P (J ⊕ O)}
    {event : ThreadPool.Event W P (J ⊕ O)} (taken : s.pool.step a = some (s'.pool, event))
    (bodies : s'.bodies = invoke s.bodies event) (w : W) :
    lambdaRest s' w ≤ lambdaRest s w + started w event := by
  unfold lambdaRest
  split
  · rename_i j here
    rcases moved_running (ThreadPool.step_moved taken) here with before | rfl
    · rw [before, bodies]
      by_cases now : event = .invoked w (.inl j)
      · subst now
        exact le_trans (rest_bound _) (by simp [started])
      · rw [invoke_other now]
        exact Nat.le_add_right _ _
    · exact le_trans (rest_bound _) (by simp [started])
  · exact Nat.zero_le _

omit [DecidableEq Q] in
theorem pool_effort {a : ThreadPool.Action W P (J ⊕ O)}
    {event : ThreadPool.Event W P (J ⊕ O)} (taken : s.pool.step a = some (s'.pool, event))
    (bodies : s'.bodies = invoke s.bodies event) (shared : s'.shared = s.shared)
    (readers : s'.readers = s.readers) (less : s'.pool.effort < s.pool.effort) :
    effort s' < effort s := by
  have lambdas : ∑ w, lambdaRest s' w ≤ ∑ w, (lambdaRest s w + started w event) :=
    Finset.sum_le_sum fun w _ => pool_lambdas taken bodies w
  have once := started_once event
  rw [Finset.sum_add_distrib] at lambdas
  simp only [effort, readerRest, readers, shared]
  omega

omit [DecidableEq P] [DecidableEq Q] in
theorem work_effort {w : W} {i : J} {body : Body (R i)}
    (here : s.pool.threads_ w = .running (.inl i)) (pool : s'.pool = s.pool)
    (bodies : s'.bodies = (s.setBody w i body).bodies)
    (readers : ∀ q, readerRest s' q ≤ readerRest s q)
    (less : body.rest < (s.bodies w i).rest) : effort s' < effort s := by
  have others (w' : W) (other : w' ≠ w) : lambdaRest s' w' = lambdaRest s w' := by
    simp only [lambdaRest, pool, bodies, setBody, Function.update_of_ne other]
  have mine : lambdaRest s' w < lambdaRest s w := by
    simpa only [lambdaRest, pool, bodies, here, setBody_same] using less
  have total : ∑ w', lambdaRest s' w' < ∑ w', lambdaRest s w' := by
    refine Finset.sum_lt_sum (fun w' _ => ?_) ⟨w,Finset.mem_univ w,mine⟩
    by_cases this : w' = w
    · exact this ▸ mine.le
    · exact (others w' this).le
  have waiting : ∑ q, readerRest s' q ≤ ∑ q, readerRest s q :=
    Finset.sum_le_sum fun q _ => readers q
  simp only [effort, pool]
  omega

omit [DecidableEq W] [DecidableEq P] [DecidableEq Q] [DecidableEq J] [Fintype W] [Fintype P]
  [Fintype Q] in
theorem readers_rest (readers : s'.readers = s.readers)
    (kept : ∀ j, (s.shared j).value.isSome → (s'.shared j).value.isSome) (q : Q) :
    readerRest s' q ≤ readerRest s q := by
  simp only [readerRest, readers]
  exact rest_given kept _

omit [DecidableEq W] [DecidableEq P] [DecidableEq J] in
theorem read_effort {q : Q} {next : Reader J} (pool : s'.pool = s.pool)
    (bodies : s'.bodies = s.bodies) (readers : s'.readers = Function.update s.readers q next)
    (kept : ∀ j, (s.shared j).value.isSome → (s'.shared j).value.isSome)
    (less : (next.rest fun j => (s.shared j).value.isSome) < readerRest s q) :
    effort s' < effort s := by
  have mine : readerRest s' q < readerRest s q := by
    simp only [readerRest, readers, Function.update_self]
    exact lt_of_le_of_lt (rest_given kept next) less
  have total : ∑ q', readerRest s' q' < ∑ q', readerRest s q' := by
    refine Finset.sum_lt_sum (fun q' _ => ?_) ⟨q,Finset.mem_univ q,mine⟩
    by_cases this : q' = q
    · exact this ▸ mine.le
    · simp only [readerRest, readers, Function.update_of_ne this]
      exact rest_given kept _
  simp only [effort, lambdaRest, pool, bodies]
  omega

omit [DecidableEq W] [DecidableEq P] [DecidableEq Q] [Fintype W] [Fintype P] [Fintype Q] in
theorem setShared_kept {i : J} {shared : Shared W Q (R i)}
    (more : (s.shared i).value.isSome → shared.value.isSome) (j : J)
    (full : (s.shared j).value.isSome) : ((s.setShared i shared).shared j).value.isSome := by
  by_cases this : j = i
  · subst this
    simpa [setShared] using more full
  · simpa [setShared, this] using full

omit [DecidableEq Q] in
theorem body_effort {w : W} {j : J} (here : s.pool.threads_ w = .running (.inl j))
    (late : (s.bodies w j).late → (s.shared j).value.isSome)
    (taken : s.body w j = some (s', e))
    (pool : ∀ event, s.pool.step (.complete w) = some (s'.pool, event) →
      s'.pool.effort < s.pool.effort) : effort s' < effort s := by
  unfold body at taken
  split at taken
  · rename_i point
    cases taken
    exact work_effort here rfl rfl (readers_rest rfl fun _ full => full)
      (by simp [point, Body.rest])
  · simp at taken
  · rename_i point
    split at taken
    · cases taken
      exact work_effort here rfl rfl (readers_rest rfl (setShared_kept id))
        (by simp [point, Body.rest])
    · simp at taken
  · rename_i point
    split at taken
    · cases taken
      exact work_effort here rfl rfl (readers_rest rfl (setShared_kept fun _ => rfl))
        (by simp [point, Body.rest])
    · simp at taken
  · rename_i point
    cases taken
    exact work_effort here rfl rfl (readers_rest rfl (setShared_kept id))
      (by simp [point, Body.rest])
  · rename_i point
    cases taken
    refine work_effort here rfl rfl ?_ (by simp [point, Body.rest])
    intro q
    exact rest_wake (j := j) (late (by rw [point]; rfl)) (s.readers q)
  · rename_i point
    cases taken
    exact work_effort here rfl rfl (readers_rest rfl (setShared_kept id))
      (by simp [point, Body.rest])
  · obtain ⟨⟨next,event⟩,moves,eq⟩ := Option.map_eq_some_iff.mp taken
    cases eq
    have same : event = .completed w (.inl j) := by
      simp only [ThreadPool.step, here] at moves
      cases moves
      rfl
    subst same
    exact pool_effort moves rfl rfl rfl (pool _ moves)

omit [DecidableEq W] [DecidableEq P] in
theorem reader_effort {q : Q} (awake : ∀ j, s.readers q ≠ .sleeping j)
    (taken : s.read residue q = some (s', e)) : effort s' < effort s := by
  unfold read at taken
  split at taken
  · simp at taken
  · rename_i i question point
    split at taken
    · cases taken
      refine read_effort rfl rfl rfl (setShared_kept id) ?_
      cases question with
      | ready => simp [readerRest, point, Reader.rest]
      | get =>
        simp only [readerRest, point, Reader.rest]
        split <;> omega
    · simp at taken
  · rename_i point
    cases taken
    exact read_effort rfl rfl rfl (fun _ full => full) (by simp [readerRest, point, Reader.rest])
  · rename_i point
    split at taken
    · rename_i full
      cases taken
      exact read_effort rfl rfl rfl (setShared_kept fun _ => rfl)
        (by simp [readerRest, point, full, Reader.rest])
    · rename_i empty
      cases taken
      exact read_effort rfl rfl rfl (setShared_kept id)
        (by simp [readerRest, point, empty, Reader.rest])
  · rename_i point
    exact absurd point (awake _)
  · rename_i point
    cases taken
    exact read_effort rfl rfl rfl (setShared_kept id) (by simp [readerRest, point, Reader.rest])

end Effort

structure Rests (s : Submit W P Q J O R) : Prop where
  pool : AtRest s.pool
  readers : ∀ q, s.readers q = .idle

section Progress
variable [DecidableEq W] [DecidableEq P] [DecidableEq Q] [DecidableEq J] [Fintype W]
  {residue : (j : J) → R j → R j} {s s' : Submit W P Q J O R}
  {log : List (Event W P J O R)}

def Proceeds (residue : (j : J) → R j → R j) (s : Submit W P Q J O R) : Prop :=
  ∃ a s' e, Inner s a ∧ step residue s a = some (s', e)

theorem work_proceeds {w : W} {j : J} (here : s.pool.threads_ w = .running (.inl j))
    (defined : (s.body w j).isSome) : Proceeds residue s := by
  obtain ⟨⟨s',e⟩,taken⟩ := Option.isSome_iff_exists.mp defined
  exact ⟨.work w,s',e,trivial,by simpa [step, here] using taken⟩

theorem read_proceeds {q : Q} (awake : ∀ j, s.readers q ≠ .sleeping j)
    (defined : (s.read residue q).isSome) : Proceeds residue s := by
  obtain ⟨⟨s',e⟩,taken⟩ := Option.isSome_iff_exists.mp defined
  exact ⟨.read q,s',e,awake,taken⟩

/-- A lambda waits for nothing but the mutex of its result, and for its function to return. -/
theorem lambda_proceeds (result : (j : J) → R j) (kept : ∀ j, Kept s log j) {w : W}
    {j : J} (here : s.pool.threads_ w = .running (.inl j))
    (free : (s.shared j).mutex = none ∨ (s.bodies w j).inside) : Proceeds residue s := by
  have stage := (kept j).stage w here
  cases point : s.bodies w j with
  | enter => exact work_proceeds here (by simp [body, point])
  | calling =>
    refine ⟨.returns w j (result j),s.setBody w j (.setting (result j) .lock),
      .noted j (.returned (result j)),trivial,?_⟩
    simp [step, here, point]
  | setting argument next =>
    cases next with
    | lock =>
      have unlocked : (s.shared j).mutex = none := by
        simpa [point, Body.inside] using free
      exact work_proceeds here (by simp [body, point, unlocked])
    | assign =>
      have vacant : (s.shared j).value = none := by
        rw [point] at stage
        exact stage.2
      exact work_proceeds here (by simp [body, point, vacant])
    | unlock | notify | write => exact work_proceeds here (by simp [body, point])
    | returned => exact work_proceeds here (by simp [body, point, ThreadPool.step, here])

/-- Whoever holds a mutex goes on. -/
theorem owner_proceeds (result : (j : J) → R j) (kept : ∀ j, Kept s log j)
    (owned : Owned s) {j : J} (taken : (s.shared j).mutex ≠ none) : Proceeds residue s := by
  obtain ⟨owner,held⟩ := Option.ne_none_iff_exists'.mp taken
  cases owner with
  | inl w =>
    obtain ⟨here,inside⟩ := owned.workers j w held
    exact lambda_proceeds result kept here (.inr inside)
  | inr q =>
    have inside := owned.readers j q held
    cases point : s.readers q with
    | check i question =>
      refine read_proceeds (q := q) (by simp [point]) ?_
      cases question with
      | ready => simp [read, point]
      | get =>
        simp only [read, point]
        cases (s.shared i).value <;> rfl
    | unlock i => exact read_proceeds (q := q) (by simp [point]) (by simp [read, point])
    | idle | lock | sleeping => simp [point, Reader.inside] at inside

theorem reader_proceeds (free : ∀ j, (s.shared j).mutex = none) {q : Q}
    (busy : ¬ (s.readers q = .idle ∨ ∃ j, s.readers q = .sleeping j)) : Proceeds residue s := by
  cases point : s.readers q with
  | idle => simp [point] at busy
  | sleeping j => simp [point] at busy
  | lock i question =>
    exact read_proceeds (q := q) (by simp [point]) (by simp [read, point, free i])
  | check i question =>
    refine read_proceeds (q := q) (by simp [point]) ?_
    cases question with
    | ready => simp [read, point]
    | get =>
      simp only [read, point]
      cases (s.shared i).value <;> rfl
  | unlock i => exact read_proceeds (q := q) (by simp [point]) (by simp [read, point])

theorem pool_proceeds (result : (j : J) → R j) (kept : ∀ j, Kept s log j)
    (free : ∀ j, (s.shared j).mutex = none) (getsOn : GetsOn s.pool) : Proceeds residue s := by
  obtain ⟨a,pool,event,inner,taken⟩ := getsOn
  by_cases passed : passes s.pool a
  · exact ⟨.pool a,{ s with pool := pool, bodies := invoke s.bodies event },.pool event,inner,
      by simp [step, passed, taken]⟩
  · cases a with
    | complete w =>
      cases here : s.pool.threads_ w with
      | running task =>
        cases task with
        | inl j => exact lambda_proceeds result kept here (.inl (free j))
        | inr o => simp [passes, here] at passed
      | _ => simp [passes, here] at passed
    | call => exact absurd inner not_false
    | _ => simp [passes] at passed

theorem rest_completed {j : J} (run : Run (step residue) AnyOrder {} s log) (rest : AtRest s.pool)
    (submitted : s.submitted j = true) : ∃ w, (w, .inl j) ∈ completedTasks (poolLog log) := by
  have taken : Taken j log := by
    rcases submitted_somewhere run submitted with taken | queued | ⟨p,held⟩
    · exact taken
    · simp [rest.tasks] at queued
    · simp [rest.pushers p, Pusher.hand] at held
  obtain ⟨w,member⟩ := taken
  have pool := run_pool run
  have mine : (w, .inl j) ∈ (takenTasks (poolLog log)).filter (fun entry => entry.1 = w) :=
    List.mem_filter.mpr ⟨member,by simp⟩
  have done : (w, .inl j) ∈ (completedTasks (poolLog log)).filter (fun entry => entry.1 = w) := by
    rw [(run_accounts pool).hands w, run_inside pool w, rest.workers w] at mine
    simpa [Worker.hand, Worker.inside] using mine
  exact ⟨w,(List.mem_filter.mp done).1⟩

theorem rest_ready {j : J} (run : Run (step residue) AnyOrder {} s log) (rest : AtRest s.pool)
    (submitted : s.submitted j = true) : (s.shared j).value.isSome ∧ Fulfilled s log j := by
  obtain ⟨w,completed⟩ := rest_completed run rest submitted
  have ready := run_completed run completed
  exact ⟨ready,(run_kept run j).ready ready⟩

/-- Nobody is left asleep: the value is there, and no worker has its `notify_all` before it. -/
theorem rest_awake (run : Run (step residue) AnyOrder {} s log) (rest : AtRest s.pool) {q : Q}
    (quiet : s.readers q = .idle ∨ ∃ j, s.readers q = .sleeping j) : s.readers q = .idle := by
  rcases quiet with idle | ⟨j,asleep⟩
  · exact idle
  · have watched := run_watched run
    have submitted := watched.asked q j (by rw [asleep]; rfl)
    obtain ⟨w,here,_⟩ := watched.noticed q j asleep (rest_ready run rest submitted).1
    simp [rest.workers w] at here

theorem rests_or_proceeds [Nonempty W] (result : (j : J) → R j)
    (run : Run (step residue) AnyOrder {} s log) (before : s.pool.destructor = .idle) :
    Rests s ∨ Proceeds residue s := by
  have kept : ∀ j, Kept s log j := run_kept run
  by_cases free : ∀ j, (s.shared j).mutex = none
  · by_cases quiet : ∀ q, s.readers q = .idle ∨ ∃ j, s.readers q = .sleeping j
    · rcases run_rests (run_pool run) before with rest | getsOn
      · exact .inl ⟨rest,fun q => rest_awake run rest (quiet q)⟩
      · exact .inr (pool_proceeds result kept free getsOn)
    · obtain ⟨q,busy⟩ := not_forall.mp quiet
      exact .inr (reader_proceeds free busy)
  · obtain ⟨j,taken⟩ := not_forall.mp free
    exact .inr (owner_proceeds result kept (run_owned run) taken)

theorem rests_stays (rest : Rests s) : ¬ Proceeds residue s := by
  rintro ⟨a,s',e,inner,taken⟩
  cases a with
  | pool a =>
    simp only [step] at taken
    split at taken
    · obtain ⟨⟨pool,event⟩,moves,_⟩ := Option.map_eq_some_iff.mp taken
      exact rest_stays rest.pool ⟨a,pool,event,inner,moves⟩
    · simp at taken
  | work w => simp [step, rest.pool.workers w] at taken
  | returns w j v => simp [step, rest.pool.workers w] at taken
  | read q => simp [step, read, rest.readers q] at taken
  | submit | ask => exact inner

end Progress

section Runs
variable [DecidableEq W] [DecidableEq P] [DecidableEq Q] [DecidableEq J] [Fintype W]
  {residue : (j : J) → R j → R j} {s s' final : Submit W P Q J O R}
  {e : Event W P J O R} {log more : List (Event W P J O R)}

theorem inner_before {a : Action W P Q J O R} (before : s.pool.destructor = .idle)
    (inner : Inner s a) (taken : step residue s a = some (s', e)) :
    s'.pool.destructor = .idle := by
  have still {b : ThreadPool.Action W P (J ⊕ O)} {pool : ThreadPool W P (J ⊕ O)}
      {event : ThreadPool.Event W P (J ⊕ O)} (inside : ThreadPool.Inner b)
      (moves : s.pool.step b = some (pool, event)) : pool.destructor = .idle :=
    moved_before before (ThreadPool.step_moved moves)
      (undisturbed_unstored (inner_undisturbed inside) moves)
  cases a with
  | pool b =>
    simp only [step] at taken
    split at taken
    · obtain ⟨⟨pool,event⟩,moves,eq⟩ := Option.map_eq_some_iff.mp taken
      cases eq
      exact still inner moves
    · simp at taken
  | work w =>
    simp only [step] at taken
    split at taken
    · unfold body at taken
      grind [Option.map_eq_some_iff, setBody, setShared, ThreadPool.Inner]
    · simp at taken
  | returns w j v =>
    simp only [step] at taken
    grind [setBody]
  | read q =>
    simp only [step, read] at taken
    grind [moveReader, setShared]
  | submit | ask => exact absurd inner not_false

theorem inner_effort [Nonempty W] [Fintype P] [Fintype Q] {a : Action W P Q J O R}
    (run : Run (step residue) AnyOrder {} s log) (before : s.pool.destructor = .idle)
    (inner : Inner s a) (taken : step residue s a = some (s', e)) : effort s' < effort s := by
  have lowers {b : ThreadPool.Action W P (J ⊕ O)} {pool : ThreadPool W P (J ⊕ O)}
      {event : ThreadPool.Event W P (J ⊕ O)} (inside : ThreadPool.Inner b)
      (moves : s.pool.step b = some (pool, event)) : pool.effort < s.pool.effort :=
    ThreadPool.inner_effort (run_pool run) before inside moves
  cases a with
  | pool b =>
    simp only [step] at taken
    split at taken
    · obtain ⟨⟨pool,event⟩,moves,eq⟩ := Option.map_eq_some_iff.mp taken
      cases eq
      exact pool_effort moves rfl rfl rfl (lowers inner moves)
    · simp at taken
  | work w =>
    simp only [step] at taken
    split at taken
    · rename_i here
      exact body_effort here (run_late run w _) taken
        fun event moves => lowers (b := .complete w) trivial moves
    · simp at taken
  | returns w j v =>
    simp only [step] at taken
    split at taken
    · rename_i here point
      split at taken
      · rename_i same
        subst same
        cases taken
        exact work_effort here rfl rfl (readers_rest rfl fun _ full => full)
          (by simp [point, Body.rest])
      · simp at taken
    · simp at taken
  | read q => exact reader_effort inner taken
  | submit | ask => exact absurd inner not_false

theorem inner_spends [Nonempty W] [Fintype P] [Fintype Q] (s : Submit W P Q J O R)
    (log : List (Event W P J O R)) (a : Action W P Q J O R) (s' : Submit W P Q J O R)
    (e : Event W P J O R)
    (holds : Run (step residue) AnyOrder {} s log ∧ s.pool.destructor = .idle) (inner : Inner s a)
    (taken : step residue s a = some (s', e)) :
    (Run (step residue) AnyOrder {} s' (e :: log) ∧ s'.pool.destructor = .idle) ∧
      effort s' < effort s := by
  obtain ⟨run,before⟩ := holds
  exact ⟨⟨.next run trivial taken,inner_before before inner taken⟩,
    inner_effort run before inner taken⟩

theorem reaches_rest [Nonempty W] [Fintype P] [Fintype Q] (result : (j : J) → R j)
    (run : Run (step residue) AnyOrder {} s log) (before : s.pool.destructor = .idle) :
    ∃ more final, Run (step residue) (fun s _ a => Inner s a) s final more ∧ Rests final := by
  obtain ⟨more,final,inner,_,rest⟩ := Run.comes_to_rest _ _ Rests inner_spends
    (fun _ _ holds busy => (rests_or_proceeds result holds.1 holds.2).resolve_left busy)
    ⟨run,before⟩
  exact ⟨more,final,inner,rest⟩

/-- Before the destructor of the pool begins, the workers, the lambdas and the threads inside
`ready` and `get` come to rest after boundedly many steps, in whatever order they take them
and whatever the functions return; nobody stops short of that. At rest every `ready` and `get`
has returned, and the future of every submission is ready and keeps what it promises. -/
theorem submissions_complete [Nonempty W] [Fintype P] [Fintype Q]
    (result : (j : J) → R j) (run : Run (step residue) AnyOrder {} s log)
    (before : s.pool.destructor = .idle) :
    (∀ more final, Run (step residue) (fun s _ a => Inner s a) s final more →
      more.length + effort final ≤ effort s) ∧
    (Rests s ↔ ¬ Proceeds residue s) ∧
    (∃ more final, Run (step residue) (fun s _ a => Inner s a) s final more ∧ Rests final) ∧
    ∀ more final, Run (step residue) (fun s _ a => Inner s a) s final more → Rests final →
      (∀ q, final.readers q = .idle) ∧ ∀ j, final.submitted j = true →
        (final.shared j).value.isSome ∧ Fulfilled final (more ++ log) j := by
  have spends {more final} (inner : Run (step residue) (fun s _ a => Inner s a) s final more) :=
    Run.spends _ _ inner_spends ⟨run,before⟩ inner
  refine ⟨fun more final inner => (spends inner).2,⟨rests_stays,?_⟩,
    reaches_rest result run before,?_⟩
  · exact fun stuck => (rests_or_proceeds result run before).resolve_right stuck
  · intro more final inner rest
    exact ⟨rest.readers,fun j submitted => rest_ready (spends inner).1.1 rest.pool submitted⟩

end Runs

theorem two_submissions_complete :
    ∃ s : Submit Unit Unit Unit Bool Empty fun _ => Nat, ∃ log,
      Run (step fun _ => id) AnyOrder {} s log ∧ (s.shared true).value = none ∧
      s.pool.tasks_ = [.inl false] ∧ s.readers () = .sleeping false ∧
      ∃ more final, Run (step fun _ => id) (fun s _ a => Inner s a) s final more ∧
        final.readers () = .idle ∧ Fulfilled final (more ++ log) false := by
  let actions : List (Action Unit Unit Unit Bool Empty fun _ => Nat) :=
    toLambda () () true ++ [.work (), .pool (.notifyOne () none), .submit () false,
      .pool (.push ()), .pool (.push ()), .ask () false .get, .read (), .read ()]
  have computed : (replay (step fun _ => id) AnyOrder
      ({} : Submit Unit Unit Unit Bool Empty fun _ => Nat) [] actions).map
      (fun (s, _) => (decide (s.pool.destructor = .idle ∧ s.pool.tasks_ = [.inl false] ∧
        s.submitted false), (s.shared true).value, s.readers ())) =
      some (true, none, .sleeping false) := by
    decide +kernel
  obtain ⟨s,log,run,facts⟩ := replay_reaches computed
  obtain ⟨held,rest⟩ := Prod.mk.inj facts
  obtain ⟨value,asleep⟩ := Prod.mk.inj rest
  obtain ⟨before,queued,submitted⟩ := of_decide_eq_true held
  refine ⟨s,log,run,value,queued,asleep,?_⟩
  obtain ⟨_,_,⟨more,final,inner,stopped⟩,settles⟩ :=
    submissions_complete (fun _ => 42) run before
  obtain ⟨idle,ready⟩ := settles more final inner stopped
  refine ⟨more,final,inner,idle (),(ready false ?_).2⟩
  exact (inner.invariant (fun s _ => s.submitted false = true) submitted
    fun s _ a s' e kept _ taken => submitted_stays taken kept)

end Submit
end Aiopp
