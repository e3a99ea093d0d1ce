import Aiopp.SubmitShutdown

/-!
Threads asleep in `get`. One sleeps on a result that is not there yet, or that has been
assigned by a worker which has its `notify_all` still before it; so nobody is left asleep when
the lambdas have come to their ends.
-/
namespace Aiopp
namespace Submit
open Transition Future ThreadPool
variable {W P Q J O : Type} {R : J → Type}

/-- The worker that assigned the value is on its way to `notify_all`. -/
def Body.toNotify {T : Type} : Body T → Prop
  | .setting _ .unlock => True
  | .setting _ .notify => True
  | _ => False

def Reader.about {J : Type} (j : J) : Reader J → Prop
  | .idle => False
  | .lock i _ => i = j
  | .check i _ => i = j
  | .sleeping i => i = j
  | .unlock i => i = j

structure Watched (s : Submit W P Q J O R) : Prop where
  asked : ∀ q j, (s.readers q).about j → s.submitted j = true
  noticed : ∀ q j, s.readers q = .sleeping j → (s.shared j).value.isSome →
    ∃ w, s.pool.threads_ w = .running (.inl j) ∧ (s.bodies w j).toNotify

section Step
variable [DecidableEq W] [DecidableEq P] [DecidableEq Q] [DecidableEq J] [Fintype W]
  {residue : (j : J) → R j → R j} {s s' : Submit W P Q J O R} {e : Event W P J O R}

omit [DecidableEq Q] [DecidableEq J] in
theorem running_stays {T : Type} {pool pool' : ThreadPool W P T} {a : ThreadPool.Action W P T}
    {event : ThreadPool.Event W P T} (taken : pool.step a = some (pool', event)) {w : W} {task : T}
    (here : pool.threads_ w = .running task) :
    (pool'.threads_ w = .running task ∧ event ≠ .invoked w task) ∨ a = .complete w := by
  by_cases completes : event = .completed w task
  · exact .inr (ThreadPool.step_source taken (by rw [completes]; rfl))
  · refine .inl ?_
    cases ThreadPool.step_moved taken with
    | notifiedAll => simp [wakeAll, here, Worker.isBlocked]
    | _ =>
      simp only [moveWorker, movePusher, release, Function.update_apply]
      grind

omit [DecidableEq P] [DecidableEq Q] [Fintype W] in
theorem bodies_elsewhere {w w' : W} {i j : J} {body : Body (R i)} (other : ¬ (w = w' ∧ j = i)) :
    (s.setBody w' i body).bodies w j = s.bodies w j := by
  by_cases here : w = w'
  · exact setBody_other _ _ _ _ fun same => other ⟨here,same⟩
  · simp [setBody, Function.update_of_ne here]

omit [DecidableEq Q] in
theorem watched_pool (watched : Watched s) {a : ThreadPool.Action W P (J ⊕ O)}
    {event : ThreadPool.Event W P (J ⊕ O)} (taken : s.pool.step a = some (s'.pool, event))
    (bodies : s'.bodies = invoke s.bodies event) (shared : s'.shared = s.shared)
    (readers : s'.readers = s.readers) (submitted : ∀ j, s.submitted j → s'.submitted j)
    (ends : ∀ w j, a = .complete w → s.pool.threads_ w = .running (.inl j) →
      ¬ (s.bodies w j).toNotify) : Watched s' := by
  constructor
  · intro q j asks
    rw [readers] at asks
    exact submitted j (watched.asked q j asks)
  · intro q j asleep full
    rw [readers] at asleep
    rw [shared] at full
    obtain ⟨w,here,before⟩ := watched.noticed q j asleep full
    rcases running_stays taken here with ⟨still,other⟩ | completes
    · exact ⟨w,still,by rwa [bodies, invoke_other other]⟩
    · exact absurd before (ends w j completes here)

omit [DecidableEq P] [DecidableEq Q] [Fintype W] in
theorem watched_work (watched : Watched s) {w : W} {i : J} {body : Body (R i)}
    (here : s.pool.threads_ w = .running (.inl i)) (pool : s'.pool = s.pool)
    (bodies : s'.bodies = (s.setBody w i body).bodies) (readers : s'.readers = s.readers)
    (submitted : s'.submitted = s.submitted)
    (others : ∀ j, j ≠ i → (s'.shared j).value = (s.shared j).value)
    (own : body.toNotify ∨ (s'.shared i).value = (s.shared i).value ∧
      ¬ (s.bodies w i).toNotify) : Watched s' := by
  constructor
  · intro q j asks
    rw [readers] at asks
    rw [submitted]
    exact watched.asked q j asks
  · intro q j asleep full
    rw [readers] at asleep
    rw [pool, bodies]
    by_cases this : j = i
    · subst this
      rcases own with soon | ⟨same,past⟩
      · exact ⟨w,here,by rwa [setBody_same]⟩
      · rw [same] at full
        obtain ⟨w',there,before⟩ := watched.noticed q j asleep full
        have apart : ¬ (w' = w ∧ j = j) := by
          rintro ⟨rfl,_⟩
          exact past before
        exact ⟨w',there,by rwa [bodies_elsewhere apart]⟩
    · rw [others j this] at full
      obtain ⟨w',there,before⟩ := watched.noticed q j asleep full
      exact ⟨w',there,by rwa [bodies_elsewhere fun both => this both.2]⟩

omit [DecidableEq W] [DecidableEq P] [DecidableEq J] [Fintype W] in
theorem watched_read (watched : Watched s) {q : Q} {next : Reader J} (pool : s'.pool = s.pool)
    (bodies : s'.bodies = s.bodies) (readers : s'.readers = Function.update s.readers q next)
    (submitted : s'.submitted = s.submitted)
    (values : ∀ j, (s'.shared j).value.isSome → (s.shared j).value.isSome)
    (about : ∀ j, next.about j → s.submitted j = true)
    (sleeps : ∀ j, next = .sleeping j → (s'.shared j).value = none) : Watched s' := by
  constructor
  · intro q' j asks
    rw [submitted]
    rw [readers] at asks
    by_cases mine : q' = q
    · subst mine
      exact about j (by simpa using asks)
    · rw [Function.update_of_ne mine] at asks
      exact watched.asked q' j asks
  · intro q' j asleep full
    rw [pool, bodies]
    rw [readers] at asleep
    by_cases mine : q' = q
    · subst mine
      rw [Function.update_self] at asleep
      rw [sleeps j asleep] at full
      simp at full
    · rw [Function.update_of_ne mine] at asleep
      exact watched.noticed q' j asleep (values j full)

omit [DecidableEq W] [DecidableEq P] [DecidableEq Q] [Fintype W] in
theorem wake_about {i j : J} {reader : Reader J} (about : (reader.wake i).about j) :
    reader.about j := by
  cases reader with
  | sleeping k =>
    simp only [Reader.wake] at about
    split at about
    · rename_i same
      exact same.trans about
    · exact about
  | _ => exact about

omit [DecidableEq W] [DecidableEq P] [DecidableEq Q] [Fintype W] in
theorem wake_sleeping {i j : J} {reader : Reader J} (asleep : reader.wake i = .sleeping j) :
    reader = .sleeping j ∧ j ≠ i := by
  cases reader with
  | sleeping k =>
    simp only [Reader.wake] at asleep
    split at asleep
    · simp at asleep
    · rename_i other
      cases asleep
      exact ⟨rfl,other⟩
  | _ => simp [Reader.wake] at asleep

omit [DecidableEq P] [DecidableEq Q] [Fintype W] in
theorem watched_notify (watched : Watched s) {w : W} {i : J} {body : Body (R i)} :
    Watched ({ s with readers := fun q => (s.readers q).wake i }.setBody w i body) := by
  constructor
  · intro q j asks
    exact watched.asked q j (wake_about asks)
  · intro q j asleep full
    obtain ⟨before,other⟩ := wake_sleeping asleep
    obtain ⟨w',there,on_the_way⟩ := watched.noticed q j before full
    refine ⟨w',there,?_⟩
    rwa [bodies_elsewhere fun both => other both.2]

omit [DecidableEq Q] in
theorem body_watched (watched : Watched s) {w : W} {j : J}
    (here : s.pool.threads_ w = .running (.inl j)) (taken : s.body w j = some (s', e)) :
    Watched s' := by
  unfold body at taken
  split at taken
  · rename_i point
    cases taken
    exact watched_work watched here rfl rfl rfl rfl (fun _ _ => rfl)
      (.inr ⟨rfl,by simp [point, Body.toNotify]⟩)
  · simp at taken
  · rename_i point
    split at taken
    · cases taken
      refine watched_work watched here rfl rfl rfl rfl ?_ (.inr ⟨?_,by simp [point, Body.toNotify]⟩)
      · intro i other
        simp [setBody, setShared, other]
      · simp [setBody, setShared]
    · simp at taken
  · split at taken
    · cases taken
      refine watched_work watched here rfl rfl rfl rfl ?_ (.inl trivial)
      intro i other
      simp [setBody, setShared, other]
    · simp at taken
  · cases taken
    refine watched_work watched here rfl rfl rfl rfl ?_ (.inl trivial)
    intro i other
    simp [setBody, setShared, other]
  · cases taken
    exact watched_notify watched
  · rename_i point
    cases taken
    refine watched_work watched here rfl rfl rfl rfl ?_ (.inr ⟨?_,by simp [point, Body.toNotify]⟩)
    · intro i other
      simp [setBody, setShared, other]
    · simp [setBody, setShared]
  · rename_i point
    obtain ⟨⟨pool,event⟩,moves,eq⟩ := Option.map_eq_some_iff.mp taken
    cases eq
    have same : event = .completed w (.inl j) := by
      simp only [ThreadPool.step, here] at moves
      cases moves
      rfl
    subst same
    refine watched_pool watched moves rfl rfl rfl (fun _ kept => kept) ?_
    intro w' i completes there
    cases completes
    rw [here] at there
    cases there
    simp [point, Body.toNotify]

omit [DecidableEq W] [DecidableEq P] [Fintype W] in
theorem read_watched (watched : Watched s) {q : Q} (taken : s.read residue q = some (s', e)) :
    Watched s' := by
  have about {i : J} (mine : (s.readers q).about i) (j : J) (same : i = j) :
      s.submitted j = true := same ▸ watched.asked q i mine
  have values {i : J} {shared : Shared W Q (R i)}
      (fewer : shared.value.isSome → (s.shared i).value.isSome) (j : J)
      (full : ((s.setShared i shared).shared j).value.isSome) : (s.shared j).value.isSome := by
    by_cases this : j = i
    · subst this
      exact fewer (by simpa [setShared] using full)
    · simpa [setShared, this] using full
  unfold read at taken
  split at taken
  · simp at taken
  · rename_i i question point
    split at taken
    · cases taken
      exact watched_read watched rfl rfl rfl rfl (values id) (about (by rw [point]; rfl))
        (by simp)
    · simp at taken
  · rename_i i point
    cases taken
    exact watched_read watched rfl rfl rfl rfl (fun _ full => full) (about (by rw [point]; rfl))
      (by simp)
  · rename_i i point
    split at taken
    · rename_i v full
      cases taken
      exact watched_read watched rfl rfl rfl rfl (values (by simp [full]))
        (about (by rw [point]; rfl)) (by simp)
    · rename_i empty
      cases taken
      refine watched_read watched rfl rfl rfl rfl (values id) (about (by rw [point]; rfl)) ?_
      rintro j ⟨⟩
      simpa [moveReader, setShared] using empty
  · rename_i i point
    cases taken
    exact watched_read watched rfl rfl rfl rfl (fun _ full => full) (about (by rw [point]; rfl))
      (by simp)
  · rename_i i point
    cases taken
    exact watched_read watched rfl rfl rfl rfl (values id) (fun _ no => no.elim) (by simp)

theorem step_watched (watched : Watched s) {a : Action W P Q J O R}
    (taken : step residue s a = some (s', e)) : Watched s' := by
  cases a with
  | submit p j =>
    simp only [step] at taken
    split at taken
    · simp at taken
    · obtain ⟨⟨pool,event⟩,moves,eq⟩ := Option.map_eq_some_iff.mp taken
      cases eq
      have same : event = .called p (.inl j) := by
        simp only [ThreadPool.step] at moves
        split at moves
        · cases moves
          rfl
        · simp at moves
      subst same
      refine watched_pool watched moves rfl rfl rfl ?_ (by simp)
      intro i before
      by_cases this : i = j
      · simp [this]
      · simpa [this] using before
  | pool a =>
    simp only [step] at taken
    split at taken
    · rename_i passed
      obtain ⟨⟨pool,event⟩,moves,eq⟩ := Option.map_eq_some_iff.mp taken
      cases eq
      refine watched_pool watched moves rfl rfl rfl (fun _ kept => kept) ?_
      rintro w j rfl here
      simp [passes, here] at passed
    · simp at taken
  | work w =>
    simp only [step] at taken
    split at taken
    · rename_i here
      exact body_watched watched here taken
    · simp at taken
  | returns w j v =>
    simp only [step] at taken
    split at taken
    · rename_i here point
      split at taken
      · rename_i same
        subst same
        cases taken
        exact watched_work watched here rfl rfl rfl rfl (fun _ _ => rfl)
          (.inr ⟨rfl,by simp [point, Body.toNotify]⟩)
      · simp at taken
    · simp at taken
  | ask q j question =>
    simp only [step] at taken
    split at taken
    · split at taken
      · rename_i submitted
        cases taken
        refine watched_read watched rfl rfl rfl rfl (fun _ full => full) ?_ (by simp)
        rintro i rfl
        exact submitted
      · simp at taken
    · simp at taken
  | read q => exact read_watched watched taken

theorem run_watched {log : List (Event W P J O R)} (run : Run (step residue) AnyOrder {} s log) :
    Watched s := by
  refine run.invariant (fun s _ => Watched s) ⟨by simp [Reader.about],by simp⟩ ?_
  intro s older a s' e watched _ taken
  exact step_watched watched taken

end Step
end Submit
end Aiopp
