import Aiopp.SubmitShutdown

/-!
What the eventfd of a submission counts. `Promise::set` writes to it once, after the value is
there: the counter is 0 while the lambda has that write before it, and 1 afterwards.
-/
namespace Aiopp
namespace Submit
open Transition Future ThreadPool
variable {W P Q J O : Type} {R : J → Type}

def Tallied {T : Type} (counter : Nat) : Body T → Prop
  | .setting _ .returned => counter = 1
  | _ => counter = 0

structure Counted (s : Submit W P Q J O R) (log : List (Event W P J O R)) (j : J) : Prop where
  fresh : ¬ Invoked j log → (s.shared j).counter = 0
  stage : ∀ w, s.pool.threads_ w = .running (.inl j) →
    Tallied (s.shared j).counter (s.bodies w j)
  bound : (s.shared j).counter ≤ 1
  done : ∀ w, (w, .inl j) ∈ completedTasks (poolLog log) → (s.shared j).counter = 1

section Step
variable [DecidableEq W] [DecidableEq P] [DecidableEq Q] [DecidableEq J] [Fintype W]
  {residue : (j : J) → R j → R j} {s s' : Submit W P Q J O R}
  {e : Event W P J O R} {log : List (Event W P J O R)} {w : W} {j : J}

/-- One step, as far as the counters are concerned. -/
inductive Counts (s s' : Submit W P Q J O R) : Event W P J O R → Prop where
  | pool {a : ThreadPool.Action W P (J ⊕ O)} {event : ThreadPool.Event W P (J ⊕ O)}
      (taken : s.pool.step a = some (s'.pool, event)) (bodies : s'.bodies = invoke s.bodies event)
      (shared : s'.shared = s.shared)
      (ended : ∀ w j, event = .completed w (.inl j) →
        s.pool.threads_ w = .running (.inl j) ∧ ∃ v, s.bodies w j = .setting v .returned) :
      Counts s s' (.pool event)
  | lambda {w : W} {i : J} {body : Body (R i)} {e : Event W P J O R}
      (here : s.pool.threads_ w = .running (.inl i)) (pool : s'.pool = s.pool)
      (quiet : ∀ log, poolLog (e :: log) = poolLog log)
      (bodies : s'.bodies = (s.setBody w i body).bodies)
      (others : ∀ j, j ≠ i → (s'.shared j).counter = (s.shared j).counter)
      (tallied : Tallied (s.shared i).counter (s.bodies w i) →
        Tallied (s'.shared i).counter body ∧ (s'.shared i).counter ≤ 1) :
      Counts s s' e
  | other {e : Event W P J O R} (pool : s'.pool = s.pool)
      (quiet : ∀ log, poolLog (e :: log) = poolLog log) (bodies : s'.bodies = s.bodies)
      (counters : ∀ j, (s'.shared j).counter = (s.shared j).counter) : Counts s s' e

omit [DecidableEq Q] in
theorem body_counts (here : s.pool.threads_ w = .running (.inl j))
    (taken : s.body w j = some (s', e)) : Counts s s' e := by
  unfold body at taken
  split at taken
  · rename_i point
    cases taken
    refine .lambda here rfl (fun _ => rfl) rfl (fun _ _ => rfl) ?_
    rw [point]
    intro zero
    simp_all [Tallied, setBody]
  · simp at taken
  · rename_i point
    split at taken
    · cases taken
      refine .lambda here rfl (fun _ => rfl) rfl ?_ ?_
      · intro i other
        simp [setBody, setShared, other]
      · rw [point]
        intro zero
        simp_all [Tallied, setBody, setShared]
    · simp at taken
  · rename_i point
    split at taken
    · cases taken
      refine .lambda here rfl (fun _ => rfl) rfl ?_ ?_
      · intro i other
        simp [setBody, setShared, other]
      · rw [point]
        intro zero
        simp_all [Tallied, setBody, setShared]
    · simp at taken
  · rename_i point
    cases taken
    refine .lambda here rfl (fun _ => rfl) rfl ?_ ?_
    · intro i other
      simp [setBody, setShared, other]
    · rw [point]
      intro zero
      simp_all [Tallied, setBody, setShared]
  · rename_i point
    cases taken
    refine .lambda here rfl (fun _ => rfl) rfl (fun _ _ => rfl) ?_
    rw [point]
    intro zero
    simp_all [Tallied, setBody]
  · rename_i point
    cases taken
    refine .lambda here rfl (fun _ => rfl) rfl ?_ ?_
    · intro i other
      simp [setBody, setShared, other]
    · rw [point]
      intro zero
      simp_all [Tallied, setBody, setShared]
  · rename_i argument point
    obtain ⟨⟨pool,event⟩,moves,eq⟩ := Option.map_eq_some_iff.mp taken
    cases eq
    have same : event = .completed w (.inl j) := by
      simp only [ThreadPool.step, here] at moves
      cases moves
      rfl
    subst same
    refine .pool moves rfl rfl ?_
    intro w' i eq
    cases eq
    exact ⟨here,argument,point⟩

theorem read_counts {q : Q} (taken : s.read residue q = some (s', e)) : Counts s s' e := by
  unfold read at taken
  have kept (i : J) (mutex : Option (W ⊕ Q)) (value : Option (R i)) (next : Reader J)
      (j : J) : (((s.setShared i { mutex, value, counter := (s.shared i).counter }).moveReader q
        next).shared j).counter = (s.shared j).counter := by
    by_cases same : j = i
    · subst same
      simp [setShared, moveReader]
    · simp [setShared, moveReader, same]
  split at taken
  · simp at taken
  · split at taken
    · cases taken
      exact .other rfl (fun _ => rfl) rfl (kept _ _ _ _)
    · simp at taken
  · cases taken
    exact .other rfl (fun _ => rfl) rfl (fun _ => rfl)
  · split at taken
    · cases taken
      exact .other rfl (fun _ => rfl) rfl (kept _ _ _ _)
    · cases taken
      exact .other rfl (fun _ => rfl) rfl (kept _ _ _ _)
  · cases taken
    exact .other rfl (fun _ => rfl) rfl (fun _ => rfl)
  · cases taken
    exact .other rfl (fun _ => rfl) rfl (kept _ _ _ _)

theorem step_counts {a : Action W P Q J O R} (taken : step residue s a = some (s', e)) :
    Counts s s' e := by
  cases a with
  | submit p i =>
    simp only [step] at taken
    split at taken
    · simp at taken
    · obtain ⟨⟨pool,event⟩,moves,eq⟩ := Option.map_eq_some_iff.mp taken
      cases eq
      have same : event = .called p (.inl i) := by
        simp only [ThreadPool.step] at moves
        split at moves
        · cases moves
          rfl
        · simp at moves
      subst same
      exact .pool moves rfl rfl (by simp)
  | pool a =>
    simp only [step] at taken
    split at taken
    · rename_i passed
      obtain ⟨⟨pool,event⟩,moves,eq⟩ := Option.map_eq_some_iff.mp taken
      cases eq
      refine .pool moves rfl rfl ?_
      rintro w j rfl
      obtain rfl := ThreadPool.step_source moves rfl
      simp only [ThreadPool.step] at moves
      split at moves
      · rename_i here
        cases moves
        simp [passes, here] at passed
      · simp at moves
    · simp at taken
  | work w =>
    simp only [step] at taken
    split at taken
    · rename_i here
      exact body_counts here taken
    · simp at taken
  | returns w i v =>
    simp only [step] at taken
    split at taken
    · rename_i here point
      split at taken
      · rename_i same
        subst same
        cases taken
        refine .lambda here rfl (fun _ => rfl) rfl (fun _ _ => rfl) ?_
        rw [point]
        intro zero
        simp_all [Tallied, setBody]
      · simp at taken
    · simp at taken
  | ask q i question =>
    simp only [step] at taken
    split at taken
    · split at taken
      · cases taken
        exact .other rfl (fun _ => rfl) rfl (fun _ => rfl)
      · simp at taken
    · simp at taken
  | read q => exact read_counts taken

omit [DecidableEq W] [DecidableEq P] [DecidableEq Q] [DecidableEq J] [Fintype W] in
theorem counted_same (counted : Counted s log j) (pool : s'.pool = s.pool)
    (quiet : poolLog (e :: log) = poolLog log) (bodies : ∀ w, s'.bodies w j = s.bodies w j)
    (counter : (s'.shared j).counter = (s.shared j).counter) : Counted s' (e :: log) j := by
  constructor
  · rw [counter]
    intro fresh
    apply counted.fresh
    rintro ⟨w,member⟩
    exact fresh ⟨w,by rwa [quiet]⟩
  · intro w here
    rw [pool] at here
    rw [counter, bodies]
    exact counted.stage w here
  · rw [counter]
    exact counted.bound
  · intro w completed
    rw [quiet] at completed
    rw [counter]
    exact counted.done w completed

omit [DecidableEq W] [DecidableEq P] [DecidableEq Q] [Fintype W] in
theorem invoked_counted (counted : Counted s log j) {event : ThreadPool.Event W P (J ⊕ O)}
    (now : event = .invoked w (.inl j))
    (once : ((invokedTasks (poolLog (.pool event :: log))).map Prod.snd).countP (isJob j) ≤ 1) :
    (s.shared j).counter = 0 := by
  subst now
  apply counted.fresh
  rintro ⟨w',member⟩
  have again : 0 < ((invokedTasks (poolLog log)).map Prod.snd).countP (isJob j) :=
    List.countP_pos_iff.mpr ⟨_,List.mem_map_of_mem member,by simp [isJob]⟩
  have one : ([(w, (.inl j : J ⊕ O))].map Prod.snd).countP (isJob j) = 1 := by simp [isJob]
  simp only [poolLog, invokedTasks, List.map_append, List.countP_append] at once
  omega

omit [DecidableEq Q] in
theorem pool_counted (counted : Counted s log j) {a : ThreadPool.Action W P (J ⊕ O)}
    {event : ThreadPool.Event W P (J ⊕ O)} (taken : s.pool.step a = some (s'.pool, event))
    (bodies : s'.bodies = invoke s.bodies event) (shared : s'.shared = s.shared)
    (ended : ∀ w j, event = .completed w (.inl j) →
      s.pool.threads_ w = .running (.inl j) ∧ ∃ v, s.bodies w j = .setting v .returned)
    (once : ((invokedTasks (poolLog (.pool event :: log))).map Prod.snd).countP (isJob j) ≤ 1) :
    Counted s' (.pool event :: log) j := by
  constructor
  · intro fresh
    rw [shared]
    apply counted.fresh
    rintro ⟨w,member⟩
    exact fresh ⟨w,invokedTasks_cons member⟩
  · intro w here
    rw [shared, bodies]
    by_cases now : event = .invoked w (.inl j)
    · rw [invoked_counted counted now once, now]
      simp [invoke, Tallied]
    · rw [invoke_other now]
      rcases moved_running (ThreadPool.step_moved taken) here with before | entered
      · exact counted.stage w before
      · exact absurd entered now
  · rw [shared]
    exact counted.bound
  · intro w completed
    rw [shared]
    rcases completed_cons completed with earlier | now
    · exact counted.done w earlier
    · obtain ⟨here,v,point⟩ := ended w j (by simpa using now)
      have tallied := counted.stage w here
      rwa [point] at tallied

omit [DecidableEq Q] in
/-- The write is the only step that a counter takes part in. -/
theorem counts_kept (counted : Counted s log j) (counts : Counts s s' e)
    (invoked : ∀ w, s.pool.threads_ w = .running (.inl j) → Invoked j log)
    (alone : ∀ w w', s.pool.threads_ w = .running (.inl j) →
      s.pool.threads_ w' = .running (.inl j) → w' = w)
    (idle : ∀ w w', (w, .inl j) ∈ completedTasks (poolLog log) →
      s.pool.threads_ w' ≠ .running (.inl j))
    (once : ((invokedTasks (poolLog (e :: log))).map Prod.snd).countP (isJob j) ≤ 1) :
    Counted s' (e :: log) j := by
  cases counts with
  | pool taken bodies shared ended => exact pool_counted counted taken bodies shared ended once
  | @lambda w i body e here pool quiet bodies others tallied =>
    by_cases same : j = i
    · subst same
      obtain ⟨after,bound⟩ := tallied (counted.stage w here)
      constructor
      · intro fresh
        obtain ⟨w',member⟩ := invoked w here
        exact absurd ⟨w',by rwa [quiet]⟩ fresh
      · intro w' there
        rw [pool] at there
        obtain rfl := alone w w' here there
        rwa [bodies, setBody_same]
      · exact bound
      · intro w' completed
        rw [quiet] at completed
        exact absurd here (idle w' w completed)
    · refine counted_same counted pool (quiet log) ?_ (others j same)
      intro w'
      rw [bodies, setBody_other _ _ _ _ same]
  | other pool quiet bodies counters =>
    exact counted_same counted pool (quiet log) (fun w => by rw [bodies]) (counters j)

end Step

section Runs
variable [DecidableEq W] [DecidableEq P] [DecidableEq Q] [DecidableEq J] [Fintype W]
  {residue : (j : J) → R j → R j} {s : Submit W P Q J O R}
  {log : List (Event W P J O R)} {j : J}

theorem invoked_where (run : Run (step residue) AnyOrder {} s log) {w : W}
    (invoked : (w, .inl j) ∈ invokedTasks (poolLog log)) :
    (w, .inl j) ∈ completedTasks (poolLog log) ∨ s.pool.threads_ w = .running (.inl j) := by
  have mine : (w, .inl j) ∈ (invokedTasks (poolLog log)).filter (fun entry => entry.1 = w) :=
    List.mem_filter.mpr ⟨invoked,by simp⟩
  rw [run_inside (run_pool run) w] at mine
  rcases List.mem_append.mp mine with completed | inside
  · exact .inl (List.mem_filter.mp completed).1
  · obtain ⟨task,held,eq⟩ := List.mem_map.mp inside
    obtain rfl : task = .inl j := (Prod.mk.inj eq).2
    right
    cases point : s.pool.threads_ w with
    | running task => simpa [point, Worker.inside, eq_comm] using held
    | _ => simp [point, Worker.inside] at held

theorem completed_idle (run : Run (step residue) AnyOrder {} s log) {w w' : W}
    (completed : (w, .inl j) ∈ completedTasks (poolLog log)) :
    s.pool.threads_ w' ≠ .running (.inl j) := by
  intro here
  have pool := run_pool run
  have once := run_invokedOnce run j
  have invoked : (w, .inl j) ∈ invokedTasks (poolLog log) := by
    have mine : (w, .inl j) ∈ (completedTasks (poolLog log)).filter (fun entry => entry.1 = w) :=
      List.mem_filter.mpr ⟨completed,by simp⟩
    have both := List.mem_append_left ((s.pool.threads_ w).inside.map (Prod.mk w)) mine
    rw [← run_inside pool w] at both
    exact (List.mem_filter.mp both).1
  obtain rfl := entry_unique once invoked (run_running pool here)
  have twice := run_inside pool w
  rw [here] at twice
  have fewer := ((invokedTasks (poolLog log)).filter_sublist
    (p := fun entry => decide (entry.1 = w))).countP_le (p := fun entry => isJob j entry.2)
  have one : 0 < ((completedTasks (poolLog log)).filter (fun entry => entry.1 = w)).countP
      (fun entry => isJob j entry.2) :=
    List.countP_pos_iff.mpr ⟨_,List.mem_filter.mpr ⟨completed,by simp⟩,by simp [isJob]⟩
  rw [twice, List.countP_append] at fewer
  have last : ((Worker.running (.inl j : J ⊕ O)).inside.map (Prod.mk w)).countP
      (fun entry => isJob j entry.2) = 1 := by simp [Worker.inside, isJob]
  rw [List.countP_map] at once
  have same : (invokedTasks (poolLog log)).countP (isJob j ∘ Prod.snd) =
      (invokedTasks (poolLog log)).countP fun entry => isJob j entry.2 := rfl
  omega

theorem run_counted (run : Run (step residue) AnyOrder {} s log) (j : J) : Counted s log j := by
  induction run with
  | nil => exact ⟨fun _ => rfl,by simp,Nat.zero_le _,by simp [poolLog, completedTasks]⟩
  | @next s s' log a e run allowed taken ih =>
    have invoked (w : W) (here : s.pool.threads_ w = .running (.inl j)) :
        (w, .inl j) ∈ invokedTasks (poolLog log) := run_running (run_pool run) here
    refine counts_kept ih (step_counts taken) (fun w here => ⟨w,invoked w here⟩) ?_
      (fun _ _ completed => completed_idle run completed)
      (run_invokedOnce (.next run allowed taken) j)
    intro w w' here there
    exact entry_unique (run_invokedOnce run j) (invoked w' there) (invoked w here)

theorem counter_value (run : Run (step residue) AnyOrder {} s log)
    (raised : 0 < (s.shared j).counter) : (s.shared j).value.isSome := by
  have counted := run_counted run j
  have invoked : Invoked j log := by
    by_contra fresh
    rw [counted.fresh fresh] at raised
    contradiction
  obtain ⟨w,member⟩ := invoked
  rcases invoked_where run member with completed | here
  · exact run_completed run completed
  · have tallied := counted.stage w here
    apply run_late run w j
    cases point : s.bodies w j with
    | enter | calling =>
      rw [point] at tallied
      exact absurd tallied (Nat.ne_of_gt raised)
    | setting v next =>
      rw [point] at tallied
      cases next with
      | lock | assign => exact absurd tallied (Nat.ne_of_gt raised)
      | _ => rfl

end Runs

end Submit
end Aiopp
