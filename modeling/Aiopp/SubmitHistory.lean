import Aiopp.Submit

/-!
What has happened to a submitted function when its future is ready. A job is in the
hands of one worker at a time, because it is pushed once; what that worker has done is
read off the point it is at.
-/
namespace Aiopp
namespace Submit
open Transition Future ThreadPool
variable {W P Q J O : Type} {R : J → Type}

def poolLog : List (Event W P J O R) → List (ThreadPool.Event W P (J ⊕ O))
  | [] => []
  | .pool e :: log => e :: poolLog log
  | _ :: log => poolLog log

def history [DecidableEq J] (j : J) : List (Event W P J O R) → List (Note (R j))
  | [] => []
  | .noted i note :: log =>
    if same : i = j then history j log ++ [same ▸ note] else history j log
  | _ :: log => history j log

/-- What a completed call of the function leaves in the history before anybody reads. -/
def spoken {T : Type} (v : T) : List (Note T) := [.called, .returned v]

section Stages
variable {T : Type}

/-- The value is there until the first `get`, which hands it out. -/
def Ready (past : List (Note T)) (value : Option T) : Prop :=
  ∃ v gets, past = spoken v ++ gets.map Note.got ∧ (gets = [] → value = some v) ∧
    ∀ u ∈ gets.head?, u = v

def Stage (past : List (Note T)) (value : Option T) : Body T → Prop
  | .enter => past = [] ∧ value = none
  | .calling => past = [.called] ∧ value = none
  | .setting v .lock | .setting v .assign => past = spoken v ∧ value = none
  | _ => True

def Possible (past : List (Note T)) : Prop :=
  past = [] ∨ past = [.called] ∨ ∃ v, ∃ gets : List T, past = spoken v ++ gets.map Note.got

theorem spoken_calls (v : T) (gets : List T) :
    (spoken v ++ gets.map Note.got).countP Note.isCalled = 1 := by
  have silent : (gets.map Note.got).countP Note.isCalled = 0 := by
    simp [List.countP_eq_zero, Note.isCalled]
  rw [List.countP_append, silent]
  rfl

theorem possible_calls {past : List (Note T)} (possible : Possible past) :
    past.countP Note.isCalled ≤ 1 := by
  rcases possible with rfl | rfl | ⟨v,gets,rfl⟩
  · simp
  · simp [Note.isCalled]
  · rw [spoken_calls]

theorem ready_got {past : List (Note T)} {v : T} (rest : T)
    (ready : Ready past (some v)) : Ready (past ++ [.got v]) (some rest) := by
  obtain ⟨u,gets,rfl,kept,first⟩ := ready
  refine ⟨u,gets ++ [v],by simp,by simp,?_⟩
  cases gets with
  | nil =>
    have same : v = u := by simpa using kept rfl
    simp [same]
  | cons g gets => simpa using first

theorem ready_possible {past : List (Note T)} {value : Option T}
    (ready : Ready past value) : Possible past := by
  obtain ⟨v,gets,eq,_⟩ := ready
  exact .inr (.inr ⟨v,gets,eq⟩)

theorem stage_full {past past' : List (Note T)} {v : T}
    {value : Option T} {body : Body T} (stage : Stage past (some v) body) :
    Stage past' value body := by
  cases body with
  | enter => simp [Stage] at stage
  | calling => simp [Stage] at stage
  | setting argument next => cases next <;> simp_all [Stage]

theorem stage_late {past : List (Note T)} {value : Option T} {v : T}
    {next : Setter} (late : next ≠ .lock ∧ next ≠ .assign) : Stage past value (.setting v next) := by
  cases next <;> simp_all [Stage]

end Stages

def Invoked (j : J) (log : List (Event W P J O R)) : Prop :=
  ∃ w, (w, .inl j) ∈ invokedTasks (poolLog log)

structure Kept [DecidableEq J] (s : Submit W P Q J O R) (log : List (Event W P J O R)) (j : J) :
    Prop where
  fresh : ¬ Invoked j log → history j log = [] ∧ (s.shared j).value = none
  stage : ∀ w, s.pool.threads_ w = .running (.inl j) →
    Stage (history j log) (s.shared j).value (s.bodies w j)
  ready : (s.shared j).value.isSome → Ready (history j log) (s.shared j).value
  possible : Possible (history j log)

def isJob [DecidableEq J] (j : J) : J ⊕ O → Bool
  | .inl i => i = j
  | .inr _ => false

section Once
variable [DecidableEq W] [DecidableEq P] [DecidableEq Q] [DecidableEq J] [Fintype W]
  {residue : (j : J) → R j → R j} {s s' : Submit W P Q J O R}
  {e : Event W P J O R} {log : List (Event W P J O R)}

def AnyOrder (_ : Submit W P Q J O R) (_ : List (Event W P J O R)) (_ : Action W P Q J O R) :
    Prop := True

instance (s : Submit W P Q J O R) (log : List (Event W P J O R)) (a : Action W P Q J O R) :
    Decidable (AnyOrder s log a) := isTrue trivial

theorem moved_pool (log : List (Event W P J O R)) (moved : Moved residue s s' e) :
    (∃ a event, s.pool.step a = some (s'.pool, event) ∧ e = .pool event) ∨
    (s'.pool = s.pool ∧ poolLog (e :: log) = poolLog log) := by
  cases moved with
  | submitted fresh taken => exact .inl ⟨_,_,taken,rfl⟩
  | passed other taken => exact .inl ⟨_,_,taken,rfl⟩
  | completed taken => exact .inl ⟨_,_,taken,rfl⟩
  | asked silent =>
    refine .inr ⟨rfl,?_⟩
    rcases silent with rfl | ⟨j,ready,rfl⟩ <;> rfl
  | _ => exact .inr ⟨rfl,rfl⟩

theorem run_pool (run : Run (step residue) AnyOrder {} s log) :
    Run ThreadPool.step ThreadPool.AnyOrder {} s.pool (poolLog log) := by
  induction run with
  | nil => exact .nil
  | @next s s' log a e run allowed taken ih =>
    rcases moved_pool log (step_moved taken) with ⟨b,event,moves,rfl⟩ | ⟨same,quiet⟩
    · exact .next ih trivial moves
    · rw [same, quiet]
      exact ih

theorem run_calledOnce (run : Run (step residue) AnyOrder {} s log) (j : J) :
    ((calledTasks (poolLog log)).map Prod.snd).countP (isJob j) ≤ if s.submitted j then 1 else 0 := by
  refine run.invariant (fun s log => ((calledTasks (poolLog log)).map Prod.snd).countP (isJob j) ≤
    if s.submitted j then 1 else 0) (by simp [poolLog, calledTasks]) ?_
  intro s log a s' e bound _ taken
  have moved := step_moved taken
  cases moved with
  | @submitted p i pool event fresh calls =>
    simp only [ThreadPool.step] at calls
    split at calls
    · cases calls
      simp only [poolLog, calledTasks, List.map_append, List.countP_append]
      by_cases same : i = j
      · subst same
        have none : ((calledTasks (poolLog log)).map Prod.snd).countP (isJob i) = 0 := by
          simpa [fresh] using bound
        rw [none]
        simp [isJob]
      · simpa [isJob, same, Function.update_of_ne (Ne.symm same)] using bound
    · simp at calls
  | @passed a pool event other moves =>
    cases event with
    | called p task =>
      obtain rfl := ThreadPool.step_source moves rfl
      cases task with
      | inl i => simp [passes] at other
      | inr o => simpa [poolLog, calledTasks, isJob] using bound
    | _ => exact bound
  | @completed w pool event moves =>
    cases event with
    | called p task => simpa using ThreadPool.step_source moves rfl
    | _ => exact bound
  | asked silent =>
    rcases silent with rfl | ⟨i,ready,rfl⟩ <;> exact bound
  | _ => exact bound

theorem run_invokedOnce (run : Run (step residue) AnyOrder {} s log) (j : J) :
    ((invokedTasks (poolLog log)).map Prod.snd).countP (isJob j) ≤ 1 := by
  have fewer := (invoked_subperm_called (run_accounts (run_pool run))).countP_le (isJob j)
  have bound := run_calledOnce run j
  split at bound <;> omega

omit [DecidableEq W] [Fintype W] in
theorem entry_unique {entries : List (W × (J ⊕ O))} {j : J} {w w' : W}
    (once : (entries.map Prod.snd).countP (isJob j) ≤ 1) (first : (w, .inl j) ∈ entries)
    (second : (w', .inl j) ∈ entries) : w = w' := by
  have job : isJob j (.inl j : J ⊕ O) = true := by simp [isJob]
  have counted {entries : List (W × (J ⊕ O))} {w : W} (member : (w, .inl j) ∈ entries) :
      0 < (entries.map Prod.snd).countP (isJob j) :=
    List.countP_pos_iff.mpr ⟨_,List.mem_map_of_mem member,job⟩
  induction entries with
  | nil => simp at first
  | cons entry entries ih =>
    rw [List.map_cons, List.countP_cons] at once
    rcases List.mem_cons.mp first with here | earlier
    · rcases List.mem_cons.mp second with same | other
      · exact congrArg Prod.fst (here.trans same.symm)
      · have again := counted other
        rw [← here, if_pos job] at once
        omega
    · rcases List.mem_cons.mp second with here | other
      · have again := counted earlier
        rw [← here, if_pos job] at once
        omega
      · exact ih (by omega) earlier other

end Once

section Kept
variable [DecidableEq W] [DecidableEq J] {s s' : Submit W P Q J O R} {e : Event W P J O R}
  {log : List (Event W P J O R)} {w : W} {j : J}

theorem setBody_same (s : Submit W P Q J O R) (w : W) (j : J) (body : Body (R j)) :
    (s.setBody w j body).bodies w j = body := by
  simp [setBody]

theorem setBody_other (s : Submit W P Q J O R) (w w' : W) {i j : J} (body : Body (R i))
    (other : j ≠ i) : (s.setBody w i body).bodies w' j = s.bodies w' j := by
  by_cases same : w' = w
  · subst same
    simp [setBody, other]
  · simp [setBody, same]

omit [DecidableEq W] in
theorem setShared_other (s : Submit W P Q J O R) {i j : J} (shared : Shared W Q (R i))
    (other : j ≠ i) : ((s.setShared i shared).shared j).value = (s.shared j).value := by
  simp [setShared, other]

theorem invoke_other {bodies : W → (j : J) → Body (R j)} {event : ThreadPool.Event W P (J ⊕ O)}
    (other : event ≠ .invoked w (.inl j)) : invoke bodies event w j = bodies w j := by
  cases event with
  | invoked w' task =>
    cases task with
    | inl i =>
      by_cases same : w = w'
      · subst same
        have foreign : j ≠ i := fun eq => other (by rw [eq])
        simp [invoke, foreign]
      · simp [invoke, same]
    | inr o => rfl
  | _ => rfl

omit [DecidableEq W] in
theorem history_same (note : Note (R j)) :
    history j (.noted j note :: log) = history j log ++ [note] := by
  simp [history]

omit [DecidableEq W] in
theorem history_other {i : J} (note : Note (R i)) (other : j ≠ i) :
    history j (.noted i note :: log) = history j log := by
  simp [history, Ne.symm other]

omit [DecidableEq W] in
theorem kept_same (kept : Kept s log j) (pool : s'.pool = s.pool)
    (quiet : poolLog (e :: log) = poolLog log) (bodies : ∀ w, s'.bodies w j = s.bodies w j)
    (value : (s'.shared j).value = (s.shared j).value)
    (past : history j (e :: log) = history j log) : Kept s' (e :: log) j := by
  constructor
  · intro fresh
    rw [past, value]
    apply kept.fresh
    intro invoked
    obtain ⟨w,member⟩ := invoked
    exact fresh ⟨w,by rwa [quiet]⟩
  · intro w here
    rw [pool] at here
    rw [past, value, bodies]
    exact kept.stage w here
  · rw [past, value]
    exact kept.ready
  · rw [past]
    exact kept.possible

omit [DecidableEq W] in
theorem kept_job (pool : s'.pool = s.pool) (quiet : poolLog (e :: log) = poolLog log)
    (invoked : Invoked j log) (alone : ∀ w', s.pool.threads_ w' = .running (.inl j) → w' = w)
    (stage : Stage (history j (e :: log)) (s'.shared j).value (s'.bodies w j))
    (ready : (s'.shared j).value.isSome → Ready (history j (e :: log)) (s'.shared j).value)
    (possible : Possible (history j (e :: log))) : Kept s' (e :: log) j := by
  constructor
  · intro fresh
    obtain ⟨w,member⟩ := invoked
    exact absurd ⟨w,by rwa [quiet]⟩ fresh
  · intro w' here
    rw [pool] at here
    obtain rfl := alone w' here
    exact stage
  · exact ready
  · exact possible

/-- The pool moves. A job that is invoked now has never been invoked. -/
theorem kept_pool [DecidableEq P] [Fintype W] {a : ThreadPool.Action W P (J ⊕ O)}
    {event : ThreadPool.Event W P (J ⊕ O)} (kept : Kept s log j)
    (taken : s.pool.step a = some (s'.pool, event))
    (bodies : s'.bodies = invoke s.bodies event) (shared : s'.shared = s.shared)
    (once : ((invokedTasks (poolLog (.pool event :: log))).map Prod.snd).countP (isJob j) ≤ 1) :
    Kept s' (.pool event :: log) j := by
  constructor
  · intro fresh
    rw [shared]
    apply kept.fresh
    intro invoked
    obtain ⟨w,member⟩ := invoked
    exact fresh ⟨w,invokedTasks_cons member⟩
  · intro w here
    rw [shared, bodies]
    by_cases now : event = .invoked w (.inl j)
    · subst now
      have fresh : ¬ Invoked j log := by
        intro invoked
        obtain ⟨w',member⟩ := invoked
        have again : 0 < ((invokedTasks (poolLog log)).map Prod.snd).countP (isJob j) :=
          List.countP_pos_iff.mpr ⟨_,List.mem_map_of_mem member,by simp [isJob]⟩
        simp only [poolLog, invokedTasks, List.map_append, List.countP_append] at once
        have one : ([(w, (.inl j : J ⊕ O))].map Prod.snd).countP (isJob j) = 1 := by simp [isJob]
        omega
      simpa [invoke, Stage, history] using kept.fresh fresh
    · rw [invoke_other now]
      rcases moved_running (ThreadPool.step_moved taken) here with before | invoked
      · exact kept.stage w before
      · exact absurd invoked now
  · rw [shared]
    exact kept.ready
  · exact kept.possible

theorem kept_called (kept : Kept s log j) (here : s.pool.threads_ w = .running (.inl j))
    (invoked : Invoked j log) (alone : ∀ w', s.pool.threads_ w' = .running (.inl j) → w' = w)
    (point : s.bodies w j = .enter) :
    Kept (s.setBody w j .calling) (.noted j .called :: log) j := by
  obtain ⟨past,none⟩ : history j log = [] ∧ (s.shared j).value = none := by
    simpa [point, Stage] using kept.stage w here
  have now : history j (.noted j .called :: log) = [.called] := by
    rw [history_same, past]
    rfl
  have value : ((s.setBody w j .calling).shared j).value = Option.none := none
  refine kept_job rfl rfl invoked alone ?_ ?_ ?_
  · rw [setBody_same, now, value]
    exact ⟨rfl,rfl⟩
  · simp [value]
  · exact .inr (.inl now)

theorem kept_returned {v : R j} (kept : Kept s log j)
    (here : s.pool.threads_ w = .running (.inl j)) (invoked : Invoked j log)
    (alone : ∀ w', s.pool.threads_ w' = .running (.inl j) → w' = w)
    (point : s.bodies w j = .calling) :
    Kept (s.setBody w j (.setting v .lock)) (.noted j (.returned v) :: log) j := by
  obtain ⟨past,none⟩ : history j log = [.called] ∧ (s.shared j).value = none := by
    simpa [point, Stage] using kept.stage w here
  have now : history j (.noted j (.returned v) :: log) = spoken v := by
    rw [history_same, past]
    rfl
  have value : ((s.setBody w j (.setting v .lock)).shared j).value = Option.none := none
  refine kept_job rfl rfl invoked alone ?_ ?_ ?_
  · rw [setBody_same, value]
    exact ⟨now,rfl⟩
  · simp [value]
  · exact .inr (.inr ⟨v,[],by simp [now]⟩)

theorem kept_assigned {v : R j} (kept : Kept s log j)
    (here : s.pool.threads_ w = .running (.inl j)) (invoked : Invoked j log)
    (alone : ∀ w', s.pool.threads_ w' = .running (.inl j) → w' = w)
    (point : s.bodies w j = .setting v .assign) :
    Kept ((s.setShared j { s.shared j with value := some v }).setBody w j (.setting v .unlock))
      (.stepped :: log) j := by
  obtain ⟨past,none⟩ : history j log = spoken v ∧ (s.shared j).value = none := by
    simpa [point, Stage] using kept.stage w here
  refine kept_job rfl rfl invoked alone ?_ ?_ kept.possible
  · rw [setBody_same]
    trivial
  · intro _
    refine ⟨v,[],?_,by simp [setBody, setShared],by simp⟩
    rw [List.map_nil, List.append_nil]
    exact past

theorem kept_locked {v : R j} {shared : Shared W Q (R j)} (kept : Kept s log j)
    (here : s.pool.threads_ w = .running (.inl j)) (invoked : Invoked j log)
    (alone : ∀ w', s.pool.threads_ w' = .running (.inl j) → w' = w)
    (point : s.bodies w j = .setting v .lock) (same : shared.value = (s.shared j).value) :
    Kept ((s.setShared j shared).setBody w j (.setting v .assign)) (.stepped :: log) j := by
  have stage : history j log = spoken v ∧ (s.shared j).value = none := by
    simpa [point, Stage] using kept.stage w here
  have value : (((s.setShared j shared).setBody w j (.setting v .assign)).shared j).value =
      (s.shared j).value := by
    simpa [setBody, setShared] using same
  refine kept_job rfl rfl invoked alone ?_ ?_ kept.possible
  · rw [setBody_same, value]
    exact stage
  · rw [value]
    exact kept.ready

theorem kept_left {v : R j} {next : Setter} {shared : Shared W Q (R j)} {readers : Q → Reader J}
    (kept : Kept s log j) (invoked : Invoked j log)
    (alone : ∀ w', s.pool.threads_ w' = .running (.inl j) → w' = w)
    (late : next ≠ .lock ∧ next ≠ .assign) (same : shared.value = (s.shared j).value) :
    Kept ({ s.setShared j shared with readers := readers }.setBody w j (.setting v next))
      (.stepped :: log) j := by
  have value : (({ s.setShared j shared with readers := readers }.setBody w j
      (.setting v next)).shared j).value = (s.shared j).value := by
    simpa [setBody, setShared] using same
  refine kept_job rfl rfl invoked alone ?_ ?_ kept.possible
  · rw [setBody_same]
    exact stage_late late
  · rw [value]
    exact kept.ready

omit [DecidableEq W] in
theorem kept_got [DecidableEq Q] {q : Q} {v rest : R j} {next : Reader J} (kept : Kept s log j)
    (full : (s.shared j).value = some v) :
    Kept ((s.setShared j { s.shared j with value := some rest }).moveReader q next)
      (.noted j (.got v) :: log) j := by
  have ready : Ready (history j log) (some v) := by
    rw [← full]
    exact kept.ready (by simp [full])
  have value : (((s.setShared j { s.shared j with value := some rest }).moveReader q next).shared
      j).value = some rest := by
    simp [setShared, moveReader]
  constructor
  · intro fresh
    have none := (kept.fresh fresh).2
    simp [full] at none
  · intro w here
    have stage := kept.stage w here
    rw [full] at stage
    exact stage_full stage
  · intro _
    rw [value, history_same]
    exact ready_got rest ready
  · rw [history_same]
    exact ready_possible (ready_got rest ready)

end Kept

section Runs
variable [DecidableEq W] [DecidableEq P] [DecidableEq Q] [DecidableEq J] [Fintype W]
  {residue : (j : J) → R j → R j} {s s' : Submit W P Q J O R}
  {e : Event W P J O R} {log : List (Event W P J O R)} {j : J}

theorem moved_kept (kept : Kept s log j) (moved : Moved residue s s' e)
    (invoked : ∀ w, s.pool.threads_ w = .running (.inl j) → Invoked j log)
    (alone : ∀ w w', s.pool.threads_ w = .running (.inl j) →
      s.pool.threads_ w' = .running (.inl j) → w' = w)
    (once : ((invokedTasks (poolLog (e :: log))).map Prod.snd).countP (isJob j) ≤ 1) :
    Kept s' (e :: log) j := by
  cases moved with
  | @submitted p i pool event fresh taken =>
    refine kept_pool kept taken ?_ rfl once
    simp only [ThreadPool.step] at taken
    split at taken
    · cases taken
      rfl
    · simp at taken
  | passed other taken => exact kept_pool kept taken rfl rfl once
  | @completed w pool event taken =>
    refine kept_pool kept taken ?_ rfl once
    simp only [ThreadPool.step] at taken
    split at taken
    · cases taken
      rfl
    · simp at taken
  | @entered w i here point =>
    by_cases same : j = i
    · subst same
      exact kept_called kept here (invoked w here) (fun w' => alone w w' here) point
    · exact kept_same kept rfl rfl (fun w' => setBody_other _ _ _ _ same) rfl (history_other _ same)
  | @returned w i v here point =>
    by_cases same : j = i
    · subst same
      exact kept_returned kept here (invoked w here) (fun w' => alone w w' here) point
    · exact kept_same kept rfl rfl (fun w' => setBody_other _ _ _ _ same) rfl (history_other _ same)
  | @locked w i v shared here point value =>
    by_cases same : j = i
    · subst same
      exact kept_locked kept here (invoked w here) (fun w' => alone w w' here) point value
    · exact kept_same kept rfl rfl (fun w' => setBody_other _ _ _ _ same) (setShared_other _ _ same) rfl
  | @assigned w i v here point =>
    by_cases same : j = i
    · subst same
      exact kept_assigned kept here (invoked w here) (fun w' => alone w w' here) point
    · exact kept_same kept rfl rfl (fun w' => setBody_other _ _ _ _ same) (setShared_other _ _ same) rfl
  | @left w i v next shared readers here late value =>
    by_cases same : j = i
    · subst same
      exact kept_left kept (invoked w here) (fun w' => alone w w' here) late value
    · exact kept_same kept rfl rfl (fun w' => setBody_other _ _ _ _ same) (setShared_other _ _ same) rfl
  | asked silent =>
    rcases silent with rfl | ⟨i,ready,rfl⟩
    · exact kept_same kept rfl rfl (fun w => rfl) rfl rfl
    · exact kept_same kept rfl rfl (fun w => rfl) rfl rfl
  | @read q i next shared value =>
    refine kept_same kept rfl rfl (fun w => rfl) ?_ rfl
    by_cases same : j = i
    · subst same
      simpa [setShared, moveReader] using value
    · exact setShared_other _ _ same
  | @got q i v next full =>
    by_cases same : j = i
    · subst same
      exact kept_got kept full
    · exact kept_same kept rfl rfl (fun w => rfl) (setShared_other _ _ same) (history_other _ same)

theorem run_kept (run : Run (step residue) AnyOrder {} s log) (j : J) : Kept s log j := by
  induction run with
  | nil =>
    constructor
    · intro _
      exact ⟨rfl,rfl⟩
    · simp
    · simp
    · exact .inl rfl
  | @next s s' log a e run allowed taken ih =>
    have invoked (w : W) (here : s.pool.threads_ w = .running (.inl j)) :
        (w, .inl j) ∈ invokedTasks (poolLog log) := run_running (run_pool run) here
    refine moved_kept ih (step_moved taken) (fun w here => ⟨w,invoked w here⟩) ?_
      (run_invokedOnce (.next run allowed taken) j)
    intro w w' here there
    exact entry_unique (run_invokedOnce run j) (invoked w' there) (invoked w here)

/-- What a ready future promises: its function was called once and has returned, and the
first `get` hands out, or will hand out, what it returned. -/
def Fulfilled (s : Submit W P Q J O R) (log : List (Event W P J O R)) (j : J) : Prop :=
  ∃ v gets, history j log = .called :: .returned v :: gets.map .got ∧
    (gets = [] → (s.shared j).value = some v) ∧ ∀ u ∈ gets.head?, u = v

/-- However workers, submitters and readers interleave: when a future is ready its function
has been called once and has returned, and the future holds what it returned until the first
`get` hands that out; no function is called twice. -/
theorem submit_runs_function (run : Run (step residue) AnyOrder ({} : Submit W P Q J O R) s log)
    (j : J) :
    ((s.shared j).value.isSome → Fulfilled s log j) ∧ (history j log).countP Note.isCalled ≤ 1 := by
  have kept := run_kept run j
  exact ⟨kept.ready,possible_calls kept.possible⟩

def toLambda (w : W) (p : P) (j : J) : List (Action W P Q J O R) :=
  [.submit p j, .pool (.push p), .pool (.push p), .pool (.work w), .pool (.work w), .pool (.work w),
   .pool (.work w), .pool (.work w), .pool (.work w), .pool (.work w)]

end Runs

def zeroed (_ : Unit) (_ : Nat) : Nat := 0

theorem answer_fulfilled :
    ∃ s : Submit Unit Unit Unit Unit Empty fun _ => Nat, ∃ log,
      Run (step zeroed) AnyOrder {} s log ∧ (s.shared ()).value = some 0 ∧
      Fulfilled s log () := by
  let actions : List (Action Unit Unit Unit Unit Empty fun _ => Nat) := toLambda () () () ++
    [.work (), .ask () () .get, .read (), .read (), .returns () () 42, .work (), .work (),
     .work (), .work (), .read (), .read (), .read (), .work (), .work ()]
  have computed : (replay (step zeroed) AnyOrder
      ({} : Submit Unit Unit Unit Unit Empty fun _ => Nat) [] actions).map
      (fun (s, _) => (s.shared ()).value) = some (some 0) := by
    decide +kernel
  obtain ⟨s,log,run,value⟩ := replay_reaches computed
  refine ⟨s,log,run,value,?_⟩
  have ready : (s.shared ()).value.isSome := Option.isSome_iff_exists.mpr ⟨_,value⟩
  exact (submit_runs_function run ()).1 ready

end Submit
end Aiopp
