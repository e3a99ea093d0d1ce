import Aiopp.DirectExecution

/-!
A task that is destroyed while it waits. Its frame goes together with the task that it awaits,
down to the frame that is suspended on an operation, whose awaiter cancels the operation and
gives up its registration. The operation itself is still on its way to the kernel or there.
-/
namespace Aiopp
namespace Coroutine
open DirectStyle IoQueue Transition
variable {C V L : Type}

def Machine.free (m : Machine C V L) (f : Nat) : Machine C V L :=
  { m with frameAt := Function.update m.frameAt f none }

def orphaned : IoQueue.Event → List UInt64
  | .destroyed _ (some id) => [id]
  | _ => []

/-- `handle.destroy()`: what lives in the frame at its point goes first. A frame that executes is
    not suspended and must not be destroyed. `depth` bounds the tasks inside each other. -/
def destroyFrame (slot : Sqe) : Nat → Machine C V L → Nat →
    Option (Machine C V L × List IoQueue.Event)
  | 0, _, _ => none
  | depth + 1, m, f =>
    match m.frameAt f with
    | none => none
    | some frame =>
      match frame.point with
      | .suspended address _ =>
        (m.io.step (.destroy address slot)).map fun (io, e) =>
          ({ m with io := io, orphans := orphaned e ++ m.orphans }.free f, [e])
      | .awaiting task _ =>
        (destroyFrame slot depth m task).map fun (m', events) => (m'.free f, events)
      | .final _ => some (m.free f, [])
      | .running _ => none
      | .issued _ _ => none

section Chain
variable {slot : Sqe} {m m' : Machine C V L} {f : Nat} {c : C} {child : Nat}
  {continuation : Option Nat} {ks : List (V → L)} {events : List IoQueue.Event}

def freed (frameAt : Nat → Option (Frame C V L)) (frames : List Nat) :
    Nat → Option (Frame C V L) :=
  fun f => if f ∈ frames then none else frameAt f

theorem freed_free (m : Machine C V L) (f : Nat) (frames : List Nat) :
    freed (m.free f).frameAt frames = freed m.frameAt (f :: frames) := by
  funext g
  by_cases same : g = f
  · simp [freed, Machine.free, same]
  · simp [freed, Machine.free, same]

theorem destroyFrame_deeper {depth : Nat} {done : Machine C V L × List IoQueue.Event}
    (destroyed : destroyFrame slot depth m f = some done) :
    destroyFrame slot (depth + 1) m f = some done := by
  induction depth generalizing f done with
  | zero => simp [destroyFrame] at destroyed
  | succ depth ih =>
    rw [destroyFrame] at destroyed ⊢
    cases stored : m.frameAt f with
    | none => simp [stored] at destroyed
    | some frame =>
      simp only [stored] at destroyed ⊢
      cases point : frame.point with
      | awaiting task k =>
        simp only [point] at destroyed ⊢
        obtain ⟨below,inner,rfl⟩ := Option.map_eq_some_iff.mp destroyed
        rw [ih inner]
        rfl
      | _ =>
        simp only [point] at destroyed ⊢
        exact destroyed

theorem destroyFrame_deep {depth more : Nat} {done : Machine C V L × List IoQueue.Event}
    (destroyed : destroyFrame slot depth m f = some done) (enough : depth ≤ more) :
    destroyFrame slot more m f = some done := by
  induction enough with
  | refl => exact destroyed
  | step _ ih => exact destroyFrame_deeper ih

theorem destroyed_chain {depth : Nat} {inner outer : List Nat}
    (linked : Linked m.frameAt c child continuation ks (inner ++ f :: outer))
    (destroyed : destroyFrame slot depth m child = some (m', events)) :
    ∃ m'', destroyFrame slot (depth + inner.length + 1) m f = some (m'', events) ∧
      m''.io = m'.io ∧ m''.orphans = m'.orphans ∧ m''.corrupted = m'.corrupted ∧
      m''.frameAt = freed m'.frameAt (inner ++ [f]) := by
  induction inner generalizing child continuation ks depth m' with
  | nil =>
    cases linked with
    | task stored rest =>
      have above : destroyFrame slot (depth + 1) m f = some (m'.free f, events) := by
        simp [destroyFrame, stored, destroyed]
      refine ⟨m'.free f,above,rfl,rfl,rfl,?_⟩
      funext g
      simp [freed, Machine.free, Function.update_apply]
  | cons caller inner ih =>
    cases linked with
    | task stored rest =>
      have above : destroyFrame slot (depth + 1) m caller = some (m'.free caller, events) := by
        simp [destroyFrame, stored, destroyed]
      obtain ⟨m'',deeper,io,orphans,corrupted,frames⟩ := ih rest above
      refine ⟨m'',?_,io,orphans,corrupted,?_⟩
      · rw [List.length_cons]
        exact destroyFrame_deep deeper (by omega)
      · rw [frames, freed_free]
        rfl

end Chain

section Leaf
variable {q : IoQueue} {address : Nat} {awaiter : OperationAwaiter}

theorem destroy_waiting (slot : Sqe) (lives : q.awaiterAt address = some awaiter)
    (valid : awaiter.operation.valid) :
    ∃ q', q.step (.destroy address slot) =
        some (q', .destroyed address (some awaiter.operation.id)) ∧
      (q.sq.length < q.sqEntries → q'.sq = q.sq ++
        [{ IoURing.prepareAsyncCancel slot awaiter.operation.id with user_data := OpIdIgnore }]) := by
  let requested := (q.dropCompleter awaiter.operation.id).finalizeSqe ((q.getSqe slot).map fun sqe =>
    IoURing.prepareAsyncCancel sqe awaiter.operation.id) OpIdIgnore
  have cancelled : q.cancel awaiter.operation true slot = some requested := if_pos valid
  have same : requested.2.awaiterAt = q.awaiterAt := finalizeSqe_awaiterAt _ _ _
  refine ⟨{ requested.2 with awaiterAt := Function.update q.awaiterAt address none },?_,?_⟩
  · simp only [IoQueue.step, IoQueue.destroy, lives, Option.bind_eq_bind, Option.bind_some, valid,
      ↓reduceIte, cancelled, Option.map_some, same]
  · intro room
    simp [requested, getSqe, room, finalizeSqe, dropCompleter]

theorem destroyed_unresumed {size : UInt64} {final : IoQueue} {later earlier : List IoQueue.Event}
    {id : UInt64}
    (reached : Reaches Prompt size final (later ++ .destroyed address (some id) :: earlier))
    (awaited : id ∈ awaitedIds earlier) : ∀ e ∈ later, ¬ Resumes id e := by
  intro e member resumes
  obtain ⟨cqe,r,rfl,own⟩ := resumes_consumption resumes
  obtain ⟨newer,older,rfl⟩ := List.append_of_mem member
  rw [List.append_assoc, List.cons_append] at reached
  rcases consumed_meets_registration prompt_vacant reached with ⟨nobody,_⟩ | ⟨a,caller,same,_,met⟩
  · simp at nobody
  · obtain rfl := Option.some.inj same
    obtain rfl : cqe.user_data = id := own
    have once := awaited_once (fun _ _ _ _ _ _ allowed => allowed.2.1) reached
    have start : registration cqe.user_data
        (.destroyed address (some cqe.user_data) :: earlier) = none := by
      simp [registration]
    have gone : registration cqe.user_data
        (older ++ .destroyed address (some cqe.user_data) :: earlier) = none := by
      refine registration_stays_none older start ?_
      intro place again
      have twice := awaited_mem again
      simp only [awaitedIds, awaitedIds_append] at once
      have apart := (List.nodup_append.mp once).2.1
      exact (List.nodup_append.mp apart).2.2 _ twice _ awaited rfl
    simp [gone] at met

end Leaf

section Corruption
variable {p : Program C V L} {m m' : Machine C V L} {a : Action C} {e : Event C V}

/-- A completion among `log` that used the buffers of one of these operations. -/
def Overwritten (ids : List UInt64) (log : List (Event C V)) : Prop :=
  ∃ e ∈ log, ∃ cqe, e.queue = some (.completed cqe) ∧ cqe.user_data ∈ ids ∧
    cqe.res ≠ cancelledResult

theorem overwrites_iff {qe : IoQueue.Event} : m.overwrites qe = true ↔
    ∃ cqe, qe = .completed cqe ∧ cqe.user_data ∈ m.orphans ∧ cqe.res ≠ cancelledResult := by
  cases qe with
  | completed cqe => simp [Machine.overwrites]
  | _ => simp [Machine.overwrites]

theorem overwritten_cons {ids : List UInt64} {log : List (Event C V)} :
    Overwritten ids (e :: log) ↔ Overwritten ids log ∨
      ∃ cqe, e.queue = some (.completed cqe) ∧ cqe.user_data ∈ ids ∧
        cqe.res ≠ cancelledResult := by
  simp [Overwritten, or_comm]

theorem moved_corrupts (moved : Moved p m a m' e) : m'.orphans = m.orphans ∧
    (m'.corrupted = true ↔ m.corrupted = true ∨ ∃ cqe, e.queue = some (.completed cqe) ∧
      cqe.user_data ∈ m.orphans ∧ cqe.res ≠ cancelledResult) := by
  cases moved with
  | background kind run => exact ⟨rfl,by simp [overwrites_iff]⟩
  | awaited active stored run =>
    cases step_taken run with
    | awaited => exact ⟨rfl,by simp [Machine.put]⟩
  | released active stored lives run =>
    cases step_taken run with
    | released => exact ⟨rfl,by simp [Machine.put]⟩
    | abandoned => exact ⟨rfl,by simp [Machine.put]⟩
  | _ => exact ⟨rfl,by simp [Machine.put]⟩

theorem run_corrupts {policy : Machine C V L → List (Event C V) → Action C → Prop}
    {log : List (Event C V)} (run : Run (step p) policy m m' log) : m'.orphans = m.orphans ∧
    (m'.corrupted = true ↔ m.corrupted = true ∨ Overwritten m.orphans log) := by
  induction run with
  | nil => exact ⟨rfl,by simp [Overwritten]⟩
  | next run allowed taken ih =>
    obtain ⟨orphans,corrupted⟩ := ih
    obtain ⟨kept,more⟩ := moved_corrupts (step_moved taken)
    refine ⟨kept.trans orphans,?_⟩
    rw [more, corrupted, overwritten_cons, orphans, or_assoc]

end Corruption

variable [DecidableEq C]

section Destruction
variable {p : Program C V L} {size : UInt64} {m m' : Machine C V L} {log : List (Event C V)}
  {c : C} {who : Option C} {id : UInt64} {address top : Nat} {continuation : Option Nat}
  {k : Int32 → L} {ks : List (V → L)} {ids : List Nat}

omit [DecidableEq C] in
theorem stack_owner {point : Point V L} (stack : Stack m.frameAt c top continuation point ks ids) :
    ∀ f ∈ top :: ids, ∃ frame, m.frameAt f = some frame ∧ frame.owner = c := by
  intro f member
  rcases List.mem_cons.mp member with rfl | outer
  · exact ⟨_,stack.stored,rfl⟩
  · exact linked_stored stack.linked f outer

omit [DecidableEq C] in
/-- The whole chain from the suspended frame to the destroyed one is freed, by one destructor of
an awaiter. -/
theorem destroyed_stack (slot : Sqe)
    (stack : Stack m.frameAt c top continuation (.suspended address k) ks ids)
    (awaiting : Awaiting m.io (queueLog log) id address top)
    (valid : OperationHandle.valid ⟨true,id⟩) {inner outer : List Nat} {f depth : Nat}
    (split : top :: ids = inner ++ f :: outer) (deep : inner.length < depth) :
    ∃ m', destroyFrame slot depth m f = some (m', [.destroyed address (some id)]) ∧
      m'.frameAt = freed m.frameAt (inner ++ [f]) ∧
      m'.orphans = id :: m.orphans ∧ m'.corrupted = m.corrupted ∧
      m.io.step (.destroy address slot) = some (m'.io, .destroyed address (some id)) ∧
      (m.io.sq.length < m.io.sqEntries → m'.io.sq = m.io.sq ++
        [{ IoURing.prepareAsyncCancel slot id with user_data := OpIdIgnore }]) := by
  obtain ⟨_,awaiter,lives,own,_⟩ := awaiting
  obtain ⟨io,taken,requested⟩ := destroy_waiting slot lives (own ▸ valid)
  rw [own] at taken requested
  have leaf : destroyFrame slot 1 m top =
      some ({ m with io := io, orphans := id :: m.orphans }.free top,
        [.destroyed address (some id)]) := by
    simp only [destroyFrame, stack.stored, taken, Option.map_some]
    rfl
  cases inner with
  | nil =>
    obtain ⟨rfl,_⟩ := List.cons.inj split
    refine ⟨_,destroyFrame_deep leaf deep,?_,rfl,rfl,taken,requested⟩
    funext g
    simp [freed, Machine.free, Function.update_apply]
  | cons first inner =>
    obtain ⟨rfl,rest⟩ := List.cons.inj split
    subst rest
    obtain ⟨m'',destroyed,same,orphans,corrupted,frames⟩ := destroyed_chain stack.linked leaf
    refine ⟨m'',destroyFrame_deep destroyed (by rw [List.length_cons] at deep; omega),?_,orphans,
      corrupted,?_,?_⟩
    · rw [frames, freed_free]
      rfl
    · rw [same]
      exact taken
    · rw [same]
      exact requested

theorem destroyed_elsewhere {slot : Sqe} (sound : Sound p size m log who)
    (stack : Stack m.frameAt c top continuation (.suspended address k) ks ids)
    (awaiting : Awaiting m.io (queueLog log) id address top) {frames : List Nat}
    (own_frames : ∀ f ∈ frames, f ∈ top :: ids)
    (taken : m.io.step (.destroy address slot) = some (m'.io, .destroyed address (some id)))
    (gone : m'.frameAt = freed m.frameAt frames) {c' : C} (other : c' ≠ c)
    (idle : Idle p m log c') :
    Idle p m' (⟨none,some (.destroyed address (some id))⟩ :: log) c' := by
  refine idle_kept idle rfl ?_ ?_
  · intro g frame owner stored
    rw [gone, freed, if_neg, stored]
    intro member
    obtain ⟨frame',stored',mine⟩ := stack_owner stack g (own_frames g member)
    obtain rfl := Option.some.inj (stored.symm.trans stored')
    exact other (owner.symm.trans mine)
  · intro id' address' top' resting awaiting'
    have allowed : Prompt m.io (queueLog log) (.destroy address slot) := trivial
    refine awaiting_kept sound.queue allowed (step_taken taken) awaiting' ?_ not_false
    -- the same operation would lead to the same frame, which has one owner
    intro same
    obtain rfl : id = id' := same
    obtain ⟨_,_,_,_,_,stack',_,registered,x,lives',_,caller'⟩ := resting
    obtain ⟨there,y,lives,_,caller⟩ := awaiting
    obtain rfl := Option.some.inj (there.symm.trans registered)
    obtain rfl := Option.some.inj (lives.symm.trans lives')
    rw [← caller', caller] at stack'
    exact other (congrArg Frame.owner (Option.some.inj (stack'.stored.symm.trans stack.stored)))

end Destruction

end Coroutine
end Aiopp
