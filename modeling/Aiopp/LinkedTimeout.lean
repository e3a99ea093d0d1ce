import Aiopp.Dispatch

/-!
The unsubmitted batch. `lastSqe_` is a bare position in it: every call that appends an
entry moves it, and every submission drops it together with the batch. A linked timeout
therefore lands directly behind the entry that was checked against its operation.
-/
namespace Aiopp
namespace IoQueue
open IoURing Transition

def isLinkTimeout (sqe : Sqe) : Bool := sqe.opcode = .linkTimeout

/-- The operations whose timeouts were linked since the last submission, oldest first. -/
def requested : List Event → List UInt64
  | [] => []
  | .linked op result :: log => if result.valid then requested log ++ [op.id] else requested log
  | .submitted :: _ => []
  | _ :: log => requested log

/-- A batch and the ids its timeouts guard, entry by entry. -/
inductive Batch : List Sqe → List UInt64 → Prop where
  | nil : Batch [] []
  | plain {sqes : List Sqe} {ids : List UInt64} {sqe : Sqe} (batch : Batch sqes ids)
      (other : isLinkTimeout sqe = false) : Batch (sqes ++ [sqe]) ids
  | timeout {sqes : List Sqe} {ids : List UInt64} {guarded sqe : Sqe} (batch : Batch sqes ids)
      (last : sqes.getLast? = some guarded) (chained : guarded.flags &&& IOSQE_IO_LINK ≠ 0)
      (timer : isLinkTimeout sqe = true) (ignored : sqe.user_data = OpIdIgnore) :
      Batch (sqes ++ [sqe]) (ids ++ [guarded.user_data])

theorem flags_linked (flags : UInt8) : (flags ||| IOSQE_IO_LINK) &&& IOSQE_IO_LINK ≠ 0 := by
  have bits : ∀ flags : BitVec 8, (flags ||| 4#8) &&& 4#8 = 4#8 := by decide
  intro none
  have linked := bits flags.toBitVec
  have zero : (flags.toBitVec ||| 4#8) &&& 4#8 = 0#8 := congrArg UInt8.toBitVec none
  rw [zero] at linked
  simp at linked

theorem batch_flag {sqes : List Sqe} {ids : List UInt64} {last : Sqe} {flags : UInt8}
    (batch : Batch (sqes ++ [last]) ids) : Batch (sqes ++ [{ last with flags := flags }]) ids := by
  generalize whole : sqes ++ [last] = list at batch
  cases batch with
  | nil => simp at whole
  | plain batch other =>
    obtain ⟨rfl,single⟩ := List.append_inj' whole rfl
    obtain rfl := List.singleton_inj.mp single
    exact .plain batch other
  | timeout batch before chained timer ignored =>
    obtain ⟨rfl,single⟩ := List.append_inj' whole rfl
    obtain rfl := List.singleton_inj.mp single
    exact .timeout batch before chained timer ignored

theorem batch_length {sqes : List Sqe} {ids : List UInt64} (batch : Batch sqes ids) :
    ids.length = sqes.countP isLinkTimeout := by
  induction batch with
  | nil => rfl
  | plain batch other ih => simp [ih, other]
  | timeout batch last chained timer ignored ih => simp [ih, timer]

/-- What the timeout at a position guards: the flagged entry before it, of its request. -/
def Guards (sqes : List Sqe) (ids : List UInt64) (k : Nat) : Prop :=
  ∃ before guarded, k = before + 1 ∧ sqes[before]? = some guarded ∧
    guarded.flags &&& IOSQE_IO_LINK ≠ 0 ∧
    ids[(sqes.take k).countP isLinkTimeout]? = some guarded.user_data

theorem guards_append {sqes : List Sqe} {ids : List UInt64} {k : Nat} (sqe : Sqe)
    (more : List UInt64) (inside : k < sqes.length) (guards : Guards sqes ids k) :
    Guards (sqes ++ [sqe]) (ids ++ more) k := by
  obtain ⟨before,guarded,rfl,found,chained,request⟩ := guards
  refine ⟨before,guarded,rfl,?_,chained,?_⟩
  · rwa [List.getElem?_append_left (by omega)]
  · rw [List.take_append_of_le_length (by omega)]
    have counted := (List.getElem?_eq_some_iff.mp request).1
    rwa [List.getElem?_append_left counted]

theorem batch_timeout {sqes : List Sqe} {ids : List UInt64} (batch : Batch sqes ids) {k : Nat}
    {sqe : Sqe} (here : sqes[k]? = some sqe) (timer : isLinkTimeout sqe = true) :
    sqe.user_data = OpIdIgnore ∧ Guards sqes ids k := by
  have bound := (List.getElem?_eq_some_iff.mp here).1
  induction batch with
  | nil => simp at here
  | @plain sqes ids new batch other ih =>
    rw [List.length_append, List.length_singleton] at bound
    by_cases inside : k < sqes.length
    · rw [List.getElem?_append_left inside] at here
      obtain ⟨ignored,guards⟩ := ih here inside
      refine ⟨ignored,?_⟩
      simpa using guards_append new [] inside guards
    · obtain rfl : k = sqes.length := by omega
      rw [List.getElem?_concat_length] at here
      cases here
      simp [timer] at other
  | @timeout sqes ids guarded new batch last chained newTimer ignored ih =>
    rw [List.length_append, List.length_singleton] at bound
    by_cases inside : k < sqes.length
    · rw [List.getElem?_append_left inside] at here
      obtain ⟨ignored,guards⟩ := ih here inside
      exact ⟨ignored,guards_append new _ inside guards⟩
    · obtain rfl : k = sqes.length := by omega
      rw [List.getElem?_concat_length] at here
      cases here
      rw [List.getLast?_eq_getElem?] at last
      have positive := (List.getElem?_eq_some_iff.mp last).1
      refine ⟨ignored,sqes.length - 1,guarded,by omega,?_,chained,?_⟩
      · rwa [List.getElem?_append_left (by omega)]
      · rw [List.take_left, ← batch_length batch, List.getElem?_concat_length]

structure Lined (q : IoQueue) (log : List Event) : Prop where
  last : ∀ i, q.lastSqe_ = some i → i + 1 = q.sq.length
  batch : Batch q.sq (requested log)

inductive Extends (q q' : IoQueue) : Prop where
  | same (sq : q'.sq = q.sq) (last : q'.lastSqe_ = q.lastSqe_)
  | appended (sqe : Sqe) (other : isLinkTimeout sqe = false) (sq : q'.sq = q.sq ++ [sqe])
      (last : q'.lastSqe_ = some q.sq.length)

section Calls
variable {q q' : IoQueue} {log : List Event} {e : Event}

theorem lined_extends (lined : Lined q log) (extended : Extends q q')
    (quiet : requested (e :: log) = requested log) : Lined q' (e :: log) := by
  cases extended with
  | same sq last =>
    constructor
    · rw [sq, last]
      exact lined.last
    · rw [sq, quiet]
      exact lined.batch
  | appended sqe other sq last =>
    constructor
    · intro i found
      rw [last] at found
      cases found
      simp [sq]
    · rw [sq, quiet]
      exact .plain lined.batch other

theorem finalizeSqe_extends (sqe : Option Sqe) (userData : UInt64)
    (other : ∀ entry ∈ sqe, isLinkTimeout entry = false) :
    Extends q (q.finalizeSqe sqe userData).2 := by
  cases sqe with
  | none => exact .same rfl rfl
  | some sqe => exact .appended { sqe with user_data := userData } (other sqe rfl) rfl rfl

theorem extends_base (q₁ : IoQueue) (sq : q₁.sq = q.sq) (last : q₁.lastSqe_ = q.lastSqe_)
    (called : Extends q₁ q') : Extends q q' := by
  cases called with
  | same sq' last' => exact .same (sq'.trans sq) (last'.trans last)
  | appended sqe other sq' last' => exact .appended sqe other (sq ▸ sq') (sq ▸ last')

theorem prepare_other (req : Request) (slot : Sqe) : isLinkTimeout (req.prepare slot) = false := by
  cases req <;> rfl

theorem issue_extends (req : Request) (slot : Sqe) : Extends q (q.issue req slot).2 := by
  have called : Extends q.getNextOpId.2 (q.issue req slot).2 := by
    apply finalizeSqe_extends
    intro entry found
    obtain ⟨empty,_,rfl⟩ := Option.map_eq_some_iff.mp found
    exact prepare_other req empty
  exact extends_base q.getNextOpId.2 rfl rfl called

theorem cancel_extends {op handle : OperationHandle} {cancelHandler : Bool} {slot : Sqe}
    (run : q.cancel op cancelHandler slot = some (handle, q')) : Extends q q' := by
  unfold cancel at run
  split at run
  · have final := congrArg Prod.snd (Option.some.inj run)
    change _ = q' at final
    rw [← final]
    refine extends_base (if cancelHandler then q.dropCompleter op.id else q) ?_ ?_
      (finalizeSqe_extends _ OpIdIgnore ?_)
    · split <;> rfl
    · split <;> rfl
    · intro entry found
      obtain ⟨empty,_,rfl⟩ := Option.map_eq_some_iff.mp found
      rfl
  · simp at run

theorem destroy_extends {address : Nat} {slot : Sqe} {cancelled : Option UInt64}
    (run : q.destroy address slot = some (q', cancelled)) : Extends q q' := by
  simp only [destroy, Option.bind_eq_bind, Option.bind_eq_some_iff] at run
  obtain ⟨awaiter,lives,rest⟩ := run
  split at rest
  · obtain ⟨⟨handle,q₁⟩,called,eq⟩ := Option.bind_eq_some_iff.mp rest
    cases eq
    cases cancel_extends called with
    | same sq last => exact .same sq last
    | appended sqe other sq last => exact .appended sqe other sq last
  · cases rest
    exact .same rfl rfl

theorem await_extends {op : OperationHandle} {address caller : Nat} {completer : UInt64}
    (run : q.await op address caller completer = some q') : Extends q q' := by
  obtain ⟨_,_,_,rfl⟩ := await_cases run
  exact .same rfl rfl

theorem dispatch_extends {cqe : Cqe} {resumed : Option Resumption}
    (run : q.dispatch cqe = some (q', resumed)) : Extends q q' := by
  obtain ⟨_,_,_,rfl,_⟩ := dispatch_frame run
  exact .same rfl rfl

theorem linkTimeout_lined {op result : OperationHandle} {ts : UInt64} {flags : Int32} {slot : Sqe}
    (lined : Lined q log) (run : q.linkTimeout op ts flags slot = some (result, q')) :
    Lined q' (.linked op result :: log) := by
  obtain ⟨valid,position,last,found,stored,guarded,linked,q₁,sqe,flagged,rfl,slotted,rfl,rfl⟩ :=
    linkTimeout_cases run
  have size := lined.last position found
  have ends : q.sq.getLast? = some last := by
    rw [List.getLast?_eq_getElem?, ← size]
    exact stored
  obtain ⟨earlier,whole⟩ : ∃ earlier, q.sq = earlier ++ [last] :=
    ⟨_,(List.dropLast_append_getLast? last ends).symm⟩
  obtain rfl : position = earlier.length := by
    rw [whole, List.length_append, List.length_singleton] at size
    omega
  have set_last : q.sq.set earlier.length linked = earlier ++ [linked] := by
    rw [whole]
    simp
  have batch : Batch (earlier ++ [linked]) (requested log) := by
    have before := lined.batch
    rw [whole] at before
    rw [flagged]
    exact batch_flag before
  cases sqe with
  | none =>
    -- the ring is full: the flag is set, the handle is not valid
    constructor
    · intro i here
      obtain rfl := Option.some.inj (found.symm.trans here)
      simp [finalizeSqe, set_last]
    · simpa [finalizeSqe, set_last, requested, OperationHandle.valid] using batch
  | some sqe =>
    obtain ⟨empty,_,rfl⟩ := Option.map_eq_some_iff.mp slotted.symm
    constructor
    · intro i here
      cases here
      simp [finalizeSqe]
    · simp only [finalizeSqe, set_last, Option.isSome_some, ↓reduceIte, requested, if_pos valid]
      have same_id : linked.user_data = op.id := by rw [flagged, ← guarded]
      rw [← same_id]
      refine .timeout batch (by simp) ?_ rfl rfl
      rw [flagged]
      exact flags_linked last.flags

/-- `lastSqe_` goes with the batch on a submission, and alone when it fails. -/
theorem step_lined {a : Action} (lined : Lined q log) (taken : q.step a = some (q', e)) :
    Lined q' (e :: log) := by
  cases a with
  | issue req slot =>
    rw [step_issue] at taken
    cases taken
    exact lined_extends lined (issue_extends req slot) rfl
  | linkTimeout op ts flags slot =>
    obtain ⟨⟨result,q₁⟩,run,eq⟩ := Option.map_eq_some_iff.mp taken
    cases eq
    exact linkTimeout_lined lined run
  | await op address caller completer =>
    simp only [step] at taken
    split at taken
    · obtain ⟨q₁,run,eq⟩ := Option.map_eq_some_iff.mp taken
      cases eq
      exact lined_extends lined (await_extends run) rfl
    · simp at taken
  | cancel op cancelHandler slot =>
    obtain ⟨⟨handle,q₁⟩,run,eq⟩ := Option.map_eq_some_iff.mp taken
    cases eq
    exact lined_extends lined (cancel_extends run) rfl
  | destroy address slot =>
    obtain ⟨⟨q₁,cancelled⟩,run,eq⟩ := Option.map_eq_some_iff.mp taken
    cases eq
    exact lined_extends lined (destroy_extends run) rfl
  | submit =>
    simp only [step] at taken
    split at taken
    · cases taken
      exact ⟨by simp,.nil⟩
    · simp at taken
  | submitFails =>
    simp only [step] at taken
    split at taken
    · cases taken
      exact ⟨by simp,lined.batch⟩
    · simp at taken
  | complete position res =>
    simp only [step] at taken
    split at taken
    · simp at taken
    · cases taken
      exact lined_extends lined (.same rfl rfl) rfl
  | consume =>
    simp only [step] at taken
    split at taken
    · split at taken
      · simp at taken
      · rename_i cqe rest queued
        obtain ⟨⟨q₁,resumed⟩,run,eq⟩ := Option.map_eq_some_iff.mp taken
        cases eq
        exact lined_extends lined (extends_base { q with cq := rest } rfl rfl (dispatch_extends run)) rfl
    · simp at taken

end Calls

section Runs
variable {policy : IoQueue → List Event → Action → Prop} {size : UInt64} {q : IoQueue}
  {log : List Event}

theorem reaches_lined (reached : Reaches policy size q log) : Lined q log := by
  obtain ⟨q₀,made,run⟩ := reached
  refine run.invariant Lined ?_ ?_
  · obtain ⟨completers,new,rfl⟩ := Option.map_eq_some_iff.mp made
    exact ⟨by simp,.nil⟩
  · intro q log a q' e lined _ taken
    exact step_lined lined taken

/-- However the queue is used, `lastSqe_` is the newest entry of the batch, and every
timeout of the batch stands directly behind the flagged entry of the operation it was
requested for. -/
theorem linked_timeout_guards_operation (reached : Reaches policy size q log) :
    (∀ i, q.lastSqe_ = some i → i + 1 = q.sq.length) ∧
    (requested log).length = q.sq.countP isLinkTimeout ∧
    ∀ (k : Nat) sqe, q.sq[k]? = some sqe → sqe.opcode = .linkTimeout →
      sqe.user_data = OpIdIgnore ∧ ∃ before guarded, k = before + 1 ∧
        q.sq[before]? = some guarded ∧ guarded.flags &&& IOSQE_IO_LINK ≠ 0 ∧
        (requested log)[(q.sq.take k).countP isLinkTimeout]? = some guarded.user_data := by
  have lined := reaches_lined reached
  refine ⟨lined.last,batch_length lined.batch,fun k sqe here timer => ?_⟩
  exact batch_timeout lined.batch here (by simp [isLinkTimeout, timer])

end Runs

theorem two_timeouts_guard_own_reads :
    ∃ q log, Reaches Prompt 0 q log ∧ requested log = [1, 2] ∧
      q.sq.map isLinkTimeout = [false, false, true, false, false, true] ∧
      ∀ i, q.lastSqe_ = some i → i + 1 = q.sq.length := by
  let actions : List Action := [.issue (.read 3 64 8) blankSqe, .issue (.read 4 128 8) blankSqe,
    .linkTimeout ⟨true,1⟩ 256 0 blankSqe, .cancel ⟨true,0⟩ false blankSqe,
    .issue (.read 5 64 8) blankSqe, .linkTimeout ⟨true,2⟩ 512 0 blankSqe]
  have computed : ((create 0).bind fun q₀ =>
      (replay step Prompt q₀ [] actions).map fun (q, log) =>
        (requested log, q.sq.map isLinkTimeout)) =
      some ([1, 2], [false, false, true, false, false, true]) := by decide +kernel
  obtain ⟨q₀,made,rest⟩ := Option.bind_eq_some_iff.mp computed
  obtain ⟨q,log,run,facts⟩ := replay_reaches rest
  obtain ⟨ids,timers⟩ := Prod.mk.inj facts
  have reached : Reaches Prompt 0 q log := ⟨q₀,made,run⟩
  exact ⟨q,log,reached,ids,timers,(linked_timeout_guards_operation reached).1⟩

end IoQueue
end Aiopp
