import Aiopp.Cancellation

/-!
Calls that find no free slot in the ring. Each of them returns an invalid handle; what it
has changed by then depends on what it does before it asks for the slot.
-/
namespace Aiopp
namespace IoQueue
open CompleterMap Transition

section Full
variable {q : IoQueue} {slot : Sqe}

theorem issue_full (full : q.getSqe slot = none) (req : Request) :
    q.issue req slot = ({}, { q with nextOpId_ := q.getNextOpId.1 + 1 }) := by
  simp [issue, full, finalizeSqe, getNextOpId]

theorem getSqe_set (position : Nat) (sqe : Sqe) :
    { q with sq := q.sq.set position sqe }.getSqe slot = q.getSqe slot := by
  simp [getSqe]

/-- The last entry is marked as linked before the slot for its timeout is asked for. -/
theorem linkTimeout_full (full : q.getSqe slot = none) {op : OperationHandle} {position : Nat}
    {last : Sqe} (valid : op.valid) (found : q.lastSqe_ = some position)
    (stored : q.sq[position]? = some last) (own : last.user_data = op.id) (ts : UInt64)
    (flags : Int32) :
    q.linkTimeout op ts flags slot = some ({}, { q with
      sq := q.sq.set position { last with flags := last.flags ||| IoURing.IOSQE_IO_LINK } }) := by
  have passed : guard (op.valid = true) = some () := by simp [valid]
  have checked : guard (last.user_data = op.id) = some () := by simp [own]
  have still_full := (getSqe_set position
    { last with flags := last.flags ||| IoURing.IOSQE_IO_LINK }).trans full
  rw [found] at still_full
  simp only [linkTimeout, passed, found, stored, checked, Option.bind_eq_bind, Option.bind_some,
    still_full, Option.map_none, finalizeSqe]
  rfl

/-- The handler is dropped before the slot for the request is asked for. -/
theorem cancel_full (full : q.getSqe slot = none) {op : OperationHandle} (valid : op.valid)
    (cancelHandler : Bool) :
    q.cancel op cancelHandler slot =
      some ({}, if cancelHandler then q.dropCompleter op.id else q) := by
  have kept : (q.dropCompleter op.id).getSqe slot = q.getSqe slot := rfl
  cases cancelHandler with
  | false => simp [cancel, valid, full, finalizeSqe]
  | true => simp [cancel, valid, kept, full, finalizeSqe]

/-- Without a slot a call returns an invalid handle. An operation uses up its id; a cancel
changes nothing but the completer it is asked to drop; a timeout leaves every entry but the
one it was to be linked to, and of that one everything but the flags. -/
theorem full_ring_frame (full : q.getSqe slot = none) :
    (∀ req, (q.issue req slot).1.valid = false ∧
      (q.issue req slot).2 = { q with nextOpId_ := q.getNextOpId.1 + 1 }) ∧
    (∀ op ts flags position last, op.valid → q.lastSqe_ = some position →
      q.sq[position]? = some last → last.user_data = op.id → ∃ result kept,
        q.linkTimeout op ts flags slot =
          some (result, { q with sq := q.sq.set position { last with flags := kept } }) ∧
        result.valid = false) ∧
    (∀ op, op.valid → ∃ result, q.cancel op false slot = some (result, q) ∧
      result.valid = false) ∧
    ∀ op, op.valid → ∃ result q', q.cancel op true slot = some (result, q') ∧
      result.valid = false ∧
      q' = { q with completers_ := q'.completers_, completerAt := q'.completerAt } ∧
      (∀ id, id ≠ op.id → q'.completers_.get id = q.completers_.get id) ∧
      ∀ content, q.completers_.Represents content →
        q'.completers_.Represents (Function.update content op.id none) := by
  refine ⟨?_,?_,?_,?_⟩
  · intro req
    rw [issue_full full]
    exact ⟨rfl,rfl⟩
  · intro op ts flags position last valid found stored own
    exact ⟨{},_,linkTimeout_full full valid found stored own ts flags,rfl⟩
  · intro op valid
    exact ⟨{},cancel_full full valid false,rfl⟩
  · intro op valid
    refine ⟨{},q.dropCompleter op.id,cancel_full full valid true,rfl,rfl,?_,?_⟩
    · intro id apart
      exact remove_get_other q.completers_ apart
    · intro content represents
      exact (represents_remove represents op.id).2

end Full

def filled : List Action :=
  .issue (.read 3 64 8) blankSqe :: .await ⟨true,0⟩ 100 0 16 ::
    List.replicate 63 (.issue (.read 3 64 8) blankSqe)

theorem full_ring_frame_reached :
    ∃ q log, Reaches Proper 0 q log ∧ q.getSqe blankSqe = none ∧ q.sq.length = 64 ∧
      OperationHandle.valid ⟨true,0⟩ = true ∧ ∃ result,
        q.cancel ⟨true,0⟩ false blankSqe = some (result, q) ∧ result.valid = false := by
  have computed : ((create 0).bind fun q₀ => (replay step Proper q₀ [] filled).map fun (q, _) =>
      decide (q.getSqe blankSqe = none ∧ q.sq.length = 64)) = some true := by decide +kernel
  obtain ⟨q₀,made,rest⟩ := Option.bind_eq_some_iff.mp computed
  obtain ⟨q,log,run,facts⟩ := replay_reaches rest
  obtain ⟨full,entries⟩ := of_decide_eq_true facts
  have kept := (full_ring_frame full).2.2.1 ⟨true,0⟩ rfl
  exact ⟨q,log,⟨q₀,made,run⟩,full,entries,rfl,kept⟩

/-- A cancel into the full ring has dropped the handler although nothing is cancelled, and
a timeout has linked the last entry to whatever is prepared next. -/
theorem full_ring_disturbed :
    ∃ q log, Reaches Proper 0 q log ∧ q.getSqe blankSqe = none ∧
      (∃ result q', q.cancel ⟨true,0⟩ true blankSqe = some (result, q') ∧
        result.valid = false ∧ q'.completers_ ≠ q.completers_) ∧
      ∃ result q', q.linkTimeout ⟨true,63⟩ 256 0 blankSqe = some (result, q') ∧
        result.valid = false ∧ q'.sq ≠ q.sq := by
  have computed : ((create 0).bind fun q₀ => (replay step Proper q₀ [] filled).bind fun reached =>
      (reached.1.cancel ⟨true,0⟩ true blankSqe).bind fun cancelled =>
        (reached.1.linkTimeout ⟨true,63⟩ 256 0 blankSqe).map fun linked =>
          decide (reached.1.getSqe blankSqe = none ∧ (cancelled.1.valid = false ∧
            cancelled.2.completers_ ≠ reached.1.completers_) ∧ linked.1.valid = false ∧
            linked.2.sq ≠ reached.1.sq)) = some true := by
    decide +kernel
  obtain ⟨q₀,made,rest⟩ := Option.bind_eq_some_iff.mp computed
  obtain ⟨⟨q,log⟩,played,rest⟩ := Option.bind_eq_some_iff.mp rest
  obtain ⟨⟨cancelled,q₁⟩,cancelRun,rest⟩ := Option.bind_eq_some_iff.mp rest
  obtain ⟨⟨linked,q₂⟩,linkRun,facts⟩ := Option.map_eq_some_iff.mp rest
  obtain ⟨full,dropped,flagged⟩ := of_decide_eq_true facts
  have reached : Reaches Proper 0 q log := ⟨q₀,made,replay_run .nil played⟩
  exact ⟨q,log,reached,full,⟨cancelled,q₁,cancelRun,dropped⟩,linked,q₂,linkRun,flagged⟩

end IoQueue
end Aiopp
