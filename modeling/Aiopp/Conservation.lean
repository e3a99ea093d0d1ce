import Aiopp.Registration
import Mathlib.Data.List.Perm.Basic

/-!
Operation ids over a run: each id is drawn once, and an issued operation is in
exactly one place until its completion is consumed - queued, in flight, or
completed and waiting in the ring.
-/
namespace Aiopp
namespace IoQueue
open CompleterMap Transition

def drawn : List Event → Nat
  | [] => 0
  | .issued _ _ :: older => drawn older + 1
  | _ :: older => drawn older

def issuedBy : Event → List UInt64
  | .issued id op => if op.valid then [id] else []
  | _ => []

def consumedBy : Event → List UInt64
  | .consumed cqe _ => if cqe.user_data = OpIdIgnore then [] else [cqe.user_data]
  | _ => []

def issuedIds (log : List Event) : List UInt64 := log.flatMap issuedBy
def consumedIds (log : List Event) : List UInt64 := log.flatMap consumedBy

def userDatas (sqes : List Sqe) : List UInt64 := sqes.map Sqe.user_data

def outstanding (q : IoQueue) : List UInt64 :=
  (userDatas q.sq ++ userDatas q.inflight ++ q.cq.map Cqe.user_data).filter (· ≠ OpIdIgnore)

def SameTraffic (q q' : IoQueue) : Prop :=
  q'.nextOpId_ = q.nextOpId_ ∧ userDatas q'.sq = userDatas q.sq ∧ q'.inflight = q.inflight ∧
    q'.cq = q.cq

theorem outstanding_same {q q' : IoQueue} (same : SameTraffic q q') :
    outstanding q' = outstanding q := by
  obtain ⟨_,hs,hi,hc⟩ := same
  rw [outstanding, outstanding, hs, hi, hc]

theorem finalizeSqe_ignored (q : IoQueue) (sqe : Option Sqe) :
    outstanding (q.finalizeSqe sqe OpIdIgnore).2 = outstanding q := by
  cases sqe with
  | none => rfl
  | some sqe => simp [finalizeSqe, outstanding, userDatas, List.filter_append]

theorem finalizeSqe_nextOpId (q : IoQueue) (sqe : Option Sqe) (userData : UInt64) :
    (q.finalizeSqe sqe userData).2.nextOpId_ = q.nextOpId_ := by
  cases sqe <;> rfl

structure Conserved (q : IoQueue) (log : List Event) : Prop where
  next : q.nextOpId_.toNat = drawn log
  bound : drawn log < 2 ^ 64 - 2
  below : ∀ id ∈ issuedIds log, id.toNat < drawn log
  nodup : (issuedIds log).Nodup
  perm : (issuedIds log).Perm (outstanding q ++ consumedIds log)

/-- Fewer than 2^64 - 2 ids in all: the counter reaches neither reserved value. -/
def Bounded (log : List Event) : Action → Prop
  | .issue _ _ => drawn log + 1 < 2 ^ 64 - 2
  | _ => True

theorem getNextOpId_ordinary (q : IoQueue) :
    q.getNextOpId.1 ≠ OpIdInvalid ∧ q.getNextOpId.1 ≠ OpIdIgnore := by
  simp only [getNextOpId]
  split
  · decide
  · rename_i ordinary
    exact not_or.mp ordinary

theorem getNextOpId_eq {q : IoQueue} {log : List Event} (next : q.nextOpId_.toNat = drawn log)
    (bound : drawn log < 2 ^ 64 - 2) :
    q.getNextOpId.1.toNat = drawn log ∧ (q.getNextOpId.1 + 1).toNat = drawn log + 1 := by
  have ordinary : ¬ (q.nextOpId_ = OpIdInvalid ∨ q.nextOpId_ = OpIdIgnore) := by
    rintro (eq | eq) <;> rw [eq] at next <;> simp [OpIdInvalid, OpIdIgnore] at next <;> omega
  have same : q.getNextOpId.1 = q.nextOpId_ := by simp [getNextOpId, ordinary]
  rw [same, UInt64.toNat_add, next, UInt64.toNat_one]
  omega

section Steps
variable {q q' : IoQueue}

theorem issue_cases (q : IoQueue) (req : Request) (slot : Sqe) :
    ((q.issue req slot).1 = {} ∧ (q.issue req slot).2 = q.getNextOpId.2) ∨
    ((q.issue req slot).1 = ⟨true,q.getNextOpId.1⟩ ∧ ∃ sqe, sqe.user_data = q.getNextOpId.1 ∧
      (q.issue req slot).2 =
        { q.getNextOpId.2 with sq := q.sq ++ [sqe], lastSqe_ := some q.sq.length }) := by
  unfold issue getSqe
  split
  · exact .inr ⟨rfl,_,rfl,rfl⟩
  · exact .inl ⟨rfl,rfl⟩

theorem userDatas_set {sqes : List Sqe} {position : Nat} {last sqe : Sqe}
    (stored : sqes[position]? = some last) (same : sqe.user_data = last.user_data) :
    userDatas (sqes.set position sqe) = userDatas sqes := by
  obtain ⟨inside,rfl⟩ := List.getElem?_eq_some_iff.mp stored
  rw [userDatas, userDatas, List.map_set, same]
  apply List.ext_getElem (by simp)
  intro i hi hj
  simp only [List.getElem_set, List.getElem_map]
  split
  · rename_i at_i
    simp [at_i]
  · rfl

theorem linkTimeout_traffic {op result : OperationHandle} {ts : UInt64} {flags : Int32}
    {slot : Sqe} (run : q.linkTimeout op ts flags slot = some (result, q')) :
    ∃ q₁ sqe, SameTraffic q q₁ ∧ q' = (q₁.finalizeSqe sqe OpIdIgnore).2 := by
  obtain ⟨_,position,last,_,stored,_,linked,q₁,sqe,flagged,rfl,_,rfl,_⟩ := linkTimeout_cases run
  have same : linked.user_data = last.user_data := by rw [flagged]
  exact ⟨{ q with sq := q.sq.set position linked },sqe,⟨rfl,userDatas_set stored same,rfl,rfl⟩,rfl⟩

theorem await_traffic {op : OperationHandle} {address caller : Nat} {completer : UInt64}
    (run : q.await op address caller completer = some q') : SameTraffic q q' := by
  obtain ⟨_,_,_,rfl⟩ := await_cases run
  exact ⟨rfl,rfl,rfl,rfl⟩

theorem dispatch_traffic {cqe : Cqe} {resumed : Option Resumption}
    (run : q.dispatch cqe = some (q', resumed)) : SameTraffic q q' := by
  obtain ⟨_,_,_,rfl,_⟩ := dispatch_frame run
  exact ⟨rfl,rfl,rfl,rfl⟩

/-- What one step does to the operations under way. -/
theorem taken_outstanding {action : Action} {e : Event} (taken : Taken q action q' e) :
    (outstanding q' ++ consumedBy e).Perm (issuedBy e ++ outstanding q) := by
  cases taken with
  | issued req slot =>
    have ordinary := getNextOpId_ordinary q
    rcases issue_cases q req slot with ⟨full,state⟩ | ⟨handle,sqe,data,state⟩
    · rw [full, state]
      simp [issuedBy, consumedBy, OperationHandle.valid, getNextOpId, outstanding]
    · rw [handle, state]
      have valid : OperationHandle.valid ⟨true,q.getNextOpId.1⟩ = true := by
        simp [OperationHandle.valid, ordinary.1]
      simp only [issuedBy, consumedBy, valid, outstanding, userDatas, List.filter_append,
        List.map_append, List.map_cons, List.map_nil, data, List.append_nil]
      simp only [getNextOpId, List.filter_cons, List.filter_nil]
      rw [if_pos (by simpa [getNextOpId] using ordinary.2)]
      simp only [List.append_assoc, ↓reduceIte, List.cons_append, List.nil_append]
      exact List.perm_middle
  | linked run =>
    obtain ⟨q₂,sqe,same,rfl⟩ := linkTimeout_traffic run
    simp [issuedBy, consumedBy, finalizeSqe_ignored, outstanding_same same]
  | awaited free unused nonempty unmarked run =>
    simp [issuedBy, consumedBy, outstanding_same (await_traffic run)]
  | @cancelled op cancelHandler slot sqe valid =>
    simp only [issuedBy, consumedBy, finalizeSqe_ignored, List.append_nil, List.nil_append]
    cases cancelHandler <;> exact .refl _
  | released lives cleared => simp [issuedBy, consumedBy, outstanding]
  | @abandoned address slot awaiter sqe lives valid =>
    have ignored := finalizeSqe_ignored (q.dropCompleter awaiter.operation.id) sqe
    simp only [issuedBy, consumedBy, List.append_nil, List.nil_append]
    exact .of_eq ignored
  | submitted active =>
    simp only [issuedBy, consumedBy, outstanding, userDatas, List.append_nil, List.nil_append,
      List.map_nil, List.map_append]
    exact (List.perm_append_comm.append_right _).filter _
  | submitFailed active => simp [issuedBy, consumedBy, outstanding]
  | @completed position sqe res flying =>
    simp only [issuedBy, consumedBy, outstanding, List.append_nil, List.nil_append]
    apply List.Perm.filter
    obtain ⟨inside,rfl⟩ := List.getElem?_eq_some_iff.mp flying
    have moved := (List.getElem_cons_eraseIdx_perm inside).map Sqe.user_data
    simp only [userDatas, List.map_append, List.append_assoc, List.map_cons, List.map_nil]
    apply List.Perm.append_left
    calc
      _ = (q.inflight.eraseIdx position).map Sqe.user_data ++ q.cq.map Cqe.user_data ++
          [q.inflight[position].user_data] := (List.append_assoc _ _ _).symm
      List.Perm _ (q.inflight[position].user_data ::
          ((q.inflight.eraseIdx position).map Sqe.user_data ++ q.cq.map Cqe.user_data)) :=
        List.perm_append_singleton _ _
      List.Perm _ (q.inflight.map Sqe.user_data ++ q.cq.map Cqe.user_data) :=
        moved.append_right _
  | @consumed cqe rest resumed q' active queued run =>
    have popped := dispatch_traffic run
    simp only [issuedBy, consumedBy, List.nil_append, outstanding_same popped]
    simp only [outstanding, queued, List.map_cons]
    by_cases ignored : cqe.user_data = OpIdIgnore
    · simp [ignored, List.filter_append]
    · simp only [List.filter_append, List.filter_cons, if_neg ignored, List.append_assoc]
      rw [if_pos (by simpa using ignored)]
      exact ((List.perm_append_singleton _ _).append_left _).append_left _

theorem taken_counter {action : Action} {e : Event} (taken : Taken q action q' e) :
    (∃ req slot op, action = .issue req slot ∧ e = .issued q.getNextOpId.1 op ∧
      q'.nextOpId_ = q.getNextOpId.1 + 1) ∨
    ((∀ older, drawn (e :: older) = drawn older) ∧ issuedBy e = [] ∧
      q'.nextOpId_ = q.nextOpId_) := by
  cases taken with
  | issued req slot =>
    refine .inl ⟨req,slot,_,rfl,rfl,?_⟩
    rw [issue, finalizeSqe_nextOpId]
    rfl
  | linked run =>
    obtain ⟨q₂,sqe,same,rfl⟩ := linkTimeout_traffic run
    exact .inr ⟨fun _ => rfl,rfl,by rw [finalizeSqe_nextOpId, same.1]⟩
  | awaited free unused nonempty unmarked run =>
    exact .inr ⟨fun _ => rfl,rfl,(await_traffic run).1⟩
  | @cancelled op cancelHandler slot sqe valid =>
    refine .inr ⟨fun _ => rfl,rfl,?_⟩
    rw [finalizeSqe_nextOpId]
    cases cancelHandler <;> rfl
  | abandoned sqe lives valid =>
    exact .inr ⟨fun _ => rfl,rfl,finalizeSqe_nextOpId (q.dropCompleter _) sqe OpIdIgnore⟩
  | consumed active queued run => exact .inr ⟨fun _ => rfl,rfl,(dispatch_traffic run).1⟩
  | released | submitted | submitFailed | completed => exact .inr ⟨fun _ => rfl,rfl,rfl⟩

theorem taken_conserved {action : Action} {e : Event} {log : List Event}
    (conserved : Conserved q log) (bounded : Bounded log action)
    (taken : Taken q action q' e) : Conserved q' (e :: log) := by
  have moved := taken_outstanding taken
  have perm : (issuedIds (e :: log)).Perm (outstanding q' ++ consumedIds (e :: log)) := by
    simp only [issuedIds, consumedIds, List.flatMap_cons]
    calc
      List.Perm (issuedBy e ++ log.flatMap issuedBy)
          (issuedBy e ++ (outstanding q ++ log.flatMap consumedBy)) := conserved.perm.append_left _
      List.Perm _ (outstanding q' ++ (consumedBy e ++ log.flatMap consumedBy)) := by
        rw [← List.append_assoc, ← List.append_assoc]
        exact (moved.append_right _).symm
  rcases taken_counter taken with ⟨req,slot,op,rfl,rfl,next⟩ | ⟨count,none_issued,next⟩
  · have ids := getNextOpId_eq conserved.next conserved.bound
    refine ⟨by rw [next]; exact ids.2,bounded,?_,?_,perm⟩
    · intro id member
      simp only [issuedIds, List.flatMap_cons, List.mem_append] at member
      rcases member with new | old
      · simp only [issuedBy] at new
        split at new
        · simp only [List.mem_singleton] at new
          rw [new, ids.1]
          simp [drawn]
        · simp at new
      · have := conserved.below id old
        simp only [drawn]
        omega
    · simp only [issuedIds, List.flatMap_cons, issuedBy]
      split
      · refine List.nodup_cons.mpr ⟨fun repeated => ?_,conserved.nodup⟩
        have := conserved.below _ repeated
        omega
      · exact conserved.nodup
  · have same : issuedIds (e :: log) = issuedIds log := by
      simp [issuedIds, none_issued]
    refine ⟨?_,?_,?_,?_,perm⟩
    · rw [next, count, conserved.next]
    · rw [count]
      exact conserved.bound
    · rw [same, count]
      exact conserved.below
    · rw [same]
      exact conserved.nodup

end Steps
end IoQueue
end Aiopp
