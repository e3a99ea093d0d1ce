import Aiopp.CoroutineHistory

/-!
Where a coroutine stands between two steps of a run. While it waits, one awaiter is
registered for its pending operation and resumes its innermost frame; while one of
its frames has control, no awaiter of it is registered.
-/
namespace Aiopp

namespace IoQueue
variable {size : UInt64} {q q' : IoQueue} {log : List Event} {a : Action} {e : Event}
  {id : UInt64} {address caller : Nat}

/-- The awaiter registered for an operation, and the frame it resumes. -/
structure Awaiting (q : IoQueue) (log : List Event) (id : UInt64) (address caller : Nat) : Prop where
  registered : registration id log = some address
  lives : ∃ awaiter, q.awaiterAt address = some awaiter ∧ awaiter.operation = ⟨true,id⟩ ∧
    awaiter.caller = caller

theorem registered_awaiter {content : UInt64 → Option UInt64} (linked : Linked q log content)
    (registered : registration id log = some address) :
    ∃ awaiter, q.awaiterAt address = some awaiter ∧ awaiter.operation = ⟨true,id⟩ := by
  cases target : content id with
  | none => simp [linked.absent id target] at registered
  | some completer =>
    obtain ⟨place,awaiter,_,lives,own,there⟩ := linked.present id completer target
    obtain rfl := Option.some.inj (there.symm.trans registered)
    exact ⟨awaiter,lives,own⟩

theorem awaiting_valid (reached : Reaches Prompt size q log)
    (registered : registration id log = some address) : OperationHandle.valid ⟨true,id⟩ := by
  have issued := awaited_issued (fun _ _ _ _ _ _ allowed => allowed.1) reached id
    (awaited_mem (registration_awaited registered))
  have ordinary := (issued_ordinary (reaches_conserved prompt_bounded reached) issued).1
  simp [OperationHandle.valid, ordinary]

theorem await_awaiterAt {op : OperationHandle} {completer : UInt64}
    (run : q.await op address caller completer = some q') :
    q'.awaiterAt = Function.update q.awaiterAt address (some ⟨op,caller,-2147483648⟩) := by
  obtain ⟨_,_,_,rfl⟩ := await_cases run
  rfl

theorem awaiting_kept (reached : Reaches Prompt size q log) (allowed : Prompt q log a)
    (taken : Taken q a q' e) (awaiting : Awaiting q log id address caller)
    (unsilenced : ¬ Silences id e) (unresumed : ¬ Resumes id e) :
    Awaiting q' (e :: log) id address caller := by
  obtain ⟨registered,awaiter,lives,own,mine⟩ := awaiting
  have valid := awaiting_valid reached registered
  obtain ⟨content,linked⟩ := reaches_linked prompt_vacant reached
  have stays : registration id (e :: log) = some address := by
    rcases registration_cons id e log with ⟨other,rfl,_⟩ | ⟨ended,_⟩ | ⟨_,_,_,same⟩
    · cases taken with
      | awaited =>
        exact absurd (awaited_mem (registration_awaited registered)) allowed.2.1
    · exact absurd ended (not_or.mpr ⟨unsilenced,unresumed⟩)
    · exact same.trans registered
  refine ⟨stays,awaiter,?_,own,mine⟩
  cases taken with
  | issued req slot =>
    rw [(issue_registry q req slot).2.2]
    exact lives
  | linked run =>
    rw [(linkTimeout_registry run).2.2]
    exact lives
  | awaited vacant unused nonempty unmarked run =>
    rw [await_awaiterAt run, Function.update_of_ne, lives]
    rintro rfl
    simp [lives] at vacant
  | @cancelled op cancelHandler slot sqe _ =>
    rw [finalizeSqe_awaiterAt]
    cases cancelHandler <;> exact lives
  | released there cleared =>
    change Function.update _ _ _ _ = _
    rw [Function.update_of_ne, lives]
    rintro rfl
    obtain rfl := Option.some.inj (lives.symm.trans there)
    rw [own, valid] at cleared
    exact absurd cleared Bool.true_eq_false.mp
  | abandoned sqe there _ =>
    change Function.update _ _ _ _ = _
    rw [Function.update_of_ne, lives]
    rintro rfl
    obtain rfl := Option.some.inj (lives.symm.trans there)
    exact unsilenced (congrArg OperationHandle.id own)
  | submitted | submitFailed | completed => exact lives
  | @consumed cqe rest resumed q' active queued run =>
    have popped : Linked { q with cq := rest } log content :=
      linked_frame linked (by simp [SameRegistry]) fun _ => rfl
    rcases dispatch_cases popped cqe with
      ⟨idle,_⟩ | ⟨q₁,place,caller',done,_,met,_,⟨other,_,_,changed⟩,_⟩
    · obtain ⟨rfl,rfl⟩ := Prod.mk.inj (Option.some.inj (run.symm.trans idle))
      exact lives
    · obtain ⟨rfl,rfl⟩ := Prod.mk.inj (Option.some.inj (run.symm.trans done))
      rw [changed, Function.update_of_ne]
      · exact lives
      · rintro rfl
        obtain ⟨awaiter',lives',own'⟩ := registered_awaiter linked met
        obtain rfl := Option.some.inj (lives.symm.trans lives')
        exact unresumed (congrArg OperationHandle.id (own'.symm.trans own))

theorem consume_resumes {cqe : Cqe} {r : Resumption} (reached : Reaches Prompt size q log)
    (taken : q.step .consume = some (q', .consumed cqe (some r))) :
    r.operation.id = cqe.user_data ∧ registration cqe.user_data log = some r.address ∧
      ∃ awaiter, q.awaiterAt r.address = some awaiter ∧ awaiter.caller = r.caller ∧
        q'.awaiterAt r.address = some { awaiter with result := cqe.res, operation := {} } := by
  obtain ⟨content,linked⟩ := reaches_linked prompt_vacant reached
  have consumed := step_taken taken
  cases consumed with
  | @consumed _ rest _ _ running queued run =>
    have popped : Linked { q with cq := rest } log content :=
      linked_frame linked (by simp [SameRegistry]) fun _ => rfl
    rcases dispatch_cases popped cqe with
      ⟨idle,_⟩ | ⟨q₁,address,caller,done,_,met,_,⟨awaiter,lives,own,changed⟩,_⟩
    · simp [idle] at run
    · obtain ⟨rfl,same⟩ := Prod.mk.inj (Option.some.inj (run.symm.trans done))
      cases same
      refine ⟨rfl,met,awaiter,lives,own.symm,?_⟩
      rw [changed, Function.update_self]

theorem issue_awaitable {req : Request} {slot : Sqe} (reached : Reaches Prompt size q log)
    (valid : (q.issue req slot).1.valid) (op : OperationHandle) (same : op = (q.issue req slot).1) :
    op = ⟨true,q.getNextOpId.1⟩ ∧
      q.getNextOpId.1 ∈ issuedIds (.issued q.getNextOpId.1 op :: log) ∧
      q.getNextOpId.1 ∉ awaitedIds (.issued q.getNextOpId.1 op :: log) ∧
      q.getNextOpId.1 ∉ consumedIds (.issued q.getNextOpId.1 op :: log) := by
  subst same
  have conserved := reaches_conserved prompt_bounded reached
  have drawn := (getNextOpId_eq conserved.next conserved.bound).1
  have fresh : q.getNextOpId.1 ∉ issuedIds log := by
    intro issued
    have below := conserved.below _ issued
    omega
  refine ⟨?_,by simp [issuedIds, issuedBy, valid],fun awaited => ?_,fun consumed => ?_⟩
  · rcases issue_cases q req slot with ⟨full,_⟩ | ⟨handle,_⟩
    · simp [full, OperationHandle.valid] at valid
    · exact handle
  · exact fresh (awaited_issued (fun _ _ _ _ _ _ allowed => allowed.1) reached _ awaited)
  · exact fresh (conserved.perm.mem_iff.mpr (List.mem_append_right _ consumed))

end IoQueue

namespace Coroutine
open DirectStyle IoQueue
variable {C V L : Type}

section Heap
variable {frameAt frameAt' : Nat → Option (Frame C V L)} {c : C} {top child : Nat}
  {continuation : Option Nat} {point : Point V L} {ks : List (V → L)} {ids : List Nat}

/-- The innermost frame of a coroutine and the frames that wait for it. -/
structure Stack (frameAt : Nat → Option (Frame C V L)) (c : C) (top : Nat)
    (continuation : Option Nat) (point : Point V L) (ks : List (V → L)) (ids : List Nat) : Prop where
  stored : frameAt top = some ⟨c,continuation,point⟩
  linked : Linked frameAt c top continuation ks ids
  distinct : (top :: ids).Nodup

def Keeps (c : C) (frameAt frameAt' : Nat → Option (Frame C V L)) : Prop :=
  ∀ f frame, frame.owner = c → frameAt f = some frame → frameAt' f = some frame

theorem keeps_update {f : Nat} (before : ∀ frame, frameAt f = some frame → frame.owner = c)
    (after : Option (Frame C V L)) :
    ∀ c', c' ≠ c → Keeps c' frameAt (Function.update frameAt f after) := by
  intro c' other g frame owner stored
  rw [Function.update_of_ne, stored]
  rintro rfl
  exact other (owner ▸ before frame stored)

theorem keeps_update_two {f g : Nat} (before : ∀ frame, frameAt f = some frame → frame.owner = c)
    (before' : ∀ frame, frameAt g = some frame → frame.owner = c)
    (after after' : Option (Frame C V L)) :
    ∀ c', c' ≠ c →
      Keeps c' frameAt (Function.update (Function.update frameAt f after) g after') := by
  intro c' other h frame owner stored
  rw [Function.update_of_ne, keeps_update before after c' other h frame owner stored]
  rintro rfl
  exact other (owner ▸ before' frame stored)

theorem owner_of_stored {f : Nat} (stored : frameAt f = some ⟨c,continuation,point⟩) :
    ∀ frame, frameAt f = some frame → frame.owner = c := by
  intro frame there
  obtain rfl := Option.some.inj (stored.symm.trans there)
  rfl

theorem linked_stored (linked : Linked frameAt c child continuation ks ids) :
    ∀ f ∈ ids, ∃ frame, frameAt f = some frame ∧ frame.owner = c := by
  induction linked with
  | root child => simp
  | task stored rest ih =>
    intro f member
    rcases List.mem_cons.mp member with rfl | older
    · exact ⟨_,stored,rfl⟩
    · exact ih f older

theorem stack_kept (stack : Stack frameAt c top continuation point ks ids)
    (keeps : Keeps c frameAt frameAt') : Stack frameAt' c top continuation point ks ids := by
  refine ⟨keeps top _ rfl stack.stored,linked_frame stack.linked ?_,stack.distinct⟩
  intro f member
  obtain ⟨frame,stored,owner⟩ := linked_stored stack.linked f member
  rw [stored]
  exact keeps f frame owner stored

theorem stack_put (stack : Stack frameAt c top continuation point ks ids) (point' : Point V L) :
    Stack (Function.update frameAt top (some ⟨c,continuation,point'⟩)) c top continuation point' ks
      ids := by
  refine ⟨by simp,linked_frame stack.linked ?_,stack.distinct⟩
  intro f member
  rw [Function.update_of_ne]
  rintro rfl
  exact (List.nodup_cons.mp stack.distinct).1 member

theorem stack_call {k : V → L} {task : L} (stack : Stack frameAt c top continuation point ks ids)
    (free : frameAt child = none) :
    Stack (Function.update (Function.update frameAt child (some ⟨c,some top,.running task⟩)) top
      (some ⟨c,continuation,.awaiting child k⟩)) c child (some top) (.running task) (k :: ks)
      (top :: ids) := by
  have fresh : ∀ f ∈ top :: ids, f ≠ child := by
    intro f member same
    rcases List.mem_cons.mp member with rfl | older
    · simp [← same, stack.stored] at free
    · obtain ⟨frame,stored,_⟩ := linked_stored stack.linked f older
      simp [← same, stored] at free
  have moved := (stack_put stack (.awaiting child k)).linked
  constructor
  · rw [Function.update_of_ne (fresh top (by simp)).symm, Function.update_self]
  · refine .task (by rw [Function.update_self]) (linked_frame moved fun f member => ?_)
    have apart := fresh f (List.mem_cons_of_mem _ member)
    simp only [Function.update_apply, if_neg apart]
  · refine List.nodup_cons.mpr ⟨fun member => ?_,stack.distinct⟩
    exact fresh child member rfl

theorem stack_caller {caller : Nat} (stack : Stack frameAt c top (some caller) point ks ids) :
    ∃ continuation k ks', ks = k :: ks' ∧
      frameAt caller = some ⟨c,continuation,.awaiting top k⟩ := by
  cases stack.linked with
  | task stored rest => exact ⟨_,_,_,rfl,stored⟩

theorem stack_hand {caller : Nat} {k : V → L}
    (stack : Stack frameAt c top (some caller) point (k :: ks) ids)
    (waiting : frameAt caller = some ⟨c,continuation,.awaiting top k⟩) (point' : Point V L) :
    ∃ ids', Stack (Function.update (Function.update frameAt top none) caller
      (some ⟨c,continuation,point'⟩)) c caller continuation point' ks ids' := by
  obtain ⟨_,linked,distinct⟩ := stack
  cases linked with
  | @task _ _ continuation' _ _ ids' stored rest =>
    have same : continuation' = continuation := by
      have frames := Option.some.inj (stored.symm.trans waiting)
      exact congrArg Frame.continuation frames
    subst same
    have below := List.nodup_cons.mp (List.nodup_cons.mp distinct).2
    refine ⟨ids',by simp,linked_frame rest ?_,List.nodup_cons.mpr below⟩
    intro f member
    rw [Function.update_of_ne, Function.update_of_ne]
    · rintro rfl
      exact (List.nodup_cons.mp distinct).1 (List.mem_cons_of_mem _ member)
    · rintro rfl
      exact below.1 member

end Heap

variable [DecidableEq C]

/-- A coroutine whose frame `f` has control and stands at the given point. -/
inductive Busy (p : Program C V L) (m : Machine C V L) (log : List (Event C V)) (c : C) (f : Nat) :
    Option Nat → Point V L → Prop where
  | running {continuation : Option Nat} {l : L} {ks : List (V → L)} {ids : List Nat}
      (stack : Stack m.frameAt c f continuation (.running l) ks ids)
      (seen : Seen p log c [] (.point l) ks [] 2) : Busy p m log c f continuation (.running l)
  | holding {continuation : Option Nat} {id : UInt64} {k : Int32 → L} {ks : List (V → L)}
      {ids : List Nat} (stack : Stack m.frameAt c f continuation (.issued ⟨true,id⟩ k) ks ids)
      (seen : Seen p log c [id] (.asked k) ks [] 5) (issued : id ∈ issuedIds (queueLog log))
      (unawaited : id ∉ awaitedIds (queueLog log)) (unconsumed : id ∉ consumedIds (queueLog log)) :
      Busy p m log c f continuation (.issued ⟨true,id⟩ k)
  | woken {address : Nat} {continuation : Option Nat} {awaiter : OperationAwaiter}
      {k : Int32 → L} {ks : List (V → L)} {ids : List Nat}
      (stack : Stack m.frameAt c f continuation (.suspended address k) ks ids)
      (lives : m.io.awaiterAt address = some awaiter) (cleared : awaiter.operation = {})
      (seen : Seen p log c [] (.point (k awaiter.result)) ks [] 3) :
      Busy p m log c f continuation (.suspended address k)
  | returning {task : Nat} {v : V} {continuation : Option Nat} {k : V → L} {ks : List (V → L)}
      {ids : List Nat} (stack : Stack m.frameAt c task (some f) (.final v) (k :: ks) ids)
      (stored : m.frameAt f = some ⟨c,continuation,.awaiting task k⟩)
      (seen : Seen p log c [] (.returning v) (k :: ks) [] 1) :
      Busy p m log c f continuation (.awaiting task k)

theorem busy_stored {p : Program C V L} {m : Machine C V L} {log : List (Event C V)} {c : C}
    {f : Nat} {continuation : Option Nat} {point : Point V L}
    (busy : Busy p m log c f continuation point) : m.frameAt f = some ⟨c,continuation,point⟩ := by
  cases busy with
  | running stack => exact stack.stored
  | holding stack => exact stack.stored
  | woken stack => exact stack.stored
  | returning _ stored => exact stored

/-- A coroutine that waits for the completion of its pending operation. -/
structure Resting (p : Program C V L) (m : Machine C V L) (log : List (Event C V)) (c : C)
    (id : UInt64) (address : Nat) : Prop where
  frames : ∃ top continuation k ks ids,
    Stack m.frameAt c top continuation (.suspended address k) ks ids ∧
    Seen p log c [id] (.asked k) ks [] 4 ∧ Awaiting m.io (queueLog log) id address top

inductive Idle (p : Program C V L) (m : Machine C V L) (log : List (Event C V)) (c : C) : Prop where
  | unborn (fresh : own c log = [])
  | resting {id : UInt64} {address : Nat} (resting : Resting p m log c id address)
  | finished {v : V} (seen : Seen p log c [] (.returning v) [] [v] 1)

section Frame
variable {p : Program C V L} {m m' : Machine C V L} {log : List (Event C V)} {e : Event C V}
  {c : C} {id : UInt64} {address : Nat}

theorem resting_kept (resting : Resting p m log c id address) (foreign : e.concerns c = false)
    (keeps : Keeps c m.frameAt m'.frameAt)
    (awaits : ∀ top, Awaiting m.io (queueLog log) id address top →
      Awaiting m'.io (queueLog (e :: log)) id address top) :
    Resting p m' (e :: log) c id address := by
  obtain ⟨top,continuation,k,ks,ids,stack,seen,awaiting⟩ := resting
  exact ⟨top,continuation,k,ks,ids,stack_kept stack keeps,seen_other seen foreign,
    awaits top awaiting⟩

theorem idle_kept (idle : Idle p m log c) (foreign : e.concerns c = false)
    (keeps : Keeps c m.frameAt m'.frameAt)
    (awaits : ∀ id address top, Resting p m log c id address →
      Awaiting m.io (queueLog log) id address top →
      Awaiting m'.io (queueLog (e :: log)) id address top) : Idle p m' (e :: log) c := by
  cases idle with
  | unborn fresh =>
    apply Idle.unborn
    rw [own_other foreign, fresh]
  | resting resting =>
    exact .resting (resting_kept resting foreign keeps fun top => awaits _ _ top resting)
  | finished seen => exact .finished (seen_other seen foreign)

theorem resting_unique {id' : UInt64} {address' : Nat} (first : Resting p m log c id address)
    (second : Resting p m log c id' address') : id = id' := by
  obtain ⟨_,_,_,_,_,_,seen,_⟩ := first
  obtain ⟨_,_,_,_,_,_,seen',_⟩ := second
  simpa using List.append_cancel_left (seen.asked.symm.trans seen'.asked)

end Frame
end Coroutine
end Aiopp
