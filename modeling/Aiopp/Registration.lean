import Aiopp.IoQueue

/-!
Which awaiters a run has registered, read off its log, and the chain of pointers
that ties each of them to the completer map: key, completer, awaiter, and the
awaiter's own operation. The chain is what makes a completion find its awaiter.
-/
namespace Aiopp
namespace IoQueue
open CompleterMap Transition

/-- The address of the awaiter registered for an operation and since neither
    resumed nor handler-cancelled. -/
def registration (id : UInt64) : List Event → Option Nat
  | [] => none
  | .awaited i address :: older => if i = id then some address else registration id older
  | .cancelled i true :: older => if i = id then none else registration id older
  | .destroyed _ (some i) :: older => if i = id then none else registration id older
  | .consumed _ (some r) :: older =>
    if r.operation.id = id then none else registration id older
  | .issued .. :: older => registration id older
  | .linked .. :: older => registration id older
  | .cancelled _ false :: older => registration id older
  | .destroyed _ none :: older => registration id older
  | .submitted :: older => registration id older
  | .submitFailed :: older => registration id older
  | .completed _ :: older => registration id older
  | .consumed _ none :: older => registration id older

/-- The events that end a registration without a resumption. -/
def Silences (id : UInt64) : Event → Prop
  | .cancelled i true => i = id
  | .destroyed _ (some i) => i = id
  | _ => False

def Resumes (id : UInt64) : Event → Prop
  | .consumed _ (some r) => r.operation.id = id
  | _ => False

theorem resumes_consumption {id : UInt64} {e : Event} (resumes : Resumes id e) :
    ∃ cqe r, e = .consumed cqe (some r) ∧ r.operation.id = id := by
  cases e with
  | consumed cqe resumed =>
    cases resumed with
    | none => exact absurd resumes not_false
    | some r => exact ⟨cqe,r,rfl,resumes⟩
  | _ => exact absurd resumes not_false

theorem registration_cons (id : UInt64) (e : Event) (older : List Event) :
    (∃ address, e = .awaited id address ∧ registration id (e :: older) = some address) ∨
    ((Silences id e ∨ Resumes id e) ∧ registration id (e :: older) = none) ∨
    ((∀ address, e ≠ .awaited id address) ∧ ¬ Silences id e ∧ ¬ Resumes id e ∧
      registration id (e :: older) = registration id older) := by
  cases e with
  | awaited i address =>
    by_cases same : i = id
    · exact .inl ⟨address,by rw [same],by simp [registration, same]⟩
    · exact .inr (.inr ⟨by simp [same],not_false,not_false,by simp [registration, same]⟩)
  | cancelled i handler =>
    cases handler with
    | false => exact .inr (.inr ⟨by simp,not_false,not_false,rfl⟩)
    | true =>
      by_cases same : i = id
      · exact .inr (.inl ⟨.inl same,by simp [registration, same]⟩)
      · exact .inr (.inr ⟨by simp,same,not_false,by simp [registration, same]⟩)
  | destroyed address cancelled =>
    cases cancelled with
    | none => exact .inr (.inr ⟨by simp,not_false,not_false,rfl⟩)
    | some i =>
      by_cases same : i = id
      · exact .inr (.inl ⟨.inl same,by simp [registration, same]⟩)
      · exact .inr (.inr ⟨by simp,same,not_false,by simp [registration, same]⟩)
  | consumed cqe resumed =>
    cases resumed with
    | none => exact .inr (.inr ⟨by simp,not_false,not_false,rfl⟩)
    | some r =>
      by_cases same : r.operation.id = id
      · exact .inr (.inl ⟨.inr same,by simp [registration, same]⟩)
      · exact .inr (.inr ⟨by simp,not_false,same,by simp [registration, same]⟩)
  | _ => exact .inr (.inr ⟨by simp,not_false,not_false,rfl⟩)

structure Linked (q : IoQueue) (log : List Event) (content : UInt64 → Option UInt64) : Prop where
  represents : q.completers_.Represents content
  reserved : content OpIdInvalid = none
  absent : ∀ id, content id = none → registration id log = none
  present : ∀ id completer, content id = some completer →
    ∃ address awaiter, q.completerAt completer = some ⟨address⟩ ∧
      q.awaiterAt address = some awaiter ∧ awaiter.operation = ⟨true,id⟩ ∧
      registration id log = some address

theorem valid_eq {op : OperationHandle} (valid : op.valid) :
    op = ⟨true,op.id⟩ ∧ op.id ≠ OpIdInvalid := by
  cases op
  simp_all [OperationHandle.valid]

section Frame
variable (q : IoQueue) (sqe : Option Sqe) (userData : UInt64)

@[simp] theorem finalizeSqe_completers :
    (q.finalizeSqe sqe userData).2.completers_ = q.completers_ := by
  cases sqe <;> rfl

@[simp] theorem finalizeSqe_completerAt :
    (q.finalizeSqe sqe userData).2.completerAt = q.completerAt := by
  cases sqe <;> rfl

@[simp] theorem finalizeSqe_awaiterAt :
    (q.finalizeSqe sqe userData).2.awaiterAt = q.awaiterAt := by
  cases sqe <;> rfl

end Frame

def SameRegistry (q q' : IoQueue) : Prop :=
  q'.completers_ = q.completers_ ∧ q'.completerAt = q.completerAt ∧ q'.awaiterAt = q.awaiterAt

theorem linked_frame {q q' : IoQueue} {log log' : List Event}
    {content : UInt64 → Option UInt64} (linked : Linked q log content)
    (same : SameRegistry q q') (quiet : ∀ id, registration id log' = registration id log) :
    Linked q' log' content := by
  obtain ⟨hm,hc,ha⟩ := same
  refine ⟨hm ▸ linked.represents,linked.reserved,fun id none_held => ?_,fun id completer held => ?_⟩
  · rw [quiet, linked.absent id none_held]
  · rw [hc, ha, quiet]
    exact linked.present id completer held

theorem step_issue (q : IoQueue) (req : Request) (slot : Sqe) :
    q.step (.issue req slot) =
      some ((q.issue req slot).2, .issued q.getNextOpId.1 (q.issue req slot).1) := rfl

theorem issue_registry (q : IoQueue) (req : Request) (slot : Sqe) :
    SameRegistry q (q.issue req slot).2 := by
  simp [SameRegistry, issue, getNextOpId]

theorem linkTimeout_cases {q q' : IoQueue} {op result : OperationHandle} {ts : UInt64}
    {flags : Int32} {slot : Sqe} (run : q.linkTimeout op ts flags slot = some (result, q')) :
    op.valid ∧ ∃ position last, q.lastSqe_ = some position ∧ q.sq[position]? = some last ∧
      last.user_data = op.id ∧ ∃ linked q₁ sqe,
        linked = { last with flags := last.flags ||| IoURing.IOSQE_IO_LINK } ∧
        q₁ = { q with sq := q.sq.set position linked } ∧
        sqe = (q₁.getSqe slot).map (IoURing.prepareLinkTimeout · ts flags.toUInt32) ∧
        q' = (q₁.finalizeSqe sqe OpIdIgnore).2 ∧ result = if sqe.isSome then op else {} := by
  simp only [linkTimeout, Option.bind_eq_bind, Option.bind_eq_some_iff] at run
  obtain ⟨_,valid,position,found,last,stored,_,checked,rest⟩ := run
  refine ⟨by simpa [guard] using valid,position,last,found,stored,by simpa [guard] using checked,
    _,_,_,rfl,rfl,rfl,?_⟩
  split at rest
  all_goals
    rename_i slotted
    cases rest
    refine ⟨rfl,?_⟩
    unfold finalizeSqe at slotted
    split at slotted
  · simp [OperationHandle.valid] at slotted
  · rename_i here
    simp [here]
  · rename_i full
    simp [full]
  · simp [OperationHandle.valid, OpIdIgnore, OpIdInvalid] at slotted

theorem linkTimeout_registry {q q' : IoQueue} {op result : OperationHandle} {ts : UInt64}
    {flags : Int32} {slot : Sqe} (run : q.linkTimeout op ts flags slot = some (result, q')) :
    SameRegistry q q' := by
  obtain ⟨_,position,last,_,_,_,linked,q₁,sqe,_,rfl,_,rfl,_⟩ := linkTimeout_cases run
  simp [SameRegistry]

theorem await_cases {q q' : IoQueue} {op : OperationHandle} {address caller : Nat}
    {completer : UInt64} (run : q.await op address caller completer = some q') :
    op.valid ∧ ∃ completers, q.completers_.insert op.id completer = some completers ∧ q' = { q with
      completers_ := completers
      completerAt := Function.update q.completerAt completer (some ⟨address⟩)
      awaiterAt := Function.update q.awaiterAt address (some ⟨op,caller,-2147483648⟩) } := by
  unfold await at run
  split at run
  · rename_i valid
    obtain ⟨completers,inserted,rfl⟩ := Option.map_eq_some_iff.mp run
    exact ⟨valid,completers,inserted,rfl⟩
  · simp at run

theorem dispatch_frame {q q' : IoQueue} {cqe : Cqe} {resumed : Option Resumption}
    (run : q.dispatch cqe = some (q', resumed)) :
    ∃ completers completerAt awaiterAt, q' = { q with
        completers_ := completers, completerAt := completerAt, awaiterAt := awaiterAt } ∧
      (completers = q.completers_ ∨ completers = (q.completers_.remove cqe.user_data).2) := by
  simp only [dispatch] at run
  split at run
  · split at run
    · obtain ⟨⟨q₁,resumption⟩,completed,eq⟩ := Option.map_eq_some_iff.mp run
      cases eq
      simp only [complete, Option.bind_eq_bind, Option.bind_eq_some_iff] at completed
      obtain ⟨_,_,_,_,done⟩ := completed
      cases done
      exact ⟨_,_,_,rfl,.inr rfl⟩
    · cases run
      exact ⟨_,_,_,rfl,.inr rfl⟩
  · cases run
    exact ⟨_,_,_,rfl,.inl rfl⟩

section Linked
variable {q q' : IoQueue} {log : List Event} {content : UInt64 → Option UInt64}

/-- Two keys never share a completer, since it leads to an awaiter of one operation. -/
theorem completer_unique (linked : Linked q log content) {i j completer : UInt64}
    (hi : content i = some completer) (hj : content j = some completer) : i = j := by
  obtain ⟨a,x,ca,xa,opx,_⟩ := linked.present i completer hi
  obtain ⟨b,y,cb,yb,opy,_⟩ := linked.present j completer hj
  obtain rfl : a = b := by simpa using ca.symm.trans cb
  obtain rfl : x = y := by simpa using xa.symm.trans yb
  simpa using opx.symm.trans opy

theorem linked_drop (linked : Linked q log content) (id : UInt64) (log' : List Event)
    (silent : registration id log' = none)
    (others : ∀ i, i ≠ id → registration i log' = registration i log) :
    Linked (q.dropCompleter id) log' (Function.update content id none) := by
  have removed := represents_remove linked.represents id
  refine ⟨removed.2,?_,fun i gone => ?_,fun i completer held => ?_⟩
  · simp [Function.update_apply, linked.reserved]
  · by_cases same : i = id
    · exact same ▸ silent
    · rw [Function.update_of_ne same] at gone
      rw [others i same, linked.absent i gone]
  · have apart : i ≠ id := by
      rintro rfl
      simp at held
    rw [Function.update_of_ne apart] at held
    obtain ⟨address,awaiter,points,lives,own,there⟩ := linked.present i completer held
    refine ⟨address,awaiter,?_,lives,own,(others i apart).trans there⟩
    change Function.update q.completerAt (q.completers_.remove id).1 none completer = _
    rw [Function.update_of_ne, points]
    intro clash
    rw [removed.1] at clash
    cases target : content id with
    | none =>
      rw [target] at clash
      exact (represents_value linked.represents held).1 clash
    | some other =>
      rw [target] at clash
      exact apart (completer_unique linked held (clash ▸ target))

theorem linked_await (linked : Linked q log content) {op : OperationHandle}
    {address caller : Nat} {completer : UInt64} (fresh : content op.id = none)
    (vacant : q.awaiterAt address = none) (unused : q.completerAt completer = none)
    (nonempty : completer ≠ CompleterMap.Empty) (unmarked : completer ≠ Tombstone)
    (run : q.await op address caller completer = some q') :
    Linked q' (.awaited op.id address :: log)
      (Function.update content op.id (some completer)) := by
  obtain ⟨valid,grown,inserted,rfl⟩ := await_cases run
  have real := valid_eq valid
  refine ⟨represents_insert linked.represents fresh nonempty unmarked inserted,?_,?_,?_⟩
  · rw [Function.update_of_ne (Ne.symm real.2), linked.reserved]
  · intro i gone
    have apart : i ≠ op.id := by
      rintro rfl
      simp at gone
    rw [Function.update_of_ne apart] at gone
    simpa [registration, apart.symm] using linked.absent i gone
  · intro i other held
    by_cases same : i = op.id
    · subst same
      rw [Function.update_self] at held
      cases held
      exact ⟨address,⟨op,caller,-2147483648⟩,by simp,by simp,real.1,by simp [registration]⟩
    · rw [Function.update_of_ne same] at held
      obtain ⟨a,awaiter,points,lives,own,there⟩ := linked.present i other held
      have other_completer : other ≠ completer := by
        rintro rfl
        simp [unused] at points
      have other_address : a ≠ address := by
        rintro rfl
        simp [vacant] at lives
      exact ⟨a,awaiter,by simp [other_completer, points],by simp [other_address, lives],own,
        by simpa [registration, Ne.symm same] using there⟩

theorem dispatch_cases (linked : Linked q log content) (cqe : Cqe) :
    (q.dispatch cqe = some (q, none) ∧
      (cqe.user_data = OpIdIgnore ∨ registration cqe.user_data log = none)) ∨
    (∃ q' address caller, q.dispatch cqe =
        some (q', some ⟨address,⟨true,cqe.user_data⟩,caller,cqe.res⟩) ∧
      cqe.user_data ≠ OpIdIgnore ∧ registration cqe.user_data log = some address ∧
      Linked q' (.consumed cqe (some ⟨address,⟨true,cqe.user_data⟩,caller,cqe.res⟩) :: log)
        (Function.update content cqe.user_data none) ∧
      (∃ awaiter, q.awaiterAt address = some awaiter ∧ caller = awaiter.caller ∧ q'.awaiterAt =
        Function.update q.awaiterAt address (some { awaiter with result := cqe.res, operation := {} })) ∧
      q' = { q with completers_ := q'.completers_, completerAt := q'.completerAt,
                    awaiterAt := q'.awaiterAt }) := by
  by_cases ignored : cqe.user_data = OpIdIgnore
  · exact .inl ⟨by simp [dispatch, ignored],.inl ignored⟩
  · have removed := represents_remove linked.represents cqe.user_data
    cases target : content cqe.user_data with
    | none =>
      have unchanged := represents_remove_absent linked.represents target
      refine .inl ⟨?_,.inr (linked.absent _ target)⟩
      simp [dispatch, ignored, unchanged]
    | some completer =>
      obtain ⟨address,awaiter,points,lives,own,there⟩ := linked.present _ completer target
      have nonempty := (represents_value linked.represents target).1
      rw [target, Option.getD_some] at removed
      let finished := { awaiter with result := cqe.res, operation := {} }
      refine .inr ⟨{ q with
          completers_ := (q.completers_.remove cqe.user_data).2
          completerAt := Function.update q.completerAt completer none
          awaiterAt := Function.update q.awaiterAt address (some finished) },
        address,awaiter.caller,?_,ignored,there,?_,⟨awaiter,lives,rfl,rfl⟩,rfl⟩
      · simp [dispatch, ignored, removed.1, nonempty, complete, points, lives, own, finished]
      · refine ⟨removed.2,?_,fun i gone => ?_,fun i other held => ?_⟩
        · simp [Function.update_apply, linked.reserved]
        · by_cases same : i = cqe.user_data
          · simp [registration, same]
          · rw [Function.update_of_ne same] at gone
            simpa [registration, Ne.symm same] using linked.absent i gone
        · have apart : i ≠ cqe.user_data := by
            rintro rfl
            simp at held
          rw [Function.update_of_ne apart] at held
          obtain ⟨a,x,pointsx,livesx,ownx,therex⟩ := linked.present i other held
          have other_completer : other ≠ completer := by
            rintro rfl
            exact apart (completer_unique linked held target)
          have other_address : a ≠ address := by
            rintro rfl
            obtain rfl : x = awaiter := by simpa using livesx.symm.trans lives
            exact apart (by simpa using ownx.symm.trans own)
          exact ⟨a,x,by simp [other_completer, pointsx],by simp [other_address, livesx],ownx,
            by simpa [registration, Ne.symm apart] using therex⟩

theorem registered_of_content (linked : Linked q log content) (id : UInt64) :
    content id = none ↔ registration id log = none := by
  constructor
  · exact linked.absent id
  · intro silent
    cases target : content id with
    | none => rfl
    | some completer =>
      obtain ⟨_,_,_,_,_,there⟩ := linked.present id completer target
      simp [silent] at there

theorem linked_erase (linked : Linked q log content) {address : Nat}
    {awaiter : OperationAwaiter} (lives : q.awaiterAt address = some awaiter)
    (released : ∀ id, awaiter.operation = ⟨true,id⟩ → content id = none) :
    Linked { q with awaiterAt := Function.update q.awaiterAt address none } log content := by
  refine ⟨linked.represents,linked.reserved,linked.absent,fun id completer held => ?_⟩
  obtain ⟨a,x,points,livesx,own,there⟩ := linked.present id completer held
  have apart : a ≠ address := by
    rintro rfl
    obtain rfl : x = awaiter := by simpa using livesx.symm.trans lives
    simp [released id own] at held
  exact ⟨a,x,points,by simp [apart, livesx],own,there⟩

end Linked

section Inversion
variable {q q' : IoQueue}

theorem cancel_cases {op handle : OperationHandle} {cancelHandler : Bool} {slot : Sqe}
    (run : q.cancel op cancelHandler slot = some (handle, q')) :
    op.valid ∧ ∃ sqe, q' = ((if cancelHandler then q.dropCompleter op.id else q).finalizeSqe
      sqe OpIdIgnore).2 := by
  unfold cancel at run
  split at run
  · rename_i valid
    exact ⟨valid,_,(congrArg Prod.snd (Option.some.inj run)).symm⟩
  · simp at run

theorem destroy_cases {address : Nat} {slot : Sqe} {cancelled : Option UInt64}
    (run : q.destroy address slot = some (q', cancelled)) :
    ∃ awaiter, q.awaiterAt address = some awaiter ∧
      ((cancelled = none ∧ awaiter.operation.valid = false ∧
        q' = { q with awaiterAt := Function.update q.awaiterAt address none }) ∨
      (cancelled = some awaiter.operation.id ∧ ∃ sqe, awaiter.operation.valid ∧
        q' = { ((q.dropCompleter awaiter.operation.id).finalizeSqe sqe OpIdIgnore).2 with
          awaiterAt := Function.update q.awaiterAt address none })) := by
  simp only [destroy, Option.bind_eq_bind, Option.bind_eq_some_iff] at run
  obtain ⟨awaiter,lives,rest⟩ := run
  refine ⟨awaiter,lives,?_⟩
  split at rest
  · rename_i valid
    obtain ⟨⟨handle,q₁⟩,cancelRun,eq⟩ := Option.bind_eq_some_iff.mp rest
    obtain ⟨_,sqe,rfl⟩ := cancel_cases cancelRun
    cases eq
    exact .inr ⟨rfl,sqe,valid,by simp [dropCompleter]⟩
  · rename_i invalid
    cases rest
    exact .inl ⟨rfl,by simpa using invalid,rfl⟩

inductive Taken (q : IoQueue) : Action → IoQueue → Event → Prop where
  | issued (req : Request) (slot : Sqe) :
      Taken q (.issue req slot) (q.issue req slot).2
        (.issued q.getNextOpId.1 (q.issue req slot).1)
  | linked {op result : OperationHandle} {ts : UInt64} {flags : Int32} {slot : Sqe}
      {q' : IoQueue} (run : q.linkTimeout op ts flags slot = some (result, q')) :
      Taken q (.linkTimeout op ts flags slot) q' (.linked op result)
  | awaited {op : OperationHandle} {address caller : Nat} {completer : UInt64} {q' : IoQueue}
      (vacant : q.awaiterAt address = none) (unused : q.completerAt completer = none)
      (nonempty : completer ≠ CompleterMap.Empty) (unmarked : completer ≠ Tombstone)
      (run : q.await op address caller completer = some q') :
      Taken q (.await op address caller completer) q' (.awaited op.id address)
  | cancelled {op : OperationHandle} {cancelHandler : Bool} {slot : Sqe} (sqe : Option Sqe)
      (valid : op.valid) :
      Taken q (.cancel op cancelHandler slot)
        ((if cancelHandler then q.dropCompleter op.id else q).finalizeSqe sqe OpIdIgnore).2
        (.cancelled op.id cancelHandler)
  | released {address : Nat} {slot : Sqe} {awaiter : OperationAwaiter}
      (lives : q.awaiterAt address = some awaiter) (cleared : awaiter.operation.valid = false) :
      Taken q (.destroy address slot)
        { q with awaiterAt := Function.update q.awaiterAt address none } (.destroyed address none)
  | abandoned {address : Nat} {slot : Sqe} {awaiter : OperationAwaiter} (sqe : Option Sqe)
      (lives : q.awaiterAt address = some awaiter) (valid : awaiter.operation.valid) :
      Taken q (.destroy address slot)
        { ((q.dropCompleter awaiter.operation.id).finalizeSqe sqe OpIdIgnore).2 with
          awaiterAt := Function.update q.awaiterAt address none }
        (.destroyed address (some awaiter.operation.id))
  | submitted (active : q.running) :
      Taken q .submit { q with lastSqe_ := none, sq := [], inflight := q.inflight ++ q.sq }
        .submitted
  | submitFailed (active : q.running) : Taken q .submitFails { q with lastSqe_ := none } .submitFailed
  | completed {position : Nat} {sqe : Sqe} (res : Int32)
      (flying : q.inflight[position]? = some sqe) :
      Taken q (.complete position res)
        { q with inflight := q.inflight.eraseIdx position, cq := q.cq ++ [⟨sqe.user_data,res⟩] }
        (.completed ⟨sqe.user_data,res⟩)
  | consumed {cqe : Cqe} {rest : List Cqe} {resumed : Option Resumption} {q' : IoQueue}
      (active : q.running) (queued : q.cq = cqe :: rest)
      (run : { q with cq := rest }.dispatch cqe = some (q', resumed)) :
      Taken q .consume q' (.consumed cqe resumed)

theorem step_taken {action : Action} {e : Event} (taken : q.step action = some (q', e)) :
    Taken q action q' e := by
  cases action with
  | issue req slot =>
    rw [step_issue] at taken
    cases taken
    exact .issued req slot
  | linkTimeout op ts flags slot =>
    obtain ⟨⟨result,q₁⟩,run,eq⟩ := Option.map_eq_some_iff.mp taken
    cases eq
    exact .linked run
  | await op address caller completer =>
    simp only [step] at taken
    split at taken
    · rename_i free
      obtain ⟨q₁,run,eq⟩ := Option.map_eq_some_iff.mp taken
      cases eq
      exact .awaited (by simpa using free.1) (by simpa using free.2.1) free.2.2.1 free.2.2.2 run
    · simp at taken
  | cancel op cancelHandler slot =>
    obtain ⟨⟨handle,q₁⟩,run,eq⟩ := Option.map_eq_some_iff.mp taken
    cases eq
    obtain ⟨valid,sqe,rfl⟩ := cancel_cases run
    exact .cancelled sqe valid
  | destroy address slot =>
    obtain ⟨⟨q₁,cancelled⟩,run,eq⟩ := Option.map_eq_some_iff.mp taken
    cases eq
    obtain ⟨awaiter,lives,⟨rfl,cleared,rfl⟩ | ⟨rfl,sqe,valid,rfl⟩⟩ := destroy_cases run
    · exact .released lives cleared
    · exact .abandoned sqe lives valid
  | submit =>
    simp only [step] at taken
    split at taken
    · cases taken
      exact .submitted (by assumption)
    · simp at taken
  | submitFails =>
    simp only [step] at taken
    split at taken
    · cases taken
      exact .submitFailed (by assumption)
    · simp at taken
  | complete position res =>
    simp only [step] at taken
    split at taken
    · simp at taken
    · rename_i sqe flying
      cases taken
      exact .completed res flying
  | consume =>
    simp only [step] at taken
    split at taken
    · rename_i active
      split at taken
      · simp at taken
      · rename_i cqe rest queued
        obtain ⟨⟨q₁,resumed⟩,run,eq⟩ := Option.map_eq_some_iff.mp taken
        cases eq
        exact .consumed active queued run
    · simp at taken

end Inversion

/-- What every caller of the queue respects: the map's documented precondition. -/
def Vacant (log : List Event) : Action → Prop
  | .await op _ _ _ => registration op.id log = none
  | _ => True

theorem taken_linked {q q' : IoQueue} {log : List Event} {content : UInt64 → Option UInt64}
    {action : Action} {e : Event} (linked : Linked q log content) (vacant : Vacant log action)
    (taken : Taken q action q' e) : ∃ content', Linked q' (e :: log) content' := by
  cases taken with
  | issued req slot => exact ⟨content,linked_frame linked (issue_registry q req slot) fun _ => rfl⟩
  | linked run => exact ⟨content,linked_frame linked (linkTimeout_registry run) fun _ => rfl⟩
  | awaited free unused nonempty unmarked run =>
    have fresh := (registered_of_content linked _).mpr vacant
    exact ⟨_,linked_await linked fresh free unused nonempty unmarked run⟩
  | @cancelled op cancelHandler slot sqe valid =>
    cases cancelHandler with
    | false => exact ⟨content,linked_frame linked (by simp [SameRegistry]) fun _ => rfl⟩
    | true =>
      have dropped := linked_drop linked op.id (.cancelled op.id true :: log)
        (by simp [registration]) (fun i apart => by simp [registration, Ne.symm apart])
      exact ⟨_,linked_frame dropped (by simp [SameRegistry]) fun _ => rfl⟩
  | released lives cleared =>
    have erased := linked_erase linked lives (by
      intro id own
      have reserved : id = OpIdInvalid := by simpa [own, OperationHandle.valid] using cleared
      exact reserved ▸ linked.reserved)
    exact ⟨content,linked_frame erased (by simp [SameRegistry]) fun _ => rfl⟩
  | @abandoned address slot awaiter sqe lives valid =>
    have dropped := linked_drop linked awaiter.operation.id
      (.destroyed address (some awaiter.operation.id) :: log)
      (by simp [registration]) (fun i apart => by simp [registration, Ne.symm apart])
    have still : (q.dropCompleter awaiter.operation.id).awaiterAt address = some awaiter := lives
    have erased := linked_erase dropped still (by
      intro id own
      simp [own])
    exact ⟨_,linked_frame erased (by simp [SameRegistry, dropCompleter]) fun _ => rfl⟩
  | submitted active => exact ⟨content,linked_frame linked (by simp [SameRegistry]) fun _ => rfl⟩
  | submitFailed active => exact ⟨content,linked_frame linked (by simp [SameRegistry]) fun _ => rfl⟩
  | completed res flying => exact ⟨content,linked_frame linked (by simp [SameRegistry]) fun _ => rfl⟩
  | @consumed cqe rest resumed q' active queued run =>
    have popped : Linked { q with cq := rest } log content :=
      linked_frame linked (by simp [SameRegistry]) fun _ => rfl
    rcases dispatch_cases popped cqe with ⟨idle,_⟩ | ⟨q₁,address,caller,done,_,_,next,_⟩
    · obtain ⟨rfl,rfl⟩ := Prod.mk.inj (Option.some.inj (run.symm.trans idle))
      exact ⟨content,linked_frame popped (by simp [SameRegistry]) fun _ => rfl⟩
    · obtain ⟨rfl,rfl⟩ := Prod.mk.inj (Option.some.inj (run.symm.trans done))
      exact ⟨_,next⟩

end IoQueue
end Aiopp
