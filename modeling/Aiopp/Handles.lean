import Aiopp.LateAwait

/-!
A client that awaits handles right after the call that returned them, whichever call it
was. The handle of `cancel` looks like the others, but carries the id that every ignored
request shares.
-/
namespace Aiopp
namespace IoQueue
open CompleterMap Transition

/-- The queue and the valid handle that the last call returned. -/
structure Client where
  queue : IoQueue
  returned : Option OperationHandle := none

section Calls
variable {q q' : IoQueue} {op handle result : OperationHandle} {slot : Sqe}

theorem issue_outstanding {req : Request} (valid : (q.issue req slot).1.valid) :
    (q.issue req slot).1.id ∈ outstanding (q.issue req slot).2 := by
  rcases issue_cases q req slot with ⟨full,_⟩ | ⟨issued,sqe,tagged,appended⟩
  · simp [full, OperationHandle.valid] at valid
  · have ordinary := (getNextOpId_ordinary q).2
    rw [issued, appended]
    simp [outstanding, userDatas, List.filter_append, tagged, ordinary]

theorem linkTimeout_outstanding {ts : UInt64} {flags : Int32}
    (run : q.linkTimeout op ts flags slot = some (result, q')) (valid : result.valid) :
    result.id = OpIdIgnore ∨ result.id ∈ outstanding q' := by
  obtain ⟨_,position,last,_,stored,tagged,_,_,_,_,_,_,_,returned⟩ := linkTimeout_cases run
  have same_handle : result = op := by
    split at returned
    · exact returned
    · simp [returned, OperationHandle.valid] at valid
  obtain ⟨q₁,sqe,same,rfl⟩ := linkTimeout_traffic run
  rw [finalizeSqe_ignored, outstanding_same same, same_handle]
  by_cases ignored : op.id = OpIdIgnore
  · exact .inl ignored
  · refine .inr ?_
    simp only [outstanding, userDatas, List.filter_append, List.mem_append, List.mem_filter]
    refine .inl (.inl ⟨List.mem_map.mpr ⟨last,List.mem_of_getElem? stored,tagged⟩,by simpa using ignored⟩)

theorem cancel_handle {cancelHandler : Bool}
    (run : q.cancel op cancelHandler slot = some (handle, q')) (valid : handle.valid) :
    handle.id = OpIdIgnore := by
  unfold cancel at run
  split at run
  · have called := congrArg Prod.fst (Option.some.inj run)
    change _ = handle at called
    rw [← called] at valid ⊢
    unfold finalizeSqe at valid ⊢
    split
    · rename_i full
      simp [full, OperationHandle.valid] at valid
    · rfl
  · simp at run

end Calls

namespace Client

def keep (handle : OperationHandle) : Option OperationHandle :=
  if handle.valid then some handle else none

def step (c : Client) : Action → Option (Client × Event)
  | .issue req slot =>
    some (⟨(c.queue.issue req slot).2, keep (c.queue.issue req slot).1⟩,
      .issued c.queue.getNextOpId.1 (c.queue.issue req slot).1)
  | .linkTimeout op ts flags slot =>
    (c.queue.linkTimeout op ts flags slot).map fun (result, q) =>
      (⟨q, keep result⟩, .linked op result)
  | .cancel op cancelHandler slot =>
    (c.queue.cancel op cancelHandler slot).map fun (handle, q) =>
      (⟨q, keep handle⟩, .cancelled op.id cancelHandler)
  | .await op address caller completer =>
    if c.returned = some op then
      (c.queue.step (.await op address caller completer)).map fun (q, e) => (⟨q, none⟩, e)
    else none
  | a => (c.queue.step a).map fun (q, e) => (⟨q, none⟩, e)

section Step
variable {c c' : Client} {a : Action} {e : Event}

theorem step_queue (taken : c.step a = some (c', e)) : c.queue.step a = some (c'.queue, e) := by
  cases a with
  | issue req slot =>
    cases taken
    rfl
  | linkTimeout op ts flags slot =>
    obtain ⟨⟨result,q⟩,run,eq⟩ := Option.map_eq_some_iff.mp taken
    cases eq
    simp only [IoQueue.step, run, Option.map_some]
  | cancel op cancelHandler slot =>
    obtain ⟨⟨handle,q⟩,run,eq⟩ := Option.map_eq_some_iff.mp taken
    cases eq
    simp only [IoQueue.step, run, Option.map_some]
  | await op address caller completer =>
    simp only [step] at taken
    split at taken
    · obtain ⟨⟨q,event⟩,run,eq⟩ := Option.map_eq_some_iff.mp taken
      cases eq
      exact run
    · simp at taken
  | destroy | submit | submitFails | complete | consume =>
    obtain ⟨⟨q,event⟩,run,eq⟩ := Option.map_eq_some_iff.mp taken
    cases eq
    exact run

theorem keep_some {handle op : OperationHandle} (kept : keep handle = some op) :
    handle = op ∧ op.valid := by
  unfold keep at kept
  split at kept
  · cases kept
    exact ⟨rfl,by assumption⟩
  · simp at kept

theorem step_returned {op : OperationHandle} (taken : c.step a = some (c', e))
    (returned : c'.returned = some op) : op.id = OpIdIgnore ∨ op.id ∈ outstanding c'.queue := by
  cases a with
  | issue req slot =>
    cases taken
    obtain ⟨rfl,valid⟩ := keep_some returned
    exact .inr (issue_outstanding valid)
  | linkTimeout op ts flags slot =>
    obtain ⟨⟨result,q⟩,run,eq⟩ := Option.map_eq_some_iff.mp taken
    cases eq
    obtain ⟨rfl,valid⟩ := keep_some returned
    exact linkTimeout_outstanding run valid
  | cancel op cancelHandler slot =>
    obtain ⟨⟨handle,q⟩,run,eq⟩ := Option.map_eq_some_iff.mp taken
    cases eq
    obtain ⟨rfl,valid⟩ := keep_some returned
    exact .inl (cancel_handle run valid)
  | await op address caller completer =>
    simp only [step] at taken
    split at taken
    · obtain ⟨⟨q,event⟩,run,eq⟩ := Option.map_eq_some_iff.mp taken
      cases eq
      simp at returned
    · simp at taken
  | destroy | submit | submitFails | complete | consume =>
    obtain ⟨⟨q,event⟩,run,eq⟩ := Option.map_eq_some_iff.mp taken
    cases eq
    simp at returned

end Step

def AnyUse (_ : Client) (_ : List Event) (_ : Action) : Prop := True

instance (c : Client) (log : List Event) (a : Action) : Decidable (AnyUse c log a) :=
  isTrue trivial

/-- Fewer than 2^64 - 2 ids; no handle of `cancel` is awaited, and none that was awaited
before and came back from `linkTimeout`. -/
def OwnIds (_ : Client) (log : List Event) : Action → Prop
  | .issue _ _ => drawn log + 1 < 2 ^ 64 - 2
  | .await op _ _ _ => op.id ≠ OpIdIgnore ∧ op.id ∉ awaitedIds log
  | _ => True

instance (c : Client) (log : List Event) : (a : Action) → Decidable (OwnIds c log a)
  | .issue _ _ => inferInstanceAs (Decidable (_ < _))
  | .await _ _ _ _ => inferInstanceAs (Decidable (_ ∧ _))
  | .linkTimeout .. | .cancel .. | .destroy .. | .submit | .submitFails | .complete .. | .consume =>
    .isTrue trivial

/-- Whatever is awaited, nobody waits for its id already. -/
def Alone (_ : Client) (log : List Event) (a : Action) : Prop := Vacant log a

section Runs
variable {size : UInt64} {q₀ : IoQueue} {c c' : Client} {log : List Event}

theorem await_returned {op : OperationHandle} {address caller : Nat} {completer : UInt64} {e : Event}
    (taken : c.step (.await op address caller completer) = some (c', e)) :
    c.returned = some op := by
  simp only [step] at taken
  split at taken
  · assumption
  · simp at taken

theorem ownIds_prompt {a : Action} {e : Event} (reached : Reaches Prompt size c.queue log)
    (returned : ∀ op, c.returned = some op → op.id = OpIdIgnore ∨ op.id ∈ outstanding c.queue)
    (allowed : OwnIds c log a) (taken : c.step a = some (c', e)) : Prompt c.queue log a := by
  cases a with
  | issue req slot => exact allowed
  | await op address caller completer =>
    have conserved := reaches_conserved prompt_bounded reached
    rcases returned op (await_returned taken) with ignored | member
    · exact absurd ignored allowed.1
    · refine ⟨?_,allowed.2,outstanding_unconsumed conserved member⟩
      exact conserved.perm.mem_iff.mpr (List.mem_append_left _ member)
  | _ => trivial

theorem run_prompt (made : create size = some q₀) (run : Run step OwnIds ⟨q₀, none⟩ c log) :
    Reaches Prompt size c.queue log ∧
      ∀ op, c.returned = some op → op.id = OpIdIgnore ∨ op.id ∈ outstanding c.queue := by
  induction run with
  | nil => exact ⟨⟨q₀,made,.nil⟩,by simp⟩
  | next run allowed taken ih =>
    have prompt := ownIds_prompt ih.1 ih.2 allowed taken
    exact ⟨reaches_next ih.1 prompt (step_queue taken),fun op => step_returned taken⟩

theorem run_alone (made : create size = some q₀) (run : Run step Alone ⟨q₀, none⟩ c log) :
    Reaches (fun _ => Vacant) size c.queue log := by
  induction run with
  | nil => exact ⟨q₀,made,.nil⟩
  | next run allowed taken ih => exact reaches_next ih allowed (step_queue taken)

theorem ignored_await_hangs {q : IoQueue} {later earlier : List Event} {address : Nat}
    (reached : Reaches (fun _ => Vacant) size q (later ++ .awaited OpIdIgnore address :: earlier))
    (unsilenced : ∀ e ∈ later, ¬ Silences OpIdIgnore e) :
    resumptions OpIdIgnore (later ++ .awaited OpIdIgnore address :: earlier) = [] ∧ q.running := by
  have vacant : ∀ (q : IoQueue) log a, Vacant log a → Vacant log a := fun _ _ _ => id
  constructor
  · apply no_resumptions
    intro e member resumes
    obtain ⟨cqe,r,rfl,resumed⟩ := resumes_consumption resumes
    obtain ⟨ordinary,own⟩ := resumed_own_id vacant reached cqe r member
    exact ordinary (own.symm.trans resumed)
  · have registered : registration OpIdIgnore (later ++ .awaited OpIdIgnore address :: earlier) =
        some address := by
      refine registration_persists vacant later reached (by simp [registration]) unsilenced ?_
      intro consumed
      obtain ⟨e,_,ignored⟩ := List.mem_flatMap.mp consumed
      unfold consumedBy at ignored
      split at ignored
      · split at ignored
        · simp at ignored
        · rename_i ordinary
          exact ordinary (List.mem_singleton.mp ignored).symm
      · simp at ignored
    by_contra stopped
    have silent := (not_running_iff vacant reached).mp (by simpa using stopped) OpIdIgnore
    simp [registered] at silent

/-- Without handles of `cancel`, awaiting right after the call is always right: the key is
not live, the completion resumes the awaiter, and a queue with nothing left to complete
stops running. The awaiter of a handle of `cancel` is never resumed and `run` waits for it. -/
theorem handles_awaitable (made : create size = some q₀) :
    (∀ c log, Run step OwnIds ⟨q₀, none⟩ c log →
      (∀ op address caller completer c' e, OwnIds c log (.await op address caller completer) →
        c.step (.await op address caller completer) = some (c', e) →
        c.queue.completers_.get op.id = CompleterMap.Empty) ∧
      (∀ later earlier cqe resumed address, log = later ++ .consumed cqe resumed :: earlier →
        Event.awaited cqe.user_data address ∈ earlier →
        (∃ r, resumed = some r ∧ r.address = address) ∨ ∃ e ∈ earlier, Silences cqe.user_data e) ∧
      (c.queue.sq = [] → c.queue.inflight = [] → c.queue.cq = [] → c.queue.running = false)) ∧
    ∀ c later earlier address,
      Run step Alone ⟨q₀, none⟩ c (later ++ .awaited OpIdIgnore address :: earlier) →
      (∀ e ∈ later, ¬ Silences OpIdIgnore e) →
      resumptions OpIdIgnore (later ++ .awaited OpIdIgnore address :: earlier) = [] ∧
        c.queue.running = true := by
  constructor
  · intro c log run
    obtain ⟨reached,returned⟩ := run_prompt made run
    refine ⟨?_,?_,?_⟩
    · intro op address caller completer c' e allowed taken
      obtain ⟨content,linked⟩ := reaches_linked prompt_vacant reached
      have prompt := ownIds_prompt reached returned allowed taken
      have unregistered := prompt_vacant _ _ _ prompt
      have absent := (registered_of_content linked op.id).mpr unregistered
      rw [represents_get linked.represents, absent]
      rfl
    · rintro later earlier cqe resumed address rfl awaited
      exact prompt_consumed reached awaited
    · intro sq inflight cq
      rw [not_running_iff prompt_vacant reached]
      intro id
      rw [Option.eq_none_iff_forall_ne_some]
      intro address registered
      have member := prompt_outstanding reached registered
      simp [outstanding, userDatas, sq, inflight, cq] at member
  · intro c later earlier address run unsilenced
    exact ignored_await_hangs (run_alone made run) unsilenced

end Runs

theorem linked_handle_awaited :
    ∃ q₀ c log, create 0 = some q₀ ∧ Run step OwnIds ⟨q₀, none⟩ c log ∧ awaitedIds log = [0] ∧
      (resumptions 0 log).map Resumption.result = [8] ∧ c.queue.running = false := by
  let actions : List Action := [.issue (.read 3 64 8) blankSqe, .linkTimeout ⟨true,0⟩ 256 0 blankSqe,
    .await ⟨true,0⟩ 100 0 16, .submit, .complete 1 (-125), .complete 0 8, .consume, .consume]
  have computed : ((create 0).bind fun q₀ =>
      (replay step OwnIds ⟨q₀, none⟩ [] actions).map fun (c, log) =>
        decide (awaitedIds log = [0] ∧ (resumptions 0 log).map Resumption.result = [8] ∧
          c.queue.sq = [] ∧ c.queue.inflight = [] ∧ c.queue.cq = [])) = some true := by
    decide +kernel
  obtain ⟨q₀,made,rest⟩ := Option.bind_eq_some_iff.mp computed
  obtain ⟨c,log,run,facts⟩ := replay_reaches rest
  obtain ⟨awaited,resumed,sq,inflight,cq⟩ := of_decide_eq_true facts
  exact ⟨q₀,c,log,made,run,awaited,resumed,
    ((handles_awaitable made).1 c log run).2.2 sq inflight cq⟩

/-- The cancel request completes, its completion is consumed, and the coroutine that
   awaits its handle is still registered. -/
theorem cancel_handle_never_resumed :
    ¬ ∀ q₀ c log, create 0 = some q₀ → Run step AnyUse ⟨q₀, none⟩ c log →
      (c.queue.sq = [] → c.queue.inflight = [] → c.queue.cq = [] → c.queue.running = false) := by
  intro claim
  let actions : List Action := [.issue (.read 3 64 8) blankSqe, .cancel ⟨true,0⟩ false blankSqe,
    .await ⟨true,OpIdIgnore⟩ 100 0 16, .submit, .complete 1 0, .complete 0 (-125), .consume, .consume]
  have computed : ((create 0).bind fun q₀ =>
      (replay step AnyUse ⟨q₀, none⟩ [] actions).map fun (c, _) =>
        (c.queue.sq, c.queue.inflight, c.queue.cq, c.queue.running)) =
      some ([], [], [], true) := by decide +kernel
  obtain ⟨q₀,made,rest⟩ := Option.bind_eq_some_iff.mp computed
  obtain ⟨c,log,run,facts⟩ := replay_reaches rest
  simp only [Prod.mk.injEq] at facts
  obtain ⟨sq,inflight,cq,running⟩ := facts
  have stopped := claim q₀ c log made run sq inflight cq
  simp [running] at stopped

end Client
end IoQueue
end Aiopp
