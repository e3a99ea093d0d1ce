import Aiopp.Cancellation

/-!
A handle is a plain value and may be awaited long after its operation was issued.
The queue keeps no results: a completion that is consumed before anybody awaits its
operation is dropped. An await that comes in time is answered by exactly its own
completion, and an await that comes too late by none.
-/
namespace Aiopp
namespace IoQueue
open CompleterMap Transition

/-- Fewer than 2^64 - 2 ids; a handle that issued an id of its own is awaited at most
    once, at any time. -/
def Once (_ : IoQueue) (log : List Event) : Action → Prop
  | .issue _ _ => drawn log + 1 < 2 ^ 64 - 2
  | .await op _ _ _ => op.id ∈ issuedIds log ∧ op.id ∉ awaitedIds log
  | _ => True

instance (q : IoQueue) (log : List Event) : (action : Action) → Decidable (Once q log action)
  | .issue _ _ => inferInstanceAs (Decidable (_ < _))
  | .await _ _ _ _ => inferInstanceAs (Decidable (_ ∧ _))
  | .linkTimeout .. | .cancel .. | .destroy .. | .submit | .submitFails | .complete .. | .consume =>
    .isTrue trivial

theorem once_vacant (q : IoQueue) (log : List Event) (a : Action)
    (allowed : Once q log a) : Vacant log a := by
  cases a with
  | await op address caller completer => exact registration_none_of_unawaited allowed.2
  | _ => trivial

theorem once_bounded (q : IoQueue) (log : List Event) (a : Action)
    (allowed : Once q log a) : Bounded log a := by
  cases a with
  | issue req slot => exact allowed
  | _ => trivial

theorem prompt_once (q : IoQueue) (log : List Event) (a : Action)
    (allowed : Prompt q log a) : Once q log a := by
  cases a with
  | await op address caller completer => exact ⟨allowed.1,allowed.2.1⟩
  | issue req slot => exact allowed
  | _ => trivial

def Background : Event → Prop
  | .submitted => True
  | .completed _ => True
  | .consumed _ _ => True
  | _ => False

theorem background_unsilenced {id : UInt64} {e : Event} (background : Background e) :
    ¬ Silences id e := by
  cases e with
  | cancelled => exact absurd background not_false
  | destroyed => exact absurd background not_false
  | _ => exact not_false

section Runs
variable {size : UInt64} {q : IoQueue} {log : List Event} {id : UInt64} {address : Nat}

theorem registered_issued (reached : Reaches Once size q log)
    (registered : registration id log = some address) : id ∈ issuedIds log :=
  awaited_issued (fun _ _ _ _ _ _ allowed => allowed.1) reached id
    (awaited_mem (registration_awaited registered))

theorem registered_running (reached : Reaches Once size q log)
    (registered : registration id log = some address) : q.running := by
  by_contra stopped
  have silent := (not_running_iff once_vacant reached).mp (by simpa using stopped) id
  simp [registered] at silent

theorem outstanding_nodup (conserved : Conserved q log) : (outstanding q).Nodup :=
  (List.nodup_append.mp (conserved.perm.nodup_iff.mp conserved.nodup)).1

theorem outstanding_unconsumed (conserved : Conserved q log) (member : id ∈ outstanding q) :
    id ∉ consumedIds log := by
  have apart := (List.nodup_append.mp (conserved.perm.nodup_iff.mp conserved.nodup)).2.2
  intro consumed
  exact apart id member id consumed rfl

theorem registration_background {e : Event} (reached : Reaches Once size q (e :: log))
    (registered : registration id log = some address) (background : Background e)
    (other : id ∉ consumedBy e) : registration id (e :: log) = some address := by
  refine registration_persists once_vacant [e] reached registered ?_ ?_
  · intro f member
    obtain rfl := List.mem_singleton.mp member
    exact background_unsilenced background
  · simpa [consumedIds] using other

theorem consume_next (reached : Reaches Once size q log)
    (registered : registration id log = some address) {cqe : Cqe} {rest : List Cqe}
    (queued : q.cq = cqe :: rest) :
    ∃ q' resumed, Reaches Once size q' (.consumed cqe resumed :: log) ∧ q'.cq = rest := by
  obtain ⟨q',e,done⟩ := consume_defined once_vacant reached
    (registered_running reached registered) (by simp [queued])
  have allowed : Once q log .consume := trivial
  have grown := reaches_next reached allowed done
  cases step_taken done with
  | consumed active queued' dispatched =>
    obtain ⟨rfl,rfl⟩ := List.cons.inj (queued.symm.trans queued')
    exact ⟨_,_,grown,(dispatch_traffic dispatched).2.2.2⟩

/-- `run` and the kernel alone can bring the awaiter its completion. -/
def Deliverable (size : UInt64) (log : List Event) (address : Nat) : Prop :=
  ∃ more final cqe r, Reaches Once size final (.consumed cqe (some r) :: (more ++ log)) ∧
    r.address = address ∧ r.result = cqe.res ∧ ∀ e ∈ more, Background e

theorem deliverable_before {e : Event} (later : Deliverable size (e :: log) address)
    (background : Background e) : Deliverable size log address := by
  obtain ⟨more,final,cqe,r,delivered,place,result,quiet⟩ := later
  refine ⟨more ++ [e],final,cqe,r,by simpa using delivered,place,result,fun f member => ?_⟩
  rcases List.mem_append.mp member with inside | here
  · exact quiet f inside
  · obtain rfl := List.mem_singleton.mp here
    exact background

/-- Induction over the completions in front of the awaited one. -/
theorem posted_deliverable {front rest : List Cqe} {cqe : Cqe}
    (reached : Reaches Once size q log) (registered : registration id log = some address)
    (queued : q.cq = front ++ cqe :: rest) (own : cqe.user_data = id) :
    Deliverable size log address := by
  induction front generalizing q log with
  | nil =>
    obtain ⟨q',resumed,grown,_⟩ := consume_next reached registered queued
    have ordinary := (issued_ordinary (reaches_conserved once_bounded reached)
      (registered_issued reached registered)).2
    have whole : Reaches Once size q' ([] ++ .consumed cqe resumed :: log) := grown
    rcases consumed_meets_registration once_vacant whole with ⟨_,ignored | gone⟩ | ⟨a,c,rfl,_,met⟩
    · exact absurd (own ▸ ignored) ordinary
    · simp [own, registered] at gone
    · rw [own, registered] at met
      exact ⟨[],q',cqe,_,grown,(Option.some.inj met).symm,rfl,by simp⟩
  | cons first front ih =>
    obtain ⟨q',resumed,grown,left⟩ := consume_next reached registered queued
    have conserved := reaches_conserved once_bounded reached
    have ordinary := (issued_ordinary conserved (registered_issued reached registered)).2
    have apart : id ∉ consumedBy (.consumed first resumed) := by
      intro same
      have eq : first.user_data = id := by
        simp only [consumedBy] at same
        split at same
        · simp at same
        · exact (List.mem_singleton.mp same).symm
      have nodup := outstanding_nodup conserved
      simp only [outstanding, queued, List.map_cons, List.map_append, List.filter_append,
        List.cons_append, List.filter_cons, eq, own] at nodup
      simp [ordinary, List.nodup_append] at nodup
    have still := registration_background grown registered trivial apart
    exact deliverable_before (ih grown still left) trivial

theorem flying_deliverable (reached : Reaches Once size q log)
    (registered : registration id log = some address) (flying : id ∈ userDatas q.inflight) :
    Deliverable size log address := by
  obtain ⟨sqe,member,own⟩ := List.mem_map.mp flying
  obtain ⟨position,found⟩ := List.mem_iff_getElem?.mp member
  have allowed : Once q log (.complete position 0) := trivial
  have grown : Reaches Once size _ (.completed ⟨sqe.user_data,0⟩ :: log) :=
    reaches_next reached allowed (by simp only [step, found]; rfl)
  have still := registration_background grown registered trivial (by simp [consumedBy])
  exact deliverable_before (posted_deliverable grown still rfl own) trivial

theorem outstanding_deliverable (reached : Reaches Once size q log)
    (registered : registration id log = some address) (member : id ∈ outstanding q) :
    Deliverable size log address := by
  have somewhere := (List.mem_filter.mp member).1
  simp only [List.mem_append] at somewhere
  rcases somewhere with (queued | flying) | posted
  · have active := registered_running reached registered
    have allowed : Once q log .submit := trivial
    have grown : Reaches Once size _ (.submitted :: log) :=
      reaches_next reached allowed (by simp only [step, active]; rfl)
    have still := registration_background grown registered trivial (by simp [consumedBy])
    have moved : id ∈ userDatas (q.inflight ++ q.sq) := by
      rw [userDatas, List.map_append]
      exact List.mem_append_right _ queued
    exact deliverable_before (flying_deliverable grown still moved) trivial
  · exact flying_deliverable reached registered flying
  · obtain ⟨cqe,posted,own⟩ := List.mem_map.mp posted
    obtain ⟨front,rest,queued⟩ := List.append_of_mem posted
    exact posted_deliverable reached registered queued own

theorem mem_resumptions {r : Resumption} :
    r ∈ resumptions id log ↔ r.operation.id = id ∧ ∃ cqe, Event.consumed cqe (some r) ∈ log := by
  induction log with
  | nil => simp [resumptions]
  | cons e older ih =>
    cases e with
    | consumed cqe resumed =>
      cases resumed with
      | none => simpa [resumptions] using ih
      | some s =>
        by_cases own : s.operation.id = id
        · simp only [resumptions, own, ↓reduceIte, List.mem_cons, ih, Event.consumed.injEq,
            Option.some.injEq]
          constructor
          · rintro (rfl | ⟨same,c,there⟩)
            · exact ⟨own,cqe,.inl ⟨rfl,rfl⟩⟩
            · exact ⟨same,c,.inr there⟩
          · rintro ⟨same,c,⟨_,rfl⟩ | there⟩
            · exact .inl rfl
            · exact .inr ⟨same,c,there⟩
        · simp only [resumptions, own, ↓reduceIte, ih, List.mem_cons, Event.consumed.injEq,
            Option.some.injEq]
          constructor
          · rintro ⟨same,c,there⟩
            exact ⟨same,c,.inr there⟩
          · rintro ⟨same,c,⟨_,rfl⟩ | there⟩
            · exact absurd same own
            · exact ⟨same,c,there⟩
    | _ => simpa [resumptions] using ih

theorem no_resumptions (unresumed : ∀ e ∈ log, ¬ Resumes id e) : resumptions id log = [] := by
  apply List.eq_nil_iff_forall_not_mem.mpr
  intro r member
  obtain ⟨own,cqe,there⟩ := mem_resumptions.mp member
  exact unresumed _ there own

theorem only_resumption (reached : Reaches Once size q log) {cqe : Cqe} {r : Resumption}
    (member : Event.consumed cqe (some r) ∈ log) : resumptions r.operation.id log = [r] := by
  have atMost := resumptions_at_most_once once_vacant once_bounded reached r.operation.id
  have present := mem_resumptions.mpr ⟨rfl,cqe,member⟩
  match found : resumptions r.operation.id log with
  | [] => simp [found] at present
  | [s] => simpa [found, eq_comm] using present
  | s :: t :: more => simp [found] at atMost

end Runs

section Await
variable {size : UInt64} {q : IoQueue} {later earlier : List Event} {id : UInt64} {address : Nat}

theorem await_first (reached : Reaches Once size q (later ++ .awaited id address :: earlier)) :
    id ∉ awaitedIds earlier := by
  obtain ⟨_,_,_,_,allowed,taken,_⟩ := reaches_split reached
  cases taken with
  | awaited => exact allowed.2

theorem awaiting_registered (reached : Reaches Once size q (later ++ .awaited id address :: earlier))
    (unsilenced : ∀ e ∈ later, ¬ Silences id e) (unconsumed : id ∉ consumedIds later) :
    registration id (later ++ .awaited id address :: earlier) = some address :=
  registration_persists once_vacant later reached (by simp [registration]) unsilenced unconsumed

theorem timely_await_resumed
    (reached : Reaches Once size q (later ++ .awaited id address :: earlier))
    (unsilenced : ∀ e ∈ later, ¬ Silences id e) (consumed : id ∈ consumedIds later) :
    ∃ cqe r, Event.consumed cqe (some r) ∈ later ∧ cqe.user_data = id ∧ r.address = address ∧
      r.result = cqe.res ∧ resumptions id (later ++ .awaited id address :: earlier) = [r] := by
  obtain ⟨e,member,own⟩ := List.mem_flatMap.mp consumed
  obtain ⟨newer,older,rfl⟩ := List.append_of_mem member
  cases e with
  | consumed cqe resumed =>
    simp only [consumedBy] at own
    split at own
    · simp at own
    · rename_i ordinary
      obtain rfl := List.mem_singleton.mp own
      rw [List.append_assoc, List.cons_append] at reached ⊢
      obtain ⟨_,_,_,first,_⟩ := reaches_split reached
      have fresh := consumed_first once_bounded reached ordinary
      simp only [consumedIds, List.flatMap_append, List.mem_append, not_or] at fresh
      have registered := awaiting_registered first
        (fun f inside => unsilenced f (by simp [inside])) fresh.1
      rcases consumed_meets_registration once_vacant reached with
        ⟨_,ignored | gone⟩ | ⟨a,c,rfl,_,met⟩
      · exact absurd ignored ordinary
      · simp [gone] at registered
      · obtain rfl := Option.some.inj (met.symm.trans registered)
        exact ⟨cqe,⟨a,⟨true,cqe.user_data⟩,c,cqe.res⟩,by simp,rfl,rfl,rfl,
          only_resumption reached (List.mem_append_right newer List.mem_cons_self)⟩
  | _ => simp [consumedBy] at own

theorem timely_await_waits
    (reached : Reaches Once size q (later ++ .awaited id address :: earlier))
    (unsilenced : ∀ e ∈ later, ¬ Silences id e)
    (unconsumed : id ∉ consumedIds (later ++ .awaited id address :: earlier)) :
    resumptions id (later ++ .awaited id address :: earlier) = [] ∧ id ∈ outstanding q ∧
      Deliverable size (later ++ .awaited id address :: earlier) address := by
  have registered := awaiting_registered reached unsilenced (by
    simp only [consumedIds, List.flatMap_append, List.mem_append, not_or] at unconsumed
    exact unconsumed.1)
  have conserved := reaches_conserved once_bounded reached
  have under_way : id ∈ outstanding q := by
    have member := conserved.perm.mem_iff.mp (registered_issued reached registered)
    exact (List.mem_append.mp member).resolve_right unconsumed
  exact ⟨no_resumptions (unresumed_of_unconsumed once_vacant reached unconsumed),under_way,
    outstanding_deliverable reached registered under_way⟩

theorem late_await_hangs (reached : Reaches Once size q (later ++ .awaited id address :: earlier))
    (unsilenced : ∀ e ∈ later, ¬ Silences id e) (consumed : id ∈ consumedIds earlier) :
    resumptions id (later ++ .awaited id address :: earlier) = [] ∧
      registration id (later ++ .awaited id address :: earlier) = some address ∧
      id ∉ outstanding q ∧ q.running := by
  have conserved := reaches_conserved once_bounded reached
  have everywhere : id ∈ consumedIds (later ++ .awaited id address :: earlier) := by
    simp only [consumedIds, List.flatMap_append, List.flatMap_cons, List.mem_append]
    exact .inr (.inr consumed)
  have apart : id ∉ consumedIds later := by
    have nodup := consumed_nodup conserved
    simp only [consumedIds, List.flatMap_append, List.flatMap_cons, List.nodup_append,
      List.mem_append] at nodup
    intro again
    exact nodup.2.2 id again id (.inr consumed) rfl
  have registered := awaiting_registered reached unsilenced apart
  refine ⟨no_resumptions ?_,registered,
    fun member => outstanding_unconsumed conserved member everywhere,
    registered_running reached registered⟩
  intro e member resumes
  have consumes := resumes_consumed once_vacant reached member resumes
  rcases List.mem_append.mp member with newer | here_or_older
  · exact apart (List.mem_flatMap.mpr ⟨e,newer,consumes⟩)
  · rcases List.mem_cons.mp here_or_older with rfl | older
    · exact absurd resumes not_false
    · obtain ⟨_,_,_,first,_⟩ := reaches_split reached
      obtain ⟨cqe,r,rfl,rfl⟩ := resumes_consumption resumes
      obtain ⟨_,own,_,awaited⟩ := resumed_own_operation once_vacant first older
      have same : r.operation.id = cqe.user_data := congrArg OperationHandle.id own
      exact await_first reached (same ▸ awaited_mem awaited)

end Await

theorem registration_split {id : UInt64} {address : Nat} {log : List Event}
    (registered : registration id log = some address) :
    ∃ later earlier, log = later ++ .awaited id address :: earlier ∧
      ∀ e ∈ later, ¬ Silences id e ∧ ¬ Resumes id e := by
  induction log with
  | nil => simp [registration] at registered
  | cons e older ih =>
    rcases registration_cons id e older with ⟨a,rfl,here⟩ | ⟨_,gone⟩ | ⟨_,loud,resumed,same⟩
    · obtain rfl := Option.some.inj (here.symm.trans registered)
      exact ⟨[],older,rfl,by simp⟩
    · simp [gone] at registered
    · obtain ⟨later,earlier,rfl,quiet⟩ := ih (same ▸ registered)
      refine ⟨e :: later,earlier,rfl,fun f member => ?_⟩
      rcases List.mem_cons.mp member with rfl | inside
      · exact ⟨loud,resumed⟩
      · exact quiet f inside

theorem prompt_outstanding {size : UInt64} {q : IoQueue} {log : List Event} {id : UInt64}
    {address : Nat} (prompt : Reaches Prompt size q log)
    (registered : registration id log = some address) : id ∈ outstanding q := by
  obtain ⟨newer,older,rfl,quiet⟩ := registration_split registered
  have loose : Reaches Once size q (newer ++ .awaited id address :: older) := by
    obtain ⟨q₀,made,run⟩ := prompt
    exact ⟨q₀,made,run.relax prompt_once⟩
  have timely : id ∉ consumedIds older := by
    obtain ⟨_,_,_,_,allowed,taken,_⟩ := reaches_split prompt
    cases taken with
    | awaited => exact allowed.2.2
  have unconsumed : id ∉ consumedIds newer := by
    intro consumed
    obtain ⟨cqe,r,member,own,_,_,single⟩ :=
      timely_await_resumed loose (fun e inside => (quiet e inside).1) consumed
    have resumes := resumed_own_id once_vacant loose cqe r (List.mem_append_left _ member)
    exact (quiet _ member).2 (resumes.2.trans own)
  refine (timely_await_waits loose (fun e inside => (quiet e inside).1) ?_).2.1
  simp only [consumedIds, List.flatMap_append, List.flatMap_cons, List.mem_append, not_or]
  exact ⟨unconsumed,by simp [consumedBy],timely⟩

/-- An await of an operation whose completion is not consumed yet is resumed exactly
    once, by that completion; an await that comes later is never resumed and keeps
    `run` waiting. If every await comes in time, nobody waits for nothing. -/
theorem timely_await_resumed_once {size : UInt64} {q : IoQueue} {later earlier : List Event}
    {id : UInt64} {address : Nat}
    (reached : Reaches Once size q (later ++ .awaited id address :: earlier))
    (unsilenced : ∀ e ∈ later, ¬ Silences id e) :
    (id ∉ consumedIds earlier →
      (id ∈ consumedIds later → ∃ cqe r, Event.consumed cqe (some r) ∈ later ∧
        cqe.user_data = id ∧ r.address = address ∧ r.result = cqe.res ∧
        resumptions id (later ++ .awaited id address :: earlier) = [r]) ∧
      (id ∉ consumedIds later →
        resumptions id (later ++ .awaited id address :: earlier) = [] ∧ id ∈ outstanding q ∧
        Deliverable size (later ++ .awaited id address :: earlier) address)) ∧
    (id ∈ consumedIds earlier →
      resumptions id (later ++ .awaited id address :: earlier) = [] ∧
      registration id (later ++ .awaited id address :: earlier) = some address ∧
      id ∉ outstanding q ∧ q.running) ∧
    (∀ q log, Reaches Prompt size q log →
      ∀ i a, registration i log = some a → i ∈ outstanding q) := by
  refine ⟨fun timely => ⟨timely_await_resumed reached unsilenced,fun unconsumed => ?_⟩,
    late_await_hangs reached unsilenced,?_⟩
  · refine timely_await_waits reached unsilenced ?_
    simp only [consumedIds, List.flatMap_append, List.flatMap_cons, List.mem_append, not_or]
    exact ⟨unconsumed,by simp [consumedBy],timely⟩
  · intro q log prompt i a registered
    exact prompt_outstanding prompt registered

theorem posted_await_resumed_once :
    ∃ q e log r, Reaches Once 0 q ([e] ++ .awaited 0 100 :: log) ∧
      e = .consumed ⟨0,5⟩ (some ⟨100,⟨true,0⟩,0,5⟩) ∧ r.address = 100 ∧
      resumptions 0 ([e] ++ .awaited 0 100 :: log) = [r] := by
  let actions : List Action := [.issue (.read 3 64 8) blankSqe, .issue (.read 4 128 8) blankSqe,
    .await ⟨true,1⟩ 200 1 32, .submit, .complete 0 5, .await ⟨true,0⟩ 100 0 16, .consume]
  have computed : ((create 0).bind fun q₀ =>
      (replay step Once q₀ [] actions).map fun (_, log) =>
        decide (log.head? = some (.consumed ⟨0,5⟩ (some ⟨100,⟨true,0⟩,0,5⟩)) ∧
          log.tail.head? = some (.awaited 0 100) ∧ 0 ∉ consumedIds log.tail.tail)) =
      some true := by decide +kernel
  obtain ⟨q₀,made,rest⟩ := Option.bind_eq_some_iff.mp computed
  obtain ⟨q,log,run,facts⟩ := replay_reaches rest
  obtain ⟨newest,second,timely⟩ := of_decide_eq_true facts
  obtain ⟨tail,rfl⟩ := List.head?_eq_some_iff.mp newest
  obtain ⟨older,rfl⟩ := List.head?_eq_some_iff.mp second
  have reached := (⟨q₀,made,run⟩ : Reaches Once 0 q
    ([.consumed ⟨0,5⟩ (some ⟨100,⟨true,0⟩,0,5⟩)] ++ .awaited 0 100 :: older))
  obtain ⟨_,r,_,_,place,_,single⟩ :=
    ((timely_await_resumed_once reached (by simp [Silences])).1 timely).1 (by decide)
  exact ⟨q,_,older,r,reached,rfl,place,single⟩

/-- The completion is consumed while another operation keeps the loop running; the
   await that follows registers a completer that no completion will ever find. -/
theorem late_await_never_resumed :
    ∃ q log, Reaches Once 0 q (.awaited 0 100 :: log) ∧ Event.consumed ⟨0,5⟩ none ∈ log ∧
      registration 0 (.awaited 0 100 :: log) = some 100 ∧ 0 ∉ outstanding q ∧
      ∀ later final, Reaches Once 0 final (later ++ .awaited 0 100 :: log) →
        (∀ e ∈ later, ¬ Silences 0 e) →
        resumptions 0 (later ++ .awaited 0 100 :: log) = [] ∧ final.running := by
  let actions : List Action := [.issue (.read 3 64 8) blankSqe, .issue (.read 4 128 8) blankSqe,
    .await ⟨true,1⟩ 200 1 32, .submit, .complete 0 5, .consume, .await ⟨true,0⟩ 100 0 16]
  have computed : ((create 0).bind fun q₀ =>
      (replay step Once q₀ [] actions).map fun (q, log) =>
        decide (log.head? = some (.awaited 0 100) ∧ Event.consumed ⟨0,5⟩ none ∈ log.tail ∧
          0 ∈ consumedIds log.tail)) = some true := by decide +kernel
  obtain ⟨q₀,made,rest⟩ := Option.bind_eq_some_iff.mp computed
  obtain ⟨q,log,run,facts⟩ := replay_reaches rest
  obtain ⟨newest,dropped,late⟩ := of_decide_eq_true facts
  obtain ⟨older,rfl⟩ := List.head?_eq_some_iff.mp newest
  have reached : Reaches Once 0 q ([] ++ .awaited 0 100 :: older) :=
    ⟨q₀,made,run⟩
  obtain ⟨_,registered,gone,_⟩ := late_await_hangs reached (by simp) late
  refine ⟨q,older,reached,dropped,registered,gone,fun later final continued quiet => ?_⟩
  obtain ⟨unresumed,_,_,active⟩ := late_await_hangs continued quiet late
  exact ⟨unresumed,active⟩

end IoQueue
end Aiopp
