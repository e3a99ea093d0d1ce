import Aiopp.Dispatch

/-!
The heap objects behind the completer map. A completer is created when a handle is awaited and
deleted when its operation completes or loses its handler. In every run the live completers are
those of the registered operations, one each, so that none is left when `run` ends.
-/
namespace Aiopp
namespace IoQueue
open CompleterMap Transition

def Event.dropped : Event → Option UInt64
  | .cancelled id true => some id
  | .destroyed _ (some id) => some id
  | .consumed _ (some r) => some r.operation.id
  | _ => none

def deletions : List Event → Nat
  | [] => 0
  | e :: older => deletions older + (e.dropped.bind fun id => registration id older).toList.length

theorem dropped_iff {id : UInt64} {e : Event} :
    e.dropped = some id ↔ Silences id e ∨ Resumes id e := by
  cases e with
  | cancelled i handler => cases handler <;> simp [Event.dropped, Silences, Resumes]
  | destroyed address cancelled => cases cancelled <;> simp [Event.dropped, Silences, Resumes]
  | consumed cqe resumed => cases resumed <;> simp [Event.dropped, Silences, Resumes]
  | _ => simp [Event.dropped, Silences, Resumes]

def registered (log : List Event) : Set UInt64 := {id | (registration id log).isSome}

section Counting
variable {e : Event} {log : List Event} {id : UInt64}

theorem registered_awaited (address : Nat) :
    registered (.awaited id address :: log) = insert id (registered log) := by
  ext i
  by_cases same : id = i
  · simp [registered, registration, same]
  · simp [registered, registration, same, Ne.symm same]

theorem registered_dropped (drops : e.dropped = some id) :
    registered (e :: log) = registered log \ {id} := by
  ext i
  rcases registration_cons i e log with ⟨address,rfl,_⟩ | ⟨own,gone⟩ | ⟨_,silent,unresumed,same⟩
  · simp [Event.dropped] at drops
  · obtain rfl := Option.some.inj (drops.symm.trans (dropped_iff.mpr own))
    simp [registered, gone]
  · have other : i ≠ id := by
      rintro rfl
      exact (dropped_iff.mp drops).elim silent unresumed
    simp [registered, same, other]

theorem registered_quiet (keeps : e.dropped = none) (unawaited : ∀ i address, e ≠ .awaited i address) :
    registered (e :: log) = registered log := by
  ext i
  rcases registration_cons i e log with ⟨address,rfl,_⟩ | ⟨own,_⟩ | ⟨_,_,_,same⟩
  · exact absurd rfl (unawaited i address)
  · simp [dropped_iff.mpr own] at keeps
  · simp [registered, same]

theorem deleted_cons (drops : e.dropped = some id) :
    (registered (e :: log)).ncard + deletions (e :: log) =
      (registered log).ncard + deletions log := by
  rw [registered_dropped drops]
  cases held : registration id log with
  | none =>
    have outside : id ∉ registered log := by simp [registered, held]
    simp [Set.sdiff_singleton_eq_self outside, deletions, drops, held]
  | some address =>
    have inside : id ∈ registered log := by simp [registered, held]
    have fewer := Set.ncard_sdiff_singleton_add_one inside (Set.toFinite _)
    simp only [deletions, drops, Option.bind_some, held, Option.toList_some, List.length_singleton]
    omega

theorem awaited_cons (vacant : registration id log = none) (address : Nat) :
    (registered (.awaited id address :: log)).ncard = (registered log).ncard + 1 := by
  rw [registered_awaited]
  exact Set.ncard_insert_of_notMem (by simp [registered, vacant]) (Set.toFinite _)

end Counting

/-- No completer lives but those in the map. -/
def Housed (q : IoQueue) (content : UInt64 → Option UInt64) : Prop :=
  ∀ completer, (q.completerAt completer).isSome → ∃ id, content id = some completer

section Housing
variable {q q' : IoQueue} {log : List Event} {content content' : UInt64 → Option UInt64}

theorem content_unique {m : CompleterMap} (first : m.Represents content)
    (second : m.Represents content') : content = content' := by
  funext id
  have same := (represents_get first id).symm.trans (represents_get second id)
  cases here : content id with
  | none =>
    cases there : content' id with
    | none => rfl
    | some completer =>
      rw [here, there] at same
      exact absurd same.symm (represents_value second there).1
  | some completer =>
    cases there : content' id with
    | none =>
      rw [here, there] at same
      exact absurd same (represents_value first here).1
    | some other =>
      rw [here, there] at same
      exact congrArg some same

theorem housed_drop (housed : Housed q content) (represents : q.completers_.Represents content)
    (id : UInt64) : Housed (q.dropCompleter id) (Function.update content id none) := by
  intro completer lives
  have removed := (represents_remove represents id).1
  change (Function.update q.completerAt (q.completers_.remove id).1 none completer).isSome at lives
  have kept : completer ≠ (q.completers_.remove id).1 := by
    rintro rfl
    simp at lives
  rw [Function.update_of_ne kept] at lives
  obtain ⟨i,held⟩ := housed completer lives
  refine ⟨i,?_⟩
  rw [Function.update_of_ne, held]
  rintro rfl
  rw [held] at removed
  exact kept removed.symm

theorem housed_frame (housed : Housed q content) (same : q'.completerAt = q.completerAt) :
    Housed q' content := by
  intro completer lives
  exact housed completer (same ▸ lives)

theorem housed_await (housed : Housed q content) {op : OperationHandle} {address caller : Nat}
    {completer : UInt64} (fresh : content op.id = none)
    (run : q.await op address caller completer = some q') :
    Housed q' (Function.update content op.id (some completer)) := by
  obtain ⟨_,grown,_,rfl⟩ := await_cases run
  intro other lives
  by_cases same : other = completer
  · exact ⟨op.id,by simp [same]⟩
  · simp only [Function.update_of_ne same] at lives
    obtain ⟨i,held⟩ := housed other lives
    refine ⟨i,?_⟩
    rw [Function.update_of_ne, held]
    rintro rfl
    simp [fresh] at held

theorem housed_dispatch (housed : Housed q content) (represents : q.completers_.Represents content)
    {cqe : Cqe} {resumed : Option Resumption} (run : q.dispatch cqe = some (q', resumed)) :
    ∃ content', q'.completers_.Represents content' ∧ Housed q' content' := by
  have removed := represents_remove represents cqe.user_data
  simp only [dispatch] at run
  split at run
  · split at run
    · obtain ⟨⟨q₁,r⟩,completed,eq⟩ := Option.map_eq_some_iff.mp run
      cases eq
      simp only [complete, Option.bind_eq_bind, Option.bind_eq_some_iff] at completed
      obtain ⟨_,_,_,_,done⟩ := completed
      cases done
      exact ⟨_,removed.2,housed_frame (housed_drop housed represents cqe.user_data) rfl⟩
    · rename_i empty
      cases run
      cases target : content cqe.user_data with
      | none =>
        rw [represents_remove_absent represents target]
        exact ⟨content,represents,housed_frame housed rfl⟩
      | some completer =>
        rw [target, Option.getD_some] at removed
        rw [removed.1, not_not] at empty
        exact absurd empty (represents_value represents target).1
  · cases run
    exact ⟨content,represents,housed⟩

theorem taken_housed {a : Action} {e : Event} (housed : Housed q content)
    (linked : Linked q log content) (vacant : Vacant log a) (taken : Taken q a q' e) :
    ∃ content', q'.completers_.Represents content' ∧ Housed q' content' := by
  have represents := linked.represents
  cases taken with
  | issued req slot =>
    obtain ⟨same,objects,_⟩ := issue_registry q req slot
    exact ⟨content,same ▸ represents,housed_frame housed objects⟩
  | linked run =>
    obtain ⟨same,objects,_⟩ := linkTimeout_registry run
    exact ⟨content,same ▸ represents,housed_frame housed objects⟩
  | awaited free unused nonempty unmarked run =>
    have fresh := (registered_of_content linked _).mpr vacant
    have there := housed_await housed fresh run
    obtain ⟨_,_,inserted,rfl⟩ := await_cases run
    exact ⟨_,represents_insert represents fresh nonempty unmarked inserted,there⟩
  | @cancelled op cancelHandler slot sqe valid =>
    cases cancelHandler with
    | false => exact ⟨content,by simpa using represents,housed_frame housed (by simp)⟩
    | true =>
      refine ⟨_,?_,housed_frame (housed_drop housed represents op.id) (by simp)⟩
      rw [finalizeSqe_completers]
      exact (represents_remove represents op.id).2
  | released lives cleared => exact ⟨content,represents,housed_frame housed rfl⟩
  | @abandoned address slot awaiter sqe lives valid =>
    let id := awaiter.operation.id
    refine ⟨Function.update content id none,?_,
      housed_frame (housed_drop housed represents id) (finalizeSqe_completerAt _ sqe OpIdIgnore)⟩
    simp only [finalizeSqe_completers]
    exact (represents_remove represents id).2
  | submitted active => exact ⟨content,represents,housed_frame housed rfl⟩
  | submitFailed active => exact ⟨content,represents,housed_frame housed rfl⟩
  | completed res flying => exact ⟨content,represents,housed_frame housed rfl⟩
  | @consumed cqe rest resumed q' active queued run =>
    have popped : Housed { q with cq := rest } content := housed_frame housed rfl
    exact housed_dispatch popped represents run

theorem live_iff (linked : Linked q log content) (housed : Housed q content) {completer : UInt64} :
    (q.completerAt completer).isSome ↔ ∃ id, content id = some completer := by
  refine ⟨housed completer,?_⟩
  rintro ⟨id,held⟩
  obtain ⟨address,_,lives,_⟩ := linked.present id completer held
  rw [lives]
  rfl

theorem get_held (linked : Linked q log content) {id completer : UInt64}
    (held : content id = some completer) : q.completers_.get id = completer := by
  rw [represents_get linked.represents, held, Option.getD_some]

theorem get_live (linked : Linked q log content) {id completer : UInt64}
    (nonempty : completer ≠ CompleterMap.Empty) (found : q.completers_.get id = completer) :
    content id = some completer := by
  rw [represents_get linked.represents] at found
  cases there : content id with
  | none =>
    rw [there] at found
    exact absurd found.symm nonempty
  | some value =>
    rw [there, Option.getD_some] at found
    rw [found]

theorem live_ncard (linked : Linked q log content) (housed : Housed q content) :
    {completer | (q.completerAt completer).isSome}.ncard = (registered log).ncard := by
  have held : ∀ id ∈ registered log, content id = some (q.completers_.get id) := by
    intro id there
    obtain ⟨completer,here⟩ := Option.ne_none_iff_exists'.mp fun absent =>
      (Option.isSome_iff_ne_none.mp there) (linked.absent id absent)
    rw [here, get_held linked here]
  have image : {completer | (q.completerAt completer).isSome} =
      q.completers_.get '' registered log := by
    ext completer
    rw [Set.mem_ofPred_eq, live_iff linked housed]
    constructor
    · rintro ⟨id,here⟩
      obtain ⟨_,_,_,_,_,there⟩ := linked.present id completer here
      exact ⟨id,by simp [registered, there],get_held linked here⟩
    · rintro ⟨id,there,rfl⟩
      exact ⟨id,held id there⟩
  rw [image]
  refine Set.InjOn.ncard_image ?_
  intro i here j there same
  have first := held i here
  rw [same] at first
  exact completer_unique linked first (held j there)

end Housing

section Runs
variable {policy : IoQueue → List Event → Action → Prop} {size : UInt64} {q : IoQueue}
  {log : List Event}

theorem reaches_housed (vacant : ∀ q log a, policy q log a → Vacant log a)
    (reached : Reaches policy size q log) : ∃ content, Linked q log content ∧ Housed q content := by
  obtain ⟨q₀,made,run⟩ := reached
  refine run.invariant (fun q log => ∃ content, Linked q log content ∧ Housed q content) ?_ ?_
  · refine ⟨_,create_linked made,?_⟩
    obtain ⟨completers,_,rfl⟩ := Option.map_eq_some_iff.mp made
    intro completer lives
    simp at lives
  · rintro s older a s' e ⟨content,linked,housed⟩ allowed taken
    have next := step_taken taken
    obtain ⟨content',linked'⟩ := taken_linked linked (vacant s older a allowed) next
    obtain ⟨there,represents,housed'⟩ := taken_housed housed linked (vacant s older a allowed) next
    exact ⟨content',linked',content_unique linked'.represents represents ▸ housed'⟩

theorem reaches_counted (vacant : ∀ q log a, policy q log a → Vacant log a)
    (reached : Reaches policy size q log) :
    (registered log).ncard + deletions log = (awaitedIds log).length := by
  obtain ⟨q₀,made,run⟩ := reached
  refine run.invariant (fun _ log =>
    (registered log).ncard + deletions log = (awaitedIds log).length) ?_ ?_
  · simp [registered, registration, deletions, awaitedIds]
  · intro s older a s' e counted allowed taken
    by_cases drops : ∃ id, e.dropped = some id
    · obtain ⟨id,here⟩ := drops
      have same : awaitedIds (e :: older) = awaitedIds older := by
        cases e <;> simp_all [Event.dropped, awaitedIds]
      rw [deleted_cons here, counted, same]
    · have keeps : e.dropped = none := Option.eq_none_iff_forall_ne_some.mpr fun id there =>
        drops ⟨id,there⟩
      have kept : deletions (e :: older) = deletions older := by simp [deletions, keeps]
      cases step_taken taken with
      | awaited _ _ _ _ _ =>
        have free := vacant s older _ allowed
        rw [kept, awaited_cons free]
        simp only [awaitedIds, List.length_cons]
        omega
      | _ =>
        rw [kept, registered_quiet keeps (by simp)]
        exact counted

end Runs

end IoQueue
end Aiopp
