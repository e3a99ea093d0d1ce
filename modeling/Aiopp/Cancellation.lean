import Aiopp.Dispatch

/-!
Cancelling an operation together with its handler, at any moment of its life.
Handles stay usable after their operation ended, so the runs here may await an
operation again whenever no awaiter is registered for it.
-/
namespace Aiopp
namespace IoQueue
open CompleterMap Transition

/-- Fewer than 2^64 - 2 ids; a handle that issued an id of its own is awaited only
    while no awaiter is registered for it. -/
def Proper (_ : IoQueue) (log : List Event) : Action → Prop
  | .issue _ _ => drawn log + 1 < 2 ^ 64 - 2
  | .await op _ _ _ => op.id ∈ issuedIds log ∧ registration op.id log = none
  | _ => True

instance (q : IoQueue) (log : List Event) : (action : Action) → Decidable (Proper q log action)
  | .issue _ _ => inferInstanceAs (Decidable (_ < _))
  | .await _ _ _ _ => inferInstanceAs (Decidable (_ ∧ _))
  | .linkTimeout .. | .cancel .. | .destroy .. | .submit | .submitFails | .complete .. | .consume =>
    .isTrue trivial

theorem proper_vacant (q : IoQueue) (log : List Event) (a : Action)
    (allowed : Proper q log a) : Vacant log a := by
  cases a with
  | await op address caller completer => exact allowed.2
  | _ => trivial

theorem proper_bounded (q : IoQueue) (log : List Event) (a : Action)
    (allowed : Proper q log a) : Bounded log a := by
  cases a with
  | issue req slot => exact allowed
  | _ => trivial

theorem registration_stays_none {id : UInt64} {base : List Event} (later : List Event)
    (gone : registration id base = none) (unawaited : ∀ address, .awaited id address ∉ later) :
    registration id (later ++ base) = none := by
  induction later with
  | nil => exact gone
  | cons e later ih =>
    have tail := ih fun address member => unawaited address (List.mem_cons_of_mem e member)
    rcases registration_cons id e (later ++ base) with ⟨a,rfl,_⟩ | ⟨_,none_now⟩ | ⟨_,_,_,same⟩
    · exact absurd (by simp) (unawaited a)
    · exact none_now
    · exact same.trans tail

section Runs
variable {policy : IoQueue → List Event → Action → Prop} {size : UInt64} {q : IoQueue}

theorem registration_persists (vacant : ∀ q log a, policy q log a → Vacant log a)
    {id : UInt64} {address : Nat} {base : List Event} (later : List Event)
    (reached : Reaches policy size q (later ++ base))
    (registered : registration id base = some address)
    (unsilenced : ∀ e ∈ later, ¬ Silences id e) (unconsumed : id ∉ consumedIds later) :
    registration id (later ++ base) = some address := by
  induction later generalizing q with
  | nil => exact registered
  | cons e later ih =>
    obtain ⟨before,a,first,allowed,taken⟩ := reaches_last reached
    simp only [consumedIds, List.flatMap_cons, List.mem_append, not_or] at unconsumed
    have tail := ih first (fun f hf => unsilenced f (List.mem_cons_of_mem e hf)) unconsumed.2
    rcases registration_cons id e (later ++ base) with ⟨b,rfl,_⟩ | ⟨ended,_⟩ | ⟨_,_,_,same⟩
    · cases taken with
      | awaited => exact absurd ((vacant _ _ _ allowed).symm.trans tail) (by simp)
    · rcases ended with silenced | resumed
      · exact absurd silenced (unsilenced e (by simp))
      · exact absurd (resumes_consumed vacant reached (by simp) resumed) unconsumed.1
    · exact same.trans tail

def occupant (address : Nat) : List Event → Option OperationHandle
  | [] => none
  | .awaited id a :: older => if a = address then some ⟨true,id⟩ else occupant address older
  | .destroyed a _ :: older => if a = address then none else occupant address older
  | .consumed _ (some r) :: older =>
    if r.address = address then some {} else occupant address older
  | _ :: older => occupant address older

theorem taken_occupant (vacant : ∀ q log a, policy q log a → Vacant log a) {q' : IoQueue}
    {log : List Event} {a : Action} {e : Event} (reached : Reaches policy size q log)
    (fields : ∀ address, (q.awaiterAt address).map OperationAwaiter.operation = occupant address log)
    (taken : Taken q a q' e) (address : Nat) :
    (q'.awaiterAt address).map OperationAwaiter.operation = occupant address (e :: log) := by
  cases taken with
  | issued req slot => rw [(issue_registry q req slot).2.2]; exact fields address
  | linked run => rw [(linkTimeout_registry run).2.2]; exact fields address
  | @awaited op place caller completer q' _ _ _ _ run =>
    obtain ⟨valid,_,_,rfl⟩ := await_cases run
    by_cases same : address = place
    · subst same
      simp [occupant, (valid_eq valid).1.symm]
    · simp [occupant, same, Ne.symm same, fields address]
  | @cancelled op cancelHandler slot sqe valid =>
    rw [finalizeSqe_awaiterAt]
    cases cancelHandler <;> exact fields address
  | @released place | @abandoned place =>
    by_cases same : address = place
    · subst same
      simp [occupant]
    · simp [occupant, same, Ne.symm same, fields address]
  | @consumed cqe rest resumed q' active queued run =>
    obtain ⟨content,linked⟩ := reaches_linked vacant reached
    have popped : Linked { q with cq := rest } log content :=
      linked_frame linked (by simp [SameRegistry]) fun _ => rfl
    rcases dispatch_cases popped cqe with ⟨idle,_⟩ | ⟨q₁,place,caller,done,_,_,_,⟨_,_,_,field⟩,_⟩
    · obtain ⟨rfl,rfl⟩ := Prod.mk.inj (Option.some.inj (run.symm.trans idle))
      exact fields address
    · obtain ⟨rfl,rfl⟩ := Prod.mk.inj (Option.some.inj (run.symm.trans done))
      rw [field]
      by_cases same : address = place
      · subst same
        simp [occupant]
      · simp [occupant, same, Ne.symm same, fields address]
  | submitted | submitFailed | completed => exact fields address

theorem reaches_occupant (vacant : ∀ q log a, policy q log a → Vacant log a) {log : List Event}
    (reached : Reaches policy size q log) (address : Nat) :
    (q.awaiterAt address).map OperationAwaiter.operation = occupant address log := by
  obtain ⟨q₀,made,run⟩ := reached
  induction run generalizing address with
  | nil =>
    obtain ⟨completers,_,rfl⟩ := Option.map_eq_some_iff.mp made
    rfl
  | next first allowed taken ih =>
    exact taken_occupant vacant ⟨q₀,made,first⟩ ih (step_taken taken) address

theorem occupant_awaited {address : Nat} {id : UInt64} {log : List Event}
    (holds : occupant address log = some ⟨true,id⟩) :
    ∃ later base, log = later ++ .awaited id address :: base ∧
      ∀ cqe r, Event.consumed cqe (some r) ∈ later → r.address ≠ address := by
  induction log with
  | nil => simp [occupant] at holds
  | cons e older ih =>
    have extend : occupant address older = some ⟨true,id⟩ →
        (∀ cqe r, e = .consumed cqe (some r) → r.address ≠ address) →
        ∃ later base, e :: older = later ++ .awaited id address :: base ∧
          ∀ cqe r, Event.consumed cqe (some r) ∈ later → r.address ≠ address := by
      intro tail apart
      obtain ⟨later,base,rfl,clear⟩ := ih tail
      refine ⟨e :: later,base,rfl,fun cqe r member => ?_⟩
      rcases List.mem_cons.mp member with here | deeper
      · exact apart cqe r here.symm
      · exact clear cqe r deeper
    cases e with
    | awaited i a =>
      simp only [occupant] at holds
      split at holds
      · rename_i same
        have named : i = id := by simpa using holds
        exact ⟨[],older,by simp [named, same],by simp⟩
      · exact extend holds (by simp)
    | destroyed a cancelled =>
      simp only [occupant] at holds
      split at holds
      · simp at holds
      · exact extend holds (by simp)
    | consumed cqe resumed =>
      cases resumed with
      | none => exact extend holds (by simp)
      | some r =>
        simp only [occupant] at holds
        split at holds
        · simp at holds
        · rename_i apart
          exact extend holds (by rintro _ _ eq; cases eq; exact apart)
    | _ => exact extend holds (by simp)

/-- A handle without an awaiter: never awaited, or not awaited again since its
    completion was consumed or its handler cancelled. -/
def Settled (id : UInt64) (log : List Event) : Prop :=
  (∀ address, .awaited id address ∉ log) ∨
  ∃ later e earlier, log = later ++ e :: earlier ∧ (Silences id e ∨ id ∈ consumedBy e) ∧
    ∀ address, .awaited id address ∉ later

theorem settled_unregistered (vacant : ∀ q log a, policy q log a → Vacant log a) {id : UInt64}
    {log : List Event} (reached : Reaches policy size q log) (settled : Settled id log) :
    registration id log = none := by
  rcases settled with never | ⟨later,e,earlier,rfl,ended,unawaited⟩
  · have start : registration id [] = none := rfl
    simpa using registration_stays_none log start never
  · refine registration_stays_none later ?_ unawaited
    rcases ended with silenced | consumed
    · rcases registration_cons id e earlier with ⟨a,rfl,_⟩ | ⟨_,gone⟩ | ⟨_,loud,_⟩
      · exact absurd silenced not_false
      · exact gone
      · exact absurd silenced loud
    · cases e with
      | consumed cqe resumed =>
        simp only [consumedBy] at consumed
        split at consumed
        · simp at consumed
        · rename_i ordinary
          obtain rfl := List.mem_singleton.mp consumed
          rcases consumed_meets_registration vacant reached with ⟨rfl,ignored | gone⟩ | ⟨a,c,rfl,_⟩
          · exact absurd ignored ordinary
          · exact gone
          · simp [registration]
      | _ => simp [consumedBy] at consumed

theorem awaitedIds_append (log log' : List Event) :
    awaitedIds (log ++ log') = awaitedIds log ++ awaitedIds log' := by
  induction log with
  | nil => rfl
  | cons e log ih =>
    cases e with
    | awaited id address => simp [awaitedIds, ih]
    | _ => simpa [awaitedIds] using ih

theorem awaited_elsewhere {id : UInt64} {address a : Nat} {cqe : Cqe} {r : Resumption}
    {since base newer older : List Event}
    (single : id ∉ awaitedIds since ∧ id ∉ awaitedIds base)
    (clear : ∀ cqe r, Event.consumed cqe (some r) ∈ since → r.address ≠ address)
    (split : since ++ .awaited id address :: base = newer ++ .consumed cqe (some r) :: older)
    (awaited : Event.awaited id a ∈ older) (same : r.address = a) : False := by
  rcases List.append_eq_append_iff.mp split with ⟨l,rfl,eq⟩ | ⟨l,rfl,eq⟩
  · cases l with
    | nil => simp at eq
    | cons x l =>
      rw [List.cons_append] at eq
      obtain ⟨-,rfl⟩ := List.cons.inj eq
      exact single.2 (awaited_mem (List.mem_append_right _ (List.mem_cons_of_mem _ awaited)))
  · cases l with
    | nil => simp at eq
    | cons x l =>
      rw [List.cons_append] at eq
      obtain ⟨rfl,rfl⟩ := List.cons.inj eq
      have apart := clear cqe r (by simp)
      simp only [List.mem_append, List.mem_cons] at awaited
      rcases awaited with inside | here | deeper
      · exact single.1 (awaited_mem (List.mem_append_right _ (List.mem_cons_of_mem _ inside)))
      · exact apart (same.trans (Event.awaited.inj here).2)
      · exact single.2 (awaited_mem deeper)

theorem destructor_cancels_undelivered (vacant : ∀ q log a, policy q log a → Vacant log a)
    {later earlier : List Event} {address : Nat} {id : UInt64}
    (reached : Reaches policy size q (later ++ .destroyed address (some id) :: earlier)) :
    ∃ since before, earlier = since ++ .awaited id address :: before ∧
      (∀ cqe r, Event.consumed cqe (some r) ∈ since → r.address ≠ address) ∧
      ((awaitedIds earlier).count id ≤ 1 → ∀ e ∈ earlier, ¬ Resumes id e) := by
  obtain ⟨before,_,_,first,_,taken,_⟩ := reaches_split reached
  have holds : occupant address earlier = some ⟨true,id⟩ := by
    cases taken with
    | @abandoned _ _ awaiter sqe lives valid =>
      rw [← reaches_occupant vacant first, lives]
      simp [(valid_eq valid).1.symm]
  obtain ⟨since,base,rfl,clear⟩ := occupant_awaited holds
  refine ⟨since,base,rfl,clear,fun once e member resumes => ?_⟩
  have single : id ∉ awaitedIds since ∧ id ∉ awaitedIds base := by
    simp only [awaitedIds_append, awaitedIds, List.count_append, List.count_cons_self] at once
    exact ⟨List.count_eq_zero.mp (by omega),List.count_eq_zero.mp (by omega)⟩
  -- The resumed awaiter was awaited before, so it is this one, and then it was cleared.
  obtain ⟨newer,older,split⟩ := List.append_of_mem member
  obtain ⟨cqe,r,rfl,resumed⟩ := resumes_consumption resumes
  rcases consumed_meets_registration vacant (split ▸ first) with ⟨absent,_⟩ | ⟨a,c,eq,_,met⟩
  · simp at absent
  · cases eq
    obtain rfl : cqe.user_data = id := resumed
    exact awaited_elsewhere single clear split (registration_awaited met) rfl

end Runs

/-- Cancelling with the handler, in every reachable state and for every issued
    operation, whatever has become of it. -/
theorem cancel_silences_exactly_one {size : UInt64} {q : IoQueue} {log : List Event}
    (reached : Reaches Proper size q log) {id : UInt64} (issued : id ∈ issuedIds log)
    (slot : Sqe) :
    ∃ q', q.step (.cancel ⟨true,id⟩ true slot) = some (q', .cancelled id true) ∧
    (∀ later final, Reaches Proper size final (later ++ .cancelled id true :: log) →
      (∀ address, .awaited id address ∉ later) → ∀ e ∈ later, ¬ Resumes id e) ∧
    (∀ other address, other ≠ id → registration other log = some address →
      registration other (.cancelled id true :: log) = some address ∧
      ∀ later final cqe resumed,
        Reaches Proper size final (.consumed cqe resumed :: (later ++ .cancelled id true :: log)) →
        cqe.user_data = other → (∀ e ∈ later, ¬ Silences other e) →
        ∃ r, resumed = some r ∧ r.address = address ∧ r.result = cqe.res) ∧
    (Settled id log → q'.completers_ = q.completers_) ∧
    (∀ later final earlier address i,
      Reaches Proper size final (later ++ .destroyed address (some i) :: earlier) →
      ∃ since before, earlier = since ++ .awaited i address :: before ∧
        (∀ cqe r, Event.consumed cqe (some r) ∈ since → r.address ≠ address) ∧
        ((awaitedIds earlier).count i ≤ 1 → ∀ e ∈ earlier, ¬ Resumes i e)) := by
  have conserved := reaches_conserved proper_bounded reached
  have valid : OperationHandle.valid ⟨true,id⟩ = true := by
    simp [OperationHandle.valid, (issued_ordinary conserved issued).1]
  refine ⟨_,by simp only [step, cancel, valid]; rfl,?_,?_,?_,
    fun later final earlier address i => destructor_cancels_undelivered proper_vacant⟩
  · intro later final continued unawaited e member resumes
    obtain ⟨newer,older,rfl⟩ := List.append_of_mem member
    have gone : registration id (older ++ .cancelled id true :: log) = none :=
      registration_stays_none older (by simp [registration])
        (fun address deeper => unawaited address (by simp [deeper]))
    obtain ⟨cqe,r,rfl,resumed⟩ := resumes_consumption resumes
    rw [List.append_assoc, List.cons_append] at continued
    rcases consumed_meets_registration proper_vacant continued with ⟨absent,_⟩ | ⟨a,c,eq,_,met⟩
    · simp at absent
    · cases eq
      obtain rfl : cqe.user_data = id := resumed
      simp [gone] at met
  · intro other address apart registered
    have kept : registration other (.cancelled id true :: log) = some address := by
      simpa [registration, Ne.symm apart] using registered
    refine ⟨kept,?_⟩
    rintro later final cqe resumed continued rfl unsilenced
    obtain ⟨_,_,first,_⟩ := reaches_last continued
    have known := awaited_issued (fun _ _ _ _ _ _ allowed => allowed.1) reached _
      (awaited_mem (registration_awaited registered))
    have ordinary := (issued_ordinary conserved known).2
    have whole : Reaches Proper size final
      ([] ++ .consumed cqe resumed :: (later ++ .cancelled id true :: log)) := continued
    have unconsumed := consumed_first proper_bounded whole ordinary
    simp only [consumedIds, List.flatMap_append, List.mem_append, not_or] at unconsumed
    have still := registration_persists proper_vacant later first kept unsilenced unconsumed.1
    rcases consumed_meets_registration proper_vacant whole with
      ⟨_,ignored | gone⟩ | ⟨a,c,rfl,_,met⟩
    · exact absurd ignored ordinary
    · simp [gone] at still
    · exact ⟨_,rfl,Option.some.inj (met.symm.trans still),rfl⟩
  · intro settled
    obtain ⟨content,linked⟩ := reaches_linked proper_vacant reached
    have absent := (registered_of_content linked id).mpr
      (settled_unregistered proper_vacant reached settled)
    have unchanged := represents_remove_absent linked.represents absent
    simp [dropCompleter, unchanged]

/-- The operation completes in the kernel before the cancel, which then loses the
   race: its completion arrives all the same and resumes nobody. -/
theorem late_cancel_silences :
    ∃ q log, Reaches Proper 0 q log ∧ 0 ∈ issuedIds log ∧ q.cq = [⟨0,5⟩] ∧
      ∀ later final, Reaches Proper 0 final (later ++ .cancelled 0 true :: log) →
        (∀ address, .awaited 0 address ∉ later) → ∀ e ∈ later, ¬ Resumes 0 e := by
  let actions : List Action := [.issue (.read 3 64 8) blankSqe, .await ⟨true,0⟩ 100 0 16, .submit,
    .complete 0 5]
  have computed : ((create 0).bind fun q₀ =>
      (replay step Proper q₀ [] actions).map fun (q, log) =>
        decide (0 ∈ issuedIds log ∧ q.cq = [⟨0,5⟩])) = some true := by decide +kernel
  obtain ⟨q₀,made,rest⟩ := Option.bind_eq_some_iff.mp computed
  obtain ⟨q,log,run,facts⟩ := replay_reaches rest
  obtain ⟨issued,pending⟩ := of_decide_eq_true facts
  have reached : Reaches Proper 0 q log := ⟨q₀,made,run⟩
  obtain ⟨_,_,silenced,_⟩ := cancel_silences_exactly_one reached issued blankSqe
  exact ⟨q,log,reached,issued,pending,silenced⟩

end IoQueue
end Aiopp
