import Aiopp.Conservation
import Mathlib.Data.Set.Card
import Mathlib.Data.FinEnum

/-!
Completions and awaiters over whole runs. Every consumed completion is accounted
for by the registration at its moment: it resumes the awaiter registered for its
own id with its own result, or finds none.
-/
namespace Aiopp
namespace IoQueue
open CompleterMap Transition

def Reaches (policy : IoQueue → List Event → Action → Prop) (size : UInt64) (q : IoQueue)
    (log : List Event) : Prop :=
  ∃ q₀, create size = some q₀ ∧ Run step policy q₀ q log

def awaitedIds : List Event → List UInt64
  | [] => []
  | .awaited id _ :: older => id :: awaitedIds older
  | _ :: older => awaitedIds older

def resumptions (id : UInt64) : List Event → List Resumption
  | [] => []
  | .consumed _ (some r) :: older =>
    if r.operation.id = id then r :: resumptions id older else resumptions id older
  | _ :: older => resumptions id older

/-- Fewer than 2^64 - 2 ids; only handles that issued an id of their own are awaited,
    each at most once and before its completion is consumed. -/
def Prompt (_ : IoQueue) (log : List Event) : Action → Prop
  | .issue _ _ => drawn log + 1 < 2 ^ 64 - 2
  | .await op _ _ _ =>
    op.id ∈ issuedIds log ∧ op.id ∉ awaitedIds log ∧ op.id ∉ consumedIds log
  | _ => True

instance (q : IoQueue) (log : List Event) : (action : Action) → Decidable (Prompt q log action)
  | .issue _ _ => inferInstanceAs (Decidable (_ < _))
  | .await _ _ _ _ => inferInstanceAs (Decidable (_ ∧ _ ∧ _))
  | .linkTimeout .. | .cancel .. | .destroy .. | .submit | .submitFails | .complete .. | .consume =>
    .isTrue trivial

theorem registration_awaited {id : UInt64} {address : Nat} {log : List Event}
    (registered : registration id log = some address) : Event.awaited id address ∈ log := by
  induction log with
  | nil => simp [registration] at registered
  | cons e older ih =>
    rcases registration_cons id e older with ⟨a,rfl,here⟩ | ⟨_,gone⟩ | ⟨_,_,_,same⟩
    · obtain rfl := Option.some.inj (here.symm.trans registered)
      simp
    · simp [gone] at registered
    · exact List.mem_cons_of_mem e (ih (same ▸ registered))

theorem awaited_mem {id : UInt64} {address : Nat} {log : List Event}
    (member : Event.awaited id address ∈ log) : id ∈ awaitedIds log := by
  induction log with
  | nil => simp at member
  | cons e older ih =>
    rcases List.mem_cons.mp member with rfl | later
    · simp [awaitedIds]
    · have := ih later
      unfold awaitedIds
      split <;> simp_all

theorem registration_none_of_unawaited {id : UInt64} {log : List Event}
    (unawaited : id ∉ awaitedIds log) : registration id log = none := by
  apply Option.eq_none_iff_forall_ne_some.mpr
  intro address registered
  exact unawaited (awaited_mem (registration_awaited registered))

section Reaches
variable {policy : IoQueue → List Event → Action → Prop} {size : UInt64} {q : IoQueue}
  {log : List Event}

theorem create_linked {q₀ : IoQueue} (made : create size = some q₀) :
    Linked q₀ [] fun _ => none := by
  obtain ⟨completers,new,rfl⟩ := Option.map_eq_some_iff.mp made
  exact ⟨create_represents new,rfl,fun _ _ => rfl,by simp⟩

theorem reaches_linked (vacant : ∀ q log a, policy q log a → Vacant log a)
    (reached : Reaches policy size q log) : ∃ content, Linked q log content := by
  obtain ⟨q₀,made,run⟩ := reached
  refine run.invariant (fun q log => ∃ content, Linked q log content) ⟨_,create_linked made⟩ ?_
  rintro s older a s' e ⟨content,linked⟩ allowed taken
  exact taken_linked linked (vacant s older a allowed) (step_taken taken)

theorem reaches_next {q' : IoQueue} {a : Action} {e : Event} (reached : Reaches policy size q log)
    (allowed : policy q log a) (taken : q.step a = some (q', e)) :
    Reaches policy size q' (e :: log) := by
  obtain ⟨q₀,made,run⟩ := reached
  exact ⟨q₀,made,run.next allowed taken⟩

theorem create_conserved {q₀ : IoQueue} (made : create size = some q₀) : Conserved q₀ [] := by
  obtain ⟨completers,new,rfl⟩ := Option.map_eq_some_iff.mp made
  exact ⟨rfl,by decide,by simp [issuedIds],by simp [issuedIds],
    by simp [issuedIds, outstanding, userDatas, consumedIds]⟩

theorem reaches_conserved (bounded : ∀ q log a, policy q log a → Bounded log a)
    (reached : Reaches policy size q log) : Conserved q log := by
  obtain ⟨q₀,made,run⟩ := reached
  refine run.invariant Conserved (create_conserved made) ?_
  intro s older a s' e conserved allowed taken
  exact taken_conserved conserved (bounded s older a allowed) (step_taken taken)

theorem reaches_split {later earlier : List Event} {e : Event}
    (reached : Reaches policy size q (later ++ e :: earlier)) :
    ∃ before a after, Reaches policy size before earlier ∧ policy before earlier a ∧
      Taken before a after e ∧ Reaches policy size after (e :: earlier) := by
  obtain ⟨q₀,made,run⟩ := reached
  obtain ⟨before,a,after,first,allowed,taken,second⟩ := run.split
  exact ⟨before,a,after,⟨q₀,made,first⟩,allowed,step_taken taken,⟨q₀,made,second⟩⟩

theorem reaches_last {earlier : List Event} {e : Event}
    (reached : Reaches policy size q (e :: earlier)) :
    ∃ before a, Reaches policy size before earlier ∧ policy before earlier a ∧
      Taken before a q e := by
  obtain ⟨q₀,made,run⟩ := reached
  cases run with
  | next first allowed taken => exact ⟨_,_,⟨q₀,made,first⟩,allowed,step_taken taken⟩

/-- Every completion consumed in a run met exactly the registration of its own id. -/
theorem consumed_meets_registration (vacant : ∀ q log a, policy q log a → Vacant log a)
    {later earlier : List Event} {cqe : Cqe} {resumed : Option Resumption}
    (reached : Reaches policy size q (later ++ .consumed cqe resumed :: earlier)) :
    (resumed = none ∧ (cqe.user_data = OpIdIgnore ∨ registration cqe.user_data earlier = none)) ∨
    (∃ address caller, resumed = some ⟨address,⟨true,cqe.user_data⟩,caller,cqe.res⟩ ∧
      cqe.user_data ≠ OpIdIgnore ∧ registration cqe.user_data earlier = some address) := by
  obtain ⟨before,a,after,first,_,taken,_⟩ := reaches_split reached
  obtain ⟨content,linked⟩ := reaches_linked vacant first
  cases taken with
  | @consumed _ rest _ _ active queued run =>
    have popped : Linked { before with cq := rest } earlier content :=
      linked_frame linked (by simp [SameRegistry]) fun _ => rfl
    rcases dispatch_cases popped cqe with ⟨idle,met⟩ | ⟨q₁,address,caller,done,ordinary,met,_⟩
    · obtain ⟨_,rfl⟩ := Prod.mk.inj (Option.some.inj (run.symm.trans idle))
      exact .inl ⟨rfl,met⟩
    · obtain ⟨_,rfl⟩ := Prod.mk.inj (Option.some.inj (run.symm.trans done))
      exact .inr ⟨address,caller,rfl,ordinary,met⟩

theorem resumed_own_operation (vacant : ∀ q log a, policy q log a → Vacant log a)
    (reached : Reaches policy size q log) {cqe : Cqe} {r : Resumption}
    (member : Event.consumed cqe (some r) ∈ log) :
    cqe.user_data ≠ OpIdIgnore ∧ r.operation = ⟨true,cqe.user_data⟩ ∧ r.result = cqe.res ∧
      Event.awaited cqe.user_data r.address ∈ log := by
  obtain ⟨later,earlier,rfl⟩ := List.append_of_mem member
  rcases consumed_meets_registration vacant reached with ⟨none_resumed,_⟩ | ⟨a,c,eq,ordinary,met⟩
  · simp at none_resumed
  · cases eq
    exact ⟨ordinary,rfl,rfl,by simp [registration_awaited met]⟩

theorem resumed_own_id (vacant : ∀ q log a, policy q log a → Vacant log a)
    (reached : Reaches policy size q log) (cqe : Cqe) (r : Resumption)
    (member : Event.consumed cqe (some r) ∈ log) :
    cqe.user_data ≠ OpIdIgnore ∧ r.operation.id = cqe.user_data := by
  have own := resumed_own_operation vacant reached member
  exact ⟨own.1,congrArg OperationHandle.id own.2.1⟩

/-- A pending completion can always be consumed: no pointer on its way dangles. -/
theorem consume_defined (vacant : ∀ q log a, policy q log a → Vacant log a)
    (reached : Reaches policy size q log) (active : q.running) (pending : q.cq ≠ []) :
    ∃ q' e, q.step .consume = some (q', e) := by
  obtain ⟨content,linked⟩ := reaches_linked vacant reached
  obtain ⟨cqe,rest,queued⟩ := List.exists_cons_of_ne_nil pending
  have popped : Linked { q with cq := rest } log content :=
    linked_frame linked (by simp [SameRegistry]) fun _ => rfl
  rcases dispatch_cases popped cqe with ⟨idle,_⟩ | ⟨q₁,address,caller,done,_⟩
  · exact ⟨_,_,by simp only [step, active, queued, idle]; rfl⟩
  · exact ⟨_,_,by simp only [step, active, queued, done]; rfl⟩

theorem size_counts_registrations (vacant : ∀ q log a, policy q log a → Vacant log a)
    (reached : Reaches policy size q log) :
    q.completers_.size.toNat = {id | (registration id log).isSome}.ncard := by
  obtain ⟨content,linked⟩ := reaches_linked vacant reached
  rw [represents_size linked.represents]
  congr 1
  ext id
  have both := registered_of_content linked id
  rw [Set.mem_ofPred_eq, Set.mem_ofPred_eq, Option.isSome_iff_ne_none, Option.isSome_iff_ne_none,
    ne_eq, both]

theorem not_running_iff (vacant : ∀ q log a, policy q log a → Vacant log a)
    (reached : Reaches policy size q log) :
    q.running = false ↔ ∀ id, registration id log = none := by
  have counted := size_counts_registrations vacant reached
  have stopped : q.running = false ↔ q.completers_.size.toNat = 0 := by
    simp only [running, decide_eq_false_iff_not, UInt64.not_lt, UInt64.le_iff_toNat_le]
    simp
  rw [stopped, counted, Set.ncard_eq_zero (Set.toFinite _), Set.eq_empty_iff_forall_notMem]
  simp

end Reaches

theorem prompt_vacant (q : IoQueue) (log : List Event) (a : Action)
    (allowed : Prompt q log a) : Vacant log a := by
  cases a with
  | await op address caller completer => exact registration_none_of_unawaited allowed.2.1
  | _ => trivial

theorem prompt_bounded (q : IoQueue) (log : List Event) (a : Action)
    (allowed : Prompt q log a) : Bounded log a := by
  cases a with
  | issue req slot => exact allowed
  | _ => trivial

theorem awaited_once {policy : IoQueue → List Event → Action → Prop} {size : UInt64}
    {q : IoQueue} {log : List Event}
    (single : ∀ q log op address caller completer,
      policy q log (.await op address caller completer) → op.id ∉ awaitedIds log)
    (reached : Reaches policy size q log) : (awaitedIds log).Nodup := by
  obtain ⟨q₀,_,run⟩ := reached
  refine run.invariant (fun _ log => (awaitedIds log).Nodup) List.nodup_nil ?_
  intro s older a s' e once allowed taken
  cases step_taken taken with
  | awaited => exact List.nodup_cons.mpr ⟨single _ _ _ _ _ _ allowed,once⟩
  | _ => exact once

theorem awaitedIds_tail {e : Event} {log : List Event} (once : (awaitedIds (e :: log)).Nodup) :
    (awaitedIds log).Nodup := by
  cases e with
  | awaited id address => exact (List.nodup_cons.mp once).2
  | _ => exact once

theorem awaited_issued {policy : IoQueue → List Event → Action → Prop} {size : UInt64}
    {q : IoQueue} {log : List Event}
    (issues : ∀ q log op address caller completer,
      policy q log (.await op address caller completer) → op.id ∈ issuedIds log)
    (reached : Reaches policy size q log) : ∀ id ∈ awaitedIds log, id ∈ issuedIds log := by
  obtain ⟨q₀,_,run⟩ := reached
  refine run.invariant (fun _ log => ∀ id ∈ awaitedIds log, id ∈ issuedIds log)
    (by simp [awaitedIds]) ?_
  intro s older a s' e earlier allowed taken id member
  simp only [issuedIds, List.flatMap_cons, List.mem_append]
  right
  cases step_taken taken with
  | awaited =>
    rcases List.mem_cons.mp member with rfl | old
    · exact issues _ _ _ _ _ _ allowed
    · exact earlier id old
  | _ => exact earlier id member

theorem issued_ordinary {q : IoQueue} {log : List Event} (conserved : Conserved q log)
    {id : UInt64} (issued : id ∈ issuedIds log) : id ≠ OpIdInvalid ∧ id ≠ OpIdIgnore := by
  have below := conserved.below id issued
  have bound := conserved.bound
  constructor
  · rintro rfl
    simp only [OpIdInvalid, UInt64.reduceToNat] at below
    omega
  · rintro rfl
    simp only [OpIdIgnore, UInt64.reduceToNat] at below
    omega

/-- Induction over the log: the newest event that concerns the operation is its await. -/
theorem registration_of_awaited {id : UInt64} {address : Nat} {log : List Event}
    (once : (awaitedIds log).Nodup) (member : Event.awaited id address ∈ log)
    (unsilenced : ∀ e ∈ log, ¬ Silences id e) (unresumed : ∀ e ∈ log, ¬ Resumes id e) :
    registration id log = some address := by
  induction log with
  | nil => simp at member
  | cons e older ih =>
    rcases registration_cons id e older with ⟨a,rfl,here⟩ | ⟨ended,_⟩ | ⟨other,_,_,same⟩
    · rcases List.mem_cons.mp member with eq | earlier
      · rw [here, (Event.awaited.inj eq).2]
      · exact absurd (awaited_mem earlier) (List.nodup_cons.mp once).1
    · rcases ended with silenced | resumed
      · exact absurd silenced (unsilenced e (by simp))
      · exact absurd resumed (unresumed e (by simp))
    · have earlier : Event.awaited id address ∈ older :=
        (List.mem_cons.mp member).resolve_left (fun eq => other address eq.symm)
      rw [same]
      exact ih (awaitedIds_tail once) earlier (fun f hf => unsilenced f (by simp [hf]))
        (fun f hf => unresumed f (by simp [hf]))

theorem resumptions_le_consumed (id : UInt64) {log : List Event}
    (own : ∀ cqe r, Event.consumed cqe (some r) ∈ log →
      cqe.user_data ≠ OpIdIgnore ∧ r.operation.id = cqe.user_data) :
    (resumptions id log).length ≤ (consumedIds log).count id := by
  induction log with
  | nil => simp [resumptions]
  | cons e older ih =>
    have tail := ih fun cqe r member => own cqe r (by simp [member])
    have grown : (consumedIds older).count id ≤ (consumedIds (e :: older)).count id := by
      simp [consumedIds]
    unfold resumptions
    split
    · simp
    · rename_i cqe r rest same
      obtain ⟨rfl,rfl⟩ := List.cons.inj same
      split
      · rename_i here
        obtain ⟨ordinary,match_id⟩ := own cqe r (by simp)
        have counted : (consumedIds (.consumed cqe (some r) :: older)).count id =
            (consumedIds older).count id + 1 := by
          rw [← here, match_id]
          simp [consumedIds, consumedBy, ordinary]
        simp only [List.length_cons]
        omega
      · omega
    · rename_i same
      obtain ⟨rfl,rfl⟩ := List.cons.inj same
      omega

section Completions
variable {policy : IoQueue → List Event → Action → Prop} {size : UInt64} {q : IoQueue}

theorem consumed_nodup {log : List Event} (conserved : Conserved q log) :
    (consumedIds log).Nodup :=
  (List.nodup_append.mp (conserved.perm.nodup_iff.mp conserved.nodup)).2.1

theorem consumed_first (bounded : ∀ q log a, policy q log a → Bounded log a)
    {later earlier : List Event} {cqe : Cqe} {resumed : Option Resumption}
    (reached : Reaches policy size q (later ++ .consumed cqe resumed :: earlier))
    (ordinary : cqe.user_data ≠ OpIdIgnore) : cqe.user_data ∉ consumedIds earlier := by
  obtain ⟨_,_,after,_,_,_,second⟩ := reaches_split reached
  have nodup := consumed_nodup (reaches_conserved bounded second)
  simp only [consumedIds, List.flatMap_cons, consumedBy, if_neg ordinary] at nodup
  exact (List.nodup_cons.mp nodup).1

theorem resumptions_at_most_once (vacant : ∀ q log a, policy q log a → Vacant log a)
    (bounded : ∀ q log a, policy q log a → Bounded log a) {log : List Event}
    (reached : Reaches policy size q log) (id : UInt64) : (resumptions id log).length ≤ 1 := by
  have counted := resumptions_le_consumed id (resumed_own_id vacant reached)
  have single := List.nodup_iff_count_le_one.mp
    (consumed_nodup (reaches_conserved bounded reached)) id
  omega

theorem resumes_consumed (vacant : ∀ q log a, policy q log a → Vacant log a)
    {log : List Event} (reached : Reaches policy size q log) {id : UInt64} {e : Event}
    (member : e ∈ log) (resumes : Resumes id e) : id ∈ consumedBy e := by
  obtain ⟨cqe,r,rfl,resumed⟩ := resumes_consumption resumes
  obtain ⟨ordinary,own⟩ := resumed_own_id vacant reached cqe r member
  have same : cqe.user_data = id := own.symm.trans resumed
  simp [consumedBy, ordinary, ← same]

theorem unresumed_of_unconsumed (vacant : ∀ q log a, policy q log a → Vacant log a)
    {log : List Event} (reached : Reaches policy size q log) {id : UInt64}
    (unconsumed : id ∉ consumedIds log) : ∀ e ∈ log, ¬ Resumes id e := by
  intro e member resumes
  exact unconsumed (List.mem_flatMap.mpr ⟨e,member,resumes_consumed vacant reached member resumes⟩)

end Completions

theorem prompt_consumed {size : UInt64} {q : IoQueue} {later earlier : List Event} {cqe : Cqe}
    {resumed : Option Resumption} {address : Nat}
    (reached : Reaches Prompt size q (later ++ .consumed cqe resumed :: earlier))
    (awaited : Event.awaited cqe.user_data address ∈ earlier) :
    (∃ r, resumed = some r ∧ r.address = address) ∨ ∃ e ∈ earlier, Silences cqe.user_data e := by
  obtain ⟨before,_,_,first,_⟩ := reaches_split reached
  by_cases silenced : ∃ e ∈ earlier, Silences cqe.user_data e
  · exact .inr silenced
  · simp only [not_exists, not_and] at silenced
    have issued := awaited_issued (fun _ _ _ _ _ _ allowed => allowed.1) first _ (awaited_mem awaited)
    have ordinary := (issued_ordinary (reaches_conserved prompt_bounded first) issued).2
    have unresumed := unresumed_of_unconsumed prompt_vacant first
      (consumed_first prompt_bounded reached ordinary)
    have registered := registration_of_awaited
      (awaited_once (fun _ _ _ _ _ _ allowed => allowed.2.1) first) awaited silenced unresumed
    rcases consumed_meets_registration prompt_vacant reached with ⟨_,ignored | gone⟩ | ⟨a,c,eq,_,met⟩
    · exact absurd ignored ordinary
    · simp [gone] at registered
    · obtain rfl := Option.some.inj (met.symm.trans registered)
      exact .inl ⟨_,eq,rfl⟩

/-- In every run with prompt awaits, completions and resumptions match one to one. -/
theorem completion_dispatch_exact {size : UInt64} {q : IoQueue} {log : List Event}
    (reached : Reaches Prompt size q log) :
    (∀ id, (resumptions id log).length ≤ 1) ∧
    (∀ cqe r, Event.consumed cqe (some r) ∈ log →
      cqe.user_data ≠ OpIdIgnore ∧ r.operation = ⟨true,cqe.user_data⟩ ∧ r.result = cqe.res ∧
        Event.awaited cqe.user_data r.address ∈ log) ∧
    (∀ later earlier cqe resumed address, log = later ++ .consumed cqe resumed :: earlier →
      Event.awaited cqe.user_data address ∈ earlier →
      (∃ r, resumed = some r ∧ r.address = address) ∨ ∃ e ∈ earlier, Silences cqe.user_data e) ∧
    (∀ cqe resumed, Event.consumed cqe resumed ∈ log → cqe.user_data = OpIdIgnore →
      resumed = none) ∧
    q.completers_.size.toNat = {id | (registration id log).isSome}.ncard ∧
    (q.running = false ↔ ∀ id, registration id log = none) ∧
    (q.running → q.cq ≠ [] → ∃ q' e, q.step .consume = some (q', e)) := by
  refine ⟨resumptions_at_most_once prompt_vacant prompt_bounded reached,
    fun cqe r => resumed_own_operation prompt_vacant reached,?_,?_,
    size_counts_registrations prompt_vacant reached,not_running_iff prompt_vacant reached,
    consume_defined prompt_vacant reached⟩
  · rintro later earlier cqe resumed address rfl awaited
    exact prompt_consumed reached awaited
  · intro cqe resumed member ignored
    obtain ⟨later,earlier,rfl⟩ := List.append_of_mem member
    rcases consumed_meets_registration prompt_vacant reached with ⟨none_resumed,_⟩ | ⟨_,_,_,ordinary,_⟩
    · exact none_resumed
    · exact absurd ignored ordinary

def blankSqe : Sqe := ⟨.close, 0, 0, 0, 0, 0, 0, 0, 0, 0, 0, 0, (0, 0)⟩

theorem crossed_completions_dispatched :
    ∃ q log, Reaches Prompt 0 q log ∧ (resumptions 1 log).map Resumption.result = [7] ∧
      (resumptions 0 log).length ≤ 1 ∧ q.running = false := by
  let actions : List Action := [.issue (.read 3 64 8) blankSqe, .await ⟨true,0⟩ 100 0 16,
    .issue (.read 4 128 8) blankSqe, .await ⟨true,1⟩ 200 1 32, .submit,
    .cancel ⟨true,0⟩ true blankSqe, .complete 1 7, .complete 0 5, .consume]
  have computed : ((create 0).bind fun q₀ =>
      (replay step Prompt q₀ [] actions).map fun (q, log) =>
        (decide ((resumptions 1 log).map Resumption.result = [7]), q.running)) =
      some (true, false) := by decide +kernel
  obtain ⟨q₀,made,rest⟩ := Option.bind_eq_some_iff.mp computed
  obtain ⟨q,log,run,facts⟩ := replay_reaches rest
  obtain ⟨second,stopped⟩ := Prod.mk.inj facts
  have reached : Reaches Prompt 0 q log := ⟨q₀,made,run⟩
  exact ⟨q,log,reached,by simpa using second,(completion_dispatch_exact reached).1 0,stopped⟩

end IoQueue
end Aiopp
