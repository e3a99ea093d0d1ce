import Aiopp.Cancellation

/-!
The submission ring and the completer map are two resources with different
capacities and lifetimes. A slot of the ring is free again after a submission,
a slot of the map only after a completion. Nothing ties the one to the other,
so a valid handle alone does not promise room for its completer.
-/
namespace Aiopp
namespace IoQueue
open CompleterMap Transition

def pending (log : List Event) : Nat :=
  ((awaitedIds log).dedup.filter fun id => (registration id log).isSome).length

/-- The last probe of a key, before the reduction, fits in 64 bits. -/
def Unwrapped (capacity : Nat) (key : UInt64) : Prop :=
  key.toNat + (capacity - 1) * (stride capacity key).toNat < 2 ^ 64

/-- Operations are issued only while fewer awaiters than the map has entries are pending. -/
def Roomy (q : IoQueue) (log : List Event) : Action → Prop
  | .issue _ _ =>
    pending log < q.completers_.capacity ∧ Unwrapped q.completers_.capacity q.getNextOpId.1
  | .await op _ _ _ => op.id ∈ issuedIds log ∧ registration op.id log = none
  | _ => True

instance (capacity : Nat) (key : UInt64) : Decidable (Unwrapped capacity key) :=
  inferInstanceAs (Decidable (_ < _))

instance (q : IoQueue) (log : List Event) : (action : Action) → Decidable (Roomy q log action)
  | .issue _ _ => inferInstanceAs (Decidable (_ ∧ _))
  | .await _ _ _ _ => inferInstanceAs (Decidable (_ ∧ _))
  | .linkTimeout .. | .cancel .. | .destroy .. | .submit | .submitFails | .complete .. | .consume =>
    .isTrue trivial

/-- Awaiting the handle now, from any frame and with any new completer, passes the
    map's assertion and returns. -/
def Room (q : IoQueue) (op : OperationHandle) : Prop :=
  q.completers_.size.toNat < q.completers_.capacity ∧
  ∀ address caller completer, q.awaiterAt address = none → q.completerAt completer = none →
    completer ≠ CompleterMap.Empty → completer ≠ Tombstone →
    ∃ q', q.step (.await op address caller completer) = some (q', .awaited op.id address)

theorem pending_eq (log : List Event) :
    pending log = {id | (registration id log).isSome}.ncard := by
  have nodup : ((awaitedIds log).dedup.filter fun id => (registration id log).isSome).Nodup :=
    (List.nodup_dedup _).filter _
  rw [pending, ← List.toFinset_card_of_nodup nodup, ← Set.ncard_coe_finset]
  congr 1
  ext id
  simp only [List.coe_toFinset, List.mem_filter, List.mem_dedup, Set.mem_ofPred_eq]
  constructor
  · exact fun both => both.2
  · intro registered
    obtain ⟨address,eq⟩ := Option.isSome_iff_exists.mp registered
    exact ⟨awaited_mem (registration_awaited eq),registered⟩

theorem dispatch_capacity {q q' : IoQueue} {cqe : Cqe} {resumed : Option Resumption}
    (run : q.dispatch cqe = some (q', resumed)) :
    q'.completers_.capacity = q.completers_.capacity := by
  obtain ⟨completers,_,_,rfl,same | removed⟩ := dispatch_frame run
  · rw [same]
  · rw [removed]
    exact remove_capacity _ _

theorem taken_capacity {q q' : IoQueue} {action : Action} {e : Event}
    (taken : Taken q action q' e) : q'.completers_.capacity = q.completers_.capacity := by
  cases taken with
  | issued req slot => rw [(issue_registry q req slot).1]
  | linked run => rw [(linkTimeout_registry run).1]
  | awaited _ _ _ _ run =>
    obtain ⟨_,grown,inserted,rfl⟩ := await_cases run
    exact insert_capacity inserted
  | @cancelled op cancelHandler slot sqe valid =>
    rw [finalizeSqe_completers]
    cases cancelHandler with
    | false => rfl
    | true => exact remove_capacity _ _
  | abandoned sqe lives valid =>
    simp only [finalizeSqe_completers]
    exact remove_capacity _ _
  | consumed active queued run =>
    have kept := dispatch_capacity run
    exact kept
  | released | submitted | submitFailed | completed => rfl

section Runs
variable {policy : IoQueue → List Event → Action → Prop} {size : UInt64} {q : IoQueue}
  {log : List Event}

theorem reaches_capacity (reached : Reaches policy size q log) :
    q.completers_.capacity.Prime ∧ 53 ≤ q.completers_.capacity := by
  obtain ⟨q₀,made,run⟩ := reached
  refine run.invariant
    (fun q _ => q.completers_.capacity.Prime ∧ 53 ≤ q.completers_.capacity) ?_ ?_
  · obtain ⟨completers,new,rfl⟩ := Option.map_eq_some_iff.mp made
    exact ⟨(create_capacity new).1,(create_capacity new).2.1⟩
  · intro s older a s' e holds _ taken
    rwa [taken_capacity (step_taken taken)]

theorem roomy_proper (reached : Reaches Roomy size q log) : Reaches Proper size q log := by
  obtain ⟨q₀,made,run⟩ := reached
  refine ⟨q₀,made,?_⟩
  induction run with
  | nil => exact .nil
  | @next s s' older a e first allowed taken ih =>
    refine .next ih ?_ taken
    cases a with
    | issue req slot =>
      have conserved := reaches_conserved proper_bounded ⟨q₀,made,ih⟩
      have drawn_id := (getNextOpId_eq conserved.next conserved.bound).1
      obtain ⟨prime,large⟩ := reaches_capacity ⟨q₀,made,ih⟩
      have unwrapped := allowed.2
      rw [Unwrapped, drawn_id] at unwrapped
      have small : s.completers_.capacity < 2 ^ 64 := by
        obtain ⟨content,linked⟩ := reaches_linked proper_vacant ⟨q₀,made,ih⟩
        exact represents_capacity linked.represents
      have positive := (stride_bounds prime small s.getNextOpId.1).1
      have spread : s.completers_.capacity - 1 ≤
          (s.completers_.capacity - 1) * (stride s.completers_.capacity s.getNextOpId.1).toNat :=
        Nat.le_mul_of_pos_right _ positive
      change drawn older + 1 < 2 ^ 64 - 2
      omega
    | await op address caller completer => exact allowed
    | _ => trivial

theorem issued_last {id : UInt64} {op : OperationHandle}
    (reached : Reaches policy size q (.issued id op :: log)) :
    ∃ before req slot, Reaches policy size before log ∧ policy before log (.issue req slot) ∧
      id = before.getNextOpId.1 ∧ op = (before.issue req slot).1 ∧ q = (before.issue req slot).2 := by
  obtain ⟨before,a,first,allowed,taken⟩ := reaches_last reached
  cases taken with
  | issued req slot => exact ⟨before,req,slot,first,allowed,rfl,rfl,rfl⟩

theorem room_iff {id : UInt64} {op : OperationHandle}
    (reached : Reaches Proper size q (.issued id op :: log)) (valid : op.valid)
    (unwrapped : Unwrapped q.completers_.capacity id) :
    Room q op ↔ pending log < q.completers_.capacity := by
  have counted := size_counts_registrations proper_vacant reached
  have same : {id' | (registration id' (.issued id op :: log)).isSome}.ncard = pending log :=
    (pending_eq log).symm
  rw [same] at counted
  rw [Room, counted]
  refine ⟨fun both => both.1,fun room => ⟨room,?_⟩⟩
  intro address caller completer vacant unused nonempty unmarked
  obtain ⟨before,req,slot,_,_,rfl,rfl,_⟩ := issued_last reached
  have own : (before.issue req slot).1.id = before.getNextOpId.1 := by
    rcases issue_cases before req slot with ⟨full,_⟩ | ⟨handle,_⟩
    · simp [full, OperationHandle.valid] at valid
    · rw [handle]
  obtain ⟨content,linked⟩ := reaches_linked proper_vacant reached
  obtain ⟨grown,inserted⟩ := insert_succeeds linked.represents (reaches_capacity reached).1
    completer (counted.symm ▸ room) unwrapped
  simp [step, vacant, unused, nonempty, unmarked, await, valid, setCompleter, own, inserted]

end Runs

/-- In a run that issues operations only while the map has an entry to spare, every
    valid handle can be awaited at once and a full ring is the only refusal. Elsewhere
    the number of pending awaiters alone decides. -/
theorem valid_handle_room {size : UInt64} {q : IoQueue} {log : List Event} {id : UInt64}
    {op : OperationHandle} :
    (Reaches Roomy size q (.issued id op :: log) →
      (op.valid → Room q op) ∧ (op.valid = false → q.sqEntries ≤ q.sq.length)) ∧
    (Reaches Proper size q (.issued id op :: log) → op.valid →
      Unwrapped q.completers_.capacity id →
      (Room q op ↔ pending log < q.completers_.capacity)) := by
  refine ⟨fun reached => ⟨fun valid => ?_,fun refused => ?_⟩,room_iff⟩
  · obtain ⟨before,req,slot,_,allowed,rfl,_,rfl⟩ := issued_last reached
    have kept : (before.issue req slot).2.completers_ = before.completers_ :=
      (issue_registry before req slot).1
    exact (room_iff (roomy_proper reached) valid (kept ▸ allowed.2)).mpr (kept ▸ allowed.1)
  · obtain ⟨before,req,slot,_,_,_,rfl,rfl⟩ := issued_last reached
    have ordinary := (getNextOpId_ordinary before).1
    unfold issue getSqe at refused ⊢
    split at refused
    · simp [finalizeSqe, OperationHandle.valid, ordinary] at refused
    · rename_i full
      simp only [full, finalizeSqe, getNextOpId]
      exact Nat.le_of_not_lt full

def awaitedOperations (n : Nat) : List Action :=
  (List.range n).flatMap fun i =>
    [.issue (.read 3 64 8) blankSqe, .await ⟨true,UInt64.ofNat i⟩ i i (UInt64.ofNat (8 * i + 8))]

theorem second_handle_has_room :
    ∃ q log, Reaches Roomy 0 q (.issued 1 ⟨true,1⟩ :: log) ∧ pending log = 1 ∧
      Room q ⟨true,1⟩ := by
  have computed : ((create 0).bind fun q₀ =>
      (replay step Roomy q₀ [] (awaitedOperations 1 ++ [.issue (.close 3) blankSqe])).map
        fun (q, log) => decide (log.head? = some (.issued 1 ⟨true,1⟩) ∧ pending log.tail = 1)) =
      some true := by decide +kernel
  obtain ⟨q₀,made,rest⟩ := Option.bind_eq_some_iff.mp computed
  obtain ⟨q,log,run,facts⟩ := replay_reaches rest
  obtain ⟨newest,one⟩ := of_decide_eq_true facts
  obtain ⟨older,rfl⟩ := List.head?_eq_some_iff.mp newest
  have reached : Reaches Roomy 0 q (.issued 1 ⟨true,1⟩ :: older) := ⟨q₀,made,run⟩
  exact ⟨q,older,reached,one,(valid_handle_room.1 reached).1 rfl⟩

/-- The ring of the smallest queue has 64 slots and its map 53 entries. -/
theorem valid_handle_without_room :
    ∃ q log, Reaches Proper 0 q (.issued 53 ⟨true,53⟩ :: log) ∧
      OperationHandle.valid ⟨true,53⟩ = true ∧
      q.completers_.size.toNat = 53 ∧ q.completers_.capacity = 53 ∧
      q.step (.await ⟨true,53⟩ 53 53 432) = none ∧ ¬ Room q ⟨true,53⟩ := by
  have computed : ((create 0).bind fun q₀ =>
      (replay step Proper q₀ [] (awaitedOperations 53 ++ [.issue (.close 3) blankSqe])).map
        fun (q, log) => decide (log.head? = some (.issued 53 ⟨true,53⟩) ∧
          q.completers_.size.toNat = 53 ∧ q.completers_.capacity = 53 ∧
          (q.step (.await ⟨true,53⟩ 53 53 432)).isNone)) =
      some true := by decide +kernel
  obtain ⟨q₀,made,rest⟩ := Option.bind_eq_some_iff.mp computed
  obtain ⟨q,log,run,facts⟩ := replay_reaches rest
  obtain ⟨newest,filled,entries,stuck⟩ := of_decide_eq_true facts
  obtain ⟨older,rfl⟩ := List.head?_eq_some_iff.mp newest
  refine ⟨q,older,⟨q₀,made,run⟩,rfl,filled,entries,
    Option.isNone_iff_eq_none.mp stuck,?_⟩
  intro room
  have fits := room.1
  omega

end IoQueue
end Aiopp
