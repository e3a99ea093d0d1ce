import Aiopp.MpscOrder

/-!
Which nodes are deleted, and when. An address is free again after `delete`, so "later"
ends where the allocator hands the address out anew.
-/
namespace Aiopp
namespace MpscQueue
open PartialChain Transition
variable {P T : Type}

/-- Reachable from `consumeEnd_` once every missing link is written. -/
def Reachable (q : MpscQueue P T) (node : Nat) : Prop :=
  Relation.ReflTransGen (Completed q.nextOf q.Owed) q.consumeEnd_ node

section Node
variable {q q' : MpscQueue P T} {log : List (Event P T)} {nodes : List Nat}

theorem reachable_mem (intact : Intact q log nodes) {node : Nat} :
    Reachable q node ↔ node ∈ nodes := intact.chain.reachable_iff intact.first

/-- A node outside the chain is no end, and no producer is about to write to it. -/
theorem outside_unneeded (intact : Intact q log nodes) {node : Nat} (outside : node ∉ nodes) :
    node ≠ q.produceEnd_ ∧ node ≠ q.consumeEnd_ ∧ ∀ p x, q.producers p ≠ .exchanged node x := by
  refine ⟨?_,?_,?_⟩
  · rintro rfl
    exact outside (List.mem_of_getLast? intact.last)
  · rintro rfl
    exact outside (consumeEnd_mem intact)
  · intro p x busy
    have due := intact.chain.debts node x (.inl ⟨p,busy⟩)
    exact outside (adjacent_mem due.1).1

theorem consumed_freed {e : Event P T} (taken : Consumed q q' e) {node : Nat}
    (freed : q.nodeAt node = none) : q'.nodeAt node = none := by
  cases taken with
  | atNode state proper loaded | pastStub state loaded =>
    unfold afterNext
    split <;> exact freed
  | unpacked state stored =>
    rename_i gone n
    by_cases same : node = gone
    · simp [same]
    · simpa [same] using freed
  | cleared state run | linked state run =>
    have alive := storeNext_isSome run node
    simpa [freed] using alive
  | _ => exact freed

theorem step_freed [DecidableEq P] {a : Action P T} {e : Event P T} {node : Nat}
    (taken : q.step a = some (q', e)) (freed : q.nodeAt node = none)
    (elsewhere : ∀ p value, a ≠ .create p value node) : q'.nodeAt node = none := by
  cases a with
  | create p value node' =>
    simp only [step] at taken
    split at taken
    · cases taken
      have apart : node ≠ node' := by
        rintro rfl
        exact elsewhere p value rfl
      simpa [apart] using freed
    · simp at taken
  | exchange p =>
    simp only [step] at taken
    split at taken
    · cases taken
      exact freed
    · simp at taken
  | link p =>
    simp only [step] at taken
    split at taken
    · obtain ⟨q₁,stored,eq⟩ := Option.map_eq_some_iff.mp taken
      cases eq
      have alive := storeNext_isSome stored node
      simpa [freed] using alive
    · simp at taken
  | consume => exact consumed_freed (consumeStep_consumed taken) freed

end Node

section Runs
variable [DecidableEq P] [Inhabited T] {q : MpscQueue P T}
  {log later earlier : List (Action P T × Event P T)}

theorem run_freed {a : Action P T} {node : Nat} {value : T}
    (run : Run (labelled step) (byEvents AnyOrder) create q
      (later ++ (a, .returned node value) :: earlier))
    (kept : ∀ p v e, (Action.create p v node, e) ∉ later) :
    q.nodeAt node = none ∧ ∀ a' value', (a', .returned node value') ∉ later := by
  induction later generalizing q with
  | nil =>
    cases run with
    | next run allowed taken =>
      obtain ⟨e,same,stepped⟩ := labelled_eq_some.mp taken
      cases same
      exact ⟨(step_returned stepped).2.2,by simp⟩
  | cons entry later ih =>
    cases run with
    | next run allowed taken =>
      obtain ⟨e,rfl,stepped⟩ := labelled_eq_some.mp taken
      have older := ih run fun p v e member => kept p v e (List.mem_cons_of_mem _ member)
      constructor
      · apply step_freed stepped older.1
        intro p v same
        apply kept p v e
        rw [same]
        exact List.mem_cons_self
      · intro a' value' member
        rcases List.mem_cons.mp member with newest | inside
        · cases newest
          have alive := (step_returned stepped).2.1
          simp [older.1] at alive
        · exact older.2 a' value' inside

/-- A node that is unpacked is needed by nobody, then or until its address is handed out
again, and it is unpacked once; the stub is put back only when it is out of the list. -/
theorem unpacked_unneeded
    (run : Run (labelled step) (byEvents AnyOrder) (create : MpscQueue P T) q log) :
    (∀ node, q.consumer = .unpack node →
      (q.nodeAt node).isSome ∧ node ≠ stub_ ∧ node ≠ q.produceEnd_ ∧ node ≠ q.consumeEnd_ ∧
      ∀ p x, q.producers p ≠ .exchanged node x) ∧
    (∀ later a node value earlier, log = later ++ (a, .returned node value) :: earlier →
      (∀ p v e, (Action.create p v node, e) ∉ later) →
      node ≠ stub_ ∧ node ≠ q.produceEnd_ ∧ node ≠ q.consumeEnd_ ∧
      (∀ p x, q.producers p ≠ .exchanged node x) ∧
      (∀ node', q.consumer = .unpack node' → node' ≠ node) ∧
      ∀ a' value', (a', .returned node value') ∉ later) ∧
    ∀ node, q.consumer = .clearStub node ∨ q.consumer = .exchangeStub node →
      ¬ Reachable q stub_ := by
  obtain ⟨nodes,intact⟩ := run_intact run.events
  have position := intact.position
  refine ⟨?_,?_,?_⟩
  · intro node state
    simp only [Positioned, state] at position
    obtain ⟨outside,proper,alive,_⟩ := position
    exact ⟨alive,proper,outside_unneeded intact outside⟩
  · intro later a node value earlier split kept
    subst split
    obtain ⟨freed,once⟩ := run_freed run kept
    have outside : node ∉ nodes := by
      intro member
      have alive := intact.live node member
      simp [freed] at alive
    have proper : node ≠ stub_ := run_returned run.events node value (by simp)
    obtain ⟨produced_apart,consumed_apart,unlinked⟩ := outside_unneeded intact outside
    refine ⟨proper,produced_apart,consumed_apart,unlinked,?_,once⟩
    rintro _ state rfl
    simp only [Positioned, state] at position
    simp [freed] at position
  · intro node state
    rw [reachable_mem intact]
    rcases state with state | state
    · simp only [Positioned, state] at position
      exact position.2.2
    · simp only [Positioned, state] at position
      exact position.2.2.1

end Runs

theorem stalled_predecessor_kept :
    ∃ (q : MpscQueue Bool Nat) (log : List (Action Bool Nat × Event Bool Nat)),
      Run (labelled step) (byEvents AnyOrder) create q log ∧ q.consumer = .unpack 1 ∧
      (.consume, .returnedNothing) ∈ log ∧ q.nodeAt 1 = some ⟨5,some 2⟩ ∧ 1 ≠ q.produceEnd_ ∧
      1 ≠ q.consumeEnd_ ∧ ∀ p x, q.producers p ≠ .exchanged 1 x := by
  let actions : List (Action Bool Nat) := [.create true 5 1, .create false 7 2, .exchange true,
    .link true, .exchange false, .consume, .consume, .consume, .consume, .consume, .link false,
    .consume, .consume, .consume]
  have computed : (replay (labelled step) (byEvents AnyOrder) (create : MpscQueue Bool Nat) []
      actions).map (fun (q, log) => decide (q.consumer = .unpack 1 ∧
        (.consume, .returnedNothing) ∈ log ∧ q.nodeAt 1 = some ⟨5,some 2⟩)) = some true := by
    decide +kernel
  obtain ⟨q,log,run,facts⟩ := replay_reaches computed
  obtain ⟨state,waited,stored⟩ := of_decide_eq_true facts
  obtain ⟨_,_,produced_apart,consumed_apart,unlinked⟩ := (unpacked_unneeded run).1 1 state
  exact ⟨q,log,run,state,waited,stored,produced_apart,consumed_apart,unlinked⟩

end MpscQueue
end Aiopp
