import Aiopp.MpscLifetime
import Mathlib.Data.Set.Card

/-!
The heap behind the queue. Every node on it is in the list, or with a producer that has not
exchanged it yet, or with the consumer that is about to delete it; so the heap has one node
for each value that has not been returned, besides the stub.
-/
namespace Aiopp
namespace MpscQueue
open PartialChain Transition
variable {P T : Type}

/-- Nothing else is on the heap. -/
def Known (q : MpscQueue P T) (nodes : List Nat) (node : Nat) : Prop :=
  node = stub_ ∨ node ∈ nodes ∨ (∃ p value, q.producers p = .created node value) ∨
    q.consumer = .unpack node

def Exhaustive (q : MpscQueue P T) (nodes : List Nat) : Prop :=
  ∀ node, (q.nodeAt node).isSome → Known q nodes node

def callCount : List (Event P T) → Nat
  | [] => 0
  | .called .. :: older => callCount older + 1
  | _ :: older => callCount older

def heapNodes (q : MpscQueue P T) : Set Nat := {node | (q.nodeAt node).isSome}

section Step
variable {q q' : MpscQueue P T} {log : List (Event P T)} {nodes nodes' : List Nat}

theorem exhaustive_kept (exhaustive : Exhaustive q nodes)
    (alive : ∀ node, (q'.nodeAt node).isSome → (q.nodeAt node).isSome)
    (producers : ∀ p node value, q.producers p = .created node value →
      node ∈ nodes' ∨ q'.producers p = .created node value)
    (chained : ∀ node ∈ nodes, node = stub_ ∨ node ∈ nodes' ∨ q'.consumer = .unpack node)
    (unpacking : ∀ node, q.consumer = .unpack node →
      q'.consumer = .unpack node ∨ q'.nodeAt node = none) : Exhaustive q' nodes' := by
  intro node stored
  rcases exhaustive node (alive node stored) with stub | member | ⟨p,value,created⟩ | held
  · exact .inl stub
  · rcases chained node member with stub | inside | taken
    · exact .inl stub
    · exact .inr (.inl inside)
    · exact .inr (.inr (.inr taken))
  · rcases producers p node value created with inside | still
    · exact .inr (.inl inside)
    · exact .inr (.inr (.inl ⟨p,value,still⟩))
  · rcases unpacking node held with still | gone
    · exact .inr (.inr (.inr still))
    · simp [gone] at stored

theorem exhaustive_consumer (exhaustive : Exhaustive q nodes)
    (alive : ∀ node, (q'.nodeAt node).isSome = (q.nodeAt node).isSome)
    (producers : q'.producers = q.producers) (holding : ∀ node, q.consumer ≠ .unpack node)
    (chained : ∀ node ∈ nodes, node = stub_ ∨ node ∈ nodes' ∨ q'.consumer = .unpack node) :
    Exhaustive q' nodes' := by
  refine exhaustive_kept exhaustive (fun node stored => alive node ▸ stored) ?_ chained ?_
  · intro p node value created
    exact .inr (by rw [producers, created])
  · exact fun node held => absurd held (holding node)

theorem store_exhaustive (exhaustive : Exhaustive q nodes) {node : Nat} {next : Option Nat}
    (run : q.storeNext node next = some q') (holding : ∀ node, q.consumer ≠ .unpack node)
    (c : Consumer) : Exhaustive { q' with consumer := c } nodes := by
  have alive := storeNext_isSome run
  obtain ⟨n,stored,rfl⟩ := storeNext_eq run
  exact exhaustive_consumer exhaustive alive rfl holding fun node member => .inr (.inl member)

theorem move_exhaustive (intact : Intact q log nodes) (exhaustive : Exhaustive q nodes)
    {c : Consumer} {e : Event P T} (free : ¬ Engaged q.consumer) (free' : ¬ Engaged c)
    (quiet : Quiet e) (position : Positioned { q with consumer := c } nodes) :
    ∃ nodes', Intact { q with consumer := c } (e :: log) nodes' ∧
      Exhaustive { q with consumer := c } nodes' := by
  refine ⟨nodes,intact_move intact free free' quiet position,?_⟩
  refine exhaustive_consumer exhaustive (fun _ => rfl) rfl ?_ fun node member => .inr (.inl member)
  intro node held
  simp [held, Engaged] at free

theorem afterNext_exhaustive (intact : Intact q log nodes) (exhaustive : Exhaustive q nodes)
    {node : Nat} {next : Option Nat} (free : ¬ Engaged q.consumer) (own : node = q.consumeEnd_)
    (proper : node ≠ stub_) (run : q.loadNext node = some next) :
    ∃ nodes', Intact (q.afterNext node (.loadProduceEnd node) next) (.moved :: log) nodes' ∧
      Exhaustive (q.afterNext node (.loadProduceEnd node) next) nodes' := by
  cases next with
  | none => exact move_exhaustive intact exhaustive free not_false trivial ⟨own,proper⟩
  | some next =>
    exact move_exhaustive intact exhaustive free not_false trivial ⟨own,proper,loadNext_nextOf run⟩

/-- The node the consumer leaves behind is the stub, or is about to be deleted. -/
theorem head_left {next : Nat} (intact : Intact q log nodes)
    (written : q.nextOf q.consumeEnd_ = some next) {node : Nat} (member : node ∈ nodes) :
    node = q.consumeEnd_ ∨ node ∈ nodes.tail := by
  obtain ⟨rest,rfl⟩ := head_nextOf intact written
  exact List.mem_cons.mp member

theorem skipStub_exhaustive (intact : Intact q log nodes) (exhaustive : Exhaustive q nodes)
    {next : Nat} (state : q.consumer = .skipStub next) :
    Exhaustive { q with consumeEnd_ := next, consumer := .loadNextPastStub next } nodes.tail := by
  have position := intact.position
  simp only [Positioned, state] at position
  refine exhaustive_consumer exhaustive (fun _ => rfl) rfl (by simp [state]) ?_
  intro node member
  rcases head_left intact (position.1 ▸ position.2) member with first | later
  · exact .inl (first.trans position.1)
  · exact .inr (.inl later)

theorem advance_exhaustive (intact : Intact q log nodes) (exhaustive : Exhaustive q nodes)
    {node next : Nat} (state : q.consumer = .advance node next) :
    Exhaustive { q with consumeEnd_ := next, consumer := .unpack node } nodes.tail := by
  have position := intact.position
  simp only [Positioned, state] at position
  refine exhaustive_consumer exhaustive (fun _ => rfl) rfl (by simp [state]) ?_
  intro x member
  rcases head_left intact (position.1 ▸ position.2.2) member with first | later
  · exact .inr (.inr (by rw [first, ← position.1]))
  · exact .inr (.inl later)

theorem unpack_exhaustive (exhaustive : Exhaustive q nodes) {gone : Nat} {n : Node T}
    (state : q.consumer = .unpack gone) (stored : q.nodeAt gone = some n) :
    Exhaustive { q with nodeAt := Function.update q.nodeAt gone none, consumer := .idle }
      nodes := by
  apply exhaustive_kept exhaustive
  · intro node alive
    by_cases same : node = gone
    · simp [same, stored]
    · simpa [same] using alive
  · exact fun p node value created => .inr created
  · exact fun node member => .inr (.inl member)
  · intro node held
    rw [state] at held
    cases held
    exact .inr (by simp)

theorem consumed_exhaustive (intact : Intact q log nodes) (exhaustive : Exhaustive q nodes)
    {e : Event P T} (taken : Consumed q q' e) :
    ∃ nodes', Intact q' (e :: log) nodes' ∧ Exhaustive q' nodes' := by
  have position := intact.position
  cases taken with
  | started state =>
    exact move_exhaustive intact exhaustive (by simp [state, Engaged]) not_false trivial rfl
  | empty state | overtaken state | blocked state =>
    exact move_exhaustive intact exhaustive (by simp [state, Engaged]) not_false trivial trivial
  | atStub state loaded =>
    simp only [Positioned, state] at position
    exact move_exhaustive intact exhaustive (by simp [state, Engaged]) not_false trivial
      ⟨position.symm,loadNext_nextOf loaded⟩
  | atNode state proper loaded =>
    simp only [Positioned, state] at position
    exact afterNext_exhaustive intact exhaustive (by simp [state, Engaged]) position proper loaded
  | pastStub state loaded =>
    simp only [Positioned, state] at position
    exact afterNext_exhaustive intact exhaustive (by simp [state, Engaged]) position.1 position.2
      loaded
  | alone state same =>
    simp only [Positioned, state] at position
    have alone := last_alone intact (position.1.symm.trans same)
    refine move_exhaustive intact exhaustive (by simp [state, Engaged]) not_false trivial
      ⟨position.1,position.2,?_⟩
    rw [alone, List.mem_singleton, ← position.1]
    exact position.2.symm
  | reloaded state loaded =>
    simp only [Positioned, state] at position
    exact move_exhaustive intact exhaustive (by simp [state, Engaged]) not_false trivial
      ⟨position.1,position.2,loadNext_nextOf loaded⟩
  | skipped state =>
    exact ⟨_,skipStub_intact intact state,skipStub_exhaustive intact exhaustive state⟩
  | advanced state =>
    exact ⟨_,advance_intact intact state,advance_exhaustive intact exhaustive state⟩
  | unpacked state stored =>
    exact ⟨_,unpack_intact intact state stored,unpack_exhaustive exhaustive state stored⟩
  | cleared state run =>
    exact ⟨_,clearStub_intact intact state run,store_exhaustive exhaustive run (by simp [state]) _⟩
  | exchanged state =>
    refine ⟨_,exchangeStub_intact intact state,?_⟩
    refine exhaustive_consumer exhaustive (fun _ => rfl) rfl (by simp [state]) ?_
    exact fun node member => .inr (.inl (List.mem_append_left _ member))
  | linked state run =>
    exact ⟨_,linkStub_intact intact state run,store_exhaustive exhaustive run (by simp [state]) _⟩

theorem step_exhaustive [DecidableEq P] (intact : Intact q log nodes)
    (exhaustive : Exhaustive q nodes) {a : Action P T} {e : Event P T}
    (taken : q.step a = some (q', e)) :
    ∃ nodes', Intact q' (e :: log) nodes' ∧ Exhaustive q' nodes' := by
  cases a with
  | create p value node =>
    simp only [step] at taken
    split at taken
    · rename_i idle unused
      cases taken
      refine ⟨nodes,create_intact intact idle unused,?_⟩
      intro x stored
      by_cases new : x = node
      · subst new
        exact .inr (.inr (.inl ⟨p,value,by simp⟩))
      · have before : (q.nodeAt x).isSome := by simpa [new] using stored
        rcases exhaustive x before with stub | member | ⟨p',value',created⟩ | held
        · exact .inl stub
        · exact .inr (.inl member)
        · have other : p' ≠ p := by
            rintro rfl
            simp [idle] at created
          exact .inr (.inr (.inl ⟨p',value',by simpa [other] using created⟩))
        · exact .inr (.inr (.inr held))
    · simp at taken
  | exchange p =>
    simp only [step] at taken
    split at taken
    · rename_i node value created
      cases taken
      refine ⟨_,exchange_intact intact created,?_⟩
      apply exhaustive_kept exhaustive
      · exact fun x stored => stored
      · intro p' x value' before
        by_cases same : p' = p
        · subst same
          rw [created] at before
          cases before
          exact .inl (by simp)
        · exact .inr (by simpa [same] using before)
      · exact fun x member => .inr (.inl (List.mem_append_left _ member))
      · exact fun x held => .inl held
    · simp at taken
  | link p =>
    simp only [step] at taken
    split at taken
    · rename_i prev node busy
      obtain ⟨q₁,run,eq⟩ := Option.map_eq_some_iff.mp taken
      cases eq
      refine ⟨nodes,link_intact intact busy run,?_⟩
      have alive := storeNext_isSome run
      obtain ⟨n,stored,rfl⟩ := storeNext_eq run
      apply exhaustive_kept exhaustive
      · exact fun x stored => (alive x) ▸ stored
      · intro p' x value' before
        have other : p' ≠ p := by
          rintro rfl
          simp [busy] at before
        exact .inr (by simpa [other] using before)
      · exact fun x member => .inr (.inl member)
      · exact fun x held => .inl held
    · simp at taken
  | consume => exact consumed_exhaustive intact exhaustive (consumeStep_consumed taken)

end Step

section Count
variable {q q' : MpscQueue P T} {log : List (Event P T)}

/-- One node on the heap for each call that has not been answered, and the stub. -/
structure Counted (q : MpscQueue P T) (log : List (Event P T)) : Prop where
  finite : (heapNodes q).Finite
  balanced : (heapNodes q).ncard + (returned log).length = callCount log + 1

theorem counted_same {e : Event P T} (counted : Counted q log)
    (alive : ∀ node, (q'.nodeAt node).isSome = (q.nodeAt node).isSome)
    (quiet : returned (e :: log) = returned log ∧ callCount (e :: log) = callCount log) :
    Counted q' (e :: log) := by
  have same : heapNodes q' = heapNodes q := by
    ext node
    simp [heapNodes, alive node]
  constructor
  · rw [same]
    exact counted.finite
  · rw [same, quiet.1, quiet.2]
    exact counted.balanced

theorem consumed_counted {e : Event P T} (counted : Counted q log) (taken : Consumed q q' e) :
    Counted q' (e :: log) := by
  cases taken with
  | atNode state proper loaded | pastStub state loaded =>
    refine counted_same counted ?_ ⟨rfl,rfl⟩
    intro node
    unfold afterNext
    split <;> rfl
  | cleared state run | linked state run =>
    exact counted_same counted (fun node => storeNext_isSome run node) ⟨rfl,rfl⟩
  | @unpacked gone n state stored =>
    have less : heapNodes { q with
        nodeAt := Function.update q.nodeAt gone none, consumer := .idle } =
        heapNodes q \ {gone} := by
      ext node
      by_cases same : node = gone
      · simp [heapNodes, same]
      · simp [heapNodes, same]
    have member : gone ∈ heapNodes q := by simp [heapNodes, stored]
    have fewer := Set.ncard_sdiff_singleton_add_one member counted.finite
    constructor
    · rw [less]
      exact counted.finite.sdiff
    · rw [less]
      have balanced := counted.balanced
      simp only [returned, callCount, List.length_append, List.length_singleton]
      omega
  | _ => exact counted_same counted (fun _ => rfl) ⟨rfl,rfl⟩

theorem step_counted [DecidableEq P] (counted : Counted q log) {a : Action P T} {e : Event P T}
    (taken : q.step a = some (q', e)) : Counted q' (e :: log) := by
  cases a with
  | create p value node =>
    simp only [step] at taken
    split at taken
    · rename_i idle unused
      cases taken
      have more : heapNodes { q with
          nodeAt := Function.update q.nodeAt node (some ⟨value,none⟩)
          producers := Function.update q.producers p (.created node value) } =
          insert node (heapNodes q) := by
        ext x
        by_cases same : x = node
        · simp [heapNodes, same]
        · simp [heapNodes, same]
      have fresh : node ∉ heapNodes q := by simp [heapNodes, unused]
      constructor
      · rw [more]
        exact counted.finite.insert node
      · have balanced := counted.balanced
        rw [more, Set.ncard_insert_of_notMem fresh counted.finite]
        simp only [returned, callCount]
        omega
    · simp at taken
  | exchange p =>
    simp only [step] at taken
    split at taken
    · cases taken
      exact counted_same counted (fun _ => rfl) ⟨rfl,rfl⟩
    · simp at taken
  | link p =>
    simp only [step] at taken
    split at taken
    · obtain ⟨q₁,run,eq⟩ := Option.map_eq_some_iff.mp taken
      cases eq
      exact counted_same counted (fun node => storeNext_isSome run node) ⟨rfl,rfl⟩
    · simp at taken
  | consume => exact consumed_counted counted (consumeStep_consumed taken)

end Count

section Runs
variable [DecidableEq P] [Inhabited T] {q : MpscQueue P T} {log : List (Event P T)}

omit [DecidableEq P] in
theorem create_exhaustive : Exhaustive (create : MpscQueue P T) [stub_] := by
  intro node stored
  by_cases same : node = stub_
  · exact .inl same
  · simp [create, same] at stored

omit [DecidableEq P] in
theorem create_counted : Counted (create : MpscQueue P T) [] := by
  have only : heapNodes (create : MpscQueue P T) = {stub_} := by
    ext node
    by_cases same : node = stub_
    · simp [heapNodes, create, same]
    · simp [heapNodes, create, same]
  constructor
  · rw [only]
    exact Set.finite_singleton stub_
  · rw [only, Set.ncard_singleton]
    rfl

theorem run_exhaustive (run : Run step AnyOrder create q log) :
    ∃ nodes, Intact q log nodes ∧ Exhaustive q nodes := by
  refine run.invariant (fun q log => ∃ nodes, Intact q log nodes ∧ Exhaustive q nodes)
    ⟨_,create_base,create_exhaustive⟩ ?_
  intro s older a s' e earlier _ taken
  obtain ⟨nodes,intact,exhaustive⟩ := earlier
  exact step_exhaustive intact exhaustive taken

theorem run_counted (run : Run step AnyOrder create q log) : Counted q log := by
  refine run.invariant Counted create_counted ?_
  intro s older a s' e counted _ taken
  exact step_counted counted taken

/-- The heap holds the stub, the nodes of the list, those that producers have not exchanged yet
and the one that is being deleted, and nothing else; their number is that of the values
`produce` was called with and `consume` has not returned, and the stub. -/
theorem heap_accounted (run : Run step AnyOrder (create : MpscQueue P T) q log) :
    (∀ node, (q.nodeAt node).isSome ↔ node = stub_ ∨ Reachable q node ∨
      (∃ p value, q.producers p = .created node value) ∨ q.consumer = .unpack node) ∧
    {node | (q.nodeAt node).isSome}.ncard + (returned log).length = callCount log + 1 := by
  obtain ⟨nodes,intact,exhaustive⟩ := run_exhaustive run
  refine ⟨fun node => ⟨fun stored => ?_,?_⟩,(run_counted run).balanced⟩
  · rw [reachable_mem intact]
    exact exhaustive node stored
  · rw [reachable_mem intact]
    rintro (rfl | member | ⟨p,value,created⟩ | held)
    · exact intact.parked
    · exact intact.live node member
    · simp [(intact.created p node value created).2]
    · have position := intact.position
      simp only [Positioned, held] at position
      exact position.2.2.1

end Runs

theorem three_nodes_accounted :
    ∃ q : MpscQueue Bool Nat, ∃ log, Run step AnyOrder create q log ∧ returned log = [5] ∧
      callCount log = 3 ∧ q.producers true = .created 3 9 ∧
      {node | (q.nodeAt node).isSome}.ncard = 3 := by
  let actions : List (Action Bool Nat) := [.create true 5 1, .create false 7 2, .exchange true,
    .link true, .exchange false, .link false, .consume, .consume, .consume, .consume, .consume,
    .consume, .create true 9 3]
  have computed : (replay step AnyOrder (create : MpscQueue Bool Nat) [] actions).map
      (fun (q, log) => decide (returned log = [5] ∧ callCount log = 3 ∧
        q.producers true = .created 3 9)) = some true := by
    decide +kernel
  obtain ⟨q,log,run,facts⟩ := replay_reaches computed
  obtain ⟨first,calls,created⟩ := of_decide_eq_true facts
  refine ⟨q,log,run,first,calls,created,?_⟩
  have balanced := (heap_accounted run).2
  rw [first, calls] at balanced
  simpa using balanced

end MpscQueue
end Aiopp
