import Aiopp.MpscLifetime

/-!
The test `node != produceEnd_` of `consume`. Without it a call puts the stub back even
when a stalled producer has moved the end; the next call then puts it back again while it
is still in the list, and links it to itself.
-/
namespace Aiopp
namespace MpscQueue
open PartialChain Transition
variable {P T : Type}

/-- A call that finds no next node goes on to `stub_.next.store(nullptr)` at once. -/
def withoutTest : Consumer → Consumer
  | .loadProduceEnd node => .clearStub node
  | c => c

def stepWithoutTest [DecidableEq P] (q : MpscQueue P T) (a : Action P T) :
    Option (MpscQueue P T × Event P T) :=
  (q.step a).map fun (q', e) => ({ q' with consumer := withoutTest q'.consumer }, e)

/-- `consume` starts to put the stub back only when it is out of the list. -/
def PutBackOnce (q : MpscQueue P T) (_ : List (Event P T)) (a : Action P T) : Prop :=
  a = .consume → ∀ node, q.consumer = .clearStub node → ¬ Reachable q stub_

def untested : Consumer → Consumer
  | .clearStub node => .loadProduceEnd node
  | c => c

theorem untested_withoutTest (c : Consumer) : untested (withoutTest c) = untested c := by
  cases c <;> rfl

theorem untested_cases (c : Consumer) : (∃ node, c = .clearStub node) ∨ untested c = c := by
  cases c <;> simp [untested]

section Variant
variable {q q' : MpscQueue P T} {log log' : List (Event P T)} {nodes : List Nat}

theorem Intact.relog (intact : Intact q log nodes) (made : produced log' = produced log)
    (taken : returned log' = returned log) : Intact q log' nodes := by
  refine { intact with order := ?_ }
  rw [made, taken]
  exact intact.order

theorem Intact.consumer (intact : Intact q log nodes) {c : Consumer}
    (free : ¬ Engaged q.consumer) (free' : ¬ Engaged c)
    (position : Positioned { q with consumer := c } nodes) :
    Intact { q with consumer := c } log nodes :=
  (intact_move (e := .moved) intact free free' trivial position).relog rfl rfl

theorem untested_intact (intact : Intact q log nodes) :
    Intact { q with consumer := untested q.consumer } log nodes := by
  rcases untested_cases q.consumer with ⟨node,state⟩ | same
  · have position := intact.position
    simp only [Positioned, state] at position
    rw [state]
    exact intact.consumer (by simp [state, Engaged]) not_false ⟨position.1,position.2.1⟩
  · rw [same]
    exact intact

theorem storeNext_consumer (c : Consumer) (node : Nat) (next : Option Nat) :
    ({ q with consumer := c } : MpscQueue P T).storeNext node next =
      (q.storeNext node next).map fun q' => { q' with consumer := c } := by
  unfold storeNext
  cases q.nodeAt node <;> rfl

theorem step_consumer [DecidableEq P] {a : Action P T} {e : Event P T} (producer : a ≠ .consume)
    (taken : q.step a = some (q', e)) (c : Consumer) :
    q'.consumer = q.consumer ∧
      ({ q with consumer := c } : MpscQueue P T).step a = some ({ q' with consumer := c }, e) := by
  cases a with
  | create p value node =>
    simp only [step] at taken ⊢
    split at taken
    · rename_i idle unused
      cases taken
      simp
    · simp at taken
  | exchange p =>
    simp only [step] at taken ⊢
    split at taken
    · rename_i created
      cases taken
      simp
    · simp at taken
  | link p =>
    simp only [step] at taken ⊢
    split at taken
    · rename_i prev node busy
      obtain ⟨q₁,stored,eq⟩ := Option.map_eq_some_iff.mp taken
      obtain ⟨n,_,rfl⟩ := storeNext_eq stored
      cases eq
      simp [storeNext_consumer, stored]
    · simp at taken
  | consume => exact absurd rfl producer

/-- The stub goes back into a list it has left, whether or not the end has moved. -/
theorem cleared_intact
    (intact : Intact { q with consumer := untested q.consumer } log nodes) {node : Nat}
    (state : q.consumer = .clearStub node) (out : ¬ Reachable q stub_) :
    Intact q log nodes := by
  have position := intact.position
  simp only [Positioned, state, untested] at position
  have debts : ∀ x y, Owed q x y ↔ Owed { q with consumer := untested q.consumer } x y := by
    intro x y
    simp [Owed, state, untested]
  have outside : stub_ ∉ nodes := by
    rw [← (intact.chain.frame (fun _ _ => rfl) debts).reachable_iff intact.first]
    exact out
  have moved := intact.consumer (c := .clearStub node) (by simp [state, untested, Engaged])
    not_false ⟨position.1,position.2,outside⟩
  rw [← state] at moved
  exact moved

theorem stepWithoutTest_intact [DecidableEq P] {a : Action P T} {e : Event P T}
    (intact : Intact { q with consumer := untested q.consumer } log nodes)
    (allowed : PutBackOnce q log a) (taken : q.stepWithoutTest a = some (q', e)) :
    ∃ nodes', Intact { q' with consumer := untested q'.consumer } (e :: log) nodes' := by
  obtain ⟨⟨q₁,e₁⟩,stepped,eq⟩ := Option.map_eq_some_iff.mp taken
  cases eq
  rw [untested_withoutTest]
  by_cases consuming : a = .consume
  · have exact_state : Intact q log nodes := by
      rcases untested_cases q.consumer with ⟨node,state⟩ | same
      · exact cleared_intact intact state (allowed consuming node state)
      · rw [same] at intact
        exact intact
    obtain ⟨nodes',after⟩ := step_intact exact_state stepped
    exact ⟨nodes',untested_intact after⟩
  · obtain ⟨same,moved⟩ := step_consumer consuming stepped (untested q.consumer)
    rw [same]
    exact step_intact intact moved

end Variant

section Runs
variable [DecidableEq P] [Inhabited T] {q : MpscQueue P T} {log : List (Event P T)}

theorem runWithoutTest_intact (run : Run stepWithoutTest PutBackOnce create q log) :
    ∃ nodes, Intact { q with consumer := untested q.consumer } log nodes := by
  refine run.invariant
    (fun q log => ∃ nodes, Intact { q with consumer := untested q.consumer } log nodes)
    ⟨_,create_base⟩ ?_
  intro s older a s' e earlier allowed taken
  obtain ⟨nodes,intact⟩ := earlier
  exact stepWithoutTest_intact intact allowed taken

/-- Without the test the values still come in order and the stub stays, as long as no call
puts the stub back while it is still in the list. -/
theorem withoutTest_in_exchange_order
    (run : Run stepWithoutTest PutBackOnce (create : MpscQueue P T) q log) :
    returned log <+: (produced log).map Prod.snd ∧
    ∀ node value, Event.returned node value ∈ log → node ≠ stub_ := by
  constructor
  · obtain ⟨nodes,intact⟩ := runWithoutTest_intact run
    rw [intact.order, List.append_assoc]
    exact List.prefix_append _ _
  · intro node value member
    obtain ⟨later,older,rfl⟩ := List.append_of_mem member
    obtain ⟨before,a,after,first,_,taken,_⟩ := run.split
    obtain ⟨nodes,intact⟩ := runWithoutTest_intact first
    obtain ⟨⟨q₁,e⟩,stepped,eq⟩ := Option.map_eq_some_iff.mp taken
    cases eq
    have position := intact.position
    simp only [Positioned, (step_returned stepped).1, untested] at position
    exact position.2.1

end Runs

theorem missed_node_returned_next :
    ∃ (q : MpscQueue Bool Nat) (log : List (Event Bool Nat)),
      Run stepWithoutTest PutBackOnce create q log ∧ produced log = [(true,5),(false,7)] ∧
      returned log = [5,7] ∧ returned log <+: (produced log).map Prod.snd := by
  let before : List (Action Bool Nat) := [.create true 5 1, .exchange true, .link true,
    .create false 7 2, .consume, .consume, .consume, .consume, .exchange false, .link false]
  let after : List (Action Bool Nat) := List.replicate 9 .consume
  let elsewhere (q : MpscQueue Bool Nat) (_ : List (Event Bool Nat)) (a : Action Bool Nat) :=
    a = .consume → untested q.consumer = q.consumer
  have computed : ((replay stepWithoutTest elsewhere create [] before).bind fun (q₁, log₁) =>
      (q₁.stepWithoutTest .consume).bind fun (q₂, e) =>
        (replay stepWithoutTest elsewhere q₂ (e :: log₁) after).map fun (_, log) =>
          decide ((q₁.consumeEnd_ = 1 ∧ q₁.nextOf 1 = some 2 ∧ q₁.nextOf 2 = none ∧
            q₁.producers true = .idle ∧ q₁.producers false = .idle ∧
            q₁.consumer = .clearStub 1) ∧ produced log = [(true,5),(false,7)] ∧
            returned log = [5,7])) = some true := by
    decide +kernel
  have covers : ∀ q log a, elsewhere q log a → PutBackOnce q log a := by
    intro q log a other consuming node state
    have same := other consuming
    simp [state, untested] at same
  obtain ⟨⟨q₁,log₁⟩,played,computed⟩ := Option.bind_eq_some_iff.mp computed
  obtain ⟨⟨q₂,e⟩,cleared,computed⟩ := Option.bind_eq_some_iff.mp computed
  obtain ⟨⟨q,log⟩,finished,facts⟩ := Option.map_eq_some_iff.mp computed
  obtain ⟨⟨front,first,second,idle,idle',clearing⟩,values,answers⟩ := of_decide_eq_true facts
  have run₁ : Run stepWithoutTest PutBackOnce create q₁ log₁ := replay_run_within covers .nil played
  have inside : ∀ node, Reachable q₁ node → node = 1 ∨ node = 2 := by
    intro node path
    induction path with
    | refl => exact .inl front
    | tail _ link ih =>
      rcases link with written | ⟨p,busy⟩ | ⟨x,linking,_⟩
      · rcases ih with rfl | rfl
        · exact .inr (Option.some.inj (written.symm.trans first))
        · simp [second] at written
      · cases p <;> simp_all
      · simp [clearing] at linking
  have out : PutBackOnce q₁ log₁ .consume := by
    intro _ node _ path
    rcases inside stub_ path with parked | parked <;> simp [stub_] at parked
  have run : Run stepWithoutTest PutBackOnce create q log :=
    replay_run_within covers (.next run₁ out cleared) finished
  exact ⟨q,log,run,values,answers,(withoutTest_in_exchange_order run).1⟩

/-- Two calls against one stalled producer link the stub to itself, and a later call unpacks
it: the test is more than an optimisation. -/
theorem withoutTest_unpacks_stub :
    ∃ (q : MpscQueue Bool Nat) (log : List (Event Bool Nat)),
      Run stepWithoutTest AnyOrder create q log ∧ Event.returned stub_ 0 ∈ log ∧
      produced log = [(true,5),(false,7)] ∧ returned log = [5,7,0] ∧
      ¬ returned log <+: (produced log).map Prod.snd := by
  let actions : List (Action Bool Nat) := [.create true 5 1, .exchange true, .link true,
    .create false 7 2, .exchange false] ++ List.replicate 14 .consume ++ [.link false] ++
    List.replicate 14 .consume
  have computed : (replay stepWithoutTest AnyOrder (create : MpscQueue Bool Nat) [] actions).map
      (fun (_, log) => decide (Event.returned stub_ 0 ∈ log ∧
        produced log = [(true,5),(false,7)] ∧ returned log = [5,7,0])) = some true := by
    decide +kernel
  obtain ⟨q,log,run,facts⟩ := replay_reaches computed
  obtain ⟨unpacked,values,answers⟩ := of_decide_eq_true facts
  refine ⟨q,log,run,unpacked,values,answers,?_⟩
  rw [values, answers]
  decide

end MpscQueue
end Aiopp
