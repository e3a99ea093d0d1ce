import Aiopp.MpscConsumer
import Aiopp.MpscProducer

/-!
Whole runs of producers and consumer, in any interleaving of their atomic steps.
-/
namespace Aiopp
namespace MpscQueue
open PartialChain Transition
variable {P T : Type}

theorem create_base [Inhabited T] : Intact (create : MpscQueue P T) [] [stub_] := by
  constructor
  · constructor
    · simp
    · intro x y adjacent
      exact adjacent.elim
    · intro x last
      obtain rfl : stub_ = x := by simpa using last
      rfl
    · rintro x y (⟨p,busy⟩ | ⟨node,linking,_⟩)
      · simp [create] at busy
      · simp [create] at linking
  · rfl
  · rfl
  · intro node member
    rw [List.mem_singleton.mp member]
    rfl
  · rfl
  · intro p node value created
    simp [create] at created
  · intro p node owns
    simp [create, Producer.node] at owns
  · intro p p' node owns
    simp [create, Producer.node] at owns
  · trivial
  · rfl

theorem step_intact [DecidableEq P] {q q' : MpscQueue P T} {log : List (Event P T)}
    {nodes : List Nat} (intact : Intact q log nodes) {a : Action P T} {e : Event P T}
    (taken : q.step a = some (q', e)) : ∃ nodes', Intact q' (e :: log) nodes' := by
  cases a with
  | create p value node =>
    simp only [step] at taken
    split at taken
    · rename_i idle unused
      cases taken
      exact ⟨nodes,create_intact intact idle unused⟩
    · simp at taken
  | exchange p =>
    simp only [step] at taken
    split at taken
    · rename_i node value created
      cases taken
      exact ⟨_,exchange_intact intact created⟩
    · simp at taken
  | link p =>
    simp only [step] at taken
    split at taken
    · rename_i prev node busy
      obtain ⟨q₁,stored,eq⟩ := Option.map_eq_some_iff.mp taken
      cases eq
      exact ⟨nodes,link_intact intact busy stored⟩
    · simp at taken
  | consume => exact consumed_intact intact (consumeStep_consumed taken)

theorem step_returned [DecidableEq P] {q q' : MpscQueue P T} {a : Action P T} {node : Nat}
    {value : T} (taken : q.step a = some (q', .returned node value)) :
    q.consumer = .unpack node ∧ (q.nodeAt node).isSome ∧ q'.nodeAt node = none := by
  cases a with
  | consume =>
    cases consumeStep_consumed taken with
    | unpacked state stored => simp [state, stored]
  | create p v n =>
    simp only [step] at taken
    split at taken <;> simp at taken
  | exchange p =>
    simp only [step] at taken
    split at taken <;> simp at taken
  | link p =>
    simp only [step] at taken
    split at taken <;> simp at taken

section Runs
variable [DecidableEq P] [Inhabited T] {q : MpscQueue P T} {log : List (Event P T)}

def AnyOrder (_ : MpscQueue P T) (_ : List (Event P T)) (_ : Action P T) : Prop := True

instance (q : MpscQueue P T) (log : List (Event P T)) (a : Action P T) :
    Decidable (AnyOrder q log a) := isTrue trivial

theorem run_intact (run : Run step AnyOrder create q log) : ∃ nodes, Intact q log nodes := by
  refine run.invariant (fun q log => ∃ nodes, Intact q log nodes) ⟨_,create_base⟩ ?_
  rintro s older a s' e ⟨nodes,intact⟩ _ taken
  exact step_intact intact taken

def prepared : Producer T → List T
  | .created _ value => [value]
  | _ => []

def exchangesOf (p : P) (log : List (Event P T)) : List T :=
  ((produced log).filter fun entry => entry.1 = p).map Prod.snd

theorem run_calls (run : Run step AnyOrder create q log) (p : P) :
    calls p log = exchangesOf p log ++ prepared (q.producers p) := by
  refine run.invariant (fun q log => calls p log = exchangesOf p log ++ prepared (q.producers p))
    rfl ?_
  intro s older a s' e earlier _ taken
  cases a with
  | create p' value node =>
    simp only [step] at taken
    split at taken
    · rename_i idle unused
      cases taken
      by_cases same : p' = p
      · subst same
        simp [calls, exchangesOf, produced, earlier, prepared, idle]
      · simp [calls, exchangesOf, produced, earlier, same, Ne.symm same]
    · simp at taken
  | exchange p' =>
    simp only [step] at taken
    split at taken
    · rename_i node value created
      cases taken
      by_cases same : p' = p
      · subst same
        simp [calls, exchangesOf, produced, earlier, prepared, created]
      · simp [calls, exchangesOf, produced, earlier, same, Ne.symm same]
    · simp at taken
  | link p' =>
    simp only [step] at taken
    split at taken
    · rename_i prev node busy
      obtain ⟨q₁,stored,eq⟩ := Option.map_eq_some_iff.mp taken
      obtain ⟨n,_,rfl⟩ := storeNext_eq stored
      cases eq
      by_cases same : p' = p
      · subst same
        simp [calls, exchangesOf, produced, earlier, prepared, busy]
      · simp [calls, exchangesOf, produced, earlier, Ne.symm same]
    · simp at taken
  | consume =>
    have consumed := consumeStep_consumed taken
    have facts : s'.producers = s.producers ∧ produced (e :: older) = produced older :=
      consumed_producers consumed
    have silent : calls p (e :: older) = calls p older := by
      cases consumed <;> rfl
    rw [silent, exchangesOf, facts.2, facts.1]
    exact earlier

theorem run_returned (run : Run step AnyOrder create q log) (node : Nat) (value : T)
    (member : Event.returned node value ∈ log) : node ≠ stub_ := by
  obtain ⟨later,older,rfl⟩ := List.append_of_mem member
  obtain ⟨before,a,after,first,_,taken,_⟩ := run.split
  obtain ⟨nodes,intact⟩ := run_intact first
  have position := intact.position
  simp only [Positioned, (step_returned taken).1] at position
  exact position.2.1

theorem run_ordered (run : Run step AnyOrder create q log) :
    returned log <+: (produced log).map Prod.snd := by
  obtain ⟨nodes,intact⟩ := run_intact run
  rw [intact.order, List.append_assoc]
  exact List.prefix_append _ _

/-- The values returned are at all times the first ones exchanged: none is lost,
    doubled or overtaken, each producer's come in the order of its calls, and the stub
    is never among them. No step of either side meets a deleted node. -/
theorem returned_in_exchange_order (run : Run step AnyOrder (create : MpscQueue P T) q log) :
    returned log <+: (produced log).map Prod.snd ∧
    (∃ taken, taken <+: produced log ∧ returned log = taken.map Prod.snd ∧
      ∀ p, ((taken.filter fun entry => entry.1 = p).map Prod.snd) <+: calls p log) ∧
    (∀ node value, Event.returned node value ∈ log → node ≠ stub_) ∧
    (q.step .consume).isSome ∧
    (∀ p prev node, q.producers p = .exchanged prev node → (q.step (.link p)).isSome) := by
  obtain ⟨nodes,intact⟩ := run_intact run
  refine ⟨run_ordered run,?_,run_returned run,consumeStep_defined intact,?_⟩
  · refine ⟨(produced log).take (returned log).length,List.take_prefix _ _,?_,?_⟩
    · rw [List.map_take]
      exact List.prefix_iff_eq_take.mp (run_ordered run)
    · intro p
      rw [run_calls run p, exchangesOf]
      have shorter := ((List.take_prefix (returned log).length (produced log)).filter
        fun entry => entry.1 = p).map Prod.snd
      exact shorter.trans (List.prefix_append _ _)
  · intro p prev node busy
    have due := intact.chain.debts prev node (.inl ⟨p,busy⟩)
    have alive := intact.live prev (adjacent_mem due.1).1
    simpa [step, busy, storeNext] using alive

end Runs

theorem broken_middle_in_order :
    ∃ q : MpscQueue Bool Nat, ∃ log, Run step AnyOrder create q log ∧
      Event.returnedNothing ∈ log ∧ produced log = [(true,5),(false,7)] ∧ returned log = [5] ∧
      returned log <+: (produced log).map Prod.snd := by
  let actions : List (Action Bool Nat) := [.create true 5 1, .create false 7 2, .exchange true,
    .exchange false, .link false, .consume, .consume, .link true, .consume, .consume, .consume,
    .consume, .consume, .consume]
  have computed : (replay step AnyOrder (create : MpscQueue Bool Nat) [] actions).map
      (fun (_, log) => decide (Event.returnedNothing ∈ log ∧
        produced log = [(true,5),(false,7)] ∧ returned log = [5])) = some true := by
    decide +kernel
  obtain ⟨q,log,run,facts⟩ := replay_reaches computed
  obtain ⟨waited,values,first⟩ := of_decide_eq_true facts
  exact ⟨q,log,run,waited,values,first,(returned_in_exchange_order run).1⟩

end MpscQueue
end Aiopp
