import Aiopp.Foundations.PartialChain
import Aiopp.Foundations.Transition

/-!
The multi-producer queue, one atomic operation at a time. Producers and the one
consumer stand between two atomic operations of their current call; a step
performs the next one and runs on to the one after it. Nodes live on a heap that
reuses addresses; following a pointer to a deleted node has no successor.
-/
namespace Aiopp
namespace MpscQueue

structure Node (T : Type) where
  value : T
  next : Option Nat := none
  deriving DecidableEq, Repr

inductive Producer (T : Type) where
  | idle
  | created (node : Nat) (value : T)
  | exchanged (prev node : Nat)
  deriving DecidableEq, Repr

/-- Named by the operation that comes next, with the locals it still needs. -/
inductive Consumer where
  | idle
  | loadNext (node : Nat)
  | skipStub (next : Nat)
  | loadNextPastStub (node : Nat)
  | advance (node next : Nat)
  | unpack (node : Nat)
  | loadProduceEnd (node : Nat)
  | clearStub (node : Nat)
  | exchangeStub (node : Nat)
  | linkStub (node prev : Nat)
  | reloadNext (node : Nat)
  deriving DecidableEq, Repr

def stub_ : Nat := 0

end MpscQueue

open MpscQueue

structure MpscQueue (P T : Type) where
  nodeAt : Nat → Option (Node T)
  consumeEnd_ : Nat := stub_
  produceEnd_ : Nat := stub_
  producers : P → Producer T := fun _ => .idle
  consumer : Consumer := .idle

namespace MpscQueue
variable {P T : Type}

def create [Inhabited T] : MpscQueue P T :=
  { nodeAt := Function.update (fun _ => none) stub_ (some ⟨default, none⟩) }

def loadNext (q : MpscQueue P T) (node : Nat) : Option (Option Nat) :=
  (q.nodeAt node).map Node.next

def storeNext (q : MpscQueue P T) (node : Nat) (next : Option Nat) : Option (MpscQueue P T) :=
  (q.nodeAt node).map fun n =>
    { q with nodeAt := Function.update q.nodeAt node (some { n with next := next }) }

inductive Action (P T : Type) where
  | create (p : P) (value : T) (node : Nat)
  | exchange (p : P)
  | link (p : P)
  | consume
  deriving DecidableEq, Repr

inductive Event (P T : Type) where
  | called (p : P) (value : T)
  | exchanged (p : P) (value : T)
  | linked (p : P)
  | moved
  | returned (node : Nat) (value : T)
  | returnedNothing
  deriving DecidableEq, Repr

/-- `if (next)` and what follows it up to the next atomic operation. -/
def afterNext (q : MpscQueue P T) (node : Nat) (otherwise : Consumer) (next : Option Nat) :
    MpscQueue P T :=
  match next with
  | some next => { q with consumer := .advance node next }
  | none => { q with consumer := otherwise }

def consumeStep (q : MpscQueue P T) : Option (MpscQueue P T × Event P T) :=
  match q.consumer with
  | .idle => some ({ q with consumer := .loadNext q.consumeEnd_ }, .moved)
  | .loadNext node =>
    match q.loadNext node with
    | none => none
    | some next =>
      if node = stub_ then
        match next with
        | none => some ({ q with consumer := .idle }, .returnedNothing)
        | some next => some ({ q with consumer := .skipStub next }, .moved)
      else some (q.afterNext node (.loadProduceEnd node) next, .moved)
  | .skipStub next =>
    some ({ q with consumeEnd_ := next, consumer := .loadNextPastStub next }, .moved)
  | .loadNextPastStub node =>
    (q.loadNext node).map fun next => (q.afterNext node (.loadProduceEnd node) next, .moved)
  | .advance node next => some ({ q with consumeEnd_ := next, consumer := .unpack node }, .moved)
  | .unpack node =>
    (q.nodeAt node).map fun n =>
      ({ q with nodeAt := Function.update q.nodeAt node none, consumer := .idle },
        .returned node n.value)
  | .loadProduceEnd node =>
    if node ≠ q.produceEnd_ then some ({ q with consumer := .idle }, .returnedNothing)
    else some ({ q with consumer := .clearStub node }, .moved)
  | .clearStub node =>
    (q.storeNext stub_ none).map fun q' => ({ q' with consumer := .exchangeStub node }, .moved)
  | .exchangeStub node =>
    some ({ q with produceEnd_ := stub_, consumer := .linkStub node q.produceEnd_ }, .moved)
  | .linkStub node prev =>
    (q.storeNext prev (some stub_)).map fun q' => ({ q' with consumer := .reloadNext node }, .moved)
  | .reloadNext node =>
    match q.loadNext node with
    | none => none
    | some (some next) => some ({ q with consumer := .advance node next }, .moved)
    | some none => some ({ q with consumer := .idle }, .returnedNothing)

/-- The allocator picks any address that is not in use. -/
def step [DecidableEq P] (q : MpscQueue P T) : Action P T → Option (MpscQueue P T × Event P T)
  | .create p value node =>
    match q.producers p, q.nodeAt node with
    | .idle, none =>
      some ({ q with
        nodeAt := Function.update q.nodeAt node (some ⟨value, none⟩)
        producers := Function.update q.producers p (.created node value) }, .called p value)
    | _, _ => none
  | .exchange p =>
    match q.producers p with
    | .created node value =>
      some ({ q with
        produceEnd_ := node
        producers := Function.update q.producers p (.exchanged q.produceEnd_ node) },
        .exchanged p value)
    | _ => none
  | .link p =>
    match q.producers p with
    | .exchanged prev node =>
      (q.storeNext prev (some node)).map fun q' =>
        ({ q' with producers := Function.update q'.producers p .idle }, .linked p)
    | _ => none
  | .consume => q.consumeStep

end MpscQueue
end Aiopp
