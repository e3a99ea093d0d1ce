import Aiopp.MpscQueue

/-!
The queue as an abstract sequence. The nodes between the two ends are known in the
order of their exchanges even while links between them are missing; each missing
link is owed by a producer between its two steps, or by the consumer when it puts
the stub back.
-/
namespace Aiopp
namespace MpscQueue
open PartialChain Transition
variable {P T : Type}

def produced : List (Event P T) → List (P × T)
  | [] => []
  | .exchanged p value :: older => produced older ++ [(p,value)]
  | _ :: older => produced older

def returned : List (Event P T) → List T
  | [] => []
  | .returned _ value :: older => returned older ++ [value]
  | _ :: older => returned older

def calls [DecidableEq P] (p : P) : List (Event P T) → List T
  | [] => []
  | .called p' value :: older => if p' = p then calls p older ++ [value] else calls p older
  | _ :: older => calls p older

def Producer.node : Producer T → Option Nat
  | .idle => none
  | .created node _ => some node
  | .exchanged _ node => some node

def nextOf (q : MpscQueue P T) (node : Nat) : Option Nat := (q.nodeAt node).bind Node.next

def Owed (q : MpscQueue P T) (x y : Nat) : Prop :=
  (∃ p, q.producers p = .exchanged x y) ∨ ∃ node, q.consumer = .linkStub node x ∧ y = stub_

/-- The node taken out of the chain whose value is about to be returned. -/
def held (nodeAt : Nat → Option (Node T)) : Consumer → List T
  | .unpack node => ((nodeAt node).map Node.value).toList
  | _ => []

def content (nodeAt : Nat → Option (Node T)) (nodes : List Nat) : List T :=
  (nodes.filter (· ≠ stub_)).filterMap fun node => (nodeAt node).map Node.value

/-- What the consumer knows at each point of `consume`. -/
def Positioned (q : MpscQueue P T) (nodes : List Nat) : Prop :=
  match q.consumer with
  | .idle => True
  | .loadNext node => node = q.consumeEnd_
  | .skipStub next => q.consumeEnd_ = stub_ ∧ q.nextOf stub_ = some next
  | .loadNextPastStub node => node = q.consumeEnd_ ∧ node ≠ stub_
  | .advance node next => node = q.consumeEnd_ ∧ node ≠ stub_ ∧ q.nextOf node = some next
  | .unpack node =>
    node ∉ nodes ∧ node ≠ stub_ ∧ (q.nodeAt node).isSome ∧ ∀ p, (q.producers p).node ≠ some node
  | .loadProduceEnd node => node = q.consumeEnd_ ∧ node ≠ stub_
  | .clearStub node => node = q.consumeEnd_ ∧ node ≠ stub_ ∧ stub_ ∉ nodes
  | .exchangeStub node =>
    node = q.consumeEnd_ ∧ node ≠ stub_ ∧ stub_ ∉ nodes ∧ q.nextOf stub_ = none
  | .linkStub node _ => node = q.consumeEnd_ ∧ node ≠ stub_
  | .reloadNext node => node = q.consumeEnd_ ∧ node ≠ stub_

structure Intact (q : MpscQueue P T) (log : List (Event P T)) (nodes : List Nat) : Prop where
  chain : Chain q.nextOf q.Owed nodes
  first : nodes.head? = some q.consumeEnd_
  last : nodes.getLast? = some q.produceEnd_
  live : ∀ node ∈ nodes, (q.nodeAt node).isSome
  parked : (q.nodeAt stub_).isSome
  created : ∀ p node value, q.producers p = .created node value →
    node ∉ nodes ∧ q.nodeAt node = some ⟨value,none⟩
  proper : ∀ p node, (q.producers p).node = some node → node ≠ stub_
  apart : ∀ p p' node, (q.producers p).node = some node → (q.producers p').node = some node →
    p = p'
  position : Positioned q nodes
  order : (produced log).map Prod.snd =
    returned log ++ held q.nodeAt q.consumer ++ content q.nodeAt nodes

section Frame
variable {q q' : MpscQueue P T} {log : List (Event P T)} {nodes : List Nat}

theorem owned_live (intact : Intact q log nodes) {p : P} {node : Nat}
    (owns : (q.producers p).node = some node) : (q.nodeAt node).isSome := by
  cases state : q.producers p with
  | idle => simp [state, Producer.node] at owns
  | created a value =>
    obtain rfl : a = node := by simpa [state, Producer.node] using owns
    simp [(intact.created p a value state).2]
  | exchanged prev a =>
    obtain rfl : a = node := by simpa [state, Producer.node] using owns
    have due := intact.chain.debts prev a (.inl ⟨p,state⟩)
    exact intact.live a (List.mem_of_mem_tail (adjacent_mem due.1).2)

theorem content_frame {nodeAt nodeAt' : Nat → Option (Node T)}
    (same : ∀ node ∈ nodes, (nodeAt' node).map Node.value = (nodeAt node).map Node.value) :
    content nodeAt' nodes = content nodeAt nodes := by
  unfold content
  apply List.filterMap_congr
  intro node member
  exact same node (List.mem_filter.mp member).1

theorem content_push {nodeAt : Nat → Option (Node T)} (nodes : List Nat) {node : Nat} {n : Node T}
    (stored : nodeAt node = some n) (proper : node ≠ stub_) :
    content nodeAt (nodes ++ [node]) = content nodeAt nodes ++ [n.value] := by
  simp [content, proper, stored]

theorem content_push_stub (nodeAt : Nat → Option (Node T)) (nodes : List Nat) :
    content nodeAt (nodes ++ [stub_]) = content nodeAt nodes := by
  simp [content]

theorem content_pop (nodeAt : Nat → Option (Node T)) (nodes : List Nat) {node : Nat}
    (proper : node ≠ stub_) : content nodeAt (node :: nodes) =
      ((nodeAt node).map Node.value).toList ++ content nodeAt nodes := by
  unfold content
  rw [List.filter_cons, if_pos (by simpa using proper), List.filterMap_cons]
  cases (nodeAt node).map Node.value <;> rfl

theorem content_pop_stub (nodeAt : Nat → Option (Node T)) (nodes : List Nat) :
    content nodeAt (stub_ :: nodes) = content nodeAt nodes := by
  simp [content]

def Quiet : Event P T → Prop
  | .exchanged _ _ => False
  | .returned _ _ => False
  | _ => True

theorem quiet_log {e : Event P T} (quiet : Quiet e) (log : List (Event P T)) :
    produced (e :: log) = produced log ∧ returned (e :: log) = returned log := by
  cases e with
  | exchanged => exact quiet.elim
  | returned => exact quiet.elim
  | _ => exact ⟨rfl,rfl⟩

def Engaged : Consumer → Prop
  | .linkStub _ _ => True
  | .unpack _ => True
  | _ => False

theorem intact_move (intact : Intact q log nodes) {c : Consumer} {e : Event P T}
    (free : ¬ Engaged q.consumer) (free' : ¬ Engaged c) (quiet : Quiet e)
    (position : Positioned { q with consumer := c } nodes) :
    Intact { q with consumer := c } (e :: log) nodes := by
  have same_debts : ∀ x y, Owed { q with consumer := c } x y ↔ Owed q x y := by
    intro x y
    unfold Owed
    cases state : q.consumer <;> cases c <;> simp_all [Engaged]
  have same_held : held q.nodeAt c = held q.nodeAt q.consumer := by
    unfold held
    cases state : q.consumer <;> cases c <;> simp_all [Engaged]
  refine ⟨?_,intact.first,intact.last,intact.live,intact.parked,intact.created,intact.proper,
    intact.apart,position,?_⟩
  · apply intact.chain.frame
    · intro node _
      rfl
    · exact same_debts
  · rw [(quiet_log quiet log).1, (quiet_log quiet log).2, same_held]
    exact intact.order

theorem head_nextOf (intact : Intact q log nodes) {next : Nat}
    (written : q.nextOf q.consumeEnd_ = some next) :
    ∃ rest, nodes = q.consumeEnd_ :: next :: rest := by
  obtain ⟨tail,rfl⟩ := List.head?_eq_some_iff.mp intact.first
  obtain ⟨rest,rfl,_⟩ := intact.chain.pop written
  exact ⟨rest,rfl⟩

theorem consumeEnd_mem (intact : Intact q log nodes) : q.consumeEnd_ ∈ nodes := by
  obtain ⟨tail,rfl⟩ := List.head?_eq_some_iff.mp intact.first
  simp

/-- Only the owner of a node writes the link to it. -/
theorem owed_unique (intact : Intact q log nodes) {x y y' : Nat} (due : Owed q x y)
    (due' : Owed q x y') : y = y' :=
  adjacent_unique intact.chain.nodup (intact.chain.debts x y due).1
    (intact.chain.debts x y' due').1

end Frame

section Store
variable {q q' : MpscQueue P T} {node : Nat} {next : Option Nat}

theorem storeNext_eq (run : q.storeNext node next = some q') :
    ∃ n, q.nodeAt node = some n ∧ q' =
      { q with nodeAt := Function.update q.nodeAt node (some { n with next := next }) } := by
  obtain ⟨n,stored,rfl⟩ := Option.map_eq_some_iff.mp run
  exact ⟨n,stored,rfl⟩

theorem storeNext_nextOf (run : q.storeNext node next = some q') (x : Nat) :
    q'.nextOf x = Function.update q.nextOf node next x := by
  obtain ⟨n,stored,rfl⟩ := storeNext_eq run
  by_cases same : x = node
  · subst same
    simp [nextOf]
  · simp [nextOf, same]

theorem storeNext_value (run : q.storeNext node next = some q') (x : Nat) :
    (q'.nodeAt x).map Node.value = (q.nodeAt x).map Node.value := by
  obtain ⟨n,stored,rfl⟩ := storeNext_eq run
  by_cases same : x = node
  · subst same
    simp [stored]
  · simp [same]

theorem storeNext_isSome (run : q.storeNext node next = some q') (x : Nat) :
    (q'.nodeAt x).isSome = (q.nodeAt x).isSome := by
  have same := congrArg Option.isSome (storeNext_value run x)
  simpa using same

theorem storeNext_other (run : q.storeNext node next = some q') {x : Nat} (apart : x ≠ node) :
    q'.nodeAt x = q.nodeAt x := by
  obtain ⟨n,stored,rfl⟩ := storeNext_eq run
  simp [apart]

end Store

end MpscQueue
end Aiopp
