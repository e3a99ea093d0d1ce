import Aiopp.MpscChain

/-!
The consumer's side: each atomic operation of `consume` keeps the chain, and none of
them follows a pointer to a deleted node.
-/
namespace Aiopp
namespace MpscQueue
open PartialChain Transition
variable {P T : Type}

section Consume
variable {q q' : MpscQueue P T} {log : List (Event P T)} {nodes : List Nat}

theorem skipStub_intact (intact : Intact q log nodes) {next : Nat}
    (state : q.consumer = .skipStub next) :
    Intact { q with consumeEnd_ := next, consumer := .loadNextPastStub next } (.moved :: log)
      nodes.tail := by
  have position := intact.position
  simp only [Positioned, state] at position
  obtain ⟨parked,written⟩ := position
  obtain ⟨rest,rfl⟩ := head_nextOf intact (parked ▸ written)
  rw [parked] at intact
  obtain ⟨_,_,chain⟩ := intact.chain.pop written
  have apart := (List.nodup_cons.mp intact.chain.nodup).1
  constructor
  · apply chain.frame
    · intro node _
      rfl
    · intro x y
      simp [Owed, state]
  · rfl
  · simpa using intact.last
  · intro node member
    exact intact.live node (List.mem_cons_of_mem _ member)
  · exact intact.parked
  · intro p node value created
    have facts := intact.created p node value created
    exact ⟨fun member => facts.1 (List.mem_cons_of_mem _ member),facts.2⟩
  · exact intact.proper
  · exact intact.apart
  · refine ⟨rfl,?_⟩
    rintro rfl
    simp at apart
  · have order := intact.order
    rw [content_pop_stub] at order
    simpa [produced, returned, held, state] using order

theorem advance_intact (intact : Intact q log nodes) {node next : Nat}
    (state : q.consumer = .advance node next) :
    Intact { q with consumeEnd_ := next, consumer := .unpack node } (.moved :: log)
      nodes.tail := by
  have position := intact.position
  simp only [Positioned, state] at position
  obtain ⟨rfl,proper,written⟩ := position
  obtain ⟨rest,rfl⟩ := head_nextOf intact written
  obtain ⟨_,_,chain⟩ := intact.chain.pop written
  have outside := (List.nodup_cons.mp intact.chain.nodup).1
  constructor
  · apply chain.frame
    · intro x _
      rfl
    · intro x y
      simp [Owed, state]
  · rfl
  · simpa using intact.last
  · intro x member
    exact intact.live x (List.mem_cons_of_mem _ member)
  · exact intact.parked
  · intro p x value created
    have facts := intact.created p x value created
    exact ⟨fun member => facts.1 (List.mem_cons_of_mem _ member),facts.2⟩
  · exact intact.proper
  · exact intact.apart
  · refine ⟨outside,proper,intact.live _ (by simp),?_⟩
    intro p owns
    cases busy : q.producers p with
    | idle => simp [busy, Producer.node] at owns
    | created a value =>
      obtain rfl : a = q.consumeEnd_ := by simpa [busy, Producer.node] using owns
      exact (intact.created p _ value busy).1 (by simp)
    | exchanged prev a =>
      obtain rfl : a = q.consumeEnd_ := by simpa [busy, Producer.node] using owns
      have due := intact.chain.debts prev _ (.inl ⟨p,busy⟩)
      exact outside (adjacent_mem due.1).2
  · have order := intact.order
    rw [content_pop _ _ proper] at order
    simpa [produced, returned, held, state] using order

theorem unpack_intact (intact : Intact q log nodes) {node : Nat} {n : Node T}
    (state : q.consumer = .unpack node) (stored : q.nodeAt node = some n) :
    Intact { q with nodeAt := Function.update q.nodeAt node none, consumer := .idle }
      (.returned node n.value :: log) nodes := by
  have position := intact.position
  simp only [Positioned, state] at position
  obtain ⟨outside,proper,_,unowned⟩ := position
  have others : ∀ x ∈ nodes, Function.update q.nodeAt node none x = q.nodeAt x := by
    intro x member
    apply Function.update_of_ne
    rintro rfl
    exact outside member
  constructor
  · apply intact.chain.frame
    · intro x member
      simp only [nextOf]
      rw [others x member]
    · intro x y
      simp [Owed, state]
  · exact intact.first
  · exact intact.last
  · intro x member
    simp only [others x member]
    exact intact.live x member
  · simp only [Function.update_of_ne proper.symm]
    exact intact.parked
  · intro p x value created
    have facts := intact.created p x value created
    have apart : x ≠ node := by
      rintro rfl
      exact unowned p (by rw [created]; rfl)
    exact ⟨facts.1,by simpa [apart] using facts.2⟩
  · exact intact.proper
  · exact intact.apart
  · trivial
  · have order := intact.order
    have kept : content (Function.update q.nodeAt node none) nodes = content q.nodeAt nodes := by
      apply content_frame
      intro x member
      exact congrArg (Option.map Node.value) (others x member)
    rw [kept]
    simpa [produced, returned, held, state, stored] using order

theorem clearStub_intact (intact : Intact q log nodes) {node : Nat}
    (state : q.consumer = .clearStub node) (run : q.storeNext stub_ none = some q') :
    Intact { q' with consumer := .exchangeStub node } (.moved :: log) nodes := by
  have position := intact.position
  simp only [Positioned, state] at position
  obtain ⟨rfl,proper,outside⟩ := position
  have kept : content q'.nodeAt nodes = content q.nodeAt nodes :=
    content_frame fun x _ => storeNext_value run x
  have links := storeNext_nextOf run
  have alive := storeNext_isSome run
  have others : ∀ x, x ≠ stub_ → q'.nodeAt x = q.nodeAt x := fun x => storeNext_other run
  obtain ⟨n,stored,rfl⟩ := storeNext_eq run
  constructor
  · apply intact.chain.frame
    · intro x member
      have apart : x ≠ stub_ := by
        rintro rfl
        exact outside member
      exact (links x).trans (Function.update_of_ne apart _ _)
    · intro x y
      simp [Owed, state]
  · exact intact.first
  · exact intact.last
  · intro x member
    exact (alive x).trans (intact.live x member)
  · exact (alive stub_).trans intact.parked
  · intro p x value created
    have facts := intact.created p x value created
    have apart : x ≠ stub_ := intact.proper p x (by rw [created]; rfl)
    exact ⟨facts.1,(others x apart).trans facts.2⟩
  · exact intact.proper
  · exact intact.apart
  · exact ⟨rfl,proper,outside,(links stub_).trans (Function.update_self _ _ _)⟩
  · have order := intact.order
    rw [kept]
    simpa [produced, returned, held, state] using order

theorem exchangeStub_intact (intact : Intact q log nodes) {node : Nat}
    (state : q.consumer = .exchangeStub node) :
    Intact { q with produceEnd_ := stub_, consumer := .linkStub node q.produceEnd_ }
      (.moved :: log) (nodes ++ [stub_]) := by
  have position := intact.position
  simp only [Positioned, state] at position
  obtain ⟨rfl,proper,outside,bare⟩ := position
  constructor
  · apply intact.chain.push intact.last outside bare
    intro x y
    simp [Owed, state, eq_comm]
  · rw [List.head?_append, intact.first]
    rfl
  · simp
  · intro x member
    rcases List.mem_append.mp member with inside | here
    · exact intact.live x inside
    · rw [List.mem_singleton.mp here]
      exact intact.parked
  · exact intact.parked
  · intro p x value created
    have facts := intact.created p x value created
    have apart : x ≠ stub_ := intact.proper p x (by rw [created]; rfl)
    exact ⟨by simp [facts.1, apart],facts.2⟩
  · exact intact.proper
  · exact intact.apart
  · exact ⟨rfl,proper⟩
  · have order := intact.order
    rw [content_push_stub]
    simpa [produced, returned, held, state] using order

theorem linkStub_intact (intact : Intact q log nodes) {node prev : Nat}
    (state : q.consumer = .linkStub node prev) (run : q.storeNext prev (some stub_) = some q') :
    Intact { q' with consumer := .reloadNext node } (.moved :: log) nodes := by
  have position := intact.position
  simp only [Positioned, state] at position
  obtain ⟨rfl,proper⟩ := position
  have due : Owed q prev stub_ := .inr ⟨_,state,rfl⟩
  have place := intact.chain.debts prev stub_ due
  have kept : content q'.nodeAt nodes = content q.nodeAt nodes :=
    content_frame fun x _ => storeNext_value run x
  have links := storeNext_nextOf run
  have alive := storeNext_isSome run
  have others : ∀ x, x ≠ prev → q'.nodeAt x = q.nodeAt x := fun x => storeNext_other run
  obtain ⟨n,stored,rfl⟩ := storeNext_eq run
  constructor
  · apply intact.chain.link due links
    intro x y
    constructor
    · rintro (⟨p,busy⟩ | ⟨_,impossible,_⟩)
      · refine ⟨.inl ⟨p,busy⟩,?_⟩
        rintro rfl
        have same := owed_unique intact (.inl ⟨p,busy⟩) due
        exact intact.proper p y (by rw [busy]; rfl) same
      · simp at impossible
    · rintro ⟨⟨p,busy⟩ | ⟨a,linking,_⟩,apart⟩
      · exact .inl ⟨p,busy⟩
      · rw [state] at linking
        obtain ⟨_,rfl⟩ := Consumer.linkStub.inj linking
        exact absurd rfl apart
  · exact intact.first
  · exact intact.last
  · intro x member
    exact (alive x).trans (intact.live x member)
  · exact (alive stub_).trans intact.parked
  · intro p x value created
    have facts := intact.created p x value created
    have apart : x ≠ prev := by
      rintro rfl
      exact facts.1 (adjacent_mem place.1).1
    exact ⟨facts.1,(others x apart).trans facts.2⟩
  · exact intact.proper
  · exact intact.apart
  · exact ⟨rfl,proper⟩
  · have order := intact.order
    rw [kept]
    simpa [produced, returned, held, state] using order

theorem loadNext_nextOf {node : Nat} {next : Option Nat} (run : q.loadNext node = some next) :
    q.nextOf node = next := by
  obtain ⟨n,stored,rfl⟩ := Option.map_eq_some_iff.mp run
  simp [nextOf, stored]

theorem afterNext_intact (intact : Intact q log nodes) {node : Nat} {next : Option Nat}
    (free : ¬ Engaged q.consumer) (own : node = q.consumeEnd_) (proper : node ≠ stub_)
    (run : q.loadNext node = some next) :
    Intact (q.afterNext node (.loadProduceEnd node) next) (.moved :: log) nodes := by
  cases next with
  | none => exact intact_move intact free not_false trivial ⟨own,proper⟩
  | some next =>
    exact intact_move intact free not_false trivial ⟨own,proper,loadNext_nextOf run⟩

theorem last_alone (intact : Intact q log nodes) (same : q.consumeEnd_ = q.produceEnd_) :
    nodes = [q.consumeEnd_] := by
  obtain ⟨tail,eq⟩ := List.head?_eq_some_iff.mp intact.first
  cases tail with
  | nil => exact eq
  | cons b rest =>
    have last := intact.last
    have outside := (List.nodup_cons.mp (eq ▸ intact.chain.nodup)).1
    rw [eq, List.getLast?_cons_cons, ← same] at last
    exact absurd (List.mem_of_getLast? last) outside

inductive Consumed (q : MpscQueue P T) : MpscQueue P T → Event P T → Prop where
  | started (state : q.consumer = .idle) :
      Consumed q { q with consumer := .loadNext q.consumeEnd_ } .moved
  | empty (state : q.consumer = .loadNext stub_) :
      Consumed q { q with consumer := .idle } .returnedNothing
  | atStub {next : Nat} (state : q.consumer = .loadNext stub_)
      (loaded : q.loadNext stub_ = some (some next)) :
      Consumed q { q with consumer := .skipStub next } .moved
  | atNode {node : Nat} {next : Option Nat} (state : q.consumer = .loadNext node)
      (proper : node ≠ stub_) (loaded : q.loadNext node = some next) :
      Consumed q (q.afterNext node (.loadProduceEnd node) next) .moved
  | skipped {next : Nat} (state : q.consumer = .skipStub next) :
      Consumed q { q with consumeEnd_ := next, consumer := .loadNextPastStub next } .moved
  | pastStub {node : Nat} {next : Option Nat} (state : q.consumer = .loadNextPastStub node)
      (loaded : q.loadNext node = some next) :
      Consumed q (q.afterNext node (.loadProduceEnd node) next) .moved
  | advanced {node next : Nat} (state : q.consumer = .advance node next) :
      Consumed q { q with consumeEnd_ := next, consumer := .unpack node } .moved
  | unpacked {node : Nat} {n : Node T} (state : q.consumer = .unpack node)
      (stored : q.nodeAt node = some n) :
      Consumed q { q with nodeAt := Function.update q.nodeAt node none, consumer := .idle }
        (.returned node n.value)
  | overtaken {node : Nat} (state : q.consumer = .loadProduceEnd node) :
      Consumed q { q with consumer := .idle } .returnedNothing
  | alone {node : Nat} (state : q.consumer = .loadProduceEnd node) (same : node = q.produceEnd_) :
      Consumed q { q with consumer := .clearStub node } .moved
  | cleared {node : Nat} {q' : MpscQueue P T} (state : q.consumer = .clearStub node)
      (run : q.storeNext stub_ none = some q') :
      Consumed q { q' with consumer := .exchangeStub node } .moved
  | exchanged {node : Nat} (state : q.consumer = .exchangeStub node) :
      Consumed q { q with produceEnd_ := stub_, consumer := .linkStub node q.produceEnd_ } .moved
  | linked {node prev : Nat} {q' : MpscQueue P T} (state : q.consumer = .linkStub node prev)
      (run : q.storeNext prev (some stub_) = some q') :
      Consumed q { q' with consumer := .reloadNext node } .moved
  | reloaded {node next : Nat} (state : q.consumer = .reloadNext node)
      (loaded : q.loadNext node = some (some next)) :
      Consumed q { q with consumer := .advance node next } .moved
  | blocked {node : Nat} (state : q.consumer = .reloadNext node) :
      Consumed q { q with consumer := .idle } .returnedNothing

theorem consumeStep_consumed {e : Event P T} (run : q.consumeStep = some (q', e)) :
    Consumed q q' e := by
  unfold consumeStep at run
  split at run
  · cases run
    exact .started (by assumption)
  · rename_i node state
    split at run
    · simp at run
    · rename_i next loaded
      split at run
      · rename_i parked
        subst parked
        cases next with
        | none =>
          cases run
          exact .empty state
        | some next =>
          cases run
          exact .atStub state loaded
      · cases run
        exact .atNode state (by assumption) loaded
  · cases run
    exact .skipped (by assumption)
  · obtain ⟨next,loaded,eq⟩ := Option.map_eq_some_iff.mp run
    cases eq
    exact .pastStub (by assumption) loaded
  · cases run
    exact .advanced (by assumption)
  · obtain ⟨n,stored,eq⟩ := Option.map_eq_some_iff.mp run
    cases eq
    exact .unpacked (by assumption) stored
  · rename_i node state
    split at run
    · cases run
      exact .overtaken state
    · rename_i same
      cases run
      exact .alone state (not_not.mp same)
  · obtain ⟨q₁,stored,eq⟩ := Option.map_eq_some_iff.mp run
    cases eq
    exact .cleared (by assumption) stored
  · cases run
    exact .exchanged (by assumption)
  · obtain ⟨q₁,stored,eq⟩ := Option.map_eq_some_iff.mp run
    cases eq
    exact .linked (by assumption) stored
  · rename_i node state
    split at run
    · simp at run
    · cases run
      exact .reloaded state (by assumption)
    · cases run
      exact .blocked state

theorem consumed_intact (intact : Intact q log nodes) {e : Event P T} (taken : Consumed q q' e) :
    ∃ nodes', Intact q' (e :: log) nodes' := by
  have position := intact.position
  cases taken with
  | started state =>
    exact ⟨nodes,intact_move intact (by simp [state, Engaged]) not_false trivial rfl⟩
  | empty state | overtaken state | blocked state =>
    exact ⟨nodes,intact_move intact (by simp [state, Engaged]) not_false trivial trivial⟩
  | atStub state loaded =>
    simp only [Positioned, state] at position
    exact ⟨nodes,intact_move intact (by simp [state, Engaged]) not_false trivial
      ⟨position.symm,loadNext_nextOf loaded⟩⟩
  | atNode state proper loaded =>
    simp only [Positioned, state] at position
    exact ⟨nodes,afterNext_intact intact (by simp [state, Engaged]) position proper loaded⟩
  | skipped state => exact ⟨_,skipStub_intact intact state⟩
  | pastStub state loaded =>
    simp only [Positioned, state] at position
    exact ⟨nodes,afterNext_intact intact (by simp [state, Engaged]) position.1 position.2 loaded⟩
  | advanced state => exact ⟨_,advance_intact intact state⟩
  | unpacked state stored => exact ⟨nodes,unpack_intact intact state stored⟩
  | alone state same =>
    simp only [Positioned, state] at position
    have alone := last_alone intact (position.1.symm.trans same)
    refine ⟨nodes,intact_move intact (by simp [state, Engaged]) not_false trivial
      ⟨position.1,position.2,?_⟩⟩
    rw [alone, List.mem_singleton, ← position.1]
    exact position.2.symm
  | cleared state run => exact ⟨nodes,clearStub_intact intact state run⟩
  | exchanged state => exact ⟨_,exchangeStub_intact intact state⟩
  | linked state run => exact ⟨nodes,linkStub_intact intact state run⟩
  | reloaded state loaded =>
    simp only [Positioned, state] at position
    exact ⟨nodes,intact_move intact (by simp [state, Engaged]) not_false trivial
      ⟨position.1,position.2,loadNext_nextOf loaded⟩⟩

theorem consumed_producers {e : Event P T} (taken : Consumed q q' e) :
    q'.producers = q.producers ∧ produced (e :: log) = produced log := by
  cases taken with
  | atNode state proper loaded =>
    unfold afterNext
    split <;> exact ⟨rfl,rfl⟩
  | pastStub state loaded =>
    unfold afterNext
    split <;> exact ⟨rfl,rfl⟩
  | cleared state run =>
    obtain ⟨n,stored,rfl⟩ := storeNext_eq run
    exact ⟨rfl,rfl⟩
  | linked state run =>
    obtain ⟨n,stored,rfl⟩ := storeNext_eq run
    exact ⟨rfl,rfl⟩
  | _ => exact ⟨rfl,rfl⟩

/-- No step of `consume` follows a pointer to a deleted node. -/
theorem consumeStep_defined (intact : Intact q log nodes) : q.consumeStep.isSome := by
  have position := intact.position
  have first := intact.live _ (consumeEnd_mem intact)
  unfold consumeStep
  cases state : q.consumer with
  | loadNext node =>
    simp only [Positioned, state] at position
    obtain ⟨n,stored⟩ := Option.isSome_iff_exists.mp (position ▸ first)
    simp only [loadNext, stored, Option.map_some]
    split
    · split <;> rfl
    · rfl
  | loadNextPastStub node =>
    simp only [Positioned, state] at position
    simpa [loadNext, position.1] using first
  | unpack node =>
    simp only [Positioned, state] at position
    simpa using position.2.2.1
  | loadProduceEnd node =>
    dsimp only
    split <;> rfl
  | clearStub node => simpa [storeNext] using intact.parked
  | linkStub node prev =>
    have due := intact.chain.debts prev stub_ (.inr ⟨node,state,rfl⟩)
    simpa [storeNext] using intact.live prev (adjacent_mem due.1).1
  | reloadNext node =>
    simp only [Positioned, state] at position
    obtain ⟨n,stored⟩ := Option.isSome_iff_exists.mp (position.1 ▸ first)
    simp only [loadNext, stored, Option.map_some]
    split <;> simp_all
  | _ => rfl

end Consume

end MpscQueue
end Aiopp
