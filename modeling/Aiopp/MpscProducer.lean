import Aiopp.MpscChain

/-!
The producers' side: creating a node, exchanging the end and writing the link, with
any number of producers between the two last steps.
-/
namespace Aiopp
namespace MpscQueue
open PartialChain Transition
variable {P T : Type}

section Produce
variable {q q' : MpscQueue P T} {log : List (Event P T)} {nodes nodes' : List Nat}

theorem positioned_frame (intact : Intact q log nodes) (consumer : q'.consumer = q.consumer)
    (consumeEnd : q'.consumeEnd_ = q.consumeEnd_) (stub : stub_ ∉ nodes → stub_ ∉ nodes')
    (kept : ∀ x y, q.nextOf x = some y → q'.nextOf x = some y)
    (bare : stub_ ∉ nodes → q.nextOf stub_ = none → q'.nextOf stub_ = none)
    (spare : ∀ node, node ∉ nodes → (q.nodeAt node).isSome →
      (∀ p, (q.producers p).node ≠ some node) →
      node ∉ nodes' ∧ (q'.nodeAt node).isSome ∧ ∀ p, (q'.producers p).node ≠ some node) :
    Positioned q' nodes' := by
  have position := intact.position
  unfold Positioned at position ⊢
  rw [consumer, consumeEnd]
  cases state : q.consumer with
  | idle => trivial
  | skipStub next =>
    rw [state] at position
    exact ⟨position.1,kept _ _ position.2⟩
  | advance node next =>
    rw [state] at position
    exact ⟨position.1,position.2.1,kept _ _ position.2.2⟩
  | unpack node =>
    rw [state] at position
    obtain ⟨outside,proper,alive,unowned⟩ := position
    have facts := spare node outside alive unowned
    exact ⟨facts.1,proper,facts.2⟩
  | clearStub node =>
    rw [state] at position
    exact ⟨position.1,position.2.1,stub position.2.2⟩
  | exchangeStub node =>
    rw [state] at position
    obtain ⟨own,proper,outside,empty⟩ := position
    exact ⟨own,proper,stub outside,bare outside empty⟩
  | _ =>
    rw [state] at position
    exact position

theorem held_frame (intact : Intact q log nodes) {nodeAt : Nat → Option (Node T)}
    (values : ∀ node, (q.nodeAt node).isSome →
      (nodeAt node).map Node.value = (q.nodeAt node).map Node.value) :
    held nodeAt q.consumer = held q.nodeAt q.consumer := by
  have position := intact.position
  cases state : q.consumer with
  | unpack node =>
    simp only [Positioned, state] at position
    simp only [held, values node position.2.2.1]
  | _ => rfl

variable [DecidableEq P]

theorem owed_moved {p : P} {next : Producer T} (silent : ∀ x y, q.producers p ≠ .exchanged x y)
    (x y : Nat) : Owed { q with producers := Function.update q.producers p next } x y ↔
      Owed q x y ∨ next = .exchanged x y := by
  unfold Owed
  constructor
  · rintro (⟨p',busy⟩ | linking)
    · by_cases same : p' = p
      · subst same
        exact .inr (by simpa using busy)
      · exact .inl (.inl ⟨p',by simpa [same] using busy⟩)
    · exact .inl (.inr linking)
  · rintro ((⟨p',busy⟩ | linking) | exchanged)
    · have apart : p' ≠ p := by
        rintro rfl
        exact silent x y busy
      exact .inl ⟨p',by simpa [apart] using busy⟩
    · exact .inr linking
    · exact .inl ⟨p,by simpa using exchanged⟩

theorem owner_created {p p' : P} {value : T} {node x : Nat}
    (owns : (Function.update q.producers p (.created node value) p').node = some x) :
    p' = p ∧ x = node ∨ (q.producers p').node = some x := by
  by_cases same : p' = p
  · subst same
    exact .inl ⟨rfl,by simpa [Producer.node] using owns.symm⟩
  · exact .inr (by simpa [same] using owns)

theorem create_intact (intact : Intact q log nodes) {p : P} {value : T} {node : Nat}
    (idle : q.producers p = .idle) (unused : q.nodeAt node = none) :
    Intact { q with
      nodeAt := Function.update q.nodeAt node (some ⟨value,none⟩)
      producers := Function.update q.producers p (.created node value) }
      (.called p value :: log) nodes := by
  have other : ∀ x, (q.nodeAt x).isSome → x ≠ node := by
    rintro x alive rfl
    simp [unused] at alive
  have unowned : ∀ p', (q.producers p').node ≠ some node := by
    intro p' owns
    exact other node (owned_live intact owns) rfl
  constructor
  · apply intact.chain.frame
    · intro x member
      simp [nextOf, other x (intact.live x member)]
    · intro x y
      refine (owed_moved (by simp [idle]) x y).trans ?_
      simp
  · exact intact.first
  · exact intact.last
  · intro x member
    have alive := intact.live x member
    simpa [other x alive] using alive
  · simpa [other stub_ intact.parked] using intact.parked
  · intro p' x v created
    by_cases same : p' = p
    · subst same
      obtain ⟨rfl,rfl⟩ : node = x ∧ value = v := by simpa using created
      refine ⟨fun member => other node (intact.live node member) rfl,by simp⟩
    · have facts := intact.created p' x v (by simpa [same] using created)
      have apart := other x (by simp [facts.2])
      exact ⟨facts.1,by simpa [apart] using facts.2⟩
  · intro p' x owns
    rcases owner_created owns with ⟨_,rfl⟩ | old
    · exact (other stub_ intact.parked).symm
    · exact intact.proper p' x old
  · intro p₁ p₂ x first second
    rcases owner_created first with ⟨rfl,rfl⟩ | old₁
    · rcases owner_created second with ⟨rfl,_⟩ | old₂
      · rfl
      · exact absurd old₂ (unowned p₂)
    · rcases owner_created second with ⟨rfl,rfl⟩ | old₂
      · exact absurd old₁ (unowned p₁)
      · exact intact.apart p₁ p₂ x old₁ old₂
  · apply positioned_frame intact
    · rfl
    · rfl
    · exact id
    · intro x y written
      have alive : (q.nodeAt x).isSome := by
        unfold nextOf at written
        cases stored : q.nodeAt x with
        | none => simp [stored] at written
        | some n => rfl
      simpa [nextOf, other x alive] using written
    · intro _ empty
      simpa [nextOf, other stub_ intact.parked] using empty
    · intro x outside alive spare
      refine ⟨outside,by simpa [other x alive] using alive,?_⟩
      intro p' owns
      rcases owner_created owns with ⟨_,rfl⟩ | old
      · exact other x alive rfl
      · exact spare p' old
  · have same_held : held (Function.update q.nodeAt node (some ⟨value,none⟩)) q.consumer =
        held q.nodeAt q.consumer := by
      apply held_frame intact
      intro x alive
      simp [other x alive]
    have kept : content (Function.update q.nodeAt node (some ⟨value,none⟩)) nodes =
        content q.nodeAt nodes := by
      apply content_frame
      intro x member
      simp [other x (intact.live x member)]
    rw [same_held, kept]
    exact intact.order

theorem exchange_intact (intact : Intact q log nodes) {p : P} {value : T} {node : Nat}
    (created : q.producers p = .created node value) :
    Intact { q with
      produceEnd_ := node
      producers := Function.update q.producers p (.exchanged q.produceEnd_ node) }
      (.exchanged p value :: log) (nodes ++ [node]) := by
  obtain ⟨outside,stored⟩ := intact.created p node value created
  have owns : (q.producers p).node = some node := by rw [created]; rfl
  have proper := intact.proper p node owns
  have owners : ∀ p', (Function.update q.producers p (.exchanged q.produceEnd_ node) p').node =
      (q.producers p').node := by
    intro p'
    by_cases same : p' = p
    · subst same
      rw [Function.update_self, owns]
      rfl
    · simp [same]
  constructor
  · apply intact.chain.push intact.last outside
    · simp [nextOf, stored]
    · intro x y
      refine (owed_moved (by simp [created]) x y).trans ?_
      simp [eq_comm]
  · rw [List.head?_append, intact.first]
    rfl
  · simp
  · intro x member
    rcases List.mem_append.mp member with inside | here
    · exact intact.live x inside
    · rw [List.mem_singleton.mp here]
      simp [stored]
  · exact intact.parked
  · intro p' x v other
    have apart : p' ≠ p := by
      rintro rfl
      simp at other
    replace other : q.producers p' = .created x v := by simpa [apart] using other
    have facts := intact.created p' x v other
    refine ⟨?_,facts.2⟩
    intro member
    rcases List.mem_append.mp member with inside | here
    · exact facts.1 inside
    · rw [List.mem_singleton.mp here] at other
      exact apart (intact.apart p' p node (by rw [other]; rfl) owns)
  · intro p' x owned
    exact intact.proper p' x ((owners p').symm.trans owned)
  · intro p₁ p₂ x first second
    exact intact.apart p₁ p₂ x ((owners p₁).symm.trans first) ((owners p₂).symm.trans second)
  · apply positioned_frame intact
    · rfl
    · rfl
    · intro absent
      simp [absent, proper.symm]
    · intro x y written
      exact written
    · intro _ empty
      exact empty
    · intro x absent alive spare
      refine ⟨?_,alive,fun p' owned => spare p' ((owners p').symm.trans owned)⟩
      intro member
      rcases List.mem_append.mp member with inside | here
      · exact absent inside
      · rw [List.mem_singleton.mp here] at spare
        exact spare p owns
  · have order := intact.order
    rw [content_push nodes stored proper]
    simp [produced, returned, order]

/-- Two producers never owe the link behind the same node, nor one together with the
   consumer. -/
theorem owed_linked (intact : Intact q log nodes) {p : P} {prev node : Nat}
    (busy : q.producers p = .exchanged prev node) (x y : Nat) :
    Owed { q with producers := Function.update q.producers p .idle } x y ↔
      Owed q x y ∧ x ≠ prev := by
  have due : Owed q prev node := .inl ⟨p,busy⟩
  have owns : (q.producers p).node = some node := by rw [busy]; rfl
  constructor
  · rintro (⟨p',other⟩ | linking)
    · have apart : p' ≠ p := by
        rintro rfl
        simp at other
      replace other : q.producers p' = .exchanged x y := by simpa [apart] using other
      refine ⟨.inl ⟨p',other⟩,?_⟩
      rintro rfl
      have same := owed_unique intact (.inl ⟨p',other⟩) due
      exact apart (intact.apart p' p node (by rw [other, same]; rfl) owns)
    · refine ⟨.inr linking,?_⟩
      rintro rfl
      have same := owed_unique intact (.inr linking) due
      obtain ⟨_,_,parked⟩ := linking
      exact intact.proper p node owns (same.symm.trans parked)
  · rintro ⟨⟨p',other⟩ | linking,apart⟩
    · have other_producer : p' ≠ p := by
        rintro rfl
        rw [busy] at other
        exact apart (Producer.exchanged.inj other).1.symm
      exact .inl ⟨p',by simpa [other_producer] using other⟩
    · exact .inr linking

theorem link_intact (intact : Intact q log nodes) {p : P} {prev node : Nat}
    (busy : q.producers p = .exchanged prev node)
    (run : q.storeNext prev (some node) = some q') :
    Intact { q' with producers := Function.update q'.producers p .idle } (.linked p :: log)
      nodes := by
  have due : Owed q prev node := .inl ⟨p,busy⟩
  have place := intact.chain.debts prev node due
  have owners : ∀ p' x, (Function.update q.producers p .idle p').node = some x →
      (q.producers p').node = some x := by
    intro p' x owned
    by_cases same : p' = p
    · subst same
      simp [Producer.node] at owned
    · simpa [same] using owned
  have kept : content q'.nodeAt nodes = content q.nodeAt nodes :=
    content_frame fun x _ => storeNext_value run x
  have same_held : held q'.nodeAt q.consumer = held q.nodeAt q.consumer :=
    held_frame intact fun x _ => storeNext_value run x
  have links := storeNext_nextOf run
  have alive := storeNext_isSome run
  have others : ∀ x, x ≠ prev → q'.nodeAt x = q.nodeAt x := fun x => storeNext_other run
  obtain ⟨n,stored,rfl⟩ := storeNext_eq run
  constructor
  · apply intact.chain.link due links
    exact owed_linked intact busy
  · exact intact.first
  · exact intact.last
  · intro x member
    exact (alive x).trans (intact.live x member)
  · exact (alive stub_).trans intact.parked
  · intro p' x v created
    have apart : p' ≠ p := by
      rintro rfl
      simp at created
    have facts := intact.created p' x v (by simpa [apart] using created)
    have elsewhere : x ≠ prev := by
      rintro rfl
      exact facts.1 (adjacent_mem place.1).1
    exact ⟨facts.1,(others x elsewhere).trans facts.2⟩
  · intro p' x owned
    exact intact.proper p' x (owners p' x owned)
  · intro p₁ p₂ x first second
    exact intact.apart p₁ p₂ x (owners p₁ x first) (owners p₂ x second)
  · apply positioned_frame intact
    · rfl
    · rfl
    · exact id
    · intro x y written
      have apart : x ≠ prev := by
        rintro rfl
        simp [place.2] at written
      exact (links x).trans ((Function.update_of_ne apart _ _).trans written)
    · intro absent empty
      have apart : stub_ ≠ prev := by
        rintro rfl
        exact absent (adjacent_mem place.1).1
      exact (links stub_).trans ((Function.update_of_ne apart _ _).trans empty)
    · intro x absent lives spare
      exact ⟨absent,(alive x).trans lives,fun p' owned => spare p' (owners p' x owned)⟩
  · have order := intact.order
    rw [kept, same_held]
    exact order

end Produce
end MpscQueue
end Aiopp
