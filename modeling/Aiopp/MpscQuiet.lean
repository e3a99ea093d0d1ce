import Aiopp.MpscOrder

/-!
Calls of `consume` while every producer is outside the window between its exchange and
its link. All links are written then, so none of the bail-outs is taken for a producer
that is not there, wherever earlier calls have left the stub.
-/
namespace Aiopp
namespace MpscQueue
open PartialChain Transition
variable {P T : Type}

def Event.answer : Event P T → Option T
  | .returned _ value => some value
  | _ => none

def finish : Nat → MpscQueue P T → Option (MpscQueue P T × Event P T)
  | 0, _ => none
  | fuel + 1, q =>
    match q.consumeStep with
    | none => none
    | some (q', .moved) => finish fuel q'
    | some (q', e) => some (q', e)

/-- A whole call of `consume` with no step of a producer in between. -/
def consume (q : MpscQueue P T) : Option (MpscQueue P T × Option T) :=
  (finish 11 q).map fun (q', e) => (q', e.answer)

def consumeAll : Nat → MpscQueue P T → Option (MpscQueue P T × List (Option T))
  | 0, q => some (q, [])
  | n + 1, q =>
    q.consume.bind fun (q', answer) =>
      (consumeAll n q').map fun (q'', answers) => (q'', answer :: answers)

/-- No producer stands between its exchange and its link store. -/
def AllLinked (q : MpscQueue P T) : Prop := ∀ p prev node, q.producers p ≠ .exchanged prev node

/-- What a call knows on its way when no producer has moved since it began. -/
def Undisturbed (q : MpscQueue P T) : Prop :=
  match q.consumer with
  | .loadProduceEnd node | .clearStub node | .exchangeStub node => node = q.produceEnd_
  | .linkStub node prev => prev = node
  | .reloadNext node => q.nextOf node = some stub_
  | _ => True

def Consumer.rank : Consumer → Nat
  | .idle => 11
  | .loadNext _ => 10
  | .skipStub _ => 9
  | .loadNextPastStub _ => 8
  | .loadProduceEnd _ => 7
  | .clearStub _ => 6
  | .exchangeStub _ => 5
  | .linkStub _ _ => 4
  | .reloadNext _ => 3
  | .advance _ _ => 2
  | .unpack _ => 1

section Call
variable {q q' : MpscQueue P T} {log : List (Event P T)} {nodes : List Nat} {e : Event P T}

theorem moved_rank (taken : Consumed q q' .moved) : q'.consumer.rank < q.consumer.rank := by
  cases taken with
  | started state | atStub state | skipped state | advanced state | alone state | exchanged state
  | reloaded state => simp [state, Consumer.rank]
  | cleared state run | linked state run => simp [state, Consumer.rank]
  | @atNode node next state | @pastStub node next state =>
    cases next <;> simp [state, afterNext, Consumer.rank]

theorem consumed_event (taken : Consumed q q' e) : e = .moved ∨
    q'.consumer = .idle ∧ (e = .returnedNothing ∨ ∃ node value, e = .returned node value) := by
  cases taken with
  | empty state | overtaken state | blocked state => exact .inr ⟨rfl,.inl rfl⟩
  | unpacked state stored => exact .inr ⟨rfl,.inr ⟨_,_,rfl⟩⟩
  | _ => exact .inl rfl

/-- With every link written, a node without successor is the only one. -/
theorem linked_alone (intact : Intact q log nodes) (linked : AllLinked q)
    (free : ∀ node prev, q.consumer ≠ .linkStub node prev) (bare : q.nextOf q.consumeEnd_ = none) :
    nodes = [q.consumeEnd_] ∧ q.consumeEnd_ = q.produceEnd_ := by
  obtain ⟨tail,eq⟩ := List.head?_eq_some_iff.mp intact.first
  cases tail with
  | nil =>
    have last := intact.last
    rw [eq] at last
    exact ⟨eq,by simpa using last⟩
  | cons b rest =>
    have adjacent : Adjacent nodes q.consumeEnd_ b := by
      rw [eq]
      exact .inl ⟨rfl,rfl⟩
    rcases intact.chain.links _ b adjacent with written | ⟨_,⟨p,busy⟩ | ⟨node,linking,_⟩⟩
    · simp [bare] at written
    · exact absurd busy (linked p _ _)
    · exact absurd linking (free node _)

theorem afterNext_undisturbed (intact : Intact q log nodes) (linked : AllLinked q)
    (free : ∀ node prev, q.consumer ≠ .linkStub node prev) {next : Option Nat}
    (loaded : q.loadNext q.consumeEnd_ = some next) :
    Undisturbed (q.afterNext q.consumeEnd_ (.loadProduceEnd q.consumeEnd_) next) := by
  cases next with
  | none => exact (linked_alone intact linked free (loadNext_nextOf loaded)).2
  | some next => trivial

theorem drained_at_stub (intact : Intact q log nodes) (linked : AllLinked q)
    (state : q.consumer = .loadNext stub_) (bare : q.nextOf stub_ = none) :
    (produced log).map Prod.snd = returned log := by
  have position := intact.position
  simp only [Positioned, state] at position
  have alone := (linked_alone intact linked (by simp [state]) (position ▸ bare)).1
  have order := intact.order
  rw [alone, ← position] at order
  simpa [held, state, content] using order

theorem quiet_step (intact : Intact q log nodes) (linked : AllLinked q)
    (undisturbed : Undisturbed q) (taken : q.consumeStep = some (q', e)) :
    Undisturbed q' ∧ (e = .returnedNothing → (produced log).map Prod.snd = returned log) := by
  have position := intact.position
  unfold consumeStep at taken
  cases state : q.consumer with
  | idle | skipStub next | advance node next =>
    simp only [state] at taken
    cases taken
    exact ⟨trivial,by simp⟩
  | loadNext node =>
    simp only [Positioned, state] at position
    simp only [state] at taken
    split at taken
    · simp at taken
    · rename_i next loaded
      split at taken
      · rename_i parked
        subst parked
        cases next with
        | none =>
          cases taken
          exact ⟨trivial,fun _ => drained_at_stub intact linked state (loadNext_nextOf loaded)⟩
        | some next =>
          cases taken
          exact ⟨trivial,by simp⟩
      · cases taken
        subst position
        exact ⟨afterNext_undisturbed intact linked (by simp [state]) loaded,by simp⟩
  | loadNextPastStub node =>
    simp only [Positioned, state] at position
    simp only [state] at taken
    obtain ⟨next,loaded,eq⟩ := Option.map_eq_some_iff.mp taken
    cases eq
    obtain ⟨rfl,_⟩ := position
    exact ⟨afterNext_undisturbed intact linked (by simp [state]) loaded,by simp⟩
  | unpack node =>
    simp only [state] at taken
    obtain ⟨n,stored,eq⟩ := Option.map_eq_some_iff.mp taken
    cases eq
    exact ⟨trivial,by simp⟩
  | loadProduceEnd node =>
    simp only [Undisturbed, state] at undisturbed
    simp only [state] at taken
    rw [if_neg (not_not.mpr undisturbed)] at taken
    cases taken
    exact ⟨undisturbed,by simp⟩
  | clearStub node =>
    simp only [Undisturbed, state] at undisturbed
    simp only [state] at taken
    obtain ⟨q₁,stored,eq⟩ := Option.map_eq_some_iff.mp taken
    obtain ⟨n,_,rfl⟩ := storeNext_eq stored
    cases eq
    exact ⟨undisturbed,by simp⟩
  | exchangeStub node =>
    simp only [Undisturbed, state] at undisturbed
    simp only [state] at taken
    cases taken
    exact ⟨undisturbed.symm,by simp⟩
  | linkStub node prev =>
    simp only [Undisturbed, state] at undisturbed
    simp only [state] at taken
    obtain ⟨q₁,stored,eq⟩ := Option.map_eq_some_iff.mp taken
    have written := storeNext_nextOf stored prev
    cases eq
    subst undisturbed
    rw [Function.update_self] at written
    exact ⟨written,by simp⟩
  | reloadNext node =>
    simp only [Undisturbed, state] at undisturbed
    simp only [state] at taken
    split at taken
    · simp at taken
    · cases taken
      exact ⟨trivial,by simp⟩
    · rename_i loaded
      have bare := loadNext_nextOf loaded
      simp [undisturbed] at bare

variable [DecidableEq P] [Inhabited T]

/-- The call returns after at most `rank` operations; what it has not returned is not there. -/
theorem finish_quiet {fuel : Nat} (run : Run step AnyOrder create q log) (linked : AllLinked q)
    (undisturbed : Undisturbed q) (enough : q.consumer.rank ≤ fuel) :
    ∃ q' e later, finish fuel q = some (q', e) ∧ Run step AnyOrder create q' (e :: later ++ log) ∧
      q'.producers = q.producers ∧ q'.consumer = .idle ∧
      produced (e :: later ++ log) = produced log ∧
      returned (e :: later ++ log) = returned log ++ e.answer.toList ∧
      (e.answer = none → (produced log).map Prod.snd = returned log) := by
  induction fuel generalizing q log with
  | zero => cases state : q.consumer <;> simp [state, Consumer.rank] at enough
  | succ fuel ih =>
    obtain ⟨nodes,intact⟩ := run_intact run
    obtain ⟨⟨q₁,e⟩,taken⟩ := Option.isSome_iff_exists.mp (consumeStep_defined intact)
    have consumed := consumeStep_consumed taken
    have stepped : q.step .consume = some (q₁, e) := taken
    have next : Run step AnyOrder create q₁ (e :: log) := .next run trivial stepped
    obtain ⟨kept,drained⟩ := quiet_step intact linked undisturbed taken
    have quiet : q₁.producers = q.producers ∧ produced (e :: log) = produced log :=
      consumed_producers consumed
    have producers := quiet.1
    rcases consumed_event consumed with rfl | ⟨idle,rfl | ⟨node,value,rfl⟩⟩
    · -- the call goes on
      have less := moved_rank consumed
      have linked₁ : AllLinked q₁ := by
        unfold AllLinked
        rw [producers]
        exact linked
      obtain ⟨q',e,later,finished,run',same,idle,made,taken_out,empty⟩ :=
        ih next linked₁ kept (by omega)
      refine ⟨q',e,later ++ [.moved],?_,?_,same.trans producers,idle,?_,?_,empty⟩
      · simpa only [finish, taken] using finished
      · simpa using run'
      · simpa [produced] using made
      · simpa [returned] using taken_out
    · refine ⟨q₁,.returnedNothing,[],?_,next,producers,idle,rfl,?_,fun _ => drained rfl⟩
      · simp only [finish, taken]
      · simp [returned, Event.answer]
    · refine ⟨q₁,.returned node value,[],?_,next,producers,idle,rfl,rfl,?_⟩
      · simp only [finish, taken]
      · simp [Event.answer]

theorem consume_quiet {rest : List T} (run : Run step AnyOrder create q log)
    (linked : AllLinked q) (idle : q.consumer = .idle)
    (left : (produced log).map Prod.snd = returned log ++ rest) :
    ∃ q' later, q.consume = some (q', rest.head?) ∧
      Run step AnyOrder create q' (later ++ log) ∧ AllLinked q' ∧ q'.consumer = .idle ∧
      (produced (later ++ log)).map Prod.snd = returned (later ++ log) ++ rest.tail := by
  have enough : q.consumer.rank ≤ 11 := by simp [idle, Consumer.rank]
  obtain ⟨q',e,later,finished,run',same,idle',made,taken_out,empty⟩ :=
    finish_quiet run linked (by simp [Undisturbed, idle]) enough
  have ordered := run_ordered run'
  rw [made, taken_out, left] at ordered
  have answer : e.answer = rest.head? ∧ rest = e.answer.toList ++ rest.tail := by
    cases answered : e.answer with
    | none =>
      have nothing := empty answered
      rw [left] at nothing
      have drained : rest = [] := by simpa using nothing
      simp [drained]
    | some value =>
      rw [answered, List.prefix_append_right_inj] at ordered
      obtain ⟨more,rfl⟩ := ordered
      simp
  refine ⟨q',e :: later,?_,run',?_,idle',?_⟩
  · simp [consume, finished, answer.1]
  · unfold AllLinked
    rw [same]
    exact linked
  · rw [made, taken_out, left, List.append_assoc, ← answer.2]

theorem consumeAll_quiet {rest : List T} (n : Nat) (run : Run step AnyOrder create q log)
    (linked : AllLinked q) (idle : q.consumer = .idle)
    (left : (produced log).map Prod.snd = returned log ++ rest) :
    ∃ q', consumeAll n q = some (q',
      (rest.take n).map some ++ List.replicate (n - rest.length) none) := by
  induction n generalizing q log rest with
  | zero => exact ⟨q,by simp [consumeAll]⟩
  | succ n ih =>
    obtain ⟨q₁,later,answered,run₁,linked₁,idle₁,left₁⟩ := consume_quiet run linked idle left
    obtain ⟨q',answers⟩ := ih run₁ linked₁ idle₁ left₁
    refine ⟨q',?_⟩
    simp only [consumeAll, answered, Option.bind_some, answers, Option.map_some]
    cases rest with
    | nil => simp [List.replicate_succ]
    | cons value rest => simp

/-- Once the producers are quiet, a call returns the oldest value that is left and answers
nothing exactly when none is left; one call after another drains the queue in order. -/
theorem quiet_consume_complete (run : Run step AnyOrder (create : MpscQueue P T) q log)
    (linked : AllLinked q) (idle : q.consumer = .idle) :
    ∃ rest, (produced log).map Prod.snd = returned log ++ rest ∧
      (∃ q', q.consume = some (q', rest.head?)) ∧
      (rest.head? = none ↔ (produced log).map Prod.snd = returned log) ∧
      ∀ n, ∃ q', consumeAll n q = some (q',
        (rest.take n).map some ++ List.replicate (n - rest.length) none) := by
  obtain ⟨rest,left⟩ := run_ordered run
  refine ⟨rest,left.symm,?_,?_,fun n => consumeAll_quiet n run linked idle left.symm⟩
  · obtain ⟨q',_,answered,_⟩ := consume_quiet run linked idle left.symm
    exact ⟨q',answered⟩
  · rw [← left]
    simp

end Call

theorem stub_between_values_drained :
    ∃ (q : MpscQueue Bool Nat) (log : List (Event Bool Nat)), Run step AnyOrder create q log ∧
      Event.returnedNothing ∈ log ∧ produced log = [(true,5),(false,7),(true,9)] ∧
      returned log = [] ∧ ∃ rest, (produced log).map Prod.snd = returned log ++ rest ∧
        ∃ q', consumeAll 4 q = some (q', (rest.take 4).map some ++
          List.replicate (4 - rest.length) none) := by
  let actions : List (Action Bool Nat) := [.create true 5 1, .create false 7 2, .exchange true,
    .link true, .consume, .consume, .consume, .consume, .consume, .consume, .exchange false,
    .consume, .consume, .consume, .create true 9 3, .exchange true, .link true, .link false]
  have computed : (replay step AnyOrder (create : MpscQueue Bool Nat) [] actions).map
      (fun (q, log) => decide (Event.returnedNothing ∈ log ∧
        produced log = [(true,5),(false,7),(true,9)] ∧ returned log = [] ∧
        q.producers true = .idle ∧ q.producers false = .idle ∧ q.consumer = .idle)) =
      some true := by
    decide +kernel
  obtain ⟨q,log,run,facts⟩ := replay_reaches computed
  obtain ⟨bailed,values,none_yet,first,second,idle⟩ := of_decide_eq_true facts
  have linked : AllLinked q := by
    intro p prev node
    cases p with
    | false => simp [second]
    | true => simp [first]
  obtain ⟨rest,left,_,_,drained⟩ := quiet_consume_complete run linked idle
  exact ⟨q,log,run,bailed,values,none_yet,rest,left,drained 4⟩

end MpscQueue
end Aiopp
