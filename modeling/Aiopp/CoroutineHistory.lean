import Aiopp.CoroutineFrames

/-!
How far the evaluation of one coroutine has come, read off its own events alone:
what it has observed, which of its operations is unanswered, and how many steps it
has taken for that. Nothing here depends on the other coroutines or on the heap.
-/
namespace Aiopp
namespace Coroutine
open DirectStyle IoQueue
variable {C V L : Type} [DecidableEq C]

/-- A coroutine takes at most four steps for each observation, and three more;
    `credit` is what it has left of these. -/
structure Seen (p : Program C V L) (log : List (Event C V)) (c : C) (pending : List UInt64)
    (focus : Focus Int32 V L) (ks : List (V → L)) (returned : List V) (credit : Nat) : Prop where
  begun : own c log ≠ []
  asked : operations c log = (deliveries c log).map Cqe.user_data ++ pending
  remaining : Remaining p.code (p.body c) ((deliveries c log).map Cqe.res) (trace c log) focus ks
  outcome : results c log = returned
  spent : (own c log).length + credit ≤ 4 * (trace c log).length + 3

theorem own_mine {c : C} {e : Event C V} (mine : e.concerns c) (log : List (Event C V)) :
    own c (e :: log) = own c log ++ [e] := by
  rw [own_cons, if_pos mine]

theorem own_other {c : C} {e : Event C V} (foreign : e.concerns c = false)
    (log : List (Event C V)) : own c (e :: log) = own c log := by
  rw [own_cons, foreign, if_neg Bool.false_ne_true]

section Seen
variable {p : Program C V L} {log : List (Event C V)} {c : C} {e : Event C V}
  {pending : List UInt64} {focus : Focus Int32 V L} {ks : List (V → L)} {returned : List V}
  {credit : Nat}

theorem seen_other (seen : Seen p log c pending focus ks returned credit)
    (foreign : e.concerns c = false) : Seen p (e :: log) c pending focus ks returned credit := by
  have same := own_other foreign log
  constructor
  · rw [same]
    exact seen.begun
  · rw [operations, deliveries, same]
    exact seen.asked
  · rw [deliveries, trace, same]
    exact seen.remaining
  · rw [results, same]
    exact seen.outcome
  · rw [trace, same]
    exact seen.spent

theorem seen_started (fresh : own c log = []) (note : e.note = some (.started c)) :
    Seen p (e :: log) c [] (.point (p.body c)) [] [] 2 := by
  have mine : e.concerns c := by simp [Event.concerns, note, Note.owner]
  have single : own c (e :: log) = [e] := by rw [own_mine mine, fresh, List.nil_append]
  constructor
  · simp [single]
  · simp [operations, deliveries, single, Event.operation, Event.delivery, note]
  · simp only [deliveries, trace, single, List.flatMap_cons, Event.delivery, Event.observed, note]
    exact remaining_start
  · simp [results, single, Event.result, note]
  · simp [single]

theorem seen_next {pending' : List UInt64} {focus' : Focus Int32 V L} {ks' : List (V → L)}
    {returned' : List V} {credit' : Nat} (seen : Seen p log c pending focus ks returned credit)
    (mine : e.concerns c) (asked : pending ++ e.operation = e.delivery.map Cqe.user_data ++ pending')
    (remaining : Remaining p.code (p.body c)
      ((deliveries c log).map Cqe.res ++ e.delivery.map Cqe.res) (trace c log ++ e.observed)
      focus' ks')
    (outcome : returned ++ e.result = returned')
    (spent : credit' + 1 ≤ credit + 4 * e.observed.length) :
    Seen p (e :: log) c pending' focus' ks' returned' credit' := by
  have next := own_mine mine log
  have delivered : deliveries c (e :: log) = deliveries c log ++ e.delivery := by
    simp [deliveries, next]
  have observed : trace c (e :: log) = trace c log ++ e.observed := by simp [trace, next]
  constructor
  · simp [next]
  · have issued : operations c (e :: log) = operations c log ++ e.operation := by
      simp [operations, next]
    rw [issued, seen.asked, delivered, List.map_append, List.append_assoc, asked,
      List.append_assoc]
  · rw [delivered, observed, List.map_append]
    exact remaining
  · have more : results c (e :: log) = results c log ++ e.result := by simp [results, next]
    rw [more, seen.outcome, outcome]
  · have bound := seen.spent
    rw [next, observed, List.length_append, List.length_append, List.length_singleton]
    omega

section Notes
variable {l : L}

theorem seen_asked {req : Request} {k : Int32 → L} {op : OperationHandle} (id : UInt64)
    (seen : Seen p log c [] (.point l) ks [] 2) (here : p.code l = .ask req k) (valid : op.valid) :
    Seen p (⟨some (.asked c req),some (.issued id op)⟩ :: log) c [id] (.asked k) ks [] 5 := by
  refine seen_next seen (by simp [Event.concerns, Note.owner]) ?_ ?_ rfl (by simp [Event.observed])
  · simp [Event.operation, Event.delivery, issuedBy, valid]
  · have next := remaining_ask here seen.remaining
    simpa [Event.delivery, Event.observed] using next

theorem seen_awaited {k : Int32 → L} {id : UInt64} {queue : Option IoQueue.Event}
    (seen : Seen p log c [id] (.asked k) ks [] 5) :
    Seen p (⟨some (.awaited c),queue⟩ :: log) c [id] (.asked k) ks [] 4 := by
  refine seen_next seen (by simp [Event.concerns, Note.owner]) ?_ ?_ rfl (by simp [Event.observed])
  · simp [Event.operation, Event.delivery]
  · simpa [Event.delivery, Event.observed] using seen.remaining

theorem seen_resumed {k : Int32 → L} {cqe : Cqe} {r : Resumption}
    (seen : Seen p log c [cqe.user_data] (.asked k) ks [] 4) :
    Seen p (⟨some (.resumed c),some (.consumed cqe (some r))⟩ :: log) c [] (.point (k cqe.res))
      ks [] 3 := by
  refine seen_next seen (by simp [Event.concerns, Note.owner]) ?_ ?_ rfl (by simp [Event.observed])
  · simp [Event.operation, Event.delivery]
  · have next := remaining_answer cqe.res seen.remaining
    simpa [Event.delivery, Event.observed] using next

theorem seen_released {queue : Option IoQueue.Event} (seen : Seen p log c [] (.point l) ks [] 3) :
    Seen p (⟨some (.released c),queue⟩ :: log) c [] (.point l) ks [] 2 := by
  refine seen_next seen (by simp [Event.concerns, Note.owner]) ?_ ?_ rfl (by simp [Event.observed])
  · simp [Event.operation, Event.delivery]
  · simpa [Event.delivery, Event.observed] using seen.remaining

theorem seen_called {task : L} {k : V → L} (seen : Seen p log c [] (.point l) ks [] 2)
    (here : p.code l = .call task k) :
    Seen p (⟨some (.called c),none⟩ :: log) c [] (.point task) (k :: ks) [] 2 := by
  refine seen_next seen (by simp [Event.concerns, Note.owner]) ?_ ?_ rfl (by simp [Event.observed])
  · simp [Event.operation, Event.delivery]
  · have next := remaining_call here seen.remaining
    simpa [Event.delivery, Event.observed] using next

theorem seen_ended {v : V} (seen : Seen p log c [] (.point l) ks [] 2) (here : p.code l = .ret v) :
    Seen p (⟨some (.ended c),none⟩ :: log) c [] (.returning v) ks [] 1 := by
  refine seen_next seen (by simp [Event.concerns, Note.owner]) ?_ ?_ rfl (by simp [Event.observed])
  · simp [Event.operation, Event.delivery]
  · have next := remaining_ret here seen.remaining
    simpa [Event.delivery, Event.observed] using next

theorem seen_handed {v : V} {k : V → L} (seen : Seen p log c [] (.returning v) (k :: ks) [] 1) :
    Seen p (⟨some (.handed c v),none⟩ :: log) c [] (.point (k v)) ks [] 2 := by
  refine seen_next seen (by simp [Event.concerns, Note.owner]) ?_ ?_ rfl (by simp [Event.observed])
  · simp [Event.operation, Event.delivery]
  · have next := remaining_hand seen.remaining
    simpa [Event.delivery, Event.observed] using next

theorem seen_returned {v : V} (seen : Seen p log c [] (.point l) [] [] 2)
    (here : p.code l = .ret v) :
    Seen p (⟨some (.returned c v),none⟩ :: log) c [] (.returning v) [] [v] 1 := by
  refine seen_next seen (by simp [Event.concerns, Note.owner]) ?_ ?_ rfl (by simp [Event.observed])
  · simp [Event.operation, Event.delivery]
  · have next := remaining_ret here seen.remaining
    simpa [Event.delivery, Event.observed] using next

end Notes
end Seen

section Answers
variable {log : List (Event C V)} {c : C}

theorem answer_consumed {queue : List IoQueue.Event} {cqe : Cqe} {resumed : Option Resumption}
    (once : (consumedIds queue).Nodup) (ordinary : cqe.user_data ≠ OpIdIgnore)
    (member : IoQueue.Event.consumed cqe resumed ∈ queue) :
    answer cqe.user_data queue = some cqe.res := by
  induction queue with
  | nil => simp at member
  | cons e older ih =>
    simp only [consumedIds, List.flatMap_cons] at once
    have tail : (consumedIds older).Nodup := (List.nodup_append.mp once).2.1
    rcases List.mem_cons.mp member with rfl | earlier
    · simp [answer]
    · have there : cqe.user_data ∈ consumedIds older :=
        List.mem_flatMap.mpr ⟨_,earlier,by simp [consumedBy, ordinary]⟩
      cases e with
      | consumed first r =>
        have apart : first.user_data ≠ cqe.user_data := by
          intro same
          rw [consumedBy, if_neg (same ▸ ordinary), same] at once
          exact (List.nodup_cons.mp once).1 there
        rw [answer, if_neg apart]
        exact ih tail earlier
      | _ => exact ih tail earlier

theorem answer_unconsumed {queue : List IoQueue.Event} {id : UInt64} (ordinary : id ≠ OpIdIgnore)
    (unconsumed : id ∉ consumedIds queue) : answer id queue = none := by
  induction queue with
  | nil => rfl
  | cons e older ih =>
    simp only [consumedIds, List.flatMap_cons, List.mem_append, not_or] at unconsumed
    have tail := ih unconsumed.2
    cases e with
    | consumed first r =>
      have apart : first.user_data ≠ id := by
        intro same
        have here := unconsumed.1
        simp [consumedBy, same, ordinary] at here
      rw [answer, if_neg apart]
      exact tail
    | _ => exact tail

theorem delivered_consumed {cqe : Cqe} (delivered : cqe ∈ deliveries c log) :
    ∃ r, IoQueue.Event.consumed cqe (some r) ∈ queueLog log := by
  obtain ⟨e,member,delivers⟩ := List.mem_flatMap.mp delivered
  have logged : e ∈ log := (List.mem_filter.mp (List.mem_reverse.mp member)).1
  unfold Event.delivery at delivers
  split at delivers
  · rename_i cqe' r note queue
    obtain rfl := List.mem_singleton.mp delivers
    exact ⟨r,List.mem_filterMap.mpr ⟨e,logged,queue⟩⟩
  · simp at delivers

theorem answers_delivered {pending : List UInt64} (once : (consumedIds (queueLog log)).Nodup)
    (ordinary : ∀ cqe r, IoQueue.Event.consumed cqe (some r) ∈ queueLog log →
      cqe.user_data ≠ OpIdIgnore)
    (asked : operations c log = (deliveries c log).map Cqe.user_data ++ pending)
    (unanswered : ∀ id ∈ pending, answer id (queueLog log) = none) :
    answers c log = (deliveries c log).map Cqe.res := by
  have none_pending : pending.filterMap (fun id => answer id (queueLog log)) = [] := by
    simpa using unanswered
  rw [answers, asked, List.filterMap_append, none_pending, List.append_nil, List.filterMap_map,
    ← List.filterMap_eq_map]
  apply List.filterMap_congr
  intro cqe delivered
  obtain ⟨r,member⟩ := delivered_consumed delivered
  exact answer_consumed once (ordinary cqe r member) member

end Answers
end Coroutine
end Aiopp
