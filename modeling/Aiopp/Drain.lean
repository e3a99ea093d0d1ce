import Aiopp.LateAwait

/-!
How `run` ends. Left to the loop and the kernel, the operations under way are worked off, and
the loop ends when the last registered awaiter has been resumed. A submission that fails is
tried again and costs nothing.
-/
namespace Aiopp
namespace IoQueue
open CompleterMap Transition

def Unasked : Action → Prop
  | .submit => True
  | .submitFails => True
  | .complete .. => True
  | .consume => True
  | _ => False

/-- A continuation of a run in which the clients make no more calls. -/
def LeftAlone (q q' : IoQueue) (more : List Event) : Prop :=
  Run step (fun _ _ a => Unasked a) q q' more

/-- Each operation has to be completed and its completion to be consumed. -/
def due (q : IoQueue) : Nat := 2 * (q.sq.length + q.inflight.length) + q.cq.length

def settled : Event → Nat
  | .completed _ => 1
  | .consumed .. => 1
  | _ => 0

theorem unasked_prompt {a : Action} (unasked : Unasked a) (q : IoQueue) (log : List Event) :
    Prompt q log a := by
  cases a with
  | issue | await => exact absurd unasked not_false
  | _ => trivial

theorem step_due {q q' : IoQueue} {a : Action} {e : Event} (unasked : Unasked a)
    (taken : q.step a = some (q', e)) : settled e + due q' = due q := by
  cases step_taken taken with
  | submitted active =>
    simp only [settled, due, List.length_append, List.length_nil]
    omega
  | submitFailed active => simp [settled, due]
  | completed res flying =>
    obtain ⟨inside,_⟩ := List.getElem?_eq_some_iff.mp flying
    simp only [settled, due, List.length_eraseIdx, if_pos inside, List.length_append,
      List.length_singleton]
    omega
  | consumed active queued run =>
    obtain ⟨_,_,_,rfl,_⟩ := dispatch_frame run
    simp only [settled, due, queued, List.length_cons]
    omega
  | _ => exact absurd unasked not_false

theorem leftAlone_due {q q' : IoQueue} {more : List Event} (rest : LeftAlone q q' more) :
    (more.map settled).sum + due q' = due q := by
  refine Run.accounts due settled ?_ rest
  intro s log a s' e unasked taken
  exact step_due unasked taken

theorem leftAlone_unsilenced {q q' : IoQueue} {more : List Event} (rest : LeftAlone q q' more)
    (id : UInt64) : ∀ e ∈ more, ¬ Silences id e := by
  refine rest.invariant (fun _ more => ∀ e ∈ more, ¬ Silences id e) (by simp) ?_
  intro s log a s' e quiet unasked taken f member
  rcases List.mem_cons.mp member with rfl | earlier
  · cases step_taken taken with
    | submitted | submitFailed | completed | consumed => exact not_false
    | _ => exact absurd unasked not_false
  · exact quiet f earlier

theorem step_submit {q : IoQueue} (active : q.running) : q.step .submit = some
    ({ q with lastSqe_ := none, sq := [], inflight := q.inflight ++ q.sq }, .submitted) := by
  simp only [step, active]
  rfl

theorem step_complete {q : IoQueue} {position : Nat} {sqe : Sqe}
    (flying : q.inflight[position]? = some sqe) (res : Int32) :
    q.step (.complete position res) = some ({ q with
      inflight := q.inflight.eraseIdx position, cq := q.cq ++ [⟨sqe.user_data,res⟩] },
      .completed ⟨sqe.user_data,res⟩) := by
  simp only [step, flying]

section Drain
variable {size : UInt64} {q final : IoQueue} {log more : List Event}

theorem leftAlone_reaches (reached : Reaches Prompt size q log) (rest : LeftAlone q final more) :
    Reaches Prompt size final (more ++ log) := by
  refine rest.invariant (fun q more => Reaches Prompt size q (more ++ log)) reached ?_
  intro s earlier a s' e so_far unasked taken
  exact reaches_next so_far (unasked_prompt unasked s _) taken

/-- While the loop runs, somebody's operation is under way. -/
theorem running_pending (reached : Reaches Prompt size q log) (active : q.running) :
    q.inflight ++ q.sq ≠ [] ∨ q.cq ≠ [] := by
  obtain ⟨id,address,registered⟩ : ∃ id address, registration id log = some address := by
    by_contra nobody
    have stopped := (not_running_iff prompt_vacant reached).mpr fun id =>
      Option.eq_none_iff_forall_ne_some.mpr fun address there => nobody ⟨id,address,there⟩
    simp [active] at stopped
  have member := (List.mem_filter.mp (prompt_outstanding reached registered)).1
  simp only [List.mem_append] at member
  rcases member with (queued | flying) | posted
  · obtain ⟨sqe,inside,_⟩ := List.mem_map.mp queued
    exact .inl (List.ne_nil_of_mem (List.mem_append_right _ inside))
  · obtain ⟨sqe,inside,_⟩ := List.mem_map.mp flying
    exact .inl (List.ne_nil_of_mem (List.mem_append_left _ inside))
  · obtain ⟨cqe,inside,_⟩ := List.mem_map.mp posted
    exact .inr (List.ne_nil_of_mem inside)

theorem running_settles (reached : Reaches Prompt size q log) (active : q.running) :
    ∃ next q', LeftAlone q q' next ∧ next.length ≤ 2 ∧ (next.map settled).sum = 1 := by
  rcases running_pending reached active with flying | posted
  · obtain ⟨first,rest,queue⟩ := List.exists_cons_of_ne_nil flying
    have found : (q.inflight ++ q.sq)[0]? = some first := by rw [queue]; rfl
    have one : LeftAlone q _ _ := Run.next (a := Action.submit) .nil trivial (step_submit active)
    exact ⟨_,_,Run.next (a := Action.complete 0 0) one trivial (step_complete found 0),by simp,rfl⟩
  · obtain ⟨q',e,taken⟩ := consume_defined prompt_vacant reached active posted
    cases step_taken taken with
    | consumed _ _ _ => exact ⟨_,_,Run.next (a := Action.consume) .nil trivial taken,by simp,rfl⟩

theorem stopped_resumed (reached : Reaches Prompt size q log) (rest : LeftAlone q final more)
    (stopped : final.running = false) {id : UInt64} {address : Nat}
    (registered : registration id log = some address) :
    ∃ cqe r, Event.consumed cqe (some r) ∈ more ∧ r.address = address ∧
      resumptions id (more ++ log) = [r] := by
  have whole := leftAlone_reaches reached rest
  have quiet := leftAlone_unsilenced rest id
  have gone := (not_running_iff prompt_vacant whole).mp stopped id
  have consumed : id ∈ consumedIds more := by
    by_contra unconsumed
    have still := registration_persists prompt_vacant more whole registered quiet unconsumed
    simp [gone] at still
  obtain ⟨newer,older,rfl,silent⟩ := registration_split registered
  have loose : Reaches Once size final ((more ++ newer) ++ .awaited id address :: older) := by
    obtain ⟨q₀,made,run⟩ := whole
    rw [List.append_assoc]
    exact ⟨q₀,made,run.relax prompt_once⟩
  have unsilenced : ∀ e ∈ more ++ newer, ¬ Silences id e := by
    intro e member
    rcases List.mem_append.mp member with later | earlier
    · exact quiet e later
    · exact (silent e earlier).1
  have somewhere : id ∈ consumedIds (more ++ newer) := by
    rw [consumedIds, List.flatMap_append]
    exact List.mem_append_left _ consumed
  obtain ⟨cqe,r,member,_,place,_,single⟩ := timely_await_resumed loose unsilenced somewhere
  rw [List.append_assoc] at single
  refine ⟨cqe,r,?_,place,single⟩
  refine (List.mem_append.mp member).resolve_right fun earlier => (silent _ earlier).2 ?_
  have own := mem_resumptions.mp (single ▸ List.mem_singleton_self r)
  exact own.1

theorem stops (reached : Reaches Prompt size q log) :
    ∃ more final, LeftAlone q final more ∧ final.running = false := by
  have nearer : ∀ q log, Reaches Prompt size q log → ¬ q.running = false → ∃ next q',
      LeftAlone q q' next ∧ Reaches Prompt size q' (next ++ log) ∧ due q' < due q := by
    intro q log reached active
    obtain ⟨next,q',rest,_,one⟩ := running_settles reached (by simpa using active)
    have spent := leftAlone_due rest
    exact ⟨next,q',rest,leftAlone_reaches reached rest,by omega⟩
  obtain ⟨more,final,rest,_,stopped⟩ := Run.finishes (Reaches Prompt size) (fun q _ => due q)
    (fun q => q.running = false) nearer reached
  exact ⟨more,final,rest,stopped⟩

/-- Left alone by its clients, `run` settles one of finitely many pending completions after the
other, is never stuck while somebody waits, and has resumed every waiting awaiter exactly once
when it ends. -/
theorem run_drains (reached : Reaches Prompt size q log) :
    (∀ final more, LeftAlone q final more →
      (more.map settled).sum + due final = due q ∧
      (final.running → ∃ next q', LeftAlone final q' next ∧ next.length ≤ 2 ∧
        (next.map settled).sum = 1) ∧
      (final.running = false → ∀ id address, registration id log = some address →
        ∃ cqe r, Event.consumed cqe (some r) ∈ more ∧ r.address = address ∧
          resumptions id (more ++ log) = [r])) ∧
    ∃ more final, LeftAlone q final more ∧ final.running = false := by
  refine ⟨fun final more rest => ⟨leftAlone_due rest,?_,?_⟩,stops reached⟩
  · exact running_settles (leftAlone_reaches reached rest)
  · intro stopped id address registered
    exact stopped_resumed reached rest stopped registered

end Drain
theorem two_reads_drain :
    ∃ q log, Reaches Prompt 0 q log ∧ q.running ∧ due q = 4 ∧ ∃ more final,
      LeftAlone q final more ∧ (more.map settled).sum + due final = 4 ∧
      ∃ r s, resumptions 0 (more ++ log) = [r] ∧ resumptions 1 (more ++ log) = [s] := by
  let actions : List Action := [.issue (.read 3 64 8) blankSqe, .await ⟨true,0⟩ 100 0 16, .submit,
    .issue (.read 4 128 8) blankSqe, .await ⟨true,1⟩ 200 1 32]
  have computed : ((create 0).bind fun q₀ =>
      (replay step Prompt q₀ [] actions).map fun (q, log) =>
        decide (q.running ∧ due q = 4 ∧ registration 0 log = some 100 ∧
          registration 1 log = some 200)) = some true := by decide +kernel
  obtain ⟨q₀,made,rest⟩ := Option.bind_eq_some_iff.mp computed
  obtain ⟨q,log,run,facts⟩ := replay_reaches rest
  obtain ⟨active,amount,first,second⟩ := of_decide_eq_true facts
  have reached : Reaches Prompt 0 q log := ⟨q₀,made,run⟩
  obtain ⟨always,more,final,alone,stopped⟩ := run_drains reached
  obtain ⟨spent,_,resumed⟩ := always final more alone
  obtain ⟨_,r,_,_,one⟩ := resumed stopped 0 100 first
  obtain ⟨_,s,_,_,other⟩ := resumed stopped 1 200 second
  exact ⟨q,log,reached,active,amount,more,final,alone,spent.trans amount,r,s,one,other⟩

end IoQueue
end Aiopp
