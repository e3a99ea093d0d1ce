import Aiopp.CoroutineRuns

/-!
Coroutine execution and direct-style evaluation agree. Whatever the interleaving, a
coroutine that is not executing has done exactly what the direct evaluation of its
body does on the results of its own operations; while it executes, it has done a part
of that, it is never stuck, and the number of its steps is bounded by what it observes.
-/
namespace Aiopp
namespace Coroutine
open DirectStyle IoQueue Transition
variable {C V L : Type}

def Executing (m : Machine C V L) (c : C) : Prop :=
  ∃ f continuation point, m.control = some f ∧ m.frameAt f = some ⟨c,continuation,point⟩

/-- The allocators give fresh addresses, the ring has room, and the completer map takes
    the operation that the frame in control is about to await. -/
structure Granted (m : Machine C V L) (address : Nat) (completer : UInt64) (child : Nat) : Prop where
  frame : m.frameAt child = none
  awaiter : m.io.awaiterAt address = none
  unused : m.io.completerAt completer = none
  nonempty : completer ≠ CompleterMap.Empty
  unmarked : completer ≠ CompleterMap.Tombstone
  room : m.io.sq.length < m.io.sqEntries
  inserts : ∀ f c continuation op k, m.control = some f →
    m.frameAt f = some ⟨c,continuation,.issued op k⟩ →
    (m.io.completers_.insert op.id completer).isSome

section Room
variable {q : IoQueue}

theorem issue_valid (req : Request) (slot : Sqe) (room : q.sq.length < q.sqEntries) :
    (q.issue req slot).1.valid := by
  have ordinary := (getNextOpId_ordinary q).1
  simp [IoQueue.issue, getSqe, room, finalizeSqe, OperationHandle.valid, ordinary]

theorem await_defined {op : OperationHandle} {address caller : Nat} {completer : UInt64}
    (valid : op.valid) (awaiter : q.awaiterAt address = none) (unused : q.completerAt completer = none)
    (nonempty : completer ≠ CompleterMap.Empty) (unmarked : completer ≠ CompleterMap.Tombstone)
    (inserts : (q.completers_.insert op.id completer).isSome) :
    (q.step (.await op address caller completer)).isSome := by
  simp [IoQueue.step, awaiter, unused, nonempty, unmarked, await, valid, setCompleter, inserts]

theorem destroy_cleared {address : Nat} {awaiter : OperationAwaiter} (slot : Sqe)
    (lives : q.awaiterAt address = some awaiter) (cleared : awaiter.operation = {}) :
    (q.step (.destroy address slot)).isSome := by
  have invalid : OperationHandle.valid {} = false := rfl
  simp [IoQueue.step, destroy, lives, cleared, invalid]

end Room

variable [DecidableEq C]

def Returned (o : Outcome Int32 V) (returned : List V) : Prop :=
  (o = .waiting ∧ returned = []) ∨ ∃ v, o = .done v [] ∧ returned = [v]

section Sound
variable {p : Program C V L} {size : UInt64} {m : Machine C V L} {log : List (Event C V)}
  {who : Option C} {c : C}

theorem sound_executing (sound : Sound p size m log (some c)) : Executing m c := by
  obtain ⟨f,continuation,point,control,busy⟩ := sound.active
  exact ⟨f,continuation,point,control,busy_stored busy⟩

theorem sound_proceeds (sound : Sound p size m log who) {f : Nat} (control : m.control = some f)
    (slot : Sqe) {address child : Nat} {completer : UInt64}
    (granted : Granted m address completer child) :
    (step p m (.proceed slot address completer child)).isSome := by
  have active := sound.active
  cases who with
  | none =>
    have idle : m.control = none := active
    simp [idle] at control
  | some c =>
    obtain ⟨g,continuation,point,there,busy⟩ := active
    obtain rfl := Option.some.inj (there.symm.trans control)
    have stored := busy_stored busy
    simp only [step, proceed, control, stored, Option.bind_eq_bind, Option.bind_some]
    cases busy with
    | @running _ l _ _ stack seen =>
      cases here : p.code l with
      | ret v => simp [here]
      | ask req k => simp [here, issue, issue_valid req slot granted.room]
      | call task k => simp [here, call, granted.frame]
    | @holding _ id k _ _ stack seen issued unawaited unconsumed =>
      have ordinary := (issued_ordinary (reaches_conserved prompt_bounded sound.queue) issued).1
      have valid : OperationHandle.valid ⟨true,id⟩ := by simp [OperationHandle.valid, ordinary]
      simp [suspend, await_defined valid granted.awaiter granted.unused granted.nonempty
        granted.unmarked (granted.inserts g c _ _ _ control stored)]
    | woken stack lives cleared seen =>
      obtain ⟨pair,taken⟩ := Option.isSome_iff_exists.mp (destroy_cleared slot lives cleared)
      simp [release, lives, taken]
    | returning stack waiting seen => simp [hand, stack.stored]

theorem sound_seen (sound : Sound p size m log who) (begun : own c log ≠ []) :
    ∃ pending focus ks returned credit, Seen p log c pending focus ks returned credit ∧
      1 ≤ credit ∧ ∀ id ∈ pending, id ∈ issuedIds (queueLog log) ∧ id ∉ consumedIds (queueLog log) := by
  by_cases executes : who = some c
  · subst executes
    obtain ⟨f,continuation,point,_,busy⟩ := sound.active
    cases busy with
    | running stack seen => exact ⟨_,_,_,_,_,seen,by omega,by simp⟩
    | holding stack seen issued unawaited unconsumed =>
      exact ⟨_,_,_,_,_,seen,by omega,by simpa using ⟨issued,unconsumed⟩⟩
    | woken stack lives cleared seen => exact ⟨_,_,_,_,_,seen,by omega,by simp⟩
    | returning stack waiting seen => exact ⟨_,_,_,_,_,seen,by omega,by simp⟩
  · cases sound.idle c executes with
    | unborn fresh => exact absurd fresh begun
    | resting resting =>
      obtain ⟨_,_,_,_,_,_,seen,awaiting⟩ := resting
      have conserved := reaches_conserved prompt_bounded sound.queue
      have under_way := prompt_outstanding sound.queue awaiting.registered
      have unconsumed := outstanding_unconsumed conserved under_way
      have issued := conserved.perm.mem_iff.mpr (List.mem_append_left _ under_way)
      exact ⟨_,_,_,_,_,seen,by omega,by simpa using ⟨issued,unconsumed⟩⟩
    | finished seen => exact ⟨_,_,_,_,_,seen,by omega,by simp⟩

theorem sound_answers (sound : Sound p size m log who) (begun : own c log ≠ []) :
    answers c log = (deliveries c log).map Cqe.res := by
  obtain ⟨pending,_,_,_,_,seen,_,unanswered⟩ := sound_seen sound begun
  have conserved := reaches_conserved prompt_bounded sound.queue
  refine answers_delivered (consumed_nodup conserved) ?_ seen.asked ?_
  · intro cqe r member
    exact (resumed_own_id prompt_vacant sound.queue cqe r member).1
  · intro id member
    obtain ⟨issued,unconsumed⟩ := unanswered id member
    exact answer_unconsumed (issued_ordinary conserved issued).2 unconsumed

theorem sound_part (sound : Sound p size m log who) {more : List Int32}
    {tr : List (Obs Request V)} {o : Outcome Int32 V}
    (direct : Direct p.code (p.body c) (answers c log ++ more) tr o) :
    trace c log <+: tr ∧ (own c log).length ≤ 4 * tr.length + 2 := by
  by_cases begun : own c log = []
  · simp [trace, begun]
  · obtain ⟨_,_,_,_,credit,seen,some_left,_⟩ := sound_seen sound begun
    rw [sound_answers sound begun] at direct
    have part := remaining_extends seen.remaining direct
    have spent := seen.spent
    have shorter := part.length_le
    exact ⟨part,by omega⟩

/-- Not executing, a coroutine that has begun is suspended or has returned. -/
theorem sound_rests (sound : Sound p size m log who) (rests : ¬ Executing m c)
    (begun : own c log ≠ []) :
    (∃ id address, Resting p m log c id address) ∨
      ∃ v, Seen p log c [] (.returning v) [] [v] 1 := by
  have elsewhere : who ≠ some c := by
    rintro rfl
    exact rests (sound_executing sound)
  cases sound.idle c elsewhere with
  | unborn fresh => exact absurd fresh begun
  | resting resting => exact .inl ⟨_,_,resting⟩
  | finished seen => exact .inr ⟨_,seen⟩

theorem sound_exact (sound : Sound p size m log who) (rests : ¬ Executing m c)
    (begun : own c log ≠ []) :
    ∃ o, Returned o (results c log) ∧ ∀ tr o',
      Direct p.code (p.body c) (answers c log) tr o' ↔ tr = trace c log ∧ o' = o := by
  rw [sound_answers sound begun]
  rcases sound_rests sound rests begun with ⟨id,address,resting⟩ | ⟨v,seen⟩
  · obtain ⟨_,_,_,_,_,_,seen,_⟩ := resting
    exact ⟨.waiting,.inl ⟨rfl,seen.outcome⟩,fun tr o' => remaining_suspended seen.remaining⟩
  · exact ⟨.done v [],.inr ⟨v,rfl,seen.outcome⟩,fun tr o' => remaining_done seen.remaining⟩

theorem sound_returned (sound : Sound p size m log who) {v : V} (returned : v ∈ results c log) :
    Direct p.code (p.body c) (answers c log) (trace c log) (.done v []) := by
  have begun : own c log ≠ [] := by
    intro fresh
    simp [results, fresh] at returned
  have elsewhere : who ≠ some c := by
    rintro rfl
    obtain ⟨_,_,_,_,busy⟩ := sound.active
    cases busy with
    | running _ seen => simp [seen.outcome] at returned
    | holding _ seen => simp [seen.outcome] at returned
    | woken _ _ _ seen => simp [seen.outcome] at returned
    | returning _ _ seen => simp [seen.outcome] at returned
  cases sound.idle c elsewhere with
  | unborn fresh => exact absurd fresh begun
  | resting resting =>
    obtain ⟨_,_,_,_,_,_,seen,_⟩ := resting
    simp [seen.outcome] at returned
  | finished seen =>
    obtain rfl : v = _ := by simpa [seen.outcome] using returned
    rw [sound_answers sound begun]
    exact (remaining_done seen.remaining).mpr ⟨rfl,rfl⟩

theorem returned_unique {o : Outcome Int32 V} {returned returned' : List V}
    (first : Returned o returned) (second : Returned o returned') : returned = returned' := by
  rcases first with ⟨rfl,unreturned⟩ | ⟨v,rfl,result⟩
  · rcases second with ⟨_,unreturned'⟩ | ⟨_,impossible,_⟩
    · rw [unreturned, unreturned']
    · simp at impossible
  · rcases second with ⟨impossible,_⟩ | ⟨w,same,result'⟩
    · simp at impossible
    · obtain ⟨rfl,_⟩ := Outcome.done.inj same
      rw [result, result']

theorem sound_waits (sound : Sound p size m log who) (rests : ¬ Executing m c)
    (begun : own c log ≠ []) (unreturned : results c log = []) :
    m.io.running ∧ ∃ id ∈ operations c log, id ∈ outstanding m.io := by
  rcases sound_rests sound rests begun with ⟨id,address,resting⟩ | ⟨v,seen⟩
  · obtain ⟨_,_,_,_,_,_,seen,awaiting⟩ := resting
    constructor
    · by_contra stopped
      have silent := (not_running_iff prompt_vacant sound.queue).mp (by simpa using stopped) id
      simp [awaiting.registered] at silent
    · exact ⟨id,by simp [seen.asked],prompt_outstanding sound.queue awaiting.registered⟩
  · simp [seen.outcome] at unreturned

end Sound

/-- In every run, whatever the interleaving, a coroutine executes its body in direct style
    on the results of its own operations. Two runs that give it the same results agree on it. -/
theorem runs_in_direct_style {p : Program C V L} {size : UInt64} {q : IoQueue}
    {m : Machine C V L} {log : List (Event C V)} (made : create size = some q)
    (run : Run (step p) Fresh { io := q } m log) (bound : drawn (queueLog log) < 2 ^ 64 - 2)
    (c : C) :
    (¬ Executing m c → own c log ≠ [] → ∃ o, Returned o (results c log) ∧ ∀ tr o',
      Direct p.code (p.body c) (answers c log) tr o' ↔ tr = trace c log ∧ o' = o) ∧
    (∀ v ∈ results c log,
      Direct p.code (p.body c) (answers c log) (trace c log) (.done v [])) ∧
    (∀ more tr o, Direct p.code (p.body c) (answers c log ++ more) tr o →
      trace c log <+: tr ∧ (own c log).length ≤ 4 * tr.length + 2) ∧
    (∀ f, m.control = some f → ∀ slot address completer child,
      Granted m address completer child →
      (step p m (.proceed slot address completer child)).isSome) ∧
    (¬ Executing m c → own c log ≠ [] → results c log = [] →
      m.io.running ∧ ∃ id ∈ operations c log, id ∈ outstanding m.io) ∧
    (∀ (p' : Program C V L) size' q' m' log', p'.code = p.code → p'.body c = p.body c →
      create size' = some q' → Run (step p') Fresh { io := q' } m' log' →
      drawn (queueLog log') < 2 ^ 64 - 2 → ¬ Executing m c → ¬ Executing m' c →
      own c log ≠ [] → own c log' ≠ [] → answers c log' = answers c log →
      trace c log' = trace c log ∧ results c log' = results c log) := by
  obtain ⟨who,sound⟩ := run_sound made run bound
  refine ⟨sound_exact sound,fun v => sound_returned sound,fun more tr o => sound_part sound,
    fun f control slot address completer child => sound_proceeds sound control slot,
    sound_waits sound,?_⟩
  intro p' size' q' m' log' code body made' run' bound' rests rests' begun begun' same
  obtain ⟨who',sound'⟩ := run_sound made' run' bound'
  obtain ⟨o,returned,direct⟩ := sound_exact sound rests begun
  obtain ⟨o',returned',direct'⟩ := sound_exact sound' rests' begun'
  have here := (direct (trace c log) o).mpr ⟨rfl,rfl⟩
  rw [← code, ← body, ← same, direct'] at here
  obtain ⟨traces,rfl⟩ := here
  exact ⟨traces.symm,returned_unique returned' returned⟩

/-- Reads a number in a nested task and hands it to a task that never suspends, next to a
   coroutine that reads and sends. -/
def relay : Program Bool Int32 (Nat × Int32) where
  code
    | (0, _) => .call (10, 0) fun v => (1, v)
    | (1, v) => .call (12, v) fun w => (2, w)
    | (10, _) => .ask (.read 3 64 8) fun res => (11, res)
    | (12, v) => .ret (v + 1)
    | (20, _) => .ask (.read 4 128 8) fun res => (21, res)
    | (21, v) => .ask (.send 4 128 8) fun res => (22, v + res)
    | (_, v) => .ret v
  body c := if c then (0, 0) else (20, 0)

theorem relay_in_direct_style :
    ∃ q m log, create 0 = some q ∧ Run (step relay) Fresh { io := q } m log ∧
      results true log = [6] ∧
      Direct relay.code (relay.body true) [5]
        [.called, .asked (.read 3 64 8), .handed 5, .called, .handed 6] (.done 6 []) ∧
      Direct relay.code (relay.body false) [7, 2] [.asked (.read 4 128 8), .asked (.send 4 128 8)]
        (.done 9 []) := by
  let next : Action Bool := .proceed blankSqe 0 0 0
  let actions : List (Action Bool) := [.start true 1, .proceed blankSqe 0 0 2, next,
    .proceed blankSqe 100 16 0, .start false 3, next, .proceed blankSqe 200 32 0, .submit,
    .complete 1 7, .consume, next, next, .proceed blankSqe 300 48 0, .complete 0 5, .consume,
    next, next, next, .proceed blankSqe 0 0 2, next, next, next, .submit, .complete 0 2, .consume,
    next, next]
  have computed : ((create 0).bind fun q =>
      (replay (step relay) Fresh { io := q } [] actions).map fun (_, log) =>
        decide (drawn (queueLog log) < 2 ^ 64 - 2 ∧ results true log = [6] ∧
          results false log = [9] ∧ answers true log = [5] ∧ answers false log = [7, 2] ∧
          trace true log = [.called, .asked (.read 3 64 8), .handed 5, .called, .handed 6] ∧
          trace false log = [.asked (.read 4 128 8), .asked (.send 4 128 8)])) =
      some true := by decide +kernel
  obtain ⟨q,made,rest⟩ := Option.bind_eq_some_iff.mp computed
  obtain ⟨m,log,run,facts⟩ := replay_reaches rest
  obtain ⟨bound,six,nine,own_answers,other_answers,own_trace,other_trace⟩ := of_decide_eq_true facts
  have first := (runs_in_direct_style made run bound true).2.1 6 (by simp [six])
  have second := (runs_in_direct_style made run bound false).2.1 9 (by simp [nine])
  rw [own_answers, own_trace] at first
  rw [other_answers, other_trace] at second
  exact ⟨q,m,log,made,run,six,first,second⟩

end Coroutine
end Aiopp
