import Aiopp.CoroutineStanding

/-!
Runs of coroutines on a queue. In every reachable state at most one coroutine is
executing, and every registered awaiter belongs to one of the others.
-/
namespace Aiopp
namespace Coroutine
open DirectStyle IoQueue Transition
variable {C V L : Type} [DecidableEq C]

/-- Each coroutine is started at most once. -/
def Fresh (_ : Machine C V L) (log : List (Event C V)) : Action C → Prop
  | .start c _ => own c log = []
  | _ => True

instance [DecidableEq V] (m : Machine C V L) (log : List (Event C V)) :
    (a : Action C) → Decidable (Fresh m log a)
  | .start _ _ => inferInstanceAs (Decidable (_ = _))
  | .proceed .. | .submit | .submitFails | .complete .. | .consume => .isTrue trivial

def Active (p : Program C V L) (m : Machine C V L) (log : List (Event C V)) : Option C → Prop
  | none => m.control = none
  | some c => ∃ f continuation point, m.control = some f ∧ Busy p m log c f continuation point

structure Sound (p : Program C V L) (size : UInt64) (m : Machine C V L) (log : List (Event C V))
    (who : Option C) : Prop where
  queue : Reaches Prompt size m.io (queueLog log)
  active : Active p m log who
  idle : ∀ c, who ≠ some c → Idle p m log c
  registered : ∀ id address, registration id (queueLog log) = some address →
    ∃ c, who ≠ some c ∧ Resting p m log c id address

section Steps
variable {p : Program C V L} {size : UInt64} {m m' : Machine C V L} {log : List (Event C V)}
  {c : C} {who who' : Option C} {e : Event C V}

theorem sound_inactive (sound : Sound p size m log who) (idle : m.control = none) : who = none := by
  cases who with
  | none => rfl
  | some c =>
    obtain ⟨f,_,_,control,_⟩ := sound.active
    simp [idle] at control

theorem sound_active {f : Nat} {continuation : Option Nat} {point : Point V L}
    (sound : Sound p size m log who) (control : m.control = some f)
    (stored : m.frameAt f = some ⟨c,continuation,point⟩) :
    who = some c ∧ Busy p m log c f continuation point := by
  have active := sound.active
  cases who with
  | none =>
    have idle : m.control = none := active
    simp [idle] at control
  | some c' =>
    obtain ⟨g,continuation',point',there,busy⟩ := active
    obtain rfl := Option.some.inj (there.symm.trans control)
    obtain ⟨rfl,rfl,rfl⟩ := Frame.mk.inj (Option.some.inj ((busy_stored busy).symm.trans stored))
    exact ⟨rfl,busy⟩

/-- A step in which one coroutine takes part: the others keep waiting where they are. -/
theorem sound_moves (sound : Sound p size m log who) (elsewhere : ∀ c', c' ≠ c → who ≠ some c')
    (queue : Reaches Prompt size m'.io (queueLog (e :: log)))
    (foreign : ∀ c', c' ≠ c → e.concerns c' = false)
    (keeps : ∀ c', c' ≠ c → Keeps c' m.frameAt m'.frameAt)
    (awaits : ∀ c', c' ≠ c → ∀ id address top, Resting p m log c' id address →
      Awaiting m.io (queueLog log) id address top →
      Awaiting m'.io (queueLog (e :: log)) id address top)
    (active : Active p m' (e :: log) who')
    (mine : who' = some c ∨ who' = none ∧ Idle p m' (e :: log) c)
    (added : ∀ id address, registration id (queueLog (e :: log)) = some address →
      (∃ c', c' ≠ c ∧ Resting p m log c' id address) ∨
        who' = none ∧ Resting p m' (e :: log) c id address) :
    Sound p size m' (e :: log) who' := by
  have still : ∀ c', c' ≠ c → who' ≠ some c' := by
    intro c' other same
    rcases mine with here | ⟨gone,_⟩
    · exact other (Option.some.inj (same.symm.trans here))
    · simp [gone] at same
  refine ⟨queue,active,fun c' away => ?_,fun id address registered => ?_⟩
  · by_cases same : c' = c
    · subst same
      exact (mine.resolve_left away).2
    · exact idle_kept (sound.idle c' (elsewhere c' same)) (foreign c' same) (keeps c' same)
        (awaits c' same)
  · rcases added id address registered with ⟨c',other,resting⟩ | ⟨gone,resting⟩
    · exact ⟨c',still c' other,resting_kept resting (foreign c' other) (keeps c' other)
        fun top => awaits c' other id address top resting⟩
    · exact ⟨c,by simp [gone],resting⟩

theorem sound_others (sound : Sound p size m log (some c)) {id : UInt64} {address : Nat}
    (registered : registration id (queueLog log) = some address) :
    ∃ c', c' ≠ c ∧ Resting p m log c' id address := by
  obtain ⟨c',away,resting⟩ := sound.registered id address registered
  exact ⟨c',fun same => away (congrArg some same.symm),resting⟩

theorem sound_inner {note : Note C V} (sound : Sound p size m log (some c)) (owner : note.owner = c)
    (same : m'.io = m.io) (keeps : ∀ c', c' ≠ c → Keeps c' m.frameAt m'.frameAt)
    (active : Active p m' (⟨some note,none⟩ :: log) who')
    (mine : who' = some c ∨ who' = none ∧ Idle p m' (⟨some note,none⟩ :: log) c) :
    Sound p size m' (⟨some note,none⟩ :: log) who' := by
  have quiet : queueLog (⟨some note,none⟩ :: log) = queueLog log := rfl
  refine sound_moves sound ?_ (by rw [same, quiet]; exact sound.queue) ?_ keeps ?_ active mine ?_
  · intro c' other eq
    exact other (Option.some.inj eq).symm
  · intro c' other
    simp [Event.concerns, owner, other.symm]
  · intro c' other id address top resting awaiting
    rw [same, quiet]
    exact awaiting
  · intro id address registered
    exact .inl (sound_others sound registered)

theorem sound_queued {a : IoQueue.Action} {note : Note C V} {qe : IoQueue.Event}
    (sound : Sound p size m log (some c)) (owner : note.owner = c)
    (allowed : Prompt m.io (queueLog log) a) (taken : m.io.step a = some (m'.io, qe))
    (quiet : ∀ id, ¬ Silences id qe ∧ ¬ Resumes id qe)
    (keeps : ∀ c', c' ≠ c → Keeps c' m.frameAt m'.frameAt)
    (active : Active p m' (⟨some note,some qe⟩ :: log) who')
    (mine : who' = some c ∨ who' = none ∧ Idle p m' (⟨some note,some qe⟩ :: log) c)
    (added : ∀ id address, qe = .awaited id address →
      who' = none ∧ Resting p m' (⟨some note,some qe⟩ :: log) c id address) :
    Sound p size m' (⟨some note,some qe⟩ :: log) who' := by
  have grown : queueLog (⟨some note,some qe⟩ :: log) = qe :: queueLog log := rfl
  refine sound_moves sound ?_ ?_ ?_ keeps ?_ active mine ?_
  · intro c' other eq
    exact other (Option.some.inj eq).symm
  · exact reaches_next sound.queue allowed taken
  · intro c' other
    simp [Event.concerns, owner, other.symm]
  · intro c' other id address top resting awaiting
    exact awaiting_kept sound.queue allowed (step_taken taken) awaiting (quiet id).1 (quiet id).2
  · intro id address registered
    rw [grown] at registered
    rcases registration_cons id qe (queueLog log) with ⟨place,rfl,here⟩ | ⟨_,gone⟩ | ⟨_,_,_,same⟩
    · obtain rfl := Option.some.inj (here.symm.trans registered)
      exact .inr (added id place rfl)
    · simp [gone] at registered
    · exact .inl (sound_others sound (same.symm.trans registered))

section Acting
variable {f : Nat} {continuation : Option Nat} {l : L}

theorem ended_sound {caller : Nat} {v : V} (sound : Sound p size m log (some c))
    (busy : Busy p m log c f (some caller) (.running l)) (here : p.code l = .ret v) :
    Sound p size { m.put f ⟨c,some caller,.final v⟩ with control := some caller }
      (⟨some (.ended c),none⟩ :: log) (some c) := by
  have stored := busy_stored busy
  cases busy with
  | running stack seen =>
    have ended := seen_ended seen here
    have moved := stack_put stack (.final v)
    obtain ⟨continuation,k,ks,rfl,waiting⟩ := stack_caller moved
    exact sound_inner sound rfl rfl (keeps_update (owner_of_stored stored) _)
      ⟨caller,continuation,_,rfl,.returning moved waiting ended⟩ (.inl rfl)

theorem returned_sound {v : V} (sound : Sound p size m log (some c))
    (busy : Busy p m log c f none (.running l)) (here : p.code l = .ret v) :
    Sound p size { m with frameAt := Function.update m.frameAt f none, control := none }
      (⟨some (.returned c v),none⟩ :: log) none := by
  have stored := busy_stored busy
  cases busy with
  | running stack seen =>
    cases stack.linked with
    | root =>
      exact sound_inner sound rfl rfl (keeps_update (owner_of_stored stored) _) rfl
        (.inr ⟨rfl,.finished (seen_returned seen here)⟩)

theorem called_sound {child : Nat} {task : L} {k : V → L} (sound : Sound p size m log (some c))
    (busy : Busy p m log c f continuation (.running l)) (here : p.code l = .call task k)
    (free : m.frameAt child = none) :
    Sound p size { (m.put child ⟨c,some f,.running task⟩).put f ⟨c,continuation,.awaiting child k⟩
      with control := some child } (⟨some (.called c),none⟩ :: log) (some c) := by
  have stored := busy_stored busy
  cases busy with
  | running stack seen =>
    exact sound_inner sound rfl rfl
      (keeps_update_two (by simp [free]) (owner_of_stored stored) _ _)
      ⟨child,some f,_,rfl,.running (stack_call stack free) (seen_called seen here)⟩ (.inl rfl)

theorem handed_sound {task : Nat} {k : V → L} {v : V} {c' : C} {continuation' : Option Nat}
    (sound : Sound p size m log (some c)) (control : m.control = some f)
    (busy : Busy p m log c f continuation (.awaiting task k))
    (done : m.frameAt task = some ⟨c',continuation',.final v⟩) :
    Sound p size ({ m with frameAt := Function.update m.frameAt task none }.put f
      ⟨c,continuation,.running (k v)⟩) (⟨some (.handed c v),none⟩ :: log) (some c) := by
  cases busy with
  | returning stack waiting seen =>
    obtain ⟨_,_,same⟩ := Frame.mk.inj (Option.some.inj (done.symm.trans stack.stored))
    obtain rfl := Point.final.inj same
    obtain ⟨ids,moved⟩ := stack_hand stack waiting (.running (k v))
    exact sound_inner sound rfl rfl
      (keeps_update_two (owner_of_stored stack.stored) (owner_of_stored waiting) _ _)
      ⟨f,continuation,_,control,.running moved (seen_handed seen)⟩ (.inl rfl)

theorem asked_sound {req : Request} {k : Int32 → L} {slot : Sqe}
    (sound : Sound p size m log (some c)) (control : m.control = some f)
    (busy : Busy p m log c f continuation (.running l)) (here : p.code l = .ask req k)
    (valid : (m.io.issue req slot).1.valid) (bound : drawn (queueLog log) + 1 < 2 ^ 64 - 2) :
    Sound p size { m.put f ⟨c,continuation,.issued (m.io.issue req slot).1 k⟩ with
        io := (m.io.issue req slot).2 }
      (⟨some (.asked c req),some (.issued m.io.getNextOpId.1 (m.io.issue req slot).1)⟩ :: log)
      (some c) := by
  have stored := busy_stored busy
  cases busy with
  | running stack seen =>
    have asked := seen_asked m.io.getNextOpId.1 seen here valid
    obtain ⟨handle,issued,unawaited,unconsumed⟩ := issue_awaitable sound.queue valid _ rfl
    have allowed : Prompt m.io (queueLog log) (.issue req slot) := bound
    refine sound_queued sound rfl allowed (step_issue m.io req slot)
      (fun id => ⟨not_false,not_false⟩) (keeps_update (owner_of_stored stored) _)
      ⟨f,continuation,.issued (m.io.issue req slot).1 k,control,?_⟩ (.inl rfl) (by simp)
    rw [handle] at asked issued unawaited unconsumed ⊢
    exact .holding (stack_put stack _) asked issued unawaited unconsumed

theorem awaited_sound {op : OperationHandle} {k : Int32 → L} {address : Nat} {completer : UInt64}
    {io : IoQueue} {qe : IoQueue.Event} (sound : Sound p size m log (some c))
    (busy : Busy p m log c f continuation (.issued op k))
    (taken : m.io.step (.await op address f completer) = some (io, qe)) :
    Sound p size { m.put f ⟨c,continuation,.suspended address k⟩ with io := io, control := none }
      (⟨some (.awaited c),some qe⟩ :: log) none := by
  have stored := busy_stored busy
  cases busy with
  | @holding _ id _ _ _ stack seen issued unawaited unconsumed =>
    cases step_taken taken with
    | awaited vacant unused nonempty unmarked run =>
      have awaiting : Awaiting io (.awaited id address :: queueLog log) id address f := by
        refine ⟨by simp [registration],⟨⟨true,id⟩,f,-2147483648⟩,?_,rfl,rfl⟩
        rw [await_awaiterAt run, Function.update_self]
      have resting : Resting p
          { m.put f ⟨c,continuation,.suspended address k⟩ with io := io, control := none }
          (⟨some (.awaited c),some (.awaited id address)⟩ :: log) c id address :=
        ⟨f,continuation,k,_,_,stack_put stack _,seen_awaited seen,awaiting⟩
      have allowed : Prompt m.io (queueLog log) (.await ⟨true,id⟩ address f completer) :=
        ⟨issued,unawaited,unconsumed⟩
      refine sound_queued sound rfl allowed taken
        (fun id => ⟨not_false,not_false⟩) (keeps_update (owner_of_stored stored) _) rfl
        (.inr ⟨rfl,.resting resting⟩) ?_
      intro i place same
      obtain ⟨rfl,rfl⟩ := IoQueue.Event.awaited.inj same
      exact ⟨rfl,resting⟩

/-- The completion has cleared the awaiter, so its destructor cancels nothing. -/
theorem released_sound {k : Int32 → L} {address : Nat} {slot : Sqe} {awaiter : OperationAwaiter}
    {io : IoQueue} {qe : IoQueue.Event} (sound : Sound p size m log (some c))
    (control : m.control = some f) (busy : Busy p m log c f continuation (.suspended address k))
    (lives : m.io.awaiterAt address = some awaiter)
    (taken : m.io.step (.destroy address slot) = some (io, qe)) :
    Sound p size { m.put f ⟨c,continuation,.running (k awaiter.result)⟩ with io := io }
      (⟨some (.released c),some qe⟩ :: log) (some c) := by
  have stored := busy_stored busy
  cases busy with
  | woken stack there cleared seen =>
    obtain rfl := Option.some.inj (lives.symm.trans there)
    cases step_taken taken with
    | released =>
      have allowed : Prompt m.io (queueLog log) (.destroy address slot) := trivial
      exact sound_queued sound rfl allowed taken (fun id => ⟨not_false,not_false⟩)
        (keeps_update (owner_of_stored stored) _)
        ⟨f,continuation,_,control,.running (stack_put stack _) (seen_released seen)⟩ (.inl rfl)
        (by simp)
    | abandoned sqe present valid =>
      obtain rfl := Option.some.inj (lives.symm.trans present)
      simp [cleared, OperationHandle.valid] at valid

theorem started_sound (sound : Sound p size m log none) (fresh : own c log = [])
    (free : m.frameAt f = none) :
    Sound p size { m.put f ⟨c,none,.running (p.body c)⟩ with control := some f }
      (⟨some (.started c),none⟩ :: log) (some c) := by
  refine sound_moves sound (by simp) sound.queue ?_ (keeps_update (by simp [free]) _) ?_
    ⟨f,none,_,rfl,.running ⟨by simp [Machine.put],.root f,by simp⟩ (seen_started fresh rfl)⟩
    (.inl rfl) ?_
  · intro c' other
    simp [Event.concerns, Note.owner, other.symm]
  · intro c' other id address top resting awaiting
    exact awaiting
  · intro id address registered
    obtain ⟨c',_,resting⟩ := sound.registered id address registered
    refine .inl ⟨c',?_,resting⟩
    rintro rfl
    obtain ⟨_,_,_,_,_,_,seen,_⟩ := resting
    exact seen.begun fresh

end Acting

theorem quiet_sound {a : IoQueue.Action} {io : IoQueue} {qe : IoQueue.Event} {corrupted : Bool}
    (sound : Sound p size m log who) (allowed : Prompt m.io (queueLog log) a)
    (taken : m.io.step a = some (io, qe))
    (quiet : ∀ id, ¬ Silences id qe ∧ ¬ Resumes id qe ∧ ∀ address, qe ≠ .awaited id address)
    (active : Active p { m with io := io, corrupted := corrupted } (⟨none,some qe⟩ :: log) who) :
    Sound p size { m with io := io, corrupted := corrupted } (⟨none,some qe⟩ :: log) who := by
  have awaits : ∀ id address top, Awaiting m.io (queueLog log) id address top →
      Awaiting io (qe :: queueLog log) id address top := by
    intro id address top awaiting
    exact awaiting_kept sound.queue allowed (step_taken taken) awaiting (quiet id).1 (quiet id).2.1
  have keeps : ∀ c, Keeps c m.frameAt m.frameAt := fun c f frame _ stored => stored
  refine ⟨?_,active,fun c away => ?_,fun id address registered => ?_⟩
  · exact reaches_next sound.queue allowed taken
  · exact idle_kept (sound.idle c away) rfl (keeps c) fun id address top _ => awaits id address top
  · have before : registration id (queueLog log) = some address := by
      rcases registration_cons id qe (queueLog log) with ⟨place,eq,_⟩ | ⟨ended,_⟩ | ⟨_,_,_,same⟩
      · exact absurd eq ((quiet id).2.2 place)
      · exact absurd ended (not_or.mpr ⟨(quiet id).1,(quiet id).2.1⟩)
      · exact same.symm.trans registered
    obtain ⟨c,away,resting⟩ := sound.registered id address before
    exact ⟨c,away,resting_kept resting rfl (keeps c) (awaits id address)⟩

theorem busy_kept {f : Nat} {continuation : Option Nat} {point : Point V L} {io : IoQueue}
    {qe : IoQueue.Event} {corrupted : Bool} (busy : Busy p m log c f continuation point)
    (same : io.awaiterAt = m.io.awaiterAt)
    (ids : issuedBy qe = [] ∧ awaitedIds (qe :: queueLog log) = awaitedIds (queueLog log) ∧
      consumedBy qe = []) :
    Busy p { m with io := io, corrupted := corrupted } (⟨none,some qe⟩ :: log) c f continuation
      point := by
  have grown : queueLog (⟨none,some qe⟩ :: log) = qe :: queueLog log := rfl
  cases busy with
  | running stack seen => exact .running stack (seen_other seen rfl)
  | holding stack seen issued unawaited unconsumed =>
    refine .holding stack (seen_other seen rfl) ?_ ?_ ?_
    · rw [grown, issuedIds, List.flatMap_cons, ids.1]
      exact issued
    · rw [grown, ids.2.1]
      exact unawaited
    · rw [grown, consumedIds, List.flatMap_cons, ids.2.2]
      exact unconsumed
  | woken stack lives cleared seen =>
    exact .woken stack (same ▸ lives) cleared (seen_other seen rfl)
  | returning stack stored seen => exact .returning stack stored (seen_other seen rfl)

theorem background_sound {a : IoQueue.Action} {io : IoQueue} {qe : IoQueue.Event}
    (sound : Sound p size m log who)
    (kind : a = .submit ∨ a = .submitFails ∨ ∃ position res, a = .complete position res)
    (taken : m.io.step a = some (io, qe)) :
    Sound p size { m with io := io, corrupted := m.corrupted || m.overwrites qe }
      (⟨none,some qe⟩ :: log) who := by
  have facts : Prompt m.io (queueLog log) a ∧ io.awaiterAt = m.io.awaiterAt ∧
      (∀ id, ¬ Silences id qe ∧ ¬ Resumes id qe ∧ ∀ address, qe ≠ .awaited id address) ∧
      issuedBy qe = [] ∧ awaitedIds (qe :: queueLog log) = awaitedIds (queueLog log) ∧
      consumedBy qe = [] := by
    rcases kind with rfl | rfl | ⟨position,res,rfl⟩
    all_goals
      cases step_taken taken
      exact ⟨trivial,rfl,fun id => ⟨not_false,not_false,by simp⟩,rfl,rfl,rfl⟩
  obtain ⟨allowed,same,quiet,ids⟩ := facts
  refine quiet_sound sound allowed taken quiet ?_
  cases who with
  | none => exact sound.active
  | some c =>
    obtain ⟨f,continuation,point,control,busy⟩ := sound.active
    exact ⟨f,continuation,point,control,busy_kept busy same ids⟩

theorem resumed_sound {io : IoQueue} {cqe : Cqe} {r : Resumption} {continuation : Option Nat}
    {point : Point V L} (sound : Sound p size m log none)
    (taken : m.io.step .consume = some (io, .consumed cqe (some r)))
    (stored : m.frameAt r.caller = some ⟨c,continuation,point⟩) :
    Sound p size { m with io := io, control := some r.caller }
      (⟨some (.resumed c),some (.consumed cqe (some r))⟩ :: log) (some c) := by
  obtain ⟨own_id,met,awaiter,lives,caller,changed⟩ := consume_resumes sound.queue taken
  obtain ⟨c',_,waits⟩ := sound.registered cqe.user_data r.address met
  have waits' := waits
  obtain ⟨top,continuation',k,ks,ids,stack,seen,_,awaiter',lives',_,mine⟩ := waits'
  obtain rfl := Option.some.inj (lives.symm.trans lives')
  obtain rfl : top = r.caller := mine.symm.trans caller
  obtain ⟨rfl,rfl,rfl⟩ := Frame.mk.inj (Option.some.inj (stack.stored.symm.trans stored))
  have allowed : Prompt m.io (queueLog log) .consume := trivial
  have grown : queueLog (⟨some (.resumed c'),some (.consumed cqe (some r))⟩ :: log) =
    .consumed cqe (some r) :: queueLog log := rfl
  refine sound_moves sound (by simp) ?_ ?_ (fun c _ f frame _ stored => stored) ?_
    ⟨r.caller,continuation',_,rfl,.woken stack changed rfl (seen_resumed seen)⟩ (.inl rfl) ?_
  · exact reaches_next sound.queue allowed taken
  · intro c other
    simp [Event.concerns, Note.owner, other.symm]
  · intro c other id address top resting awaiting
    refine awaiting_kept sound.queue allowed (step_taken taken) awaiting not_false fun resumes => ?_
    -- the same operation would lead to the same frame, but that one is not its owner's
    obtain rfl : cqe.user_data = id := own_id.symm.trans resumes
    obtain ⟨_,_,_,_,_,other_stack,_,registered,x,xlives,_,xcaller⟩ := resting
    obtain rfl := Option.some.inj (registered.symm.trans met)
    obtain rfl := Option.some.inj (lives.symm.trans xlives)
    rw [← xcaller, mine] at other_stack
    exact other (congrArg Frame.owner (Option.some.inj (other_stack.stored.symm.trans stack.stored)))
  · intro id address registered
    rw [grown] at registered
    rcases registration_cons id (.consumed cqe (some r)) (queueLog log) with
      ⟨_,eq,_⟩ | ⟨_,gone⟩ | ⟨_,_,other,same⟩
    · simp at eq
    · simp [gone] at registered
    · obtain ⟨c,_,resting⟩ := sound.registered id address (same.symm.trans registered)
      refine .inl ⟨c,?_,resting⟩
      rintro rfl
      exact other (own_id.trans (resting_unique waits resting))

theorem drawn_cons (qe : IoQueue.Event) (queue : List IoQueue.Event) :
    drawn queue ≤ drawn (qe :: queue) := by
  cases qe <;> simp [drawn]

theorem moved_sound {a : Action C} (sound : Sound p size m log who) (allowed : Fresh m log a)
    (moved : Moved p m a m' e) (bound : drawn (queueLog (e :: log)) < 2 ^ 64 - 2) :
    ∃ who', Sound p size m' (e :: log) who' := by
  cases moved with
  | started c kind idle free =>
    obtain rfl := sound_inactive sound idle
    subst kind
    exact ⟨_,started_sound sound allowed free⟩
  | ended control stored here =>
    obtain ⟨rfl,busy⟩ := sound_active sound control stored
    exact ⟨_,ended_sound sound busy here⟩
  | returned control stored here =>
    obtain ⟨rfl,busy⟩ := sound_active sound control stored
    exact ⟨_,returned_sound sound busy here⟩
  | asked slot control stored here valid =>
    obtain ⟨rfl,busy⟩ := sound_active sound control stored
    exact ⟨_,asked_sound sound control busy here valid bound⟩
  | called control stored here free =>
    obtain ⟨rfl,busy⟩ := sound_active sound control stored
    exact ⟨_,called_sound sound busy here free⟩
  | awaited control stored run =>
    obtain ⟨rfl,busy⟩ := sound_active sound control stored
    exact ⟨_,awaited_sound sound busy run⟩
  | released control stored lives run =>
    obtain ⟨rfl,busy⟩ := sound_active sound control stored
    exact ⟨_,released_sound sound control busy lives run⟩
  | handed control stored done =>
    obtain ⟨rfl,busy⟩ := sound_active sound control stored
    exact ⟨_,handed_sound sound control busy done⟩
  | background kind run => exact ⟨_,background_sound sound kind run⟩
  | dropped idle run =>
    obtain rfl := sound_inactive sound idle
    have free : Prompt m.io (queueLog log) .consume := trivial
    exact ⟨_,quiet_sound sound free run (fun id => ⟨not_false,not_false,by simp⟩) idle⟩
  | resumed idle run stored =>
    obtain rfl := sound_inactive sound idle
    exact ⟨_,resumed_sound sound run stored⟩

end Steps

/-- Every reachable state is sound, as long as fewer than 2^64 - 2 ids are drawn. -/
theorem run_sound {p : Program C V L} {size : UInt64} {q : IoQueue} {m : Machine C V L}
    {log : List (Event C V)} (made : create size = some q)
    (run : Run (step p) Fresh { io := q } m log) :
    drawn (queueLog log) < 2 ^ 64 - 2 → ∃ who, Sound p size m log who := by
  refine run.invariant (fun m log => drawn (queueLog log) < 2 ^ 64 - 2 → ∃ who, Sound p size m log who)
    ?_ ?_
  · intro _
    refine ⟨none,⟨q,made,.nil⟩,rfl,fun c _ => .unborn rfl,fun id address registered => ?_⟩
    simp [queueLog, registration] at registered
  · intro m log a m' e before allowed taken bound
    have earlier : drawn (queueLog log) ≤ drawn (queueLog (e :: log)) := by
      cases queued : e.queue with
      | none => simp [queueLog, queued]
      | some qe =>
        have grown : queueLog (e :: log) = qe :: queueLog log := by simp [queueLog, queued]
        rw [grown]
        exact drawn_cons qe (queueLog log)
    obtain ⟨who,sound⟩ := before (by omega)
    exact moved_sound sound allowed (step_moved taken) bound

end Coroutine
end Aiopp
