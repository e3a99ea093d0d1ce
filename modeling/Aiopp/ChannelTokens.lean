import Aiopp.Channel
import Mathlib.Data.List.Nodup
import Mathlib.Data.List.Count

/-!
Where the tokens of a channel are. Every queued message has one: in the semaphore, with a
sender that has pushed and not written, or with a receive task whose read took it. A task
destroyed in between, or a read that outlives its task, takes its token along.
-/
namespace Aiopp
namespace Channel
open Transition
variable {M : Type}

def pushes : List (Event M) → List M
  | [] => []
  | .pushed m :: log => pushes log ++ [m]
  | _ :: log => pushes log

def pops : List (Event M) → List (Nat × M)
  | [] => []
  | .popped i m :: log => pops log ++ [(i, m)]
  | _ :: log => pops log

/-- A destroyed task takes the token of its completed read along; a read that completes
after its task is gone takes one for nobody. -/
def Event.loses : Event M → Bool
  | .completed false => true
  | .destroyed .completed => true
  | _ => false

def lost (log : List (Event M)) : Nat := log.countP Event.loses

def Sender.writes : Sender M → Bool
  | .write => true
  | _ => false

def Receiver.holds : Receiver M → Bool
  | .reading .completed => true
  | .resumed => true
  | _ => false

def Balanced (c : Channel M) (log : List (Event M)) : Prop :=
  c.messages_.length = c.counter + c.senders.countP Sender.writes +
    c.receivers.countP Receiver.holds + lost log

structure Delivered (c : Channel M) (log : List (Event M)) : Prop where
  order : (pops log).map Prod.snd ++ c.messages_ = pushes log
  returns : ∀ i m, (i, m) ∈ pops log ↔ c.receivers[i]? = some (.returned m)
  once : ((pops log).map Prod.fst).Nodup

theorem countP_set_add {α : Type} {list : List α} {i : Nat} {old : α} (p : α → Bool) (new : α)
    (here : list[i]? = some old) :
    (list.set i new).countP p + (p old).toNat = list.countP p + (p new).toNat := by
  obtain ⟨inside,rfl⟩ := List.getElem?_eq_some_iff.mp here
  have counted : (p list[i]).toNat ≤ list.countP p := by
    cases holds : p list[i] with
    | true => exact List.countP_pos_iff.mpr ⟨_,List.getElem_mem inside,holds⟩
    | false => exact Nat.zero_le _
  have weight (b : Bool) : (if b then 1 else 0) = b.toNat := by
    cases b <;> rfl
  rw [List.countP_set inside, weight, weight]
  omega

section Moved
variable {c c' : Channel M} {e : Event M} {log : List (Event M)}

theorem lost_cons (e : Event M) (log : List (Event M)) :
    lost (e :: log) = lost log + e.loses.toNat := by
  rw [lost, List.countP_cons, lost]
  cases e.loses <;> rfl

theorem balanced_sender {k : Nat} {old : Sender M} {counter : Nat} {queue : List M}
    (balanced : Balanced c log) (next : Sender M) (here : c.senders[k]? = some old)
    (kept : e.loses = false)
    (pays : c.messages_.length + counter + next.writes.toNat =
      queue.length + c.counter + old.writes.toNat) :
    Balanced ({ c with messages_ := queue, counter := counter }.moveSender k next) (e :: log) := by
  have writes := countP_set_add Sender.writes next here
  unfold Balanced at *
  rw [lost_cons, kept]
  simp only [moveSender, Bool.toNat_false]
  omega

theorem balanced_receiver {i : Nat} {old : Receiver M} {counter : Nat} {queue : List M}
    (balanced : Balanced c log) (next : Receiver M) (here : c.receivers[i]? = some old)
    (pays : c.messages_.length + counter + next.holds.toNat + e.loses.toNat =
      queue.length + c.counter + old.holds.toNat) :
    Balanced ({ c with messages_ := queue, counter := counter }.moveReceiver i next) (e :: log) := by
  have holds := countP_set_add Receiver.holds next here
  unfold Balanced at *
  rw [lost_cons]
  simp only [moveReceiver]
  omega

theorem moved_balanced (balanced : Balanced c log) (moved : Moved c c' e) :
    Balanced c' (e :: log) := by
  cases moved with
  | called =>
    unfold Balanced at *
    rw [lost_cons]
    simpa [Event.loses, Sender.writes] using balanced
  | pushed here =>
    refine balanced_sender balanced .write here rfl ?_
    simp only [Sender.writes, List.length_append, List.length_singleton, Bool.toNat_true,
      Bool.toNat_false]
    omega
  | written here =>
    refine balanced_sender balanced .returned here rfl ?_
    simp only [Sender.writes, Bool.toNat_true, Bool.toNat_false]
    omega
  | issued =>
    unfold Balanced at *
    rw [lost_cons]
    simpa [Event.loses, Receiver.holds] using balanced
  | submitted here => exact balanced_receiver balanced _ here rfl
  | completed positive here =>
    refine balanced_receiver balanced _ here ?_
    simp only [Receiver.holds, Event.loses, Bool.toNat_true, Bool.toNat_false]
    omega
  | @completedDead i cancel positive here =>
    have moved : Balanced
        ({ c with counter := c.counter - 1 }.moveReceiver i (.destroyed .completed cancel))
        (.completed false :: log) := by
      refine balanced_receiver balanced _ here ?_
      simp only [Receiver.holds, Event.loses, Bool.toNat_true, Bool.toNat_false]
      omega
    exact moved
  | dead here event =>
    refine balanced_receiver balanced _ here ?_
    rcases event with rfl | rfl | rfl <;> rfl
  | consumed here => exact balanced_receiver balanced _ here rfl
  | popped here front =>
    refine balanced_receiver balanced _ here ?_
    simp only [front, Receiver.holds, Event.loses, List.length_cons, Bool.toNat_true,
      Bool.toNat_false]
    omega
  | @destroyed i read cancel here =>
    refine balanced_receiver balanced _ here ?_
    cases read <;> rfl

theorem delivered_receiver {i : Nat} {old next : Receiver M} (delivered : Delivered c log)
    (here : c.receivers[i]? = some old) (before : ∀ m, old ≠ .returned m)
    (after : ∀ m, next ≠ .returned m) (same : c'.messages_ = c.messages_)
    (receivers : c'.receivers = c.receivers.set i next) (pushed : pushes (e :: log) = pushes log)
    (popped : pops (e :: log) = pops log) : Delivered c' (e :: log) := by
  constructor
  · rw [popped, pushed, same]
    exact delivered.order
  · intro j m
    rw [popped, delivered.returns, receivers, List.getElem?_set]
    split
    · rename_i eq
      subst eq
      rw [here]
      split
      · constructor
        · intro returned
          exact absurd (Option.some.inj returned) (before m)
        · intro returned
          exact absurd (Option.some.inj returned) (after m)
      · constructor
        · intro returned
          exact absurd (Option.some.inj returned) (before m)
        · simp
    · rfl
  · rw [popped]
    exact delivered.once

theorem delivered_popped {i : Nat} {m : M} {rest : List M} (delivered : Delivered c log)
    (here : c.receivers[i]? = some .resumed) (front : c.messages_ = m :: rest) :
    Delivered ({ c with messages_ := rest }.moveReceiver i (.returned m)) (.popped i m :: log) := by
  have inside := (List.getElem?_eq_some_iff.mp here).1
  have fresh : ∀ m', (i, m') ∉ pops log := by
    intro m' member
    have returned := (delivered.returns i m').mp member
    simp [here] at returned
  constructor
  · simp only [pops, pushes, List.map_append, moveReceiver, ← delivered.order, front]
    simp
  · intro j m'
    simp only [pops, moveReceiver, List.mem_append, List.mem_singleton, List.getElem?_set]
    by_cases same : i = j
    · subst same
      simp [fresh, inside, eq_comm]
    · simp [same, Ne.symm same, delivered.returns]
  · simp only [pops, List.map_append, List.map_cons, List.map_nil]
    refine List.nodup_append.mpr ⟨delivered.once,by simp,?_⟩
    intro a member b single
    obtain ⟨⟨k,m'⟩,inPops,rfl⟩ := List.mem_map.mp member
    obtain rfl := List.mem_singleton.mp single
    rintro rfl
    exact fresh m' inPops

theorem moved_delivered (delivered : Delivered c log) (moved : Moved c c' e) :
    Delivered c' (e :: log) := by
  cases moved with
  | called => exact ⟨delivered.order,delivered.returns,delivered.once⟩
  | pushed here =>
    refine ⟨?_,delivered.returns,delivered.once⟩
    simp only [pops, pushes, moveSender, ← delivered.order, List.append_assoc]
  | written here => exact ⟨delivered.order,delivered.returns,delivered.once⟩
  | issued =>
    refine ⟨delivered.order,fun i m => ?_,delivered.once⟩
    refine (delivered.returns i m).trans ?_
    simp only
    by_cases inside : i < c.receivers.length
    · rw [List.getElem?_append_left inside]
    · rw [List.getElem?_append_right (by omega), List.getElem?_eq_none (by omega)]
      cases i - c.receivers.length <;> simp
  | submitted here | completed _ here | completedDead _ here | consumed here | destroyed here =>
    exact delivered_receiver delivered here (by simp) (by simp) rfl rfl rfl rfl
  | dead here event =>
    rcases event with rfl | rfl | rfl
    all_goals exact delivered_receiver delivered here (by simp) (by simp) rfl rfl rfl rfl
  | popped here front => exact delivered_popped delivered here front

end Moved

section Runs
variable {c : Channel M} {log : List (Event M)}

def AnyOrder (_ : Channel M) (_ : List (Event M)) (_ : Action M) : Prop := True

instance (c : Channel M) (log : List (Event M)) (a : Action M) : Decidable (AnyOrder c log a) :=
  isTrue trivial

theorem run_balanced (run : Run step AnyOrder {} c log) : Balanced c log := by
  refine run.invariant Balanced rfl ?_
  intro c log a c' e balanced _ taken
  exact moved_balanced balanced (step_moved taken)

theorem resumed_served (balanced : Balanced c log) {i : Nat}
    (here : c.receivers[i]? = some .resumed) : c.messages_ ≠ [] := by
  intro drained
  have holder : 0 < c.receivers.countP Receiver.holds :=
    List.countP_pos_iff.mpr ⟨_,List.mem_of_getElem? here,rfl⟩
  simp only [Balanced, drained, List.length_nil] at balanced
  omega

/-- A resumed task finds a message; messages are popped in the order of the pushes, each by
one receive, which returns it; and the kernel has written to no frame that was freed. -/
structure Delivers (c : Channel M) (log : List (Event M)) : Prop where
  intact : c.corrupted = false
  served : ∀ i : Nat, c.receivers[i]? = some .resumed → c.messages_ ≠ []
  order : (pops log).map Prod.snd <+: pushes log
  once : ((pops log).map Prod.fst).Nodup
  returns : ∀ (i : Nat) m, c.receivers[i]? = some (.returned m) ↔ (i, m) ∈ pops log

def Receiver.orphaned : Receiver M → Bool
  | .destroyed .submitted _ => true
  | _ => false

/-- A read that completes in the kernel does so while its task is there. -/
def TaskAlive (c : Channel M) : Action M → Prop
  | .complete i => ∀ receiver ∈ c.receivers[i]?, receiver.orphaned = false
  | _ => True

instance (c : Channel M) (a : Action M) : Decidable (TaskAlive c a) :=
  match a with
  | .complete i => inferInstanceAs (Decidable (∀ receiver ∈ c.receivers[i]?, _))
  | .send _ | .push _ | .write _ | .receive | .submit _ | .cancel _ | .consume _ | .pop _
  | .destroy .. => isTrue trivial

theorem alive_intact {c' : Channel M} {a : Action M} {e : Event M} (alive : TaskAlive c a)
    (taken : c.step a = some (c', e)) : c'.corrupted = c.corrupted := by
  cases a with
  | complete i =>
    simp only [step, complete] at taken
    split at taken
    · split at taken
      · cases taken
        rfl
      · rename_i here
        simpa [Receiver.orphaned] using alive _ here
      · simp at taken
    · simp at taken
  | send | receive =>
    cases taken
    rfl
  | push | write | submit | cancel | consume | pop | destroy =>
    simp only [step, push, write, submit, cancel, consume, pop, destroy] at taken
    grind [moveReceiver, moveSender]

theorem orphan_corrupts {c' : Channel M} {a : Action M} {e : Event M} (late : ¬ TaskAlive c a)
    (taken : c.step a = some (c', e)) : c'.corrupted = true := by
  cases a with
  | complete i =>
    simp only [step, complete] at taken
    split at taken
    · split at taken
      · rename_i here
        refine absurd ?_ late
        intro receiver member
        rw [here] at member
        cases member
        rfl
      · cases taken
        rfl
      · simp at taken
    · simp at taken
  | _ => exact absurd trivial late

theorem step_delivers {c' : Channel M} {a : Action M} {e : Event M} (balanced : Balanced c log)
    (delivered : Delivered c log) (intact : c.corrupted = false) (alive : TaskAlive c a)
    (taken : c.step a = some (c', e)) : Delivers c' (e :: log) := by
  have moved := step_moved taken
  have after := moved_delivered delivered moved
  exact ⟨alive_intact alive taken ▸ intact,
    fun i here => resumed_served (moved_balanced balanced moved) here,⟨_,after.order⟩,after.once,
    fun i m => (after.returns i m).symm⟩

/-- A channel delivers at every moment of a run exactly when no read of a destroyed receive
task completes in the kernel. -/
theorem delivery_exactly_once_iff {log : List (Action M × Event M)}
    (run : Run (labelled step) (byEvents AnyOrder) {} c log) :
    Throughout (labelled step) (byEvents AnyOrder) {}
        (fun c log => Delivers c (log.map Prod.snd)) log ↔
      Run (labelled step) (fun c log a => byEvents AnyOrder c log a ∧ TaskAlive c a) {} c log := by
  apply labelled_throughout_iff (fun c _ a => TaskAlive c a)
    (fun c log => Balanced c (log.map Prod.snd) ∧ Delivered c (log.map Prod.snd) ∧
      Delivers c (log.map Prod.snd))
    (fun c log => Delivers c (log.map Prod.snd))
  · exact ⟨rfl,⟨rfl,by simp [pops],by simp [pops]⟩,⟨rfl,by simp,by simp [pops],by simp [pops],
      by simp [pops]⟩⟩
  · intro c log inv
    exact inv.2.2
  · intro c log a c' e inv _ alive taken
    obtain ⟨balanced,delivered,delivers⟩ := inv
    have moved := step_moved taken
    exact ⟨moved_balanced balanced moved,moved_delivered delivered moved,
      step_delivers balanced delivered delivers.intact alive taken⟩
  · intro c log a c' e _ _ late taken after
    have intact := after.intact
    simp [orphan_corrupts late taken] at intact
  · exact run

theorem crossed_receives_in_order :
    ∃ c : Channel Nat, ∃ log : List (Action Nat × Event Nat),
      Run (labelled step) (byEvents AnyOrder) {} c log ∧ c.receivers[0]? = some .resumed ∧
      pops (log.map Prod.snd) = [(1, 5)] ∧ pushes (log.map Prod.snd) = [5, 7] ∧
      Throughout (labelled step) (byEvents AnyOrder) {}
        (fun c log => Delivers c (log.map Prod.snd)) log := by
  let actions : List (Action Nat) := [.receive, .receive, .receive, .submit 0, .submit 1, .submit 2,
    .destroy 2 true, .cancel 2, .send 5, .send 7, .push 0, .push 1, .write 1, .complete 1, .write 0,
    .complete 0, .consume 0, .consume 1, .consume 2, .pop 1]
  have computed : (replay (labelled step)
      (fun c log a => byEvents AnyOrder c log a ∧ TaskAlive c a) ({} : Channel Nat) [] actions).map
      (fun (c, log) => decide (c.receivers[0]? = some .resumed ∧
        pops (log.map Prod.snd) = [(1, 5)] ∧ pushes (log.map Prod.snd) = [5, 7])) = some true := by
    decide +kernel
  obtain ⟨c,log,alive,facts⟩ := replay_reaches computed
  obtain ⟨resumed,popped,pushed⟩ := of_decide_eq_true facts
  have run : Run (labelled step) (byEvents AnyOrder) {} c log :=
    alive.relax fun _ _ _ allowed => allowed.1
  exact ⟨c,log,run,resumed,popped,pushed,(delivery_exactly_once_iff run).mpr alive⟩

/-- The task is destroyed while its read is pending, and a message comes before the cancel. -/
theorem orphaned_read_corrupts :
    ¬ ∀ (c : Channel Nat) (log : List (Action Nat × Event Nat)),
      Run (labelled step) (byEvents AnyOrder) {} c log → Delivers c (log.map Prod.snd) := by
  intro claim
  have computed : (replay (labelled step) (byEvents AnyOrder) ({} : Channel Nat) []
      [.receive, .submit 0, .destroy 0 true, .send 5, .push 0, .write 0, .complete 0]).map
      (fun (c, _) => c.corrupted) = some true := by decide +kernel
  obtain ⟨c,log,run,corrupted⟩ := replay_reaches computed
  have intact := (claim c log run).intact
  simp only at corrupted
  simp [corrupted] at intact

structure Quiet (c : Channel M) : Prop where
  senders : ∀ sender ∈ c.senders, sender.writes = false
  receivers : ∀ receiver ∈ c.receivers, receiver ≠ .resumed

def Receiver.isCompleted : Receiver M → Bool
  | .reading .completed => true
  | _ => false

/-- The reads that have completed in the kernel for tasks that are still alive. -/
def completedReads (c : Channel M) : Nat := c.receivers.countP Receiver.isCompleted

theorem quiet_balanced (quiet : Quiet c) (balanced : Balanced c log) :
    c.messages_.length = c.counter + c.completedReads + lost log := by
  have written : c.senders.countP Sender.writes = 0 := by
    rw [List.countP_eq_zero]
    intro sender member
    simp [quiet.senders sender member]
  have alive : c.receivers.countP Receiver.holds = c.completedReads := by
    apply List.countP_congr
    intro receiver member
    have idle := quiet.receivers receiver member
    unfold Receiver.holds Receiver.isCompleted
    split <;> simp_all
  unfold Balanced at balanced
  omega

theorem lost_zero : lost log = 0 ↔ ∀ e ∈ log, e.loses = false := by
  simp [lost, List.countP_eq_zero]

theorem drain_completed {i : Nat} {m : M} {rest : List M} (run : Run step AnyOrder {} c log)
    (quiet : Quiet c) (here : c.receivers[i]? = some (.reading .completed))
    (front : c.messages_ = m :: rest) :
    ∃ c' later, Run step AnyOrder {} c' (later ++ log) ∧ Quiet c' ∧ c'.messages_ = rest ∧
      lost (later ++ log) = lost log ∧ pushes (later ++ log) = pushes log := by
  have inside := (List.getElem?_eq_some_iff.mp here).1
  have consumed : c.step (.consume i) = some (c.moveReceiver i .resumed, .consumed true) := by
    simp only [step, consume, here]
  have resumed : (c.moveReceiver i .resumed).receivers[i]? = some .resumed := by
    simp [moveReceiver, inside]
  have popped : (c.moveReceiver i .resumed).step (.pop i) =
      some ({ c.moveReceiver i .resumed with messages_ := rest }.moveReceiver i (.returned m),
        .popped i m) := by
    have queued : (c.moveReceiver i .resumed).messages_ = m :: rest := front
    simp only [step, pop, resumed, queued]
  refine ⟨_,[.popped i m, .consumed true],.next (.next run trivial consumed) trivial popped,?_,rfl,
    ?_,rfl⟩
  · constructor
    · exact quiet.senders
    · intro receiver member
      simp only [moveReceiver, List.set_set] at member
      rcases List.mem_or_eq_of_mem_set member with old | rfl
      · exact quiet.receivers receiver old
      · simp
  · simp [lost_cons, Event.loses]

theorem receive_completes (run : Run step AnyOrder {} c log) (quiet : Quiet c)
    (positive : 0 < c.counter) :
    ∃ c' later, ∃ i : Nat, Run step AnyOrder {} c' (later ++ log) ∧ Quiet c' ∧
      c'.receivers[i]? = some (.reading .completed) ∧ c'.messages_ = c.messages_ ∧
      lost (later ++ log) = lost log ∧ pushes (later ++ log) = pushes log := by
  have computed : ∃ c', replay step AnyOrder c log
      [.receive, .submit c.receivers.length, .complete c.receivers.length] =
        some (c', [.completed true, .submitted, .issued] ++ log) ∧
      c'.receivers = c.receivers ++ [.reading .completed] ∧ c'.messages_ = c.messages_ ∧
      c'.senders = c.senders := by
    simp [replay, step, AnyOrder, submit, complete, moveReceiver, positive]
  obtain ⟨c',played,receivers,messages,senders⟩ := computed
  refine ⟨c',_,c.receivers.length,replay_run run played,?_,by simp [receivers],messages,?_,rfl⟩
  · constructor
    · rw [senders]
      exact quiet.senders
    · intro receiver member
      rw [receivers] at member
      rcases List.mem_append.mp member with old | new
      · exact quiet.receivers receiver old
      · rw [List.mem_singleton.mp new]
        simp
  · simp [lost_cons, Event.loses]

theorem drain {n : Nat} (run : Run step AnyOrder {} c log) (quiet : Quiet c)
    (size : c.messages_.length = n) (complete : lost log = 0) :
    ∃ c' later, Run step AnyOrder {} c' (later ++ log) ∧ c'.messages_ = [] ∧
      pushes (later ++ log) = pushes log := by
  induction n generalizing c log with
  | zero => exact ⟨c,[],run,List.length_eq_zero_iff.mp size,rfl⟩
  | succ n ih =>
    -- one message less: some task pops the first one
    obtain ⟨c₁,later₁,i,run₁,quiet₁,here,messages,lost₁,pushes₁⟩ : ∃ c₁ later₁, ∃ i : Nat,
        Run step AnyOrder {} c₁ (later₁ ++ log) ∧ Quiet c₁ ∧
        c₁.receivers[i]? = some (.reading .completed) ∧ c₁.messages_ = c.messages_ ∧
        lost (later₁ ++ log) = lost log ∧ pushes (later₁ ++ log) = pushes log := by
      have balanced := quiet_balanced quiet (run_balanced run)
      by_cases positive : 0 < c.counter
      · exact receive_completes run quiet positive
      · have alive : 0 < c.completedReads := by omega
        obtain ⟨receiver,member,completed⟩ := List.countP_pos_iff.mp alive
        obtain ⟨i,here⟩ := List.getElem?_of_mem member
        have reading : receiver = .reading .completed := by
          unfold Receiver.isCompleted at completed
          split at completed
          · rfl
          · simp at completed
        exact ⟨c,[],i,run,quiet,reading ▸ here,rfl,rfl,rfl⟩
    obtain ⟨m,rest,front⟩ : ∃ m rest, c₁.messages_ = m :: rest := by
      cases queue : c₁.messages_ with
      | nil => simp [← messages, queue] at size
      | cons m rest => exact ⟨m,rest,rfl⟩
    obtain ⟨c₂,later₂,run₂,quiet₂,rest₂,lost₂,pushes₂⟩ := drain_completed run₁ quiet₁ here front
    have shorter : c₂.messages_.length = n := by
      rw [← messages, front, List.length_cons] at size
      rw [rest₂]
      omega
    obtain ⟨c₃,later₃,run₃,empty,pushes₃⟩ := ih run₂ quiet₂ shorter (by omega)
    refine ⟨c₃,later₃ ++ (later₂ ++ later₁),?_,empty,?_⟩
    · simpa using run₃
    · simpa [pushes₂, pushes₁] using pushes₃

/-- The tokens match the messages, and every queued message can still be received, as
long as no token was lost. -/
theorem nothing_stranded_iff (run : Run step AnyOrder {} c log) (quiet : Quiet c) :
    (c.messages_.length = c.counter + c.completedReads ↔ ∀ e ∈ log, e.loses = false) ∧
    ((∀ e ∈ log, e.loses = false) → ∃ c' later, Run step AnyOrder {} c' (later ++ log) ∧
      c'.messages_ = [] ∧ pushes (later ++ log) = pushes log) := by
  have balanced := quiet_balanced quiet (run_balanced run)
  rw [← lost_zero]
  constructor
  · omega
  · intro complete
    exact drain run quiet rfl complete

end Runs

theorem timely_cancel_strands_nothing :
    ∃ c : Channel Nat, ∃ log, Run step AnyOrder {} c log ∧ Quiet c ∧ Event.cancelled ∈ log ∧
      c.messages_ = [5, 7] ∧ c.completedReads = 1 ∧
      c.messages_.length = c.counter + c.completedReads := by
  let actions : List (Action Nat) := [.receive, .receive, .submit 0, .submit 1, .destroy 0 true,
    .send 5, .send 7, .push 0, .cancel 0, .push 1, .write 1, .complete 1, .consume 0, .write 0]
  have computed : (replay step AnyOrder ({} : Channel Nat) [] actions).map (fun (c, log) => decide
      ((∀ sender ∈ c.senders, sender.writes = false) ∧
        (∀ receiver ∈ c.receivers, receiver ≠ .resumed) ∧ Event.cancelled ∈ log ∧
        c.messages_ = [5, 7] ∧ c.completedReads = 1 ∧ ∀ e ∈ log, e.loses = false)) = some true := by
    decide +kernel
  obtain ⟨c,log,run,facts⟩ := replay_reaches computed
  obtain ⟨senders,receivers,cancelled,messages,alive,complete⟩ := of_decide_eq_true facts
  exact ⟨c,log,run,⟨senders,receivers⟩,cancelled,messages,alive,
    (nothing_stranded_iff run ⟨senders,receivers⟩).1.mpr complete⟩

/-- The read has completed in the kernel when its task is destroyed. -/
theorem late_destruction_strands :
    ¬ ∀ (c : Channel Nat) log, Run step AnyOrder {} c log → Quiet c →
      c.messages_.length = c.counter + c.completedReads := by
  intro claim
  let actions : List (Action Nat) := [.receive, .submit 0, .send 5, .push 0, .write 0, .complete 0,
    .destroy 0 true, .cancel 0, .consume 0]
  have computed : (replay step AnyOrder ({} : Channel Nat) [] actions).map (fun (c, _) => decide
      ((∀ sender ∈ c.senders, sender.writes = false) ∧
        (∀ receiver ∈ c.receivers, receiver ≠ .resumed) ∧ c.messages_ = [5] ∧ c.counter = 0 ∧
        c.completedReads = 0)) = some true := by
    decide +kernel
  obtain ⟨c,log,run,facts⟩ := replay_reaches computed
  obtain ⟨senders,receivers,messages,empty,none⟩ := of_decide_eq_true facts
  have balance := claim c log run ⟨senders,receivers⟩
  simp [messages, empty, none] at balance

end Channel
end Aiopp
