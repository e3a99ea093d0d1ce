import Aiopp.CoroutineMemory
import Aiopp.CompleterLifetime
import Aiopp.Capacity
import Aiopp.Drain
import Mathlib.Algebra.Order.BigOperators.Group.Finset
import Mathlib.Combinatorics.Enumerative.DoubleCounting

/-!
Coroutines that run to their end. If the bodies are finite and there are no more coroutines than
the completer map has entries, then the frames, the loop and the kernel always get on: every
coroutine returns, with the value of its direct evaluation, after boundedly many steps.
-/
namespace Aiopp
namespace Coroutine
open DirectStyle IoQueue Transition
variable {C V L : Type}

/-- Whatever its operations answer, the body observes no more than `n` times. -/
def Halts (p : Program C V L) (c : C) (n : Nat) : Prop :=
  ∀ answers, ∃ tr o, Direct p.code (p.body c) answers tr o ∧ tr.length ≤ n

def Unstarted : Action C → Prop
  | .start _ _ => False
  | _ => True

/-- A continuation of a run in which no coroutine is started. -/
def LeftAlone (p : Program C V L) (m m' : Machine C V L) (more : List (Event C V)) : Prop :=
  Run (step p) (fun _ _ a => Unstarted a) m m' more

/-- Control is back in `main`: no frame executes, and the loop has ended. -/
def Finished (m : Machine C V L) : Prop := m.control = none ∧ m.io.running = false

/-- A submission alone is no progress. -/
def Event.advance (e : Event C V) : Nat :=
  match e.note, e.queue with
  | some _, _ => 1
  | none, some qe => settled qe
  | none, none => 0

def notes (log : List (Event C V)) : List C := log.filterMap fun e => e.note.map Note.owner

section Due
variable {q q' : IoQueue}

theorem due_same (same : SameTraffic q q') : due q' = due q := by
  obtain ⟨_,sq,inflight,cq⟩ := same
  have length : q'.sq.length = q.sq.length := by
    simpa [userDatas] using congrArg List.length sq
  rw [due, due, length, inflight, cq]

theorem finalizeSqe_due (q : IoQueue) (sqe : Option Sqe) (userData : UInt64) :
    due (q.finalizeSqe sqe userData).2 ≤ due q + 2 := by
  cases sqe with
  | none => simp [finalizeSqe]
  | some sqe =>
    simp only [finalizeSqe, due, List.length_append, List.length_singleton]
    omega

theorem taken_due {qa : IoQueue.Action} {qe : IoQueue.Event} (taken : Taken q qa q' qe) :
    due q' ≤ due q + 2 := by
  cases taken with
  | issued req slot => exact finalizeSqe_due q.getNextOpId.2 _ _
  | linked run =>
    obtain ⟨q₁,sqe,same,rfl⟩ := linkTimeout_traffic run
    rw [← due_same same]
    exact finalizeSqe_due q₁ sqe _
  | awaited _ _ _ _ run =>
    rw [due_same (await_traffic run)]
    omega
  | @cancelled op cancelHandler slot sqe valid =>
    cases cancelHandler with
    | false => exact finalizeSqe_due q sqe _
    | true => exact finalizeSqe_due (q.dropCompleter op.id) sqe _
  | released => simp [due]
  | @abandoned address slot awaiter sqe lives valid =>
    exact finalizeSqe_due (q.dropCompleter awaiter.operation.id) sqe OpIdIgnore
  | submitted active =>
    simp only [due, List.length_append, List.length_nil]
    omega
  | submitFailed active => simp [due]
  | completed res flying =>
    obtain ⟨inside,_⟩ := List.getElem?_eq_some_iff.mp flying
    simp only [due, List.length_eraseIdx, if_pos inside, List.length_append, List.length_singleton]
    omega
  | consumed active queued run =>
    rw [due_same (dispatch_traffic run)]
    simp only [due, queued, List.length_cons]
    omega

end Due

section Room
variable {q q' : IoQueue}

@[simp] theorem finalizeSqe_sqEntries (q : IoQueue) (sqe : Option Sqe) (userData : UInt64) :
    (q.finalizeSqe sqe userData).2.sqEntries = q.sqEntries := by
  cases sqe <;> rfl

theorem taken_sqEntries {qa : IoQueue.Action} {qe : IoQueue.Event} (taken : Taken q qa q' qe) :
    q'.sqEntries = q.sqEntries := by
  cases taken with
  | issued req slot => exact finalizeSqe_sqEntries q.getNextOpId.2 _ _
  | linked run =>
    obtain ⟨_,_,_,_,_,_,_,_,_,_,rfl,_,rfl,_⟩ := linkTimeout_cases run
    rw [finalizeSqe_sqEntries]
  | awaited _ _ _ _ run =>
    obtain ⟨_,_,_,rfl⟩ := await_cases run
    rfl
  | @cancelled op cancelHandler slot sqe valid =>
    rw [finalizeSqe_sqEntries]
    cases cancelHandler <;> rfl
  | @abandoned address slot awaiter sqe lives valid =>
    exact finalizeSqe_sqEntries (q.dropCompleter awaiter.operation.id) sqe OpIdIgnore
  | consumed active queued run =>
    obtain ⟨_,_,_,rfl,_⟩ := dispatch_frame run
    rfl
  | released | submitted | submitFailed | completed => rfl

/-- An odd prime is no power of two: the ring has a slot more than the map has entries. -/
theorem ringEntries_larger {n : Nat} (prime : n.Prime) (large : 53 ≤ n) : n < ringEntries n := by
  have odd : n % 2 = 1 := (Nat.Prime.mod_two_eq_one_iff_ne_two prime).mpr (by omega)
  have above : n - 1 < 2 ^ ((n - 1).log2 + 1) := Nat.lt_log2_self
  have even : 2 ^ ((n - 1).log2 + 1) % 2 = 0 := by rw [Nat.pow_succ, Nat.mul_mod_left]
  rw [ringEntries, if_neg (by omega)]
  omega

theorem reaches_larger {policy : IoQueue → List IoQueue.Event → IoQueue.Action → Prop}
    {size : UInt64} {queue : List IoQueue.Event} (reached : Reaches policy size q queue) :
    q.completers_.capacity < q.sqEntries ∧ q.completers_.capacity.Prime ∧
      q.completers_.capacity ≤ 196613 := by
  obtain ⟨q₀,made,run⟩ := reached
  refine run.invariant (fun q _ => q.completers_.capacity < q.sqEntries ∧
    q.completers_.capacity.Prime ∧ q.completers_.capacity ≤ 196613) ?_ ?_
  · obtain ⟨completers,new,rfl⟩ := Option.map_eq_some_iff.mp made
    obtain ⟨prime,large,small⟩ := CompleterMap.create_capacity new
    exact ⟨ringEntries_larger prime large,prime,small⟩
  · intro s log a s' e facts _ taken
    rwa [taken_capacity (step_taken taken), taken_sqEntries (step_taken taken)]

theorem insert_small {content : UInt64 → Option UInt64} {completers : CompleterMap}
    (represents : completers.Represents content) (prime : completers.capacity.Prime)
    (bounded : completers.capacity ≤ 196613) {id : UInt64} (small : id.toNat < 2 ^ 63)
    (room : completers.size.toNat < completers.capacity) (completer : UInt64) :
    (completers.insert id completer).isSome := by
  have reach := (CompleterMap.stride_bounds prime (by omega) id).2
  have last : (completers.capacity - 1) * (CompleterMap.stride completers.capacity id).toNat ≤
      196613 * 196613 := Nat.mul_le_mul (by omega) (by omega)
  have unwrapped : id.toNat + (completers.capacity - 1) *
      (CompleterMap.stride completers.capacity id).toNat < 2 ^ 64 := by omega
  obtain ⟨m',inserted⟩ :=
    CompleterMap.insert_succeeds represents prime completer room unwrapped
  rw [inserted]
  rfl

end Room

section Budget
variable {p : Program C V L} {m m' : Machine C V L} {a : Action C} {e : Event C V}

/-- An operation costs two steps besides those of its coroutine. -/
theorem moved_due (moved : Moved p m a m' e) :
    e.advance + due m'.io ≤ due m.io + 3 * (notes [e]).length := by
  cases note : e.note with
  | some n =>
    have more : due m'.io ≤ due m.io + 2 := by
      rcases moved_queue moved with ⟨same,_⟩ | ⟨qa,qe,taken,_⟩
      · rw [same]
        omega
      · exact taken_due taken
    simp only [Event.advance, note, notes, List.filterMap_cons, Option.map_some,
      List.filterMap_nil, List.length_singleton]
    omega
  | none =>
    simp only [Event.advance, note, notes, List.filterMap_cons, Option.map_none,
      List.filterMap_nil, List.length_nil]
    cases moved with
    | @background act io qe kind run =>
      have unasked : Unasked act := by
        rcases kind with rfl | rfl | ⟨_,_,rfl⟩ <;> trivial
      exact (step_due unasked run).le
    | dropped idle run => exact (step_due (a := IoQueue.Action.consume) trivial run).le
    | _ => simp at note

theorem notes_append (later earlier : List (Event C V)) :
    notes (later ++ earlier) = notes later ++ notes earlier := List.filterMap_append

theorem notes_cons (e : Event C V) (log : List (Event C V)) :
    notes (e :: log) = notes [e] ++ notes log := notes_append [e] log

theorem leftAlone_advance {more : List (Event C V)} (rest : LeftAlone p m m' more) :
    (more.map Event.advance).sum + due m'.io ≤ due m.io + 3 * (notes more).length := by
  refine rest.invariant (fun m' more =>
    (more.map Event.advance).sum + due m'.io ≤ due m.io + 3 * (notes more).length) (by simp) ?_
  intro s log a s' e kept _ taken
  have one := moved_due (step_moved taken)
  rw [List.map_cons, List.sum_cons, notes_cons, List.length_append]
  omega

end Budget

variable [DecidableEq C]

def begun (log : List (Event C V)) : Finset C := (notes log).toFinset

section Counting
variable {p : Program C V L} {size : UInt64} {q : IoQueue} {m m' : Machine C V L}
  {log : List (Event C V)} {a : Action C} {e : Event C V} {c : C} {who : Option C} {n : Nat}

theorem own_length (c : C) (log : List (Event C V)) :
    (own c log).length = (notes log).count c := by
  induction log with
  | nil => rfl
  | cons e log ih =>
    rw [own_cons, notes_cons, List.count_append, ← ih]
    cases note : e.note with
    | none => simp [Event.concerns, notes, note]
    | some n =>
      by_cases same : n.owner = c
      · simp only [Event.concerns, notes, note, same, Option.any_some, decide_true, ↓reduceIte,
          List.length_append, List.length_singleton, List.filterMap_cons, Option.map_some,
          List.filterMap_nil, List.count_singleton_self]
        omega
      · simp [Event.concerns, notes, note, same]

theorem mem_begun : c ∈ begun log ↔ own c log ≠ [] := by
  rw [begun, List.mem_toFinset, ← List.count_pos_iff, ← own_length, List.length_pos_iff]

theorem notes_bounded (each : ∀ c ∈ begun log, (own c log).length ≤ n) :
    (notes log).length ≤ (begun log).card * n := by
  rw [← List.sum_toFinset_count_eq_length]
  refine Finset.sum_le_card_nsmul _ _ n ?_
  intro c member
  rw [← own_length]
  exact each c member

omit [DecidableEq C] in
theorem drawn_noted (moved : Moved p m a m' e) :
    drawn (queueLog (e :: log)) ≤ drawn (queueLog log) + (notes [e]).length := by
  cases queue : e.queue with
  | none => simp [queueLog, queue]
  | some qe =>
    have grown : queueLog (e :: log) = qe :: queueLog log := by simp [queueLog, queue]
    rw [grown]
    cases note : e.note with
    | some n =>
      have one : drawn (qe :: queueLog log) ≤ drawn (queueLog log) + 1 := by
        cases qe <;> simp [drawn]
      simpa [notes, note] using one
    | none =>
      cases moved with
      | background kind run =>
        obtain rfl := Option.some.inj queue
        rcases kind with rfl | rfl | ⟨_,_,rfl⟩ <;> cases step_taken run <;> simp [drawn]
      | dropped idle run =>
        obtain rfl := Option.some.inj queue
        simp [drawn]
      | _ => simp at note

theorem sound_bounded (sound : Sound p size m log who) (halts : ∀ c ∈ begun log, Halts p c n) :
    (notes log).length ≤ (begun log).card * (4 * n + 2) := by
  refine notes_bounded fun c member => ?_
  obtain ⟨tr,o,direct,short⟩ := halts c member (answers c log)
  rw [← List.append_nil (answers c log)] at direct
  have spent := (sound_part sound direct).2
  omega

theorem begun_grows (e : Event C V) (log : List (Event C V)) : begun log ⊆ begun (e :: log) := by
  intro c member
  rw [begun, notes_cons, List.toFinset_append]
  exact Finset.mem_union_right _ member

theorem run_bounded (made : create size = some q) (run : Run (step p) Fresh { io := q } m log)
    (halts : ∀ c ∈ begun log, Halts p c n) (short : (begun log).card * (4 * n + 2) < 2 ^ 63) :
    drawn (queueLog log) ≤ (notes log).length ∧ (notes log).length < 2 ^ 63 := by
  induction run with
  | nil => simp [queueLog, drawn, notes]
  | @next m m' log a e before allowed taken ih =>
    have fewer := Finset.card_le_card (begun_grows e log)
    have less : (begun log).card * (4 * n + 2) ≤ (begun (e :: log)).card * (4 * n + 2) :=
      Nat.mul_le_mul_right _ fewer
    obtain ⟨covered,small⟩ := ih (fun c member => halts c (begun_grows e log member)) (by omega)
    have more : drawn (queueLog (e :: log)) ≤ drawn (queueLog log) + (notes [e]).length :=
      drawn_noted (step_moved taken)
    have split : (notes (e :: log)).length = (notes [e]).length + (notes log).length := by
      rw [notes_cons, List.length_append]
    have one : (notes [e]).length ≤ 1 := List.length_filterMap_le _ _
    obtain ⟨who,sound⟩ := run_sound made (before.next allowed taken) (by omega)
    have bound := sound_bounded sound halts
    omega

end Counting

def Bounded {T : Type} (heap : Nat → Option T) : Prop := ∃ top, ∀ f, top ≤ f → heap f = none

theorem bounded_update {T : Type} {heap : Nat → Option T} (bounded : Bounded heap) (f : Nat)
    (value : Option T) : Bounded (Function.update heap f value) := by
  obtain ⟨top,above⟩ := bounded
  refine ⟨max top (f + 1),fun g high => ?_⟩
  rw [Function.update_of_ne (by omega), above g (by omega)]

section Allocation
variable {p : Program C V L} {size : UInt64} {q : IoQueue} {m m' : Machine C V L}
  {log : List (Event C V)} {a : Action C} {e : Event C V} {c : C} {who : Option C} {n : Nat}

omit [DecidableEq C] in
theorem moved_bounded (moved : Moved p m a m' e)
    (bounded : Bounded m.frameAt ∧ Bounded m.io.awaiterAt) :
    Bounded m'.frameAt ∧ Bounded m'.io.awaiterAt := by
  obtain ⟨frames,awaiters⟩ := bounded
  constructor
  · cases moved with
    | called => exact bounded_update (bounded_update frames _ _) _ _
    | handed => exact bounded_update (bounded_update frames _ _) _ _
    | background | dropped | resumed => exact frames
    | _ => exact bounded_update frames _ _
  · rcases moved_queue moved with ⟨same,_⟩ | ⟨qa,qe,taken,_⟩
    · rwa [same]
    · rcases taken_awaiters taken with same | ⟨address,value,written,_⟩
      · rwa [same]
      · rw [written]
        exact bounded_update awaiters address value

theorem run_allocates (made : create size = some q) (run : Run (step p) Fresh { io := q } m log) :
    ∃ top, m.frameAt top = none ∧ m.io.awaiterAt top = none := by
  have bounded : Bounded m.frameAt ∧ Bounded m.io.awaiterAt := by
    refine run.invariant (fun m _ => Bounded m.frameAt ∧ Bounded m.io.awaiterAt) ?_ ?_
    · obtain ⟨completers,_,rfl⟩ := Option.map_eq_some_iff.mp made
      exact ⟨⟨0,by simp⟩,⟨0,by simp⟩⟩
    · intro m log a m' e bounded _ taken
      exact moved_bounded (step_moved taken) bounded
  obtain ⟨⟨top,frames⟩,⟨top',awaiters⟩⟩ := bounded
  exact ⟨max top top',frames _ (by omega),awaiters _ (by omega)⟩

def spot (i : Nat) : UInt64 := UInt64.ofNat (i + 1)

theorem spot_toNat {i : Nat} (small : i < 2 ^ 63) : (spot i).toNat = i + 1 := by
  rw [spot, UInt64.toNat_ofNat_of_lt']
  change i + 1 < 2 ^ 64
  omega

/-- The map fills up before the addresses do. -/
theorem unused_completer {policy : IoQueue → List IoQueue.Event → IoQueue.Action → Prop}
    {queue : List IoQueue.Event} (vacant : ∀ q log a, policy q log a → Vacant log a)
    (reached : Reaches policy size q queue) (few : (registered queue).ncard < 2 ^ 63) :
    ∃ completer, q.completerAt completer = none ∧ completer ≠ CompleterMap.Empty ∧
      completer ≠ CompleterMap.Tombstone := by
  obtain ⟨content,linked,housed⟩ := reaches_housed vacant reached
  let live : Set UInt64 := {completer | (q.completerAt completer).isSome}
  have counted : live.ncard = (registered queue).ncard := live_ncard linked housed
  let spots : Finset UInt64 := (Finset.range (live.ncard + 1)).image spot
  have many : spots.card = live.ncard + 1 := by
    rw [Finset.card_image_of_injOn, Finset.card_range]
    intro i inside j inside' same
    have first := Finset.mem_range.mp inside
    have second := Finset.mem_range.mp inside'
    have values := congrArg UInt64.toNat same
    rw [spot_toNat (by omega), spot_toNat (by omega)] at values
    omega
  have more : live.ncard < (spots : Set UInt64).ncard := by
    rw [Set.ncard_coe_finset, many]
    omega
  obtain ⟨completer,inside,unused⟩ :=
    Set.exists_mem_notMem_of_ncard_lt_ncard more (Set.toFinite live)
  obtain ⟨i,below,rfl⟩ := Finset.mem_image.mp inside
  have small := Finset.mem_range.mp below
  have value := spot_toNat (i := i) (by omega)
  refine ⟨spot i,by simpa [live] using unused,?_,?_⟩
  · intro same
    rw [same] at value
    simp [CompleterMap.Empty] at value
  · intro same
    rw [same] at value
    simp only [CompleterMap.Tombstone, UInt64.reduceToNat] at value
    omega

theorem run_ordinary (made : create size = some q) (run : Run (step p) Fresh { io := q } m log)
    (bound : drawn (queueLog log) < 2 ^ 64 - 2) : ∀ sqe ∈ m.io.sq, sqe.user_data ≠ OpIdIgnore := by
  refine run_keeps made (fun m _ => ∀ sqe ∈ m.io.sq, sqe.user_data ≠ OpIdIgnore) ?_ ?_ run bound
  · obtain ⟨completers,_,rfl⟩ := Option.map_eq_some_iff.mp made
    simp
  · intro m log who a m' e sound ordinary _ moved
    cases moved with
    | @asked f c continuation l req k slot active stored here valid =>
      rcases issue_cases m.io req slot with ⟨_,same⟩ | ⟨_,sqe,data,same⟩
      · rw [same]
        exact ordinary
      · rw [same]
        intro entry member
        rcases List.mem_append.mp member with older | newest
        · exact ordinary entry older
        · rw [List.mem_singleton.mp newest, data]
          exact (getNextOpId_ordinary m.io).2
    | awaited active stored run =>
      cases step_taken run with
      | awaited _ _ _ _ awaits =>
        obtain ⟨_,_,_,rfl⟩ := await_cases awaits
        exact ordinary
    | released active stored lives run =>
      obtain ⟨rfl,busy⟩ := sound_active sound active stored
      cases busy with
      | woken _ lives' cleared _ =>
        cases step_taken run with
        | released => exact ordinary
        | abandoned sqe present valid =>
          obtain rfl := Option.some.inj (lives'.symm.trans present)
          simp [cleared, OperationHandle.valid] at valid
    | background kind run =>
      rcases kind with rfl | rfl | ⟨_,_,rfl⟩ <;> cases step_taken run
      · simp
      · exact ordinary
      · exact ordinary
    | dropped idle run =>
      cases step_taken run with
      | consumed _ _ dispatched =>
        obtain ⟨_,_,_,rfl,_⟩ := dispatch_frame dispatched
        exact ordinary
    | resumed idle run stored =>
      cases step_taken run with
      | consumed _ _ dispatched =>
        obtain ⟨_,_,_,rfl,_⟩ := dispatch_frame dispatched
        exact ordinary
    | _ => exact ordinary

omit [DecidableEq C] in
theorem queued_outstanding (ordinary : ∀ sqe ∈ m.io.sq, sqe.user_data ≠ OpIdIgnore) :
    m.io.sq.length ≤ (outstanding m.io).length := by
  have kept : (userDatas m.io.sq).filter (· ≠ OpIdIgnore) = userDatas m.io.sq := by
    rw [List.filter_eq_self]
    intro id member
    obtain ⟨sqe,inside,rfl⟩ := List.mem_map.mp member
    simpa using ordinary sqe inside
  have length : (userDatas m.io.sq).length = m.io.sq.length := List.length_map _
  rw [outstanding, List.filter_append, List.filter_append, kept, List.length_append,
    List.length_append, length]
  omega

theorem outstanding_few (run : Run (step p) Fresh { io := q } m log)
    (sound : Sound p size m log who) (tidy : Tidy m log) :
    (outstanding m.io).length ≤ (begun log).card := by
  have conserved := reaches_conserved prompt_bounded sound.queue
  have nodup : (outstanding m.io).Nodup :=
    (List.nodup_append.mp (conserved.perm.nodup_iff.mp conserved.nodup)).1
  rw [← List.toFinset_card_of_nodup nodup]
  refine Finset.card_le_card_of_forall_subsingleton
    (fun id c => ∃ f frame, m.frameAt f = some frame ∧ HeldAt m id frame.point ∧ frame.owner = c)
    ?_ ?_
  · intro id member
    obtain ⟨f,frame,stored,held⟩ := outstanding_held run sound (List.mem_toFinset.mp member)
    exact ⟨frame.owner,mem_begun.mpr (tidy.begun f frame stored).1,f,frame,stored,held,rfl⟩
  · rintro c member id ⟨_,f,frame,stored,held,owner⟩ id' ⟨_,g,frame',stored',held',owner'⟩
    have same : f = g := inner_unique tidy stored stored' (owner.trans owner'.symm)
      (heldAt_inner held) (heldAt_inner held')
    subst same
    exact holding_unique ⟨frame,stored,held⟩ ⟨frame',stored',held'⟩

end Allocation

section Progress
variable {p : Program C V L} {size : UInt64} {q : IoQueue} {m m' : Machine C V L}
  {log : List (Event C V)} {a : Action C} {e : Event C V} {c : C} {who : Option C} {n : Nat}

theorem held_room (run : Run (step p) Fresh { io := q } m log) (sound : Sound p size m log who)
    (tidy : Tidy m log) {id : UInt64} (unawaited : id ∉ awaitedIds (queueLog log))
    (under_way : id ∈ outstanding m.io) :
    (registered (queueLog log)).ncard < (begun log).card := by
  have few := outstanding_few run sound tidy
  have conserved := reaches_conserved prompt_bounded sound.queue
  have nodup : (outstanding m.io).Nodup :=
    (List.nodup_append.mp (conserved.perm.nodup_iff.mp conserved.nodup)).1
  have others : registered (queueLog log) ⊆ ((outstanding m.io).toFinset.erase id : Finset UInt64) := by
    intro i there
    obtain ⟨address,here⟩ := Option.isSome_iff_exists.mp there
    rw [Finset.mem_coe, Finset.mem_erase, List.mem_toFinset]
    refine ⟨?_,prompt_outstanding sound.queue here⟩
    rintro rfl
    exact unawaited (awaited_mem (registration_awaited here))
  have less := Set.ncard_le_ncard others (Finset.finite_toSet _)
  rw [Set.ncard_coe_finset, Finset.card_erase_of_mem (List.mem_toFinset.mpr under_way),
    List.toFinset_card_of_nodup nodup] at less
  have positive := List.length_pos_of_mem under_way
  omega

theorem registered_few (run : Run (step p) Fresh { io := q } m log)
    (sound : Sound p size m log who) (tidy : Tidy m log) :
    (registered (queueLog log)).ncard ≤ (begun log).card := by
  have few := outstanding_few run sound tidy
  have within : registered (queueLog log) ⊆ ((outstanding m.io).toFinset : Finset UInt64) := by
    intro i there
    obtain ⟨address,here⟩ := Option.isSome_iff_exists.mp there
    rw [Finset.mem_coe, List.mem_toFinset]
    exact prompt_outstanding sound.queue here
  have less := Set.ncard_le_ncard within (Finset.finite_toSet _)
  rw [Set.ncard_coe_finset] at less
  have most := List.toFinset_card_le (outstanding m.io)
  omega

theorem run_granted (made : create size = some q) (run : Run (step p) Fresh { io := q } m log)
    (few : (begun log).card ≤ m.io.completers_.capacity)
    (bound : drawn (queueLog log) < 2 ^ 63) :
    ∃ address completer child, Granted m address completer child := by
  obtain ⟨who,sound⟩ := run_sound made run (by omega)
  have tidy := run_tidy made run (by omega)
  have conserved := reaches_conserved prompt_bounded sound.queue
  obtain ⟨larger,prime,bounded⟩ := reaches_larger sound.queue
  obtain ⟨top,frame,awaiter⟩ := run_allocates made run
  have registrations := registered_few run sound tidy
  obtain ⟨completer,unused,nonempty,unmarked⟩ :=
    unused_completer prompt_vacant sound.queue (by omega)
  have queued := queued_outstanding (run_ordinary made run (by omega))
  have under_way := outstanding_few run sound tidy
  refine ⟨top,completer,top,frame,awaiter,unused,nonempty,unmarked,by omega,?_⟩
  intro f c continuation op k control stored
  obtain ⟨rfl,busy⟩ := sound_active sound control stored
  cases busy with
  | @holding _ id _ _ _ stack seen issued unawaited unconsumed =>
    have held : id ∈ outstanding m.io :=
      held_outstanding sound tidy ⟨_,stored,.inl ⟨k,rfl⟩⟩
    have room := held_room run sound tidy unawaited held
    have counted := size_counts_registrations prompt_vacant sound.queue
    have below : id.toNat < drawn (queueLog log) := conserved.below id issued
    have small : id.toNat < 2 ^ 63 := by omega
    obtain ⟨content,linked⟩ := reaches_linked prompt_vacant sound.queue
    refine insert_small linked.represents prime bounded small ?_ completer
    rw [counted]
    exact room.trans_le few

omit [DecidableEq C] in
theorem proceed_noted {slot : Sqe} {address child : Nat} {completer : UInt64}
    (run : proceed p m slot address completer child = some (m', e)) : e.note.isSome := by
  simp only [proceed, Option.bind_eq_bind, Option.bind_eq_some_iff] at run
  obtain ⟨f,active,⟨c,continuation,point⟩,stored,run⟩ := run
  cases point with
  | running l =>
    dsimp only at run
    split at run
    · cases continuation <;> cases run <;> rfl
    · simp only [issue] at run
      split at run
      · cases run
        rfl
      · simp at run
    · simp only [call] at run
      split at run
      · cases run
        rfl
      · simp at run
  | issued op k =>
    obtain ⟨_,_,eq⟩ := Option.map_eq_some_iff.mp run
    cases eq
    rfl
  | suspended address k =>
    simp only [release, Option.bind_eq_bind, Option.bind_eq_some_iff] at run
    obtain ⟨_,_,_,_,eq⟩ := run
    cases eq
    rfl
  | awaiting task k =>
    simp only [hand] at run
    split at run
    · cases run
      rfl
    · simp at run
  | final v => simp at run

theorem waiting_advances (sound : Sound p size m log who) (idle : m.control = none)
    (active : m.io.running) :
    ∃ next m', LeftAlone p m m' next ∧ next.length ≤ 2 ∧ 1 ≤ (next.map Event.advance).sum := by
  rcases running_pending sound.queue active with flying | posted
  · obtain ⟨first,rest,queue⟩ := List.exists_cons_of_ne_nil flying
    have found : (m.io.inflight ++ m.io.sq)[0]? = some first := by rw [queue]; rfl
    let io := { m.io with lastSqe_ := none, sq := [], inflight := m.io.inflight ++ m.io.sq }
    have submits : step p m .submit =
        some ({ m with io := io }, { queue := some .submitted }) := by
      simp [step, idle, background, step_submit active, Machine.overwrites, io]
    have completes := step_complete (q := io) found 0
    have one : LeftAlone p m _ _ := Run.next (a := Action.submit) .nil trivial submits
    refine ⟨_,_,Run.next (a := Action.complete 0 0) one trivial
      (Option.map_eq_some_iff.mpr ⟨_,completes,rfl⟩),by simp,by simp [Event.advance, settled]⟩
  · obtain ⟨io,qe,taken⟩ := consume_defined prompt_vacant sound.queue active posted
    cases step_taken taken with
    | @consumed cqe rest resumed io' _ _ _ =>
      cases resumed with
      | none =>
        have moves : step p m .consume =
            some ({ m with io := io }, { queue := some (.consumed cqe none) }) := by
          simp [step, idle, taken]
        exact ⟨_,_,Run.next (a := Action.consume) .nil trivial moves,by simp,
          by simp [Event.advance, settled]⟩
      | some r =>
        obtain ⟨_,met,awaiter,lives,caller,_⟩ := consume_resumes sound.queue taken
        obtain ⟨c,_,top,_,_,_,_,stack,_,_,_,lives',_,top_caller⟩ :=
          sound.registered cqe.user_data r.address met
        obtain rfl := Option.some.inj (lives.symm.trans lives')
        obtain rfl : top = r.caller := top_caller.symm.trans caller
        have moves : step p m .consume = some ({ m with io := io, control := some r.caller },
            { note := some (.resumed c), queue := some (.consumed cqe (some r)) }) := by
          simp only [step, idle, taken, stack.stored]
          rfl
        exact ⟨_,_,Run.next (a := Action.consume) .nil trivial moves,by simp,
          by simp [Event.advance]⟩

omit [DecidableEq C] in
theorem moved_owner (moved : Moved p m a m' e) (unstarted : Unstarted a) :
    ∀ note, e.note = some note → ∃ f frame, m.frameAt f = some frame ∧ frame.owner = note.owner := by
  rintro note here
  cases moved with
  | started c kind _ _ =>
    subst kind
    exact absurd unstarted not_false
  | ended _ stored _ | returned _ stored _ | asked _ _ stored _ _ | called _ stored _ _
  | awaited _ stored _ | released _ stored _ _ | handed _ stored _ | resumed _ _ stored =>
    obtain rfl := Option.some.inj here
    exact ⟨_,_,stored,rfl⟩
  | background _ _ | dropped _ _ => simp at here

structure Alone (p : Program C V L) (q : IoQueue) (m : Machine C V L) (log : List (Event C V))
    (final : Machine C V L) (more : List (Event C V)) : Prop where
  run : Run (step p) Fresh { io := q } final (more ++ log)
  begun : begun (more ++ log) = begun log
  capacity : final.io.completers_.capacity = m.io.completers_.capacity

theorem leftAlone_alone {final : Machine C V L} {more : List (Event C V)}
    (made : create size = some q) (run : Run (step p) Fresh { io := q } m log)
    (halts : ∀ c ∈ begun log, Halts p c n) (short : (begun log).card * (4 * n + 2) < 2 ^ 63)
    (rest : LeftAlone p m final more) : Alone p q m log final more := by
  refine rest.invariant (Alone p q m log) ⟨run,rfl,rfl⟩ ?_
  intro s more a s' e alone unstarted taken
  have moved := step_moved taken
  have fresh : Fresh s (more ++ log) a := by
    cases a with
    | start => exact absurd unstarted not_false
    | _ => trivial
  obtain ⟨covered,small⟩ :=
    run_bounded made alone.run (alone.begun.symm ▸ halts) (alone.begun.symm ▸ short)
  have tidy := run_tidy made alone.run (by omega)
  refine ⟨alone.run.next fresh taken,?_,?_⟩
  · refine Finset.Subset.antisymm ?_ (alone.begun ▸ begun_grows e (more ++ log))
    intro c member
    have either : c ∈ notes [e] ∨ c ∈ notes (more ++ log) := by
      rw [begun, List.cons_append, notes_cons, List.mem_toFinset] at member
      exact List.mem_append.mp member
    rcases either with newest | earlier
    · obtain ⟨e',single,owner⟩ := List.mem_filterMap.mp newest
      obtain rfl := List.mem_singleton.mp single
      obtain ⟨note,here,rfl⟩ := Option.map_eq_some_iff.mp owner
      obtain ⟨f,frame,stored,same⟩ := moved_owner moved unstarted note here
      rw [← alone.begun, mem_begun, ← same]
      exact (tidy.begun f frame stored).1
    · rw [← alone.begun, begun]
      exact List.mem_toFinset.mpr earlier
  · rw [← alone.capacity]
    rcases moved_queue moved with ⟨same,_⟩ | ⟨qa,qe,step,_⟩
    · rw [same]
    · exact taken_capacity step

theorem unfinished_advances (made : create size = some q)
    (run : Run (step p) Fresh { io := q } m log)
    (few : (begun log).card ≤ m.io.completers_.capacity)
    (bound : drawn (queueLog log) < 2 ^ 63) (unfinished : ¬ Finished m) :
    ∃ next m', LeftAlone p m m' next ∧ next.length ≤ 2 ∧ 1 ≤ (next.map Event.advance).sum := by
  obtain ⟨who,sound⟩ := run_sound made run (by omega)
  cases control : m.control with
  | none =>
    refine waiting_advances sound control ?_
    by_contra stopped
    exact unfinished ⟨control,by simpa using stopped⟩
  | some f =>
    obtain ⟨address,completer,child,granted⟩ := run_granted made run few bound
    obtain ⟨⟨m',e⟩,taken⟩ :=
      Option.isSome_iff_exists.mp (sound_proceeds sound control blankSqe granted)
    obtain ⟨note,here⟩ := Option.isSome_iff_exists.mp (proceed_noted taken)
    exact ⟨_,_,Run.next (a := Action.proceed blankSqe address completer child) .nil trivial taken,
      by simp,by simp [Event.advance, here]⟩

theorem finished_returned (made : create size = some q)
    (run : Run (step p) Fresh { io := q } m log) (bound : drawn (queueLog log) < 2 ^ 64 - 2)
    (finished : Finished m) (member : c ∈ begun log) :
    ∃ v, results c log = [v] ∧
      Direct p.code (p.body c) (answers c log) (trace c log) (.done v []) := by
  obtain ⟨who,sound⟩ := run_sound made run bound
  have rests : ¬ Executing m c := by
    rintro ⟨f,_,_,control,_⟩
    simp [finished.1] at control
  have started := mem_begun.mp member
  have returned : results c log ≠ [] := by
    intro unreturned
    have active := (sound_waits sound rests started unreturned).1
    simp [finished.2] at active
  rcases sound_rests sound rests started with ⟨id,address,resting⟩ | ⟨v,seen⟩
  · obtain ⟨_,_,_,_,_,_,seen,_⟩ := resting
    exact absurd seen.outcome returned
  · exact ⟨v,seen.outcome,sound_returned sound (by simp [seen.outcome])⟩

end Progress

/-- Coroutines with finite bodies, no more of them than the completer map has entries, run to
their end. In every continuation without further starts they make boundedly much progress,
two steps suffice for the next bit of it as long as something is unfinished, and in the end
each has returned what its direct evaluation gives on the answers to its own operations. -/
theorem coroutines_finish {p : Program C V L} {size : UInt64} {q : IoQueue} {m : Machine C V L}
    {log : List (Event C V)} {n : Nat} (made : create size = some q)
    (run : Run (step p) Fresh { io := q } m log) (halts : ∀ c ∈ begun log, Halts p c n)
    (few : (begun log).card ≤ m.io.completers_.capacity)
    (short : (begun log).card * (4 * n + 2) < 2 ^ 63) :
    (∀ more final, LeftAlone p m final more →
      (more.map Event.advance).sum ≤ due m.io + 3 * ((begun log).card * (4 * n + 2)) ∧
      (¬ Finished final → ∃ next m', LeftAlone p final m' next ∧ next.length ≤ 2 ∧
        1 ≤ (next.map Event.advance).sum) ∧
      (Finished final → ∀ c ∈ begun log, ∃ v, results c (more ++ log) = [v] ∧
        Direct p.code (p.body c) (answers c (more ++ log)) (trace c (more ++ log)) (.done v []))) ∧
    ∃ more final, LeftAlone p m final more ∧ Finished final := by
  have kept : ∀ {more final}, LeftAlone p m final more → Alone p q m log final more ∧
      drawn (queueLog (more ++ log)) < 2 ^ 63 ∧
      (notes (more ++ log)).length ≤ (begun log).card * (4 * n + 2) := by
    intro more final rest
    have alone := leftAlone_alone made run halts short rest
    obtain ⟨covered,small⟩ :=
      run_bounded made alone.run (alone.begun.symm ▸ halts) (alone.begun.symm ▸ short)
    obtain ⟨who,sound⟩ := run_sound made alone.run (by omega)
    have most := sound_bounded sound (alone.begun.symm ▸ halts)
    exact ⟨alone,by omega,alone.begun ▸ most⟩
  have advances : ∀ {more final}, LeftAlone p m final more → ¬ Finished final →
      ∃ next m', LeftAlone p final m' next ∧ next.length ≤ 2 ∧
        1 ≤ (next.map Event.advance).sum := by
    intro more final rest unfinished
    obtain ⟨alone,bound,_⟩ := kept rest
    exact unfinished_advances made alone.run (by rw [alone.begun, alone.capacity]; exact few)
      bound unfinished
  constructor
  · intro more final rest
    obtain ⟨alone,bound,most⟩ := kept rest
    refine ⟨?_,advances rest,fun finished c member => ?_⟩
    · have spent := leftAlone_advance rest
      rw [notes_append, List.length_append] at most
      omega
    · exact finished_returned made alone.run (by omega) finished (alone.begun ▸ member)
  · let left : Machine C V L → List (Event C V) → Nat := fun s seen =>
      due s.io + 3 * ((begun log).card * (4 * n + 2) - (notes seen).length)
    have nearer : ∀ s seen, (∃ more, seen = more ++ log ∧ LeftAlone p m s more) → ¬ Finished s →
        ∃ next s', LeftAlone p s s' next ∧
          (∃ more, next ++ seen = more ++ log ∧ LeftAlone p m s' more) ∧
          left s' (next ++ seen) < left s seen := by
      rintro s seen ⟨more,rfl,rest⟩ unfinished
      obtain ⟨next,s',on,_,progress⟩ := advances rest unfinished
      have whole : LeftAlone p m s' (next ++ more) := rest.append on
      obtain ⟨_,_,most⟩ := kept whole
      have spent := leftAlone_advance on
      rw [List.append_assoc, notes_append, List.length_append] at most
      refine ⟨next,s',on,⟨next ++ more,by rw [List.append_assoc],whole⟩,?_⟩
      simp only [left]
      rw [notes_append, List.length_append]
      omega
    obtain ⟨more,final,rest,_,finished⟩ := Run.finishes _ left Finished nearer ⟨[],rfl,.nil⟩
    exact ⟨more,final,rest,finished⟩

theorem relay_returns {l : Nat} {v w : Int32} (here : relay.code (l, v) = .ret w)
    (answers : List Int32) : Direct relay.code (l, v) answers [] (.done w answers) :=
  .ret here answers

theorem relay_halts (c : Bool) : Halts relay c 5 := by
  intro answers
  cases c with
  | false =>
    match answers with
    | [] => exact ⟨_,_,.wait rfl,by simp⟩
    | [_] => exact ⟨_,_,.ask rfl (.wait rfl),by simp⟩
    | a :: b :: more =>
      exact ⟨_,_,.ask rfl (.ask rfl (relay_returns (l := 22) (v := a + b) rfl more)),by simp⟩
  | true =>
    match answers with
    | [] => exact ⟨_,_,.callWaits rfl (.wait rfl),by simp⟩
    | a :: more =>
      have inner := relay_returns (l := 11) (v := a) rfl more
      have last := relay_returns (l := 2) (v := a + 1) rfl more
      exact ⟨_,_,.call rfl (.ask rfl inner)
        (.call rfl (relay_returns (l := 12) (v := a) rfl more) last),by simp⟩

theorem relay_finishes :
    ∃ q m log, create 0 = some q ∧ Run (step relay) Fresh { io := q } m log ∧
      begun log = {true, false} ∧ ∃ more final, LeftAlone relay m final more ∧ Finished final ∧
        ∀ c ∈ begun log, ∃ v, results c (more ++ log) = [v] ∧
          Direct relay.code (relay.body c) (answers c (more ++ log)) (trace c (more ++ log))
            (.done v []) := by
  let next : Action Bool := .proceed blankSqe 0 0 2
  let actions : List (Action Bool) := [.start true 1, next, next, .proceed blankSqe 100 16 0,
    .start false 3, next, .proceed blankSqe 200 32 0]
  have computed : ((create 0).bind fun q =>
      (replay (step relay) Fresh { io := q } [] actions).map fun (m, log) =>
        decide (begun log = {true, false} ∧ 2 ≤ m.io.completers_.capacity)) = some true := by
    decide +kernel
  obtain ⟨q,made,rest⟩ := Option.bind_eq_some_iff.mp computed
  obtain ⟨m,log,run,facts⟩ := replay_reaches rest
  obtain ⟨both,few⟩ := of_decide_eq_true facts
  have two : (begun log).card = 2 := by
    rw [both]
    rfl
  obtain ⟨always,more,final,alone,finished⟩ := coroutines_finish made run
    (fun c _ => relay_halts c) (two ▸ few) (by rw [two]; decide)
  exact ⟨q,m,log,made,run,both,more,final,alone,finished,(always more final alone).2.2 finished⟩

end Coroutine
end Aiopp
