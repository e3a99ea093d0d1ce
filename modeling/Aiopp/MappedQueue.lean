import Aiopp.Transfer
import Aiopp.Registration
import Aiopp.Foundations.CircularBuffer

/-!
The queue with its prepared entries where they are: as bytes in the ring that is shared with
the kernel. `lastSqe_` points into that ring, and the flag for a linked timeout is set through
it. A run of this queue is a run of the queue that keeps a list of entries.
-/
namespace Aiopp
open IoQueue IoURing ByteLayout CircularBuffer Transition

def Opcode.all : List Opcode :=
  [.nop, .readv, .writev, .fsync, .pollAdd, .pollRemove, .syncFileRange, .sendmsg, .recvmsg,
    .timeout, .timeoutRemove, .accept, .asyncCancel, .linkTimeout, .connect, .openat, .close,
    .statx, .read, .write, .send, .recv, .openat2, .epollCtl, .shutdown, .renameat, .unlinkat]

def Opcode.ofCode (code : UInt8) : Option Opcode := Opcode.all.find? (·.code = code)

/-- The entry in a slot of the ring, as the kernel reads it. -/
def Sqe.load (m : Memory) (slot : Nat) : Option Sqe :=
  let field := fun offset width => ByteLayout.load m (64 * slot + offset) width
  (Opcode.ofCode (.ofNat (field 0 1))).map fun opcode => {
    opcode := opcode
    flags := .ofNat (field 1 1)
    ioprio := .ofNat (field 2 2)
    fd := (UInt32.ofNat (field 4 4)).toInt32
    off := .ofNat (field 8 8)
    addr := .ofNat (field 16 8)
    len := .ofNat (field 24 4)
    rw_flags := .ofNat (field 28 4)
    user_data := .ofNat (field 32 8)
    buf_index := .ofNat (field 40 2)
    personality := .ofNat (field 42 2)
    splice_fd_in := (UInt32.ofNat (field 44 4)).toInt32
    pad2 := (.ofNat (field 48 8), .ofNat (field 56 8)) }

/-- What has been prepared since the last submission, from the head of the ring to its tail. -/
def IoURing.SqRing.pending (ring : SqRing) : Option (List Sqe) :=
  (List.range (ring.tail - ring.head).toNat).mapM fun i =>
    Sqe.load ring.memory ((ring.head + .ofNat 32 i).toNat % ring.entries)

/-- The queue apart from its entries, whose own list stays empty, and the ring.
    `lastSqe_` is a slot of the ring. -/
structure MappedQueue where
  queue : IoQueue
  ring : SqRing
  lastSqe_ : Option Nat

namespace MappedQueue

def prepare (m : MappedQueue) (op : Operation) (userData : UInt64) :
    OperationHandle × MappedQueue :=
  match m.ring.queue (.operation op) userData with
  | none => ({}, m)
  | some (sqe, ring) => (⟨true, userData⟩, { m with ring := ring, lastSqe_ := some sqe })

def issue (m : MappedQueue) (req : Request) : OperationHandle × MappedQueue :=
  { m with queue := m.queue.getNextOpId.2 }.prepare req.operation m.queue.getNextOpId.1

def linkTimeout (m : MappedQueue) (op : OperationHandle) (ts : UInt64) (flags : Int32) :
    Option (OperationHandle × MappedQueue) := do
  guard op.valid
  let lastSqe ← m.lastSqe_
  guard (load m.ring.memory (64 * lastSqe + 32) 8 = op.id.toNat)
  let m := { m with ring := m.ring.link lastSqe }
  let (handle, m) := m.prepare (.linkTimeout ts flags.toUInt32) OpIdIgnore
  if handle.valid then some (op, m) else some ({}, m)

def cancel (m : MappedQueue) (op : OperationHandle) (cancelHandler : Bool) :
    Option (OperationHandle × MappedQueue) :=
  if op.valid then
    let m := if cancelHandler then { m with queue := m.queue.dropCompleter op.id } else m
    some (m.prepare (.asyncCancel op.id) OpIdIgnore)
  else none

def destroy (m : MappedQueue) (address : Nat) : Option (MappedQueue × Option UInt64) := do
  let awaiter ← m.queue.awaiterAt address
  let erase := fun m : MappedQueue => { m with queue :=
    { m.queue with awaiterAt := Function.update m.queue.awaiterAt address none } }
  if awaiter.operation.valid then
    let (_, m) ← m.cancel awaiter.operation true
    some (erase m, some awaiter.operation.id)
  else some (erase m, none)

/-- The kernel copies the entries when they are submitted. -/
def submit (m : MappedQueue) : Option MappedQueue :=
  m.ring.pending.map fun entries =>
    { queue := { m.queue with inflight := m.queue.inflight ++ entries }
      ring := { m.ring with head := m.ring.tail }
      lastSqe_ := none }

/-- One step like `IoQueue.step`; the content of a slot is whatever the ring holds there. -/
def step (m : MappedQueue) : Action → Option (MappedQueue × Event)
  | .issue req _ => some ((m.issue req).2, .issued m.queue.getNextOpId.1 (m.issue req).1)
  | .linkTimeout op ts flags _ =>
    (m.linkTimeout op ts flags).map fun (result, m') => (m', .linked op result)
  | .cancel op cancelHandler _ =>
    (m.cancel op cancelHandler).map fun (_, m') => (m', .cancelled op.id cancelHandler)
  | .destroy address _ =>
    (m.destroy address).map fun (m', cancelled) => (m', .destroyed address cancelled)
  | .submit => if m.queue.running then m.submit.map fun m' => (m', .submitted) else none
  | .submitFails =>
    if m.queue.running then some ({ m with lastSqe_ := none }, .submitFailed) else none
  | .await op address caller completer =>
    (m.queue.step (.await op address caller completer)).map fun (queue, e) =>
      ({ m with queue := queue }, e)
  | .complete position res =>
    (m.queue.step (.complete position res)).map fun (queue, e) => ({ m with queue := queue }, e)
  | .consume => (m.queue.step .consume).map fun (queue, e) => ({ m with queue := queue }, e)

def Stored (memory : Memory) (slot : Nat) (sqe : Sqe) : Prop :=
  Reads (64 * slot) memory sqe.fields

/-- The part of the queue that is not in the ring. -/
def unlisted (q : IoQueue) : IoQueue := { q with sq := [], lastSqe_ := none }

structure Refines (m : MappedQueue) (q : IoQueue) : Prop where
  rest : m.queue = unlisted q
  entries : m.ring.entries = q.sqEntries
  fits : Fits 32 m.ring.entries
  held : Holds (Stored m.ring.memory) m.ring.entries m.ring.head m.ring.tail q.sq
  last : m.lastSqe_ = q.lastSqe_.map fun position =>
    (m.ring.head + .ofNat 32 position).toNat % m.ring.entries
  inside : ∀ position, q.lastSqe_ = some position → position < q.sq.length

section Memory
variable {memory memory' : Memory} {slot : Nat} {sqe : Sqe}

theorem ofCode_code (opcode : Opcode) : Opcode.ofCode opcode.code = some opcode := by
  cases opcode <;> decide

theorem load_stored (stored : Stored memory slot sqe) : Sqe.load memory slot = some sqe := by
  simp only [Stored, Reads, Sqe.fields, List.forall_mem_cons, Layout.opcode, Layout.flags,
    Layout.ioprio, Layout.fd, Layout.off, Layout.addr, Layout.len, Layout.rw_flags,
    Layout.user_data, Layout.buf_index, Layout.personality, Layout.splice_fd_in,
    Layout.pad2] at stored
  obtain ⟨opcode,flags,ioprio,fd,off,addr,len,rw_flags,user_data,buf_index,personality,splice,
    second,first,_⟩ := stored
  simp only [Sqe.load, opcode]
  simp [ofCode_code, flags, ioprio, fd, off, addr, len, rw_flags, user_data, buf_index,
    personality, splice, second, first]

theorem user_data_stored (stored : Stored memory slot sqe) :
    load memory (64 * slot + 32) 8 = sqe.user_data.toNat :=
  stored (Layout.user_data sqe.user_data) (by simp [Sqe.fields])

theorem fields_within (sqe : Sqe) : ∀ s ∈ sqe.fields, s.offset + s.width ≤ 64 := by
  simp [Sqe.fields]

theorem stored_congr (same : ∀ k < 64, memory (64 * slot + k) = memory' (64 * slot + k))
    (stored : Stored memory slot sqe) : Stored memory' slot sqe := by
  intro field listed
  rw [← stored field listed]
  have within := fields_within sqe field listed
  apply load_congr
  intro i bound
  have place : 64 * slot + field.offset + i = 64 * slot + (field.offset + i) := Nat.add_assoc _ _ _
  rw [place]
  exact (same (field.offset + i) (by omega)).symm

theorem stored_writeAll {stores : List Store} {written : Nat} (other : slot ≠ written)
    (within : ∀ s ∈ stores, s.offset + s.width ≤ 64) (stored : Stored memory slot sqe) :
    Stored (writeAll (64 * written) memory stores) slot sqe := by
  apply stored_congr _ stored
  intro k inside
  exact (writeAll_frame within (by omega)).symm

end Memory

section Steps
variable {m : MappedQueue} {q : IoQueue}

theorem queued_ring {ring after : SqRing} {call : Call} {userData : UInt64} {sqe : Nat}
    (queued : ring.queue call userData = some (sqe, after)) :
    (ring.tail - ring.head).toNat < ring.entries ∧ sqe = ring.tail.toNat % ring.entries ∧
      after = { ring with
        memory := writeAll (64 * sqe) ring.memory (call.stores ++ [Layout.user_data userData])
        tail := ring.tail + 1 } := by
  have memory := queue_memory queued
  obtain ⟨found,slot,written⟩ := Option.map_eq_some_iff.mp queued
  obtain ⟨room,rfl⟩ := getSqe_eq slot
  cases written
  exact ⟨room,rfl,by rw [← memory]; rfl⟩

theorem queue_none_iff {ring : SqRing} {call : Call} {userData : UInt64} :
    ring.queue call userData = none ↔ ¬ (ring.tail - ring.head).toNat < ring.entries := by
  rw [SqRing.queue, Option.map_eq_none_iff, SqRing.getSqe]
  split <;> simp_all

theorem pending_refines (refines : Refines m q) : m.ring.pending = some q.sq :=
  holds_read refines.held fun _ _ => load_stored

/-- Preparing an entry in the ring appends it to the list, and is refused when the list is full. -/
theorem prepare_refines (refines : Refines m q) (op : Operation) (userData : UInt64)
    (slot : Sqe) :
    (m.prepare op userData).1 =
        (q.finalizeSqe ((q.getSqe slot).map op.prepare) userData).1 ∧
      Refines (m.prepare op userData).2
        (q.finalizeSqe ((q.getSqe slot).map op.prepare) userData).2 := by
  have counted := refines.held.count
  have entries := refines.entries
  cases queued : m.ring.queue (.operation op) userData with
  | none =>
    have full := queue_none_iff.mp queued
    have refused : q.getSqe slot = none := if_neg (by omega)
    simp only [MappedQueue.prepare, queued, refused, Option.map_none, finalizeSqe]
    exact ⟨trivial,refines⟩
  | some found =>
    obtain ⟨sqe,after⟩ := found
    obtain ⟨room,rfl,rfl⟩ := queued_ring queued
    have granted : q.getSqe slot = some slot := if_pos (by omega)
    simp only [MappedQueue.prepare, queued, granted, Option.map_some, finalizeSqe]
    refine ⟨trivial,refines.rest,entries,refines.fits,?_,?_,?_⟩
    · apply holds_push refines.fits refines.held room
      · exact queue_reads slot queued
      · intro cell other x
        apply stored_writeAll other
        intro s listed
        rcases List.mem_append.mp listed with stored | last
        · exact stores_within _ s stored
        · simp_all
    · simp only [Option.map_some]
      rw [← tail_eq refines.held]
    · intro position last
      cases last
      simp

theorem refines_unlisted {queue q' : IoQueue} (refines : Refines m q)
    (rest : queue = unlisted q') (same : q'.sq = q.sq ∧ q'.lastSqe_ = q.lastSqe_ ∧
      q'.sqEntries = q.sqEntries) : Refines { m with queue := queue } q' := by
  obtain ⟨sq,lastSqe,sqEntries⟩ := same
  refine ⟨rest,?_,refines.fits,?_,?_,?_⟩
  · rw [sqEntries]
    exact refines.entries
  · rw [sq]
    exact refines.held
  · rw [lastSqe]
    exact refines.last
  · rw [sq, lastSqe]
    exact refines.inside

theorem getNextOpId_unlisted (q : IoQueue) :
    (unlisted q).getNextOpId = (q.getNextOpId.1, unlisted q.getNextOpId.2) := rfl

theorem issue_refines (refines : Refines m q) (req : Request) (slot : Sqe) :
    (m.issue req).1 = (q.issue req slot).1 ∧ Refines (m.issue req).2 (q.issue req slot).2 := by
  have drawn : m.queue.getNextOpId = (q.getNextOpId.1, unlisted q.getNextOpId.2) := by
    rw [refines.rest, getNextOpId_unlisted]
  have prepared := prepare_refines (refines_unlisted refines rfl ⟨rfl,rfl,rfl⟩ :
    Refines { m with queue := unlisted q.getNextOpId.2 } q.getNextOpId.2)
    req.operation q.getNextOpId.1 slot
  have encoder : req.prepare = req.operation.prepare := funext fun slot => prepare_operation slot req
  unfold MappedQueue.issue IoQueue.issue
  rw [drawn, encoder]
  exact prepared

theorem cancel_refines (refines : Refines m q) (op : OperationHandle) (cancelHandler : Bool)
    (slot : Sqe) :
    (m.cancel op cancelHandler = none ∧ q.cancel op cancelHandler slot = none) ∨
      ∃ m' q' handle, m.cancel op cancelHandler = some (handle, m') ∧
        q.cancel op cancelHandler slot = some (handle, q') ∧ Refines m' q' := by
  unfold MappedQueue.cancel IoQueue.cancel
  by_cases valid : op.valid
  · rw [if_pos valid, if_pos valid]
    have dropped : Refines (if cancelHandler then
        { m with queue := m.queue.dropCompleter op.id } else m)
        (if cancelHandler then q.dropCompleter op.id else q) := by
      cases cancelHandler with
      | false => exact refines
      | true =>
        refine refines_unlisted refines ?_ ⟨rfl,rfl,rfl⟩
        rw [refines.rest]
        rfl
    obtain ⟨handle,after⟩ := prepare_refines dropped (.asyncCancel op.id) OpIdIgnore slot
    exact .inr ⟨_,_,_,rfl,congrArg some (Prod.ext handle.symm rfl),after⟩
  · rw [if_neg valid, if_neg valid]
    exact .inl ⟨rfl,rfl⟩

theorem destroy_refines (refines : Refines m q) (address : Nat) (slot : Sqe) :
    (m.destroy address = none ∧ q.destroy address slot = none) ∨
      ∃ m' q' cancelled, m.destroy address = some (m', cancelled) ∧
        q.destroy address slot = some (q', cancelled) ∧ Refines m' q' := by
  have erased : ∀ {m : MappedQueue} {q : IoQueue}, Refines m q → Refines
      { m with queue :=
        { m.queue with awaiterAt := Function.update m.queue.awaiterAt address none } }
      { q with awaiterAt := Function.update q.awaiterAt address none } := by
    intro m q refines
    refine refines_unlisted refines ?_ ⟨rfl,rfl,rfl⟩
    rw [refines.rest]
    rfl
  have there : m.queue.awaiterAt address = q.awaiterAt address := by
    rw [refines.rest]
    rfl
  unfold MappedQueue.destroy IoQueue.destroy
  rw [there]
  cases lives : q.awaiterAt address with
  | none => exact .inl ⟨rfl,rfl⟩
  | some awaiter =>
    by_cases valid : awaiter.operation.valid
    · simp only [Option.bind_eq_bind, Option.bind_some, if_pos valid]
      rcases cancel_refines refines awaiter.operation true slot with
        ⟨refused,refused'⟩ | ⟨m',q',handle,done,done',after⟩
      · rw [refused, refused']
        exact .inl ⟨rfl,rfl⟩
      · rw [done, done']
        exact .inr ⟨_,_,_,rfl,rfl,erased after⟩
    · simp only [Option.bind_eq_bind, Option.bind_some, if_neg valid]
      exact .inr ⟨_,_,_,rfl,rfl,erased refines⟩

theorem link_refines (refines : Refines m q) {position : Nat} {last : Sqe}
    (entry : q.sq[position]? = some last) :
    Refines { m with ring := m.ring.link ((m.ring.head + .ofNat 32 position).toNat % m.ring.entries) }
      { q with sq := q.sq.set position { last with flags := last.flags ||| IOSQE_IO_LINK } } := by
  have stored := refines.held.item position last entry
  refine ⟨refines.rest,refines.entries,refines.fits,?_,refines.last,?_⟩
  · refine holds_set refines.fits refines.held entry (link_reads stored) ?_
    intro cell other x
    apply stored_writeAll other
    simp
  · intro place there
    rw [List.length_set]
    exact refines.inside place there

theorem checked_refines (refines : Refines m q) (prepared : Operation) (userData : UInt64)
    (slot : Sqe) (op : OperationHandle) :
    ∃ m' q' result, (if (m.prepare prepared userData).1.valid then
        some (op, (m.prepare prepared userData).2)
      else some ({}, (m.prepare prepared userData).2)) = some (result, m') ∧
      (if (q.finalizeSqe ((q.getSqe slot).map prepared.prepare) userData).1.valid then
        some (op, (q.finalizeSqe ((q.getSqe slot).map prepared.prepare) userData).2)
      else some ({}, (q.finalizeSqe ((q.getSqe slot).map prepared.prepare) userData).2)) =
        some (result, q') ∧ Refines m' q' := by
  obtain ⟨handle,after⟩ := prepare_refines refines prepared userData slot
  rw [handle]
  split
  · exact ⟨_,_,_,rfl,rfl,after⟩
  · exact ⟨_,_,_,rfl,rfl,after⟩

theorem linkTimeout_refines (refines : Refines m q) (op : OperationHandle) (ts : UInt64)
    (flags : Int32) (slot : Sqe) :
    (m.linkTimeout op ts flags = none ∧ q.linkTimeout op ts flags slot = none) ∨
      ∃ m' q' result, m.linkTimeout op ts flags = some (result, m') ∧
        q.linkTimeout op ts flags slot = some (result, q') ∧ Refines m' q' := by
  have last_slot := refines.last
  unfold MappedQueue.linkTimeout IoQueue.linkTimeout
  by_cases valid : op.valid
  · cases last_found : q.lastSqe_ with
    | none =>
      rw [last_found] at last_slot
      simp [last_slot]
    | some position =>
      obtain ⟨last,entry⟩ : ∃ last, q.sq[position]? = some last :=
        ⟨_,List.getElem?_eq_getElem (refines.inside position last_found)⟩
      rw [last_found, Option.map_some] at last_slot
      have data := user_data_stored (refines.held.item position last entry)
      by_cases own : last.user_data = op.id
      · have passed : guard (op.valid = true) = some () := by simp [valid]
        have checked : guard (last.user_data = op.id) = some () := by simp [own]
        have read : guard (load m.ring.memory (64 * ((m.ring.head + .ofNat 32 position).toNat %
            m.ring.entries) + 32) 8 = op.id.toNat) = some () := by
          rw [data, own]
          simp
        have linked := link_refines refines entry
        rw [last_slot, last_found] at linked
        simp only [passed, last_slot, read, entry, checked, Option.bind_eq_bind,
          Option.bind_some]
        exact .inr (checked_refines linked (.linkTimeout ts flags.toUInt32) OpIdIgnore slot op)
      · have other : ¬ last.user_data.toNat = op.id.toNat :=
          fun same => own (UInt64.toNat.inj same)
        simp only [last_slot, Option.bind_eq_bind, Option.bind_some, data]
        simp [valid, guard, entry, own, other]
  · simp [valid, guard]

def Elsewhere : Action → Prop
  | .await .. => True
  | .complete .. => True
  | .consume => True
  | _ => False

theorem await_unlisted (q : IoQueue) (op : OperationHandle) (address caller : Nat)
    (completer : UInt64) :
    (unlisted q).await op address caller completer =
      (q.await op address caller completer).map unlisted := by
  unfold IoQueue.await setCompleter
  split
  · rw [Option.map_map]
    rfl
  · rfl

theorem complete_unlisted (q : IoQueue) (completer : UInt64) (res : Int32) :
    (unlisted q).complete completer res =
      (q.complete completer res).map fun done => (unlisted done.1, done.2) := by
  have same : ∀ address, (unlisted q).awaiterAt address = q.awaiterAt address := fun _ => rfl
  unfold complete
  cases points : q.completerAt completer with
  | none => simp [unlisted, points]
  | some found =>
    cases lives : q.awaiterAt found.awaiter with
    | none => simp [unlisted, points, lives]
    | some awaiter => simp [unlisted, points, lives]

theorem dispatch_unlisted (q : IoQueue) (cqe : Cqe) :
    (unlisted q).dispatch cqe = (q.dispatch cqe).map fun done => (unlisted done.1, done.2) := by
  have completed := complete_unlisted
    { q with completers_ := (q.completers_.remove cqe.user_data).2 }
    (q.completers_.remove cqe.user_data).1 cqe.res
  have same : (unlisted q).completers_ = q.completers_ := rfl
  simp only [dispatch, same]
  split
  · split
    · have lifted := congrArg (Option.map fun done => (done.1, some done.2)) completed
      rw [Option.map_map] at lifted
      rw [Option.map_map]
      exact lifted
    · rfl
  · rfl

theorem step_unlisted {a : Action} (elsewhere : Elsewhere a) (q : IoQueue) :
    (unlisted q).step a = (q.step a).map fun done => (unlisted done.1, done.2) := by
  cases a with
  | await op address caller completer =>
    have same : (unlisted q).awaiterAt = q.awaiterAt ∧
      (unlisted q).completerAt = q.completerAt := ⟨rfl,rfl⟩
    simp only [IoQueue.step, await_unlisted, same]
    split
    · rw [Option.map_map, Option.map_map]
      rfl
    · rfl
  | complete position res =>
    have same : (unlisted q).inflight = q.inflight := rfl
    simp only [IoQueue.step, same]
    split
    · rfl
    · rfl
  | consume =>
    have same : (unlisted q).cq = q.cq ∧ (unlisted q).running = q.running := ⟨rfl,rfl⟩
    simp only [IoQueue.step, same]
    split
    · split
      · rfl
      · rename_i cqe rest _
        have lifted := congrArg (Option.map fun done => (done.1, Event.consumed cqe done.2))
          (dispatch_unlisted { q with cq := rest } cqe)
        rw [Option.map_map] at lifted
        rw [Option.map_map]
        exact lifted
    · rfl
  | _ => exact absurd elsewhere not_false

theorem step_lists {a : Action} {q' : IoQueue} {e : Event} (elsewhere : Elsewhere a)
    (stepped : q.step a = some (q', e)) :
    q'.sq = q.sq ∧ q'.lastSqe_ = q.lastSqe_ ∧ q'.sqEntries = q.sqEntries := by
  cases step_taken stepped with
  | awaited free unused nonempty unmarked run =>
    obtain ⟨_,_,_,rfl⟩ := await_cases run
    exact ⟨rfl,rfl,rfl⟩
  | completed => exact ⟨rfl,rfl,rfl⟩
  | consumed active queued run =>
    obtain ⟨_,_,_,rfl,_⟩ := dispatch_frame run
    exact ⟨rfl,rfl,rfl⟩
  | _ => exact absurd elsewhere not_false

theorem elsewhere_refines {a : Action} (elsewhere : Elsewhere a) (refines : Refines m q) :
    ((m.queue.step a).map (fun done => ({ m with queue := done.1 }, done.2)) = none ∧
        q.step a = none) ∨
      ∃ m' q' e, (m.queue.step a).map (fun done => ({ m with queue := done.1 }, done.2)) =
        some (m', e) ∧ q.step a = some (q', e) ∧ Refines m' q' := by
  rw [refines.rest, step_unlisted elsewhere]
  cases stepped : q.step a with
  | none => exact .inl ⟨rfl,rfl⟩
  | some done =>
    obtain ⟨q',e⟩ := done
    exact .inr ⟨_,_,_,rfl,rfl,refines_unlisted refines rfl (step_lists elsewhere stepped)⟩

theorem submit_refines (refines : Refines m q) :
    ∃ m', m.submit = some m' ∧ Refines m'
      { q with lastSqe_ := none, sq := [], inflight := q.inflight ++ q.sq } := by
  rw [MappedQueue.submit, pending_refines refines, Option.map_some]
  refine ⟨_,rfl,?_,refines.entries,refines.fits,holds_empty _,rfl,?_⟩
  · rw [refines.rest]
    rfl
  · intro position last
    cases last

theorem step_refines : LockStep MappedQueue.step IoQueue.step Refines := by
  intro m q a refines
  have running : m.queue.running = q.running := by
    rw [refines.rest]
    rfl
  cases a with
  | issue req slot =>
    obtain ⟨handle,after⟩ := issue_refines refines req slot
    have drawn : m.queue.getNextOpId.1 = q.getNextOpId.1 := by
      rw [refines.rest, getNextOpId_unlisted]
    refine .inr ⟨_,_,_,rfl,?_,after⟩
    rw [step_issue, drawn, handle]
  | linkTimeout op ts flags slot =>
    simp only [MappedQueue.step, IoQueue.step]
    rcases linkTimeout_refines refines op ts flags slot with
      ⟨refused,refused'⟩ | ⟨m',q',result,done,done',after⟩
    · rw [refused, refused']
      exact .inl ⟨rfl,rfl⟩
    · rw [done, done']
      exact .inr ⟨_,_,_,rfl,rfl,after⟩
  | cancel op cancelHandler slot =>
    simp only [MappedQueue.step, IoQueue.step]
    rcases cancel_refines refines op cancelHandler slot with
      ⟨refused,refused'⟩ | ⟨m',q',handle,done,done',after⟩
    · rw [refused, refused']
      exact .inl ⟨rfl,rfl⟩
    · rw [done, done']
      exact .inr ⟨_,_,_,rfl,rfl,after⟩
  | destroy address slot =>
    simp only [MappedQueue.step, IoQueue.step]
    rcases destroy_refines refines address slot with
      ⟨refused,refused'⟩ | ⟨m',q',cancelled,done,done',after⟩
    · rw [refused, refused']
      exact .inl ⟨rfl,rfl⟩
    · rw [done, done']
      exact .inr ⟨_,_,_,rfl,rfl,after⟩
  | submit =>
    obtain ⟨m',submitted,after⟩ := submit_refines refines
    simp only [MappedQueue.step, IoQueue.step, running, submitted]
    split
    · exact .inr ⟨_,_,_,rfl,rfl,after⟩
    · exact .inl ⟨rfl,rfl⟩
  | submitFails =>
    have forgotten : Refines { m with lastSqe_ := none } { q with lastSqe_ := none } :=
      ⟨refines.rest,refines.entries,refines.fits,refines.held,rfl,by simp⟩
    simp only [MappedQueue.step, IoQueue.step, running]
    split
    · exact .inr ⟨_,_,_,rfl,rfl,forgotten⟩
    · exact .inl ⟨rfl,rfl⟩
  | await op address caller completer => exact elsewhere_refines trivial refines
  | complete position res => exact elsewhere_refines trivial refines
  | consume => exact elsewhere_refines trivial refines

end Steps

def mapped (q : IoQueue) (memory : Memory) (start : BitVec 32) : MappedQueue :=
  ⟨unlisted q,⟨memory,q.sqEntries,start,start⟩,none⟩

/-- The ring has as many entries as the largest table of completers at most. -/
theorem created_fits {size : UInt64} {q₀ : IoQueue} (made : create size = some q₀) :
    Fits 32 q₀.sqEntries := by
  obtain ⟨completers,table,rfl⟩ := Option.map_eq_some_iff.mp made
  obtain ⟨n,sized,rfl⟩ := Option.map_eq_some_iff.mp table
  have small : n.toNat ≤ 196613 := by
    unfold CompleterMap.getNextSize at sized
    split at sized
    · have listed := List.mem_of_find?_eq_some sized
      simp only [CompleterMap.primes, List.mem_cons, List.not_mem_nil, or_false] at listed
      rcases listed with rfl | rfl | rfl | rfl | rfl | rfl | rfl | rfl | rfl | rfl | rfl | rfl | rfl
      all_goals decide
    · simp at sized
  simp only [CompleterMap.capacity, List.length_replicate, ringEntries]
  split
  · exact ⟨one_dvd _,by simp⟩
  · have log : (n.toNat - 1).log2 < 18 := by
      apply (Nat.log2_lt (by omega)).mpr
      omega
    exact ⟨pow_dvd_pow 2 (by omega),Nat.pow_lt_pow_right (by omega) (by omega)⟩

theorem mapped_refines {size : UInt64} {q₀ : IoQueue} (made : create size = some q₀)
    (memory : Memory) (start : BitVec 32) : Refines (mapped q₀ memory start) q₀ := by
  have fits := created_fits made
  obtain ⟨completers,_,rfl⟩ := Option.map_eq_some_iff.mp made
  exact ⟨rfl,rfl,fits,holds_empty start,rfl,by simp⟩

end MappedQueue
end Aiopp
