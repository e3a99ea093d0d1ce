import Aiopp.CompleterMap
import Aiopp.IoURing
import Aiopp.Foundations.Transition

/-!
The queue over its ring, its completer map and the kernel. A state holds the
queue's own fields, the kernel's side of the ring, and the two kinds of heap
objects a completion goes through: the completer that the map points to and the
awaiter inside the suspended coroutine. The surroundings choose addresses,
kernel results and their order; a call that aborts, fails an assertion or
follows a dangling pointer has no successor.
-/
namespace Aiopp
namespace IoQueue

def OpIdInvalid : UInt64 := 0xfffffffffffffffe
def OpIdIgnore : UInt64 := 0xffffffffffffffff

structure OperationHandle where
  io : Bool := false
  id : UInt64 := OpIdInvalid
  deriving DecidableEq, Repr

def OperationHandle.valid (op : OperationHandle) : Bool := op.io && op.id ≠ OpIdInvalid

/-- `result` starts as the smallest int, which is no errno. -/
structure OperationAwaiter where
  operation : OperationHandle
  caller : Nat
  result : Int32 := -2147483648
  deriving DecidableEq, Repr

structure CoroutineCompleter where
  awaiter : Nat
  deriving DecidableEq, Repr

/-- The calls of the queue that draw an operation id of their own. -/
inductive Request where
  | accept (fd : Int32) (addr addrlen : UInt64)
  | connect (sockfd : Int32) (addr : UInt64) (addrlen : UInt32)
  | send (sockfd : Int32) (buf len : UInt64)
  | recv (sockfd : Int32) (buf len : UInt64)
  | read (fd : Int32) (buf count : UInt64)
  | close (fd : Int32)
  | shutdown (fd how : Int32)
  | poll (fd : Int32) (events : Int16)
  | recvmsg (sockfd : Int32) (msg : UInt64) (flags : Int32)
  | sendmsg (sockfd : Int32) (msg : UInt64) (flags : Int32)
  | timeout (ts : UInt64) (flags : UInt32)
  deriving DecidableEq, Repr

open IoURing in
def Request.prepare (sqe : Sqe) : Request → Sqe
  | .accept fd addr addrlen => prepareAccept sqe fd addr addrlen 0
  | .connect sockfd addr addrlen => prepareConnect sqe sockfd addr addrlen
  | .send sockfd buf len => prepareSend sqe sockfd buf len 0
  | .recv sockfd buf len => prepareRecv sqe sockfd buf len 0
  | .read fd buf count => prepareRead sqe fd buf count 0
  | .close fd => prepareClose sqe fd
  | .shutdown fd how => prepareShutdown sqe fd how
  | .poll fd events => preparePollAdd sqe fd events 0
  | .recvmsg sockfd msg flags => prepareRecvmsg sqe sockfd msg flags
  | .sendmsg sockfd msg flags => prepareSendmsg sqe sockfd msg flags
  | .timeout ts flags => prepareTimeout sqe ts 0 flags

/-- What a resumed awaiter is handed: its own operation, before `complete` clears
    it, and the value `await_resume` returns. -/
structure Resumption where
  address : Nat
  operation : OperationHandle
  caller : Nat
  result : Int32
  deriving DecidableEq, Repr

end IoQueue

open IoQueue

structure IoQueue where
  nextOpId_ : UInt64 := 0
  completers_ : CompleterMap
  /-- `params_.sq_entries` -/
  sqEntries : Nat
  /-- prepared and not yet submitted, oldest first -/
  sq : List Sqe := []
  /-- a position in `sq` -/
  lastSqe_ : Option Nat := none
  /-- submitted and not yet completed -/
  inflight : List Sqe := []
  cq : List Cqe := []
  completerAt : UInt64 → Option CoroutineCompleter := fun _ => none
  awaiterAt : Nat → Option OperationAwaiter := fun _ => none

namespace IoQueue

/-- The kernel rounds the requested number of entries up to a power of two. -/
def ringEntries (requested : Nat) : Nat :=
  if requested ≤ 1 then 1 else 2 ^ ((requested - 1).log2 + 1)

def create (size : UInt64) : Option IoQueue :=
  (CompleterMap.create size).map fun completers =>
    { completers_ := completers, sqEntries := ringEntries completers.capacity }

def getSqe (q : IoQueue) (slot : Sqe) : Option Sqe :=
  if q.sq.length < q.sqEntries then some slot else none

def getNextOpId (q : IoQueue) : UInt64 × IoQueue :=
  let opId := if q.nextOpId_ = OpIdInvalid ∨ q.nextOpId_ = OpIdIgnore then 0 else q.nextOpId_
  (opId, { q with nextOpId_ := opId + 1 })

def finalizeSqe (q : IoQueue) (sqe : Option Sqe) (userData : UInt64) :
    OperationHandle × IoQueue :=
  match sqe with
  | none => ({}, q)
  | some sqe => (⟨true, userData⟩,
      { q with sq := q.sq ++ [{ sqe with user_data := userData }], lastSqe_ := some q.sq.length })

/-- The id is drawn also when the ring is full. -/
def issue (q : IoQueue) (req : Request) (slot : Sqe) : OperationHandle × IoQueue :=
  q.getNextOpId.2.finalizeSqe ((q.getSqe slot).map req.prepare) q.getNextOpId.1

def linkTimeout (q : IoQueue) (op : OperationHandle) (ts : UInt64) (flags : Int32)
    (slot : Sqe) : Option (OperationHandle × IoQueue) := do
  guard op.valid
  let position ← q.lastSqe_
  let last ← q.sq[position]?
  guard (last.user_data = op.id)
  let linked := { last with flags := last.flags ||| IoURing.IOSQE_IO_LINK }
  let q := { q with sq := q.sq.set position linked }
  let sqe := (q.getSqe slot).map fun sqe => IoURing.prepareLinkTimeout sqe ts flags.toUInt32
  let (handle, q) := q.finalizeSqe sqe OpIdIgnore
  if handle.valid then some (op, q) else some ({}, q)

/-- Deleting the null pointer does nothing: no completer lives there. -/
def dropCompleter (q : IoQueue) (id : UInt64) : IoQueue :=
  let removed := q.completers_.remove id
  { q with completers_ := removed.2, completerAt := Function.update q.completerAt removed.1 none }

def cancel (q : IoQueue) (op : OperationHandle) (cancelHandler : Bool) (slot : Sqe) :
    Option (OperationHandle × IoQueue) :=
  if op.valid then
    let q := if cancelHandler then q.dropCompleter op.id else q
    let sqe := (q.getSqe slot).map fun sqe => IoURing.prepareAsyncCancel sqe op.id
    some (q.finalizeSqe sqe OpIdIgnore)
  else none

def setCompleter (q : IoQueue) (op : OperationHandle) (completer : UInt64) : Option IoQueue :=
  (q.completers_.insert op.id completer).map fun completers => { q with completers_ := completers }

/-- `co_await` of a handle: the awaiter is built in the caller's frame and never ready,
   so it suspends at once and registers a new completer that points back to it. -/
def await (q : IoQueue) (op : OperationHandle) (address caller : Nat) (completer : UInt64) :
    Option IoQueue :=
  if op.valid then
    { q with
      completerAt := Function.update q.completerAt completer (some ⟨address⟩)
      awaiterAt := Function.update q.awaiterAt address (some ⟨op, caller, -2147483648⟩)
    }.setCompleter op completer
  else none

def complete (q : IoQueue) (completer : UInt64) (res : Int32) : Option (IoQueue × Resumption) := do
  let ⟨address⟩ ← q.completerAt completer
  let awaiter ← q.awaiterAt address
  let finished := { awaiter with result := res, operation := {} }
  some ({ q with
      completerAt := Function.update q.completerAt completer none
      awaiterAt := Function.update q.awaiterAt address (some finished) },
    ⟨address, awaiter.operation, awaiter.caller, res⟩)

/-- The part of one iteration of `run` after the submission. The entry is popped
    with the dispatch; what the resumed coroutine then calls does not look at it. -/
def dispatch (q : IoQueue) (cqe : Cqe) : Option (IoQueue × Option Resumption) :=
  if cqe.user_data ≠ OpIdIgnore then
    let removed := q.completers_.remove cqe.user_data
    let q := { q with completers_ := removed.2 }
    if removed.1 ≠ CompleterMap.Empty then
      (q.complete removed.1 cqe.res).map fun (q, resumption) => (q, some resumption)
    else some (q, none)
  else some (q, none)

def running (q : IoQueue) : Bool := 0 < q.completers_.size

/-- The awaiter's destructor. -/
def destroy (q : IoQueue) (address : Nat) (slot : Sqe) : Option (IoQueue × Option UInt64) := do
  let awaiter ← q.awaiterAt address
  let erase := fun q : IoQueue => { q with awaiterAt := Function.update q.awaiterAt address none }
  if awaiter.operation.valid then
    let (_, q) ← q.cancel awaiter.operation true slot
    some (erase q, some awaiter.operation.id)
  else some (erase q, none)

inductive Action where
  | issue (req : Request) (slot : Sqe)
  | linkTimeout (op : OperationHandle) (ts : UInt64) (flags : Int32) (slot : Sqe)
  | await (op : OperationHandle) (address caller : Nat) (completer : UInt64)
  | cancel (op : OperationHandle) (cancelHandler : Bool) (slot : Sqe)
  | destroy (address : Nat) (slot : Sqe)
  | submit
  | submitFails
  | complete (position : Nat) (res : Int32)
  | consume
  deriving DecidableEq, Repr

inductive Event where
  | issued (id : UInt64) (op : OperationHandle)
  | linked (op result : OperationHandle)
  | awaited (id : UInt64) (address : Nat)
  | cancelled (id : UInt64) (cancelHandler : Bool)
  | destroyed (address : Nat) (cancelled : Option UInt64)
  | submitted
  | submitFailed
  | completed (cqe : Cqe)
  | consumed (cqe : Cqe) (resumed : Option Resumption)
  deriving DecidableEq, Repr

/-- One step of the queue, its callers or the kernel. `submit`, `submitFails` and
    `consume` are iterations of `run` and need its loop condition; the kernel
    answers each submitted entry once, in any order, with any result. -/
def step (q : IoQueue) : Action → Option (IoQueue × Event)
  | .issue req slot =>
    let (op, q') := q.issue req slot
    some (q', .issued q.getNextOpId.1 op)
  | .linkTimeout op ts flags slot =>
    (q.linkTimeout op ts flags slot).map fun (result, q') => (q', .linked op result)
  | .await op address caller completer =>
    if (q.awaiterAt address).isNone ∧ (q.completerAt completer).isNone ∧
        completer ≠ CompleterMap.Empty ∧ completer ≠ CompleterMap.Tombstone then
      (q.await op address caller completer).map fun q' => (q', .awaited op.id address)
    else none
  | .cancel op cancelHandler slot =>
    (q.cancel op cancelHandler slot).map fun (_, q') => (q', .cancelled op.id cancelHandler)
  | .destroy address slot =>
    (q.destroy address slot).map fun (q', cancelled) => (q', .destroyed address cancelled)
  | .submit =>
    if q.running then
      some ({ q with lastSqe_ := none, sq := [], inflight := q.inflight ++ q.sq }, .submitted)
    else none
  | .submitFails =>
    if q.running then some ({ q with lastSqe_ := none }, .submitFailed) else none
  | .complete position res =>
    match q.inflight[position]? with
    | none => none
    | some sqe =>
      some ({ q with inflight := q.inflight.eraseIdx position, cq := q.cq ++ [⟨sqe.user_data, res⟩] },
        .completed ⟨sqe.user_data, res⟩)
  | .consume =>
    if q.running then
      match q.cq with
      | [] => none
      | cqe :: rest =>
        ({ q with cq := rest }.dispatch cqe).map fun (q', resumed) => (q', .consumed cqe resumed)
    else none

end IoQueue
end Aiopp
