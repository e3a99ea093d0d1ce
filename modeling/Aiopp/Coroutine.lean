import Aiopp.IoQueue
import Aiopp.Foundations.DirectStyle

/-!
Coroutines on a queue: eager top-level coroutines, the lazy tasks they await, their
frames on the heap, and the transfer of control between them. A coroutine's code is
given by the instruction at each of its points; results of tasks range over one type
`V`. The owner of a frame, the top-level coroutine it works for, only labels the log.
-/
namespace Aiopp
namespace Coroutine
open DirectStyle IoQueue

structure Program (C V L : Type) where
  code : L → Instr Request Int32 V L
  body : C → L

/-- Where a frame stands. `issued` is between the call of the queue and the suspension,
    `final` is the final suspend point with `promise().result`. -/
inductive Point (V L : Type) where
  | running (l : L)
  | issued (op : OperationHandle) (k : Int32 → L)
  | suspended (address : Nat) (k : Int32 → L)
  | awaiting (task : Nat) (k : V → L)
  | final (result : V)

/-- `continuation` is the one of the promise; a `BasicCoroutine` has none and is
   destroyed when it ends. -/
structure Frame (C V L : Type) where
  owner : C
  continuation : Option Nat
  point : Point V L

/-- `control` is the frame that executes, or none while `main` or `run` does. The `orphans` are
operations whose frame was destroyed while they were under way, with the buffers in it. -/
structure Machine (C V L : Type) where
  io : IoQueue
  frameAt : Nat → Option (Frame C V L) := fun _ => none
  control : Option Nat := none
  orphans : List UInt64 := []
  corrupted : Bool := false

inductive Note (C V : Type) where
  | started (c : C)
  | asked (c : C) (req : Request)
  | awaited (c : C)
  | resumed (c : C)
  | released (c : C)
  | called (c : C)
  | ended (c : C)
  | handed (c : C) (v : V)
  | returned (c : C) (v : V)
  deriving DecidableEq, Repr

structure Event (C V : Type) where
  note : Option (Note C V) := none
  queue : Option IoQueue.Event := none
  deriving DecidableEq, Repr

inductive Action (C : Type) where
  | start (c : C) (frame : Nat)
  | proceed (slot : Sqe) (address : Nat) (completer : UInt64) (frame : Nat)
  | submit
  | submitFails
  | complete (position : Nat) (res : Int32)
  | consume
  deriving DecidableEq, Repr

variable {C V L : Type}

def Machine.put (m : Machine C V L) (f : Nat) (frame : Frame C V L) : Machine C V L :=
  { m with frameAt := Function.update m.frameAt f (some frame) }

/-- `co_await` of an operation: an invalid handle fails the assertion. -/
def issue (m : Machine C V L) (f : Nat) (frame : Frame C V L) (req : Request)
    (k : Int32 → L) (slot : Sqe) : Option (Machine C V L × Event C V) :=
  let (op, io) := m.io.issue req slot
  if op.valid then
    some ({ m.put f { frame with point := .issued op k } with io := io },
      { note := some (.asked frame.owner req), queue := some (.issued m.io.getNextOpId.1 op) })
  else none

def finish (m : Machine C V L) (f : Nat) (frame : Frame C V L) (v : V) :
    Machine C V L × Event C V :=
  match frame.continuation with
  | some caller =>
    ({ m.put f { frame with point := .final v } with control := some caller },
      { note := some (.ended frame.owner) })
  | none =>
    ({ m with frameAt := Function.update m.frameAt f none, control := none },
      { note := some (.returned frame.owner v) })

def call (m : Machine C V L) (f : Nat) (frame : Frame C V L) (task : L) (k : V → L)
    (child : Nat) : Option (Machine C V L × Event C V) :=
  if (m.frameAt child).isNone then
    let m' := m.put child ⟨frame.owner, some f, .running task⟩
    some ({ m'.put f { frame with point := .awaiting child k } with control := some child },
      { note := some (.called frame.owner) })
  else none

def suspend (m : Machine C V L) (f : Nat) (frame : Frame C V L) (op : OperationHandle)
    (k : Int32 → L) (address : Nat) (completer : UInt64) : Option (Machine C V L × Event C V) :=
  (m.io.step (.await op address f completer)).map fun (io, e) =>
    ({ m.put f { frame with point := .suspended address k } with io := io, control := none },
      { note := some (.awaited frame.owner), queue := some e })

/-- The resumed frame reads the awaiter's result and destroys the awaiter. -/
def release (m : Machine C V L) (f : Nat) (frame : Frame C V L) (address : Nat)
    (k : Int32 → L) (slot : Sqe) : Option (Machine C V L × Event C V) := do
  let awaiter ← m.io.awaiterAt address
  let (io, e) ← m.io.step (.destroy address slot)
  some ({ m.put f { frame with point := .running (k awaiter.result) } with io := io },
    { note := some (.released frame.owner), queue := some e })

/-- The result is moved out of the task's promise, and the task is destroyed. -/
def hand (m : Machine C V L) (f : Nat) (frame : Frame C V L) (task : Nat) (k : V → L) :
    Option (Machine C V L × Event C V) :=
  match m.frameAt task with
  | some ⟨_, _, .final v⟩ =>
    let m' := { m with frameAt := Function.update m.frameAt task none }
    some (m'.put f { frame with point := .running (k v) },
      { note := some (.handed frame.owner v) })
  | _ => none

def proceed (p : Program C V L) (m : Machine C V L) (slot : Sqe) (address : Nat)
    (completer : UInt64) (child : Nat) : Option (Machine C V L × Event C V) := do
  let f ← m.control
  let frame ← m.frameAt f
  match frame.point with
  | .running l =>
    match p.code l with
    | .ret v => some (finish m f frame v)
    | .ask req k => issue m f frame req k slot
    | .call task k => call m f frame task k child
  | .issued op k => suspend m f frame op k address completer
  | .suspended address k => release m f frame address k slot
  | .awaiting task k => hand m f frame task k
  | .final _ => none

/-- -ECANCELED -/
def cancelledResult : Int32 := -125

/-- An operation that is not cancelled in time uses its buffers, and they are gone. -/
def Machine.overwrites (m : Machine C V L) : IoQueue.Event → Bool
  | .completed cqe => m.orphans.contains cqe.user_data && cqe.res != cancelledResult
  | _ => false

/-- What `run` and the kernel do without resuming anybody. -/
def background (m : Machine C V L) (a : IoQueue.Action) : Option (Machine C V L × Event C V) :=
  (m.io.step a).map fun (io, e) =>
    ({ m with io := io, corrupted := m.corrupted || m.overwrites e }, { queue := some e })

def step (p : Program C V L) (m : Machine C V L) : Action C → Option (Machine C V L × Event C V)
  | .start c f =>
    if m.control.isNone ∧ (m.frameAt f).isNone then
      some ({ m.put f ⟨c, none, .running (p.body c)⟩ with control := some f },
        { note := some (.started c) })
    else none
  | .proceed slot address completer child => proceed p m slot address completer child
  | .submit => if m.control.isNone then background m .submit else none
  | .submitFails => if m.control.isNone then background m .submitFails else none
  | .complete position res => background m (.complete position res)
  | .consume =>
    if m.control.isNone then
      match m.io.step .consume with
      | some (io, .consumed cqe (some r)) =>
        (m.frameAt r.caller).map fun frame =>
          ({ m with io := io, control := some r.caller },
            { note := some (.resumed frame.owner), queue := some (.consumed cqe (some r)) })
      | some (io, e) => some ({ m with io := io }, { queue := some e })
      | none => none
    else none

end Coroutine
end Aiopp
