import Mathlib.Algebra.Group.Nat.Defs
import Aiopp.Foundations.Transition

/-!
A channel: a queue of messages behind a mutex and a semaphore eventfd that counts them.
Sending threads, receive tasks, the kernel and the destruction of receive tasks take
their steps in any order.
-/
namespace Aiopp
namespace Channel

inductive Sender (M : Type) where
  | push (m : M)
  | write
  | returned
  deriving DecidableEq, Repr

inductive Read where
  | prepared
  | submitted
  | completed
  | cancelled
  | consumed
  deriving DecidableEq, Repr

/-- The cancel request that the awaiter's destructor sends behind a read. There is none
   when the ring was full. -/
inductive Cancel where
  | missing
  | prepared
  | processed
  deriving DecidableEq, Repr

/-- A receive task. Its completer is registered as long as it is `reading`: `run` removes
it and resumes the task, up to `pop`, or the awaiter's destructor removes it and leaves
the read behind. -/
inductive Receiver (M : Type) where
  | reading (read : Read)
  | resumed
  | returned (m : M)
  | destroyed (read : Read) (cancel : Cancel)
  deriving DecidableEq, Repr

end Channel

open Channel

structure Channel (M : Type) where
  messages_ : List M := []
  /-- the counter of `eventFd_` -/
  counter : Nat := 0
  senders : List (Sender M) := []
  receivers : List (Receiver M) := []
  /-- the kernel has written into a frame that was freed -/
  corrupted : Bool := false

namespace Channel
variable {M : Type}

inductive Action (M : Type) where
  | send (m : M)
  | push (k : Nat)
  | write (k : Nat)
  | receive
  | submit (i : Nat)
  | complete (i : Nat)
  | cancel (i : Nat)
  | consume (i : Nat)
  | pop (i : Nat)
  | destroy (i : Nat) (room : Bool)
  deriving DecidableEq, Repr

inductive Event (M : Type) where
  | called
  | pushed (m : M)
  | written
  | issued
  | submitted
  | completed (alive : Bool)
  | cancelled
  | consumed (resumed : Bool)
  | popped (i : Nat) (m : M)
  | destroyed (read : Read)
  deriving DecidableEq, Repr

/-- The kernel lets the counter grow to here; a further write blocks. -/
def maxCounter : Nat := 2 ^ 64 - 2

def moveSender (c : Channel M) (k : Nat) (next : Sender M) : Channel M :=
  { c with senders := c.senders.set k next }

def moveReceiver (c : Channel M) (i : Nat) (next : Receiver M) : Channel M :=
  { c with receivers := c.receivers.set i next }

def push (c : Channel M) (k : Nat) : Option (Channel M × Event M) :=
  match c.senders[k]? with
  | some (.push m) => some ({ c with messages_ := c.messages_ ++ [m] }.moveSender k .write, .pushed m)
  | _ => none

def write (c : Channel M) (k : Nat) : Option (Channel M × Event M) :=
  match c.senders[k]? with
  | some .write =>
    if c.counter < maxCounter then
      some ({ c with counter := c.counter + 1 }.moveSender k .returned, .written)
    else none
  | _ => none

def submit (c : Channel M) (i : Nat) : Option (Channel M × Event M) :=
  match c.receivers[i]? with
  | some (.reading .prepared) => some (c.moveReceiver i (.reading .submitted), .submitted)
  | some (.destroyed .prepared cancel) =>
    some (c.moveReceiver i (.destroyed .submitted cancel), .submitted)
  | _ => none

/-- A read of a semaphore takes one from a counter that is not zero, and pends on zero. It
   writes to `buf`, which lies in the frame of `EventFd::read` and is gone with the task. -/
def complete (c : Channel M) (i : Nat) : Option (Channel M × Event M) :=
  if 0 < c.counter then
    match c.receivers[i]? with
    | some (.reading .submitted) =>
      some ({ c with counter := c.counter - 1 }.moveReceiver i (.reading .completed),
        .completed true)
    | some (.destroyed .submitted cancel) =>
      some ({ c with counter := c.counter - 1, corrupted := true }.moveReceiver i
        (.destroyed .completed cancel), .completed false)
    | _ => none
  else none

/-- Requests are submitted in order. A cancel that finds its read completed does nothing. -/
def cancel (c : Channel M) (i : Nat) : Option (Channel M × Event M) :=
  match c.receivers[i]? with
  | some (.destroyed .submitted .prepared) =>
    some (c.moveReceiver i (.destroyed .cancelled .processed), .cancelled)
  | some (.destroyed .completed .prepared) =>
    some (c.moveReceiver i (.destroyed .completed .processed), .cancelled)
  | some (.destroyed .consumed .prepared) =>
    some (c.moveReceiver i (.destroyed .consumed .processed), .cancelled)
  | _ => none

def consume (c : Channel M) (i : Nat) : Option (Channel M × Event M) :=
  match c.receivers[i]? with
  | some (.reading .completed) => some (c.moveReceiver i .resumed, .consumed true)
  | some (.destroyed .completed cancel) =>
    some (c.moveReceiver i (.destroyed .consumed cancel), .consumed false)
  | some (.destroyed .cancelled cancel) =>
    some (c.moveReceiver i (.destroyed .consumed cancel), .consumed false)
  | _ => none

/-- The assertion: an empty queue has no successor. -/
def pop (c : Channel M) (i : Nat) : Option (Channel M × Event M) :=
  match c.receivers[i]?, c.messages_ with
  | some .resumed, m :: rest =>
    some ({ c with messages_ := rest }.moveReceiver i (.returned m), .popped i m)
  | _, _ => none

def destroy (c : Channel M) (i : Nat) (room : Bool) : Option (Channel M × Event M) :=
  match c.receivers[i]? with
  | some (.reading read) =>
    some (c.moveReceiver i (.destroyed read (if room then .prepared else .missing)),
      .destroyed read)
  | _ => none

def step (c : Channel M) : Action M → Option (Channel M × Event M)
  | .send m => some ({ c with senders := c.senders ++ [.push m] }, .called)
  | .push k => c.push k
  | .write k => c.write k
  | .receive => some ({ c with receivers := c.receivers ++ [.reading .prepared] }, .issued)
  | .submit i => c.submit i
  | .complete i => c.complete i
  | .cancel i => c.cancel i
  | .consume i => c.consume i
  | .pop i => c.pop i
  | .destroy i room => c.destroy i room

inductive Moved (c : Channel M) : Channel M → Event M → Prop where
  | called {m : M} : Moved c { c with senders := c.senders ++ [.push m] } .called
  | pushed {k : Nat} {m : M} (here : c.senders[k]? = some (.push m)) :
      Moved c ({ c with messages_ := c.messages_ ++ [m] }.moveSender k .write) (.pushed m)
  | written {k : Nat} (here : c.senders[k]? = some .write) :
      Moved c ({ c with counter := c.counter + 1 }.moveSender k .returned) .written
  | issued : Moved c { c with receivers := c.receivers ++ [.reading .prepared] } .issued
  | submitted {i : Nat} (here : c.receivers[i]? = some (.reading .prepared)) :
      Moved c (c.moveReceiver i (.reading .submitted)) .submitted
  | completed {i : Nat} (positive : 0 < c.counter)
      (here : c.receivers[i]? = some (.reading .submitted)) :
      Moved c ({ c with counter := c.counter - 1 }.moveReceiver i (.reading .completed))
        (.completed true)
  | completedDead {i : Nat} {cancel : Cancel} (positive : 0 < c.counter)
      (here : c.receivers[i]? = some (.destroyed .submitted cancel)) :
      Moved c ({ c with counter := c.counter - 1, corrupted := true }.moveReceiver i
        (.destroyed .completed cancel)) (.completed false)
  | dead {i : Nat} {read read' : Read} {cancel cancel' : Cancel} {e : Event M}
      (here : c.receivers[i]? = some (.destroyed read cancel))
      (event : e = .submitted ∨ e = .cancelled ∨ e = .consumed false) :
      Moved c (c.moveReceiver i (.destroyed read' cancel')) e
  | consumed {i : Nat} (here : c.receivers[i]? = some (.reading .completed)) :
      Moved c (c.moveReceiver i .resumed) (.consumed true)
  | popped {i : Nat} {m : M} {rest : List M} (here : c.receivers[i]? = some .resumed)
      (front : c.messages_ = m :: rest) :
      Moved c ({ c with messages_ := rest }.moveReceiver i (.returned m)) (.popped i m)
  | destroyed {i : Nat} {read : Read} {cancel : Cancel}
      (here : c.receivers[i]? = some (.reading read)) :
      Moved c (c.moveReceiver i (.destroyed read cancel)) (.destroyed read)

section Inversion
variable {c c' : Channel M} {e : Event M}

theorem receiver_moved {i : Nat} (run : c.submit i = some (c', e) ∨ c.complete i = some (c', e) ∨
    c.cancel i = some (c', e) ∨ c.consume i = some (c', e)) : Moved c c' e := by
  rcases run with run | run | run | run
  · unfold submit at run
    split at run
    · rename_i here
      cases run
      exact .submitted here
    · rename_i here
      cases run
      exact .dead here (by simp)
    · simp at run
  · unfold complete at run
    split at run
    · rename_i positive
      split at run
      · rename_i here
        cases run
        exact .completed positive here
      · rename_i here
        cases run
        exact .completedDead positive here
      · simp at run
    · simp at run
  · unfold cancel at run
    split at run
    · rename_i here
      cases run
      exact .dead here (by simp)
    · rename_i here
      cases run
      exact .dead here (by simp)
    · rename_i here
      cases run
      exact .dead here (by simp)
    · simp at run
  · unfold consume at run
    split at run
    · rename_i here
      cases run
      exact .consumed here
    · rename_i here
      cases run
      exact .dead here (by simp)
    · rename_i here
      cases run
      exact .dead here (by simp)
    · simp at run

theorem step_moved {a : Action M} (taken : c.step a = some (c', e)) : Moved c c' e := by
  cases a with
  | send m =>
    cases taken
    exact .called
  | push k =>
    simp only [step, push] at taken
    split at taken
    · rename_i here
      cases taken
      exact .pushed here
    · simp at taken
  | write k =>
    simp only [step, write] at taken
    split at taken
    · rename_i here
      split at taken
      · cases taken
        exact .written here
      · simp at taken
    · simp at taken
  | receive =>
    cases taken
    exact .issued
  | submit i => exact receiver_moved (i := i) (.inl taken)
  | complete i => exact receiver_moved (i := i) (.inr (.inl taken))
  | cancel i => exact receiver_moved (i := i) (.inr (.inr (.inl taken)))
  | consume i => exact receiver_moved (i := i) (.inr (.inr (.inr taken)))
  | pop i =>
    simp only [step, pop] at taken
    split at taken
    · rename_i here front
      cases taken
      exact .popped here front
    · simp at taken
  | destroy i room =>
    simp only [step, destroy] at taken
    split at taken
    · rename_i here
      cases taken
      exact .destroyed here
    · simp at taken

end Inversion
end Channel
end Aiopp
