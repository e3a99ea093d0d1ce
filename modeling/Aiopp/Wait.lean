import Aiopp.Foundations.Transition
import Mathlib.Algebra.Group.Nat.Defs
import Mathlib.Data.Finset.Card
import Mathlib.Data.Finset.Range

/-!
`WaitAll` and `WaitAny`. `add` calls a lambda that is a coroutine: it counts itself in,
awaits, and reports the completion through the `this` that the lambda captured. The frame of
the coroutine refers to the lambda, a temporary that ends with the call of `add`. The
awaitables are numbered in the order of `add`.
-/
namespace Aiopp
namespace Wait

inductive Action where
  | add
  | leave
  | complete (i : Nat)
  | await (handle : Nat)
  deriving DecidableEq, Repr

/-- `R` is what `await_resume` returns; the coroutine that awaits continues where it appears.
   A completion is `dangling` when the lambda is gone that it reads `this` from. -/
inductive Event (R : Type) where
  | started
  | left
  | completed (i : Nat) (continues : Option R)
  | dangling (i : Nat)
  | awaited (continues : Option R)
  deriving DecidableEq, Repr

variable {R : Type}

def started : List (Event R) → Nat
  | [] => 0
  | .started :: older => started older + 1
  | _ :: older => started older

def completions : List (Event R) → List Nat
  | [] => []
  | .completed i _ :: older => completions older ++ [i]
  | _ :: older => completions older

def dangling : List (Event R) → Bool
  | [] => false
  | .dangling _ :: _ => true
  | _ :: older => dangling older

def awaited : List (Event R) → Bool
  | [] => false
  | .awaited _ :: _ => true
  | _ :: older => awaited older

def continued : List (Event R) → List R
  | [] => []
  | .completed _ continues :: older => continued older ++ continues.toList
  | .awaited continues :: older => continued older ++ continues.toList
  | _ :: older => continued older

def incomplete (log : List (Event R)) : Nat :=
  (Finset.range (started log) \ (completions log).toFinset).card

/-- The awaitable completes once, after it was added. -/
def Open (log : List (Event R)) (i : Nat) : Prop := i < started log ∧ i ∉ completions log

instance (log : List (Event R)) (i : Nat) : Decidable (Open log i) :=
  inferInstanceAs (Decidable (_ ∧ _))

end Wait

open Wait

/-- Beside the members: the number of coroutines that `add` has started, and the calls of
   `add` that have not returned, the innermost first. -/
structure WaitAll where
  pending_ : Nat := 0
  continuation_ : Option Nat := none
  frames : Nat := 0
  closures : List Nat := []
  deriving DecidableEq, Repr

namespace WaitAll

def startAwaitable (w : WaitAll) : WaitAll := { w with pending_ := w.pending_ + 1 }

/-- The counter is unsigned and wraps below zero. -/
def decrement (n : Nat) : Nat := if n = 0 then 2 ^ 64 - 1 else n - 1

def awaitableCompleted (w : WaitAll) : WaitAll × Option Unit :=
  let w := { w with pending_ := decrement w.pending_ }
  if w.continuation_.isSome ∧ w.pending_ = 0 then (w, some ()) else (w, none)

def await (w : WaitAll) (handle : Nat) : WaitAll × Option Unit :=
  if w.pending_ = 0 then (w, some ()) else ({ w with continuation_ := some handle }, none)

/-- The call of the lambda in `add`, up to the first suspension of its coroutine. -/
def call (w : WaitAll) : WaitAll :=
  { w.startAwaitable with frames := w.frames + 1, closures := w.frames :: w.closures }

def step (w : WaitAll) : Action → Option (WaitAll × Event Unit)
  | .add => some (w.call, .started)
  | .leave =>
    match w.closures with
    | [] => none
    | _ :: outer => some ({ w with closures := outer }, .left)
  | .complete i =>
    if i ∈ w.closures then
      let (w', continues) := w.awaitableCompleted
      some (w', .completed i continues)
    else some (w, .dangling i)
  | .await handle =>
    let (w', continues) := w.await handle
    some (w', .awaited continues)

/-- The `WaitAll` is awaited once, and from then on more is added only while something is
    incomplete. What comes after a dangling access is undefined. -/
def Schedule (_ : WaitAll) (log : List (Event Unit)) (a : Action) : Prop :=
  dangling log = false ∧ match a with
    | .add => awaited log = false ∨ 0 < incomplete log
    | .leave => True
    | .complete i => Open log i
    | .await _ => awaited log = false

instance (w : WaitAll) (log : List (Event Unit)) (a : Action) : Decidable (Schedule w log a) :=
  match a with
  | .add => inferInstanceAs (Decidable (_ ∧ (_ ∨ _)))
  | .leave => inferInstanceAs (Decidable (_ ∧ True))
  | .complete _ => inferInstanceAs (Decidable (_ ∧ Open _ _))
  | .await _ => inferInstanceAs (Decidable (_ ∧ _ = _))

/-- The call of `add` that started the coroutine has not returned. -/
def InTime (w : WaitAll) : Action → Prop
  | .complete i => i ∈ w.closures
  | _ => True

instance (w : WaitAll) : (a : Action) → Decidable (InTime w a)
  | .complete _ => inferInstanceAs (Decidable (_ ∈ _))
  | .add | .leave | .await _ => .isTrue trivial

end WaitAll

/-- `frames` holds the local `idx` of each coroutine that `add` has started. -/
structure WaitAny where
  started_ : Nat := 0
  completed_ : Option Nat := none
  continuation_ : Option Nat := none
  frames : List Nat := []
  closures : List Nat := []
  deriving DecidableEq, Repr

namespace WaitAny

def startAwaitable (w : WaitAny) : Nat × WaitAny :=
  (w.started_, { w with started_ := w.started_ + 1 })

def awaitableCompleted (w : WaitAny) (idx : Nat) : WaitAny × Option Nat :=
  let w := if w.completed_.isNone then { w with completed_ := some idx } else w
  if w.continuation_.isSome then (w, w.completed_) else (w, none)

def await (w : WaitAny) (handle : Nat) : WaitAny × Option Nat :=
  if w.completed_.isSome then (w, w.completed_)
  else ({ w with continuation_ := some handle }, none)

def step (w : WaitAny) : Action → Option (WaitAny × Event Nat)
  | .add =>
    let (idx, w') := w.startAwaitable
    some ({ w' with
      frames := w.frames ++ [idx], closures := w.frames.length :: w.closures }, .started)
  | .leave =>
    match w.closures with
    | [] => none
    | _ :: outer => some ({ w with closures := outer }, .left)
  | .complete i =>
    match w.frames[i]? with
    | none => none
    | some idx =>
      if i ∈ w.closures then
        let (w', continues) := w.awaitableCompleted idx
        some (w', .completed i continues)
      else some (w, .dangling i)
  | .await handle =>
    let (w', continues) := w.await handle
    some (w', .awaited continues)

/-- At least one awaitable is added, all of them before the one await; each completes
    once, before it or after it. What comes after a dangling access is undefined. -/
def Schedule (_ : WaitAny) (log : List (Event Nat)) (a : Action) : Prop :=
  dangling log = false ∧ match a with
    | .add => awaited log = false
    | .leave => True
    | .complete i => Open log i
    | .await _ => awaited log = false ∧ 0 < started log

instance (w : WaitAny) (log : List (Event Nat)) (a : Action) : Decidable (Schedule w log a) :=
  match a with
  | .add => inferInstanceAs (Decidable (_ ∧ _ = _))
  | .leave => inferInstanceAs (Decidable (_ ∧ True))
  | .complete _ => inferInstanceAs (Decidable (_ ∧ Open _ _))
  | .await _ => inferInstanceAs (Decidable (_ ∧ _ = _ ∧ _))

/-- The call of `add` that started the coroutine has not returned. -/
def InTime (w : WaitAny) : Action → Prop
  | .complete i => i ∈ w.closures
  | _ => True

instance (w : WaitAny) : (a : Action) → Decidable (InTime w a)
  | .complete _ => inferInstanceAs (Decidable (_ ∈ _))
  | .add | .leave | .await _ => .isTrue trivial

end WaitAny
end Aiopp
