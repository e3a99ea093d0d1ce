import Aiopp.SubmitCounter

/-!
`wrapAsTask`: a coroutine on the loop thread submits a function to the pool and waits for
its future with `IoQueue::wait`. Inside `submit`, `ready` and `get` the loop thread does
nothing else; while the read of the eventfd is under way it goes on with other coroutines.
-/
namespace Aiopp
namespace WrapAsTask

/-- Where the coroutine of one call is. `tested` and `got` are what `ready` and `get` are about
   to return; between `queued` and `completed` it is suspended on its read. -/
inductive Phase (T : Type) where
  | fresh
  | submitting
  | testing
  | tested (ready : Bool)
  | queued
  | pending
  | completed (buf : Nat)
  | getting
  | got (v : T)
  | returned (v : T)
  deriving DecidableEq, Repr

def Phase.active {T : Type} : Phase T → Bool
  | .submitting | .testing | .tested _ | .getting | .got _ => true
  | _ => false

end WrapAsTask

open WrapAsTask Future

/-- `J` names the calls. The loop thread is `none` among the threads that push and the only
   one that reads futures; `consumed` is what reads have taken out of the eventfds. `sq` are
   the reads in the submission queue, `completers` those with a completer in the map. -/
structure WrapAsTask (W P J O : Type) (R : J → Type) where
  sqEntries : Nat
  capacity : Nat
  tp : Submit W (Option P) Unit J O R := {}
  phases : (j : J) → Phase (R j) := fun _ => .fresh
  current : Option J := none
  consumed : J → Nat := fun _ => 0
  sq : List J := []
  completers : List J := []

namespace WrapAsTask
open Transition
variable {W P J O : Type} {R : J → Type}

def start (sqEntries capacity : Nat) : WrapAsTask W P J O R := { sqEntries, capacity }

inductive Action (W P J O : Type) (R : J → Type) where
  | call (j : J)
  | go
  | inner (a : Submit.Action W (Option P) Unit J O R)
  | submitSqes (j : J)
  | completeRead (j : J)
  | resume (j : J)

abbrev Event (W P J O : Type) (R : J → Type) := Option (Submit.Event W (Option P) J O R)

def submitLog (log : List (Event W P J O R)) : List (Submit.Event W (Option P) J O R) :=
  log.filterMap id

section Step
variable [DecidableEq W] [DecidableEq P] [DecidableEq J]

/-- `submit`, `ready` and `get` are called by the coroutines; `push` with another task by
   other threads, and by the loop thread outside of them. -/
def passes (s : WrapAsTask W P J O R) : Submit.Action W (Option P) Unit J O R → Bool
  | .submit .. => false
  | .ask .. => false
  | .pool (.call none _) => s.current.isNone
  | _ => true

def hear (phases : (j : J) → Phase (R j)) :
    Submit.Event W (Option P) J O R → (j : J) → Phase (R j)
  | .answered j ready => Function.update phases j (.tested ready)
  | .noted j (.got v) => Function.update phases j (.got v)
  | _ => phases

def move (s : WrapAsTask W P J O R) (j : J) (phase : Phase (R j)) :
    WrapAsTask W P J O R :=
  { s with phases := Function.update s.phases j phase }

variable [Fintype W]

/-- The coroutine goes on with a call on the pool or on its future. -/
def ask (residue : (j : J) → R j → R j) (s : WrapAsTask W P J O R) (j : J)
    (a : Submit.Action W (Option P) Unit J O R) (phase : Phase (R j)) :
    Option (WrapAsTask W P J O R × Event W P J O R) :=
  (Submit.step residue s.tp a).map fun (tp, e) =>
    ({ s with tp := tp, current := some j }.move j phase, some e)

/-- `co_return co_await io.wait(tp.submit(func))`, from one call to the next. The assertions
   that the ring is not full, as the read is awaited, and the map of completers neither, have
   no successor where they fail. -/
def goOn (residue : (j : J) → R j → R j) (s : WrapAsTask W P J O R) (j : J) :
    Option (WrapAsTask W P J O R × Event W P J O R) :=
  match s.phases j with
  | .submitting =>
    match s.tp.pool.pushers none with
    | .idle => s.ask residue j (.ask () j .ready) .testing
    | _ => none
  | .tested true => s.ask residue j (.ask () j .get) .getting
  | .tested false =>
    match s.tp.readers () with
    | .idle =>
      if s.sq.length < s.sqEntries ∧ s.completers.length < s.capacity then
        some ({ s with
          current := none, sq := s.sq ++ [j], completers := s.completers ++ [j] }.move j .queued,
          none)
      else none
    | _ => none
  | .got v =>
    match s.tp.readers () with
    | .idle => some ({ s with current := none }.move j (.returned v), none)
    | _ => none
  | _ => none

/-- `assert(*res == 1)` has no successor where it fails. -/
def step (residue : (j : J) → R j → R j) (s : WrapAsTask W P J O R) :
    Action W P J O R → Option (WrapAsTask W P J O R × Event W P J O R)
  | .call j =>
    match s.current, s.phases j with
    | none, .fresh => s.ask residue j (.submit none j) .submitting
    | _, _ => none
  | .go =>
    match s.current with
    | some j => s.goOn residue j
    | none => none
  | .inner a =>
    if s.passes a then (Submit.step residue s.tp a).map fun (tp, e) =>
      ({ s with tp := tp, phases := hear s.phases e }, some e)
    else none
  | .submitSqes j =>
    match s.phases j with
    | .queued => some ({ s with sq := s.sq.erase j }.move j .pending, none)
    | _ => none
  | .completeRead j =>
    match s.phases j with
    | .pending =>
      let buf := (s.tp.shared j).counter - s.consumed j
      if 0 < buf then
        some ({ s with consumed := Function.update s.consumed j (s.consumed j + buf) }.move j
          (.completed buf), none)
      else none
    | _ => none
  | .resume j =>
    match s.current, s.phases j, s.tp.pool.pushers none with
    | none, .completed buf, .idle =>
      if buf = 1 then
        { s with completers := s.completers.erase j }.ask residue j (.ask () j .get) .getting
      else none
    | _, _, _ => none

inductive Moved (residue : (j : J) → R j → R j) (s : WrapAsTask W P J O R) :
    WrapAsTask W P J O R → Event W P J O R → Prop where
  | called {j : J} {tp : Submit W (Option P) Unit J O R} {e : Submit.Event W (Option P) J O R}
      (free : s.current = none) (fresh : s.phases j = .fresh)
      (taken : Submit.step residue s.tp (.submit none j) = some (tp, e)) :
      Moved residue s ({ s with tp := tp, current := some j }.move j .submitting) (some e)
  | tests {j : J} {tp : Submit W (Option P) Unit J O R} {e : Submit.Event W (Option P) J O R}
      (own : s.current = some j) (point : s.phases j = .submitting)
      (taken : Submit.step residue s.tp (.ask () j .ready) = some (tp, e)) :
      Moved residue s ({ s with tp := tp, current := some j }.move j .testing) (some e)
  | gets {j : J} {tp : Submit W (Option P) Unit J O R} {e : Submit.Event W (Option P) J O R}
      (own : s.current = some j) (point : s.phases j = .tested true)
      (taken : Submit.step residue s.tp (.ask () j .get) = some (tp, e)) :
      Moved residue s ({ s with tp := tp, current := some j }.move j .getting) (some e)
  | resumed {j : J} {tp : Submit W (Option P) Unit J O R} {e : Submit.Event W (Option P) J O R}
      (free : s.current = none) (point : s.phases j = .completed 1)
      (taken : Submit.step residue s.tp (.ask () j .get) = some (tp, e)) :
      Moved residue s ({ s with
        tp := tp, current := some j, completers := s.completers.erase j }.move j .getting) (some e)
  | suspended {j : J} (own : s.current = some j) (point : s.phases j = .tested false)
      (idle : s.tp.readers () = .idle) :
      Moved residue s ({ s with
        current := none, sq := s.sq ++ [j], completers := s.completers ++ [j] }.move j .queued) none
  | finished {j : J} {v : R j} (own : s.current = some j) (point : s.phases j = .got v)
      (idle : s.tp.readers () = .idle) :
      Moved residue s ({ s with current := none }.move j (.returned v)) none
  | inner {a : Submit.Action W (Option P) Unit J O R} {tp : Submit W (Option P) Unit J O R}
      {e : Submit.Event W (Option P) J O R} (passed : s.passes a)
      (taken : Submit.step residue s.tp a = some (tp, e)) :
      Moved residue s { s with tp := tp, phases := hear s.phases e } (some e)
  | submitted {j : J} (point : s.phases j = .queued) :
      Moved residue s ({ s with sq := s.sq.erase j }.move j .pending) none
  | completed {j : J} {buf : Nat} (point : s.phases j = .pending)
      (read : buf = (s.tp.shared j).counter - s.consumed j) (raised : 0 < buf) :
      Moved residue s ({ s with
        consumed := Function.update s.consumed j (s.consumed j + buf) }.move j (.completed buf)) none

section Inversion
variable {residue : (j : J) → R j → R j} {s s' : WrapAsTask W P J O R}
  {e : Event W P J O R}

theorem goOn_moved {j : J} (own : s.current = some j) (run : s.goOn residue j = some (s', e)) :
    Moved residue s s' e := by
  unfold goOn at run
  split at run
  · rename_i point
    split at run
    · obtain ⟨⟨tp,event⟩,taken,eq⟩ := Option.map_eq_some_iff.mp run
      cases eq
      exact .tests own point taken
    · simp at run
  · rename_i point
    obtain ⟨⟨tp,event⟩,taken,eq⟩ := Option.map_eq_some_iff.mp run
    cases eq
    exact .gets own point taken
  · rename_i point
    split at run
    · rename_i idle
      split at run
      · cases run
        exact .suspended own point idle
      · simp at run
    · simp at run
  · rename_i v point
    split at run
    · rename_i idle
      cases run
      exact .finished own point idle
    · simp at run
  · simp at run

theorem step_moved {a : Action W P J O R} (run : step residue s a = some (s', e)) :
    Moved residue s s' e := by
  cases a with
  | call j =>
    simp only [step] at run
    split at run
    · rename_i free fresh
      obtain ⟨⟨tp,event⟩,taken,eq⟩ := Option.map_eq_some_iff.mp run
      cases eq
      exact .called free fresh taken
    · simp at run
  | go =>
    simp only [step] at run
    split at run
    · rename_i own
      exact goOn_moved own run
    · simp at run
  | inner a =>
    simp only [step] at run
    split at run
    · rename_i passed
      obtain ⟨⟨tp,event⟩,taken,eq⟩ := Option.map_eq_some_iff.mp run
      cases eq
      exact .inner passed taken
    · simp at run
  | submitSqes j =>
    simp only [step] at run
    split at run
    · rename_i point
      cases run
      exact .submitted point
    · simp at run
  | completeRead j =>
    simp only [step] at run
    split at run
    · rename_i point
      split at run
      · rename_i raised
        cases run
        exact .completed point rfl raised
      · simp at run
    · simp at run
  | resume j =>
    simp only [step] at run
    split at run
    · rename_i free point quiet
      split at run
      · rename_i one
        subst one
        obtain ⟨⟨tp,event⟩,taken,eq⟩ := Option.map_eq_some_iff.mp run
        cases eq
        exact .resumed free point taken
      · simp at run
    · simp at run

end Inversion
end Step

section Order
variable {s : WrapAsTask W P J O R} {log : List (Event W P J O R)} {a : Action W P J O R}

def AnyOrder (_ : WrapAsTask W P J O R) (_ : List (Event W P J O R)) (_ : Action W P J O R) :
    Prop := True

instance : Decidable (AnyOrder s log a) := isTrue trivial

end Order

end WrapAsTask
end Aiopp
