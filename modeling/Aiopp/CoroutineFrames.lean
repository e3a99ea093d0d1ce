import Aiopp.LateAwait
import Aiopp.Coroutine

/-!
What a run of coroutines says about each of them, and how the frames on the heap
stand for what is left of its evaluation: the innermost frame is the focus, and the
frames that await it, linked by their continuations, are the continuations.
-/
namespace Aiopp
namespace Coroutine
open DirectStyle IoQueue Transition
variable {C V L : Type}

def queueLog (log : List (Event C V)) : List IoQueue.Event := log.filterMap Event.queue

def Note.owner : Note C V → C
  | .started c => c
  | .asked c _ => c
  | .awaited c => c
  | .resumed c => c
  | .released c => c
  | .called c => c
  | .ended c => c
  | .handed c _ => c
  | .returned c _ => c

def Event.observed (e : Event C V) : List (Obs Request V) :=
  match e.note with
  | some (.asked _ req) => [.asked req]
  | some (.called _) => [.called]
  | some (.handed _ v) => [.handed v]
  | _ => []

def Event.operation (e : Event C V) : List UInt64 :=
  match e.note, e.queue with
  | some (.asked _ _), some e => issuedBy e
  | _, _ => []

def Event.delivery (e : Event C V) : List Cqe :=
  match e.note, e.queue with
  | some (.resumed _), some (.consumed cqe (some _)) => [cqe]
  | _, _ => []

def Event.result (e : Event C V) : List V :=
  match e.note with
  | some (.returned _ v) => [v]
  | _ => []

def answer (id : UInt64) : List IoQueue.Event → Option Int32
  | [] => none
  | .consumed cqe _ :: older => if cqe.user_data = id then some cqe.res else answer id older
  | _ :: older => answer id older

section Own
variable [DecidableEq C]

def Event.concerns (c : C) (e : Event C V) : Bool := e.note.any fun note => note.owner = c

def own (c : C) (log : List (Event C V)) : List (Event C V) := (log.filter (Event.concerns c)).reverse

def trace (c : C) (log : List (Event C V)) : List (Obs Request V) := (own c log).flatMap Event.observed
def operations (c : C) (log : List (Event C V)) : List UInt64 := (own c log).flatMap Event.operation
def deliveries (c : C) (log : List (Event C V)) : List Cqe := (own c log).flatMap Event.delivery
def results (c : C) (log : List (Event C V)) : List V := (own c log).flatMap Event.result

/-- The results of a coroutine's own operations, in the order it issued them. -/
def answers (c : C) (log : List (Event C V)) : List Int32 :=
  (operations c log).filterMap fun id => answer id (queueLog log)

theorem own_cons (c : C) (e : Event C V) (log : List (Event C V)) :
    own c (e :: log) = if e.concerns c then own c log ++ [e] else own c log := by
  unfold own
  rw [List.filter_cons]
  split <;> simp

end Own

inductive Linked (frameAt : Nat → Option (Frame C V L)) (c : C) :
    Nat → Option Nat → List (V → L) → List Nat → Prop where
  | root (child : Nat) : Linked frameAt c child none [] []
  | task {child caller : Nat} {continuation : Option Nat} {k : V → L} {ks : List (V → L)}
      {ids : List Nat} (stored : frameAt caller = some ⟨c,continuation,.awaiting child k⟩)
      (rest : Linked frameAt c caller continuation ks ids) :
      Linked frameAt c child (some caller) (k :: ks) (caller :: ids)

theorem linked_frame {frameAt frameAt' : Nat → Option (Frame C V L)} {c : C} {child : Nat}
    {continuation : Option Nat} {ks : List (V → L)} {ids : List Nat}
    (linked : Linked frameAt c child continuation ks ids)
    (same : ∀ f ∈ ids, frameAt' f = frameAt f) : Linked frameAt' c child continuation ks ids := by
  induction linked with
  | root child => exact .root child
  | task stored rest ih =>
    apply Linked.task
    · rw [same _ (by simp)]
      exact stored
    · exact ih fun f member => same f (List.mem_cons_of_mem _ member)

section Moved
variable (p : Program C V L)

inductive Moved (m : Machine C V L) (a : Action C) : Machine C V L → Event C V → Prop where
  | started (c : C) {f : Nat} (kind : a = .start c f) (idle : m.control = none) (free : m.frameAt f = none) :
      Moved m a { m.put f ⟨c,none,.running (p.body c)⟩ with control := some f }
        { note := some (.started c) }
  | ended {f caller : Nat} {c : C} {l : L} {v : V} (active : m.control = some f)
      (stored : m.frameAt f = some ⟨c,some caller,.running l⟩) (here : p.code l = .ret v) :
      Moved m a { m.put f ⟨c,some caller,.final v⟩ with control := some caller }
        { note := some (.ended c) }
  | returned {f : Nat} {c : C} {l : L} {v : V} (active : m.control = some f)
      (stored : m.frameAt f = some ⟨c,none,.running l⟩) (here : p.code l = .ret v) :
      Moved m a { m with frameAt := Function.update m.frameAt f none, control := none }
        { note := some (.returned c v) }
  | asked {f : Nat} {c : C} {continuation : Option Nat} {l : L} {req : Request} {k : Int32 → L}
      (slot : Sqe) (active : m.control = some f)
      (stored : m.frameAt f = some ⟨c,continuation,.running l⟩) (here : p.code l = .ask req k)
      (valid : (m.io.issue req slot).1.valid) :
      Moved m a { m.put f ⟨c,continuation,.issued (m.io.issue req slot).1 k⟩ with
          io := (m.io.issue req slot).2 }
        { note := some (.asked c req)
          queue := some (.issued m.io.getNextOpId.1 (m.io.issue req slot).1) }
  | called {f child : Nat} {c : C} {continuation : Option Nat} {l task : L} {k : V → L}
      (active : m.control = some f)
      (stored : m.frameAt f = some ⟨c,continuation,.running l⟩) (here : p.code l = .call task k)
      (free : m.frameAt child = none) :
      Moved m a { (m.put child ⟨c,some f,.running task⟩).put f ⟨c,continuation,.awaiting child k⟩ with
          control := some child } { note := some (.called c) }
  | awaited {f address : Nat} {c : C} {continuation : Option Nat} {op : OperationHandle}
      {k : Int32 → L} {completer : UInt64} {io : IoQueue} {e : IoQueue.Event}
      (active : m.control = some f)
      (stored : m.frameAt f = some ⟨c,continuation,.issued op k⟩)
      (run : m.io.step (.await op address f completer) = some (io, e)) :
      Moved m a { m.put f ⟨c,continuation,.suspended address k⟩ with io := io, control := none }
        { note := some (.awaited c), queue := some e }
  | released {f address : Nat} {c : C} {continuation : Option Nat} {k : Int32 → L} {slot : Sqe}
      {awaiter : OperationAwaiter} {io : IoQueue} {e : IoQueue.Event}
      (active : m.control = some f)
      (stored : m.frameAt f = some ⟨c,continuation,.suspended address k⟩)
      (lives : m.io.awaiterAt address = some awaiter)
      (run : m.io.step (.destroy address slot) = some (io, e)) :
      Moved m a { m.put f ⟨c,continuation,.running (k awaiter.result)⟩ with io := io }
        { note := some (.released c), queue := some e }
  | handed {f task : Nat} {c c' : C} {continuation continuation' : Option Nat} {k : V → L} {v : V}
      (active : m.control = some f)
      (stored : m.frameAt f = some ⟨c,continuation,.awaiting task k⟩)
      (done : m.frameAt task = some ⟨c',continuation',.final v⟩) :
      Moved m a ({ m with frameAt := Function.update m.frameAt task none }.put f
        ⟨c,continuation,.running (k v)⟩) { note := some (.handed c v) }
  | background {act : IoQueue.Action} {io : IoQueue} {e : IoQueue.Event}
      (kind : act = .submit ∨ act = .submitFails ∨ ∃ position res, act = .complete position res)
      (run : m.io.step act = some (io, e)) :
      Moved m a { m with io := io, corrupted := m.corrupted || m.overwrites e }
        { queue := some e }
  | dropped {io : IoQueue} {cqe : Cqe} (idle : m.control = none)
      (run : m.io.step .consume = some (io, .consumed cqe none)) :
      Moved m a { m with io := io } { queue := some (.consumed cqe none) }
  | resumed {io : IoQueue} {cqe : Cqe} {r : Resumption} {c : C} {continuation : Option Nat}
      {point : Point V L} (idle : m.control = none)
      (run : m.io.step .consume = some (io, .consumed cqe (some r)))
      (stored : m.frameAt r.caller = some ⟨c,continuation,point⟩) :
      Moved m a { m with io := io, control := some r.caller }
        { note := some (.resumed c), queue := some (.consumed cqe (some r)) }

end Moved

section Inversion
variable {p : Program C V L} {m m' : Machine C V L} {a : Action C} {e : Event C V}

theorem proceed_moved {slot : Sqe} {address child : Nat} {completer : UInt64}
    (run : proceed p m slot address completer child = some (m', e)) : Moved p m a m' e := by
  simp only [proceed, Option.bind_eq_bind, Option.bind_eq_some_iff] at run
  obtain ⟨f,active,⟨c,continuation,point⟩,stored,run⟩ := run
  cases point with
  | running l =>
    dsimp only at run
    split at run
    · rename_i v here
      cases continuation with
      | none =>
        cases run
        exact .returned active stored here
      | some caller =>
        cases run
        exact .ended active stored here
    · rename_i req k here
      simp only [issue] at run
      split at run
      · rename_i valid
        cases run
        exact .asked slot active stored here valid
      · simp at run
    · rename_i task k here
      simp only [call] at run
      split at run
      · rename_i free
        cases run
        exact .called active stored here (by simpa using free)
      · simp at run
  | issued op k =>
    obtain ⟨⟨io,e'⟩,awaits,eq⟩ := Option.map_eq_some_iff.mp run
    cases eq
    exact .awaited active stored awaits
  | suspended address k =>
    simp only [release, Option.bind_eq_bind, Option.bind_eq_some_iff] at run
    obtain ⟨awaiter,lives,⟨io,e'⟩,destroys,eq⟩ := run
    cases eq
    exact .released active stored lives destroys
  | awaiting task k =>
    simp only [hand] at run
    split at run
    · rename_i c' continuation' v done
      cases run
      exact .handed active stored done
    · simp at run
  | final v => simp at run

theorem background_moved {act : IoQueue.Action}
    (kind : act = .submit ∨ act = .submitFails ∨ ∃ position res, act = .complete position res)
    (run : background m act = some (m', e)) : Moved p m a m' e := by
  obtain ⟨⟨io,e'⟩,taken,eq⟩ := Option.map_eq_some_iff.mp run
  cases eq
  exact .background kind taken

theorem step_moved (taken : step p m a = some (m', e)) : Moved p m a m' e := by
  cases a with
  | start c f =>
    simp only [step] at taken
    split at taken
    · rename_i free
      cases taken
      exact .started c rfl (by simpa using free.1) (by simpa using free.2)
    · simp at taken
  | proceed slot address completer child => exact proceed_moved taken
  | submit =>
    simp only [step] at taken
    split at taken
    · exact background_moved (.inl rfl) taken
    · simp at taken
  | submitFails =>
    simp only [step] at taken
    split at taken
    · exact background_moved (.inr (.inl rfl)) taken
    · simp at taken
  | complete position res => exact background_moved (.inr (.inr ⟨position,res,rfl⟩)) taken
  | consume =>
    simp only [step] at taken
    split at taken
    · rename_i idle
      replace idle : m.control = none := by simpa using idle
      cases run : m.io.step .consume with
      | none => simp [run] at taken
      | some pair =>
        obtain ⟨io,qe⟩ := pair
        cases step_taken run with
        | @consumed cqe rest resumed q' active queued dispatched =>
          cases resumed with
          | none =>
            simp only [run] at taken
            cases taken
            exact .dropped idle run
          | some r =>
            simp only [run] at taken
            obtain ⟨⟨c,continuation,point⟩,stored,eq⟩ := Option.map_eq_some_iff.mp taken
            cases eq
            exact .resumed idle run stored
    · simp at taken

end Inversion
end Coroutine
end Aiopp
