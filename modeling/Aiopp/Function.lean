import Aiopp.Foundations.UniquePointer
import Aiopp.Foundations.Transition

/-!
`Function` and what it holds: a callable on the heap behind a unique pointer. The callable is
mutable, so that a call may change it. Seen from outside, a `Function` is a value that is
empty or a callable, and that only moves: it cannot be copied, and the attempt does not end.
-/
namespace Aiopp
namespace Function
open UniquePointer Transition

/-- `P` is what an allocation returns. `copyConstruct` and `copyAssign` are given another
   `Function` that is not const and not moved. -/
inductive Action (P O V A : Type) where
  | construct (o : O)
  | constructFrom (o : O) (func : V) (address : P)
  | copyConstruct (o other : O)
  | moveConstruct (o other : O)
  | assign (o : O) (func : V) (address : P)
  | copyAssign (o other : O)
  | moveAssign (o other : O)
  | assignNull (o : O)
  | test (o : O)
  | call (o : O) (args : A)
  | destroy (o : O)
  deriving DecidableEq, Repr

inductive Event (R : Type) where
  | done
  | tested (holds : Bool)
  | returned (result : R)
  deriving DecidableEq, Repr

def Action.unplaced {P O V A : Type} : Action P O V A → Action Unit O V A
  | .construct o => .construct o
  | .constructFrom o func _ => .constructFrom o func ()
  | .copyConstruct o other => .copyConstruct o other
  | .moveConstruct o other => .moveConstruct o other
  | .assign o func _ => .assign o func ()
  | .copyAssign o other => .copyAssign o other
  | .moveAssign o other => .moveAssign o other
  | .assignNull o => .assignNull o
  | .test o => .test o
  | .call o args => .call o args
  | .destroy o => .destroy o

variable {O V A R : Type} [DecidableEq O]

/-- `callable_.reset(p)`: the new pointer is stored before the old callable is deleted. -/
def reset (s : Store O V) (o : O) (p : Option Nat) : Option (Store O V) :=
  (s.exchange o p).bind fun (old, s) => s.delete old

def constructFrom (s : Store O V) (o : O) (func : V) (address : Nat) : Option (Store O V) :=
  (s.new address func).bind fun s => s.construct o (some address)

def moveConstruct (s : Store O V) (o other : O) : Option (Store O V) :=
  (s.exchange other none).bind fun (p, s) => s.construct o p

def assign (s : Store O V) (o : O) (func : V) (address : Nat) : Option (Store O V) :=
  (s.new address func).bind fun s => reset s o (some address)

/-- A move of a unique pointer resets the target to what the source releases. -/
def moveAssign (s : Store O V) (o other : O) : Option (Store O V) :=
  (s.exchange other none).bind fun (p, s) => reset s o p

def call (invoke : V → A → V × R) (s : Store O V) (o : O) (args : A) :
    Option (Store O V × Event R) := do
  let p ← s.pointer o
  let a ← p
  let func ← s.cell a
  let (func, result) := invoke func args
  some (s.set a func, .returned result)

def destroy (s : Store O V) (o : O) : Option (Store O V) :=
  (reset s o none).map fun s => s.forget o

/-- A `Function` that is not const and not moved is taken by the templates. The callable they
   make holds a `Function`, which is made from the same object by the same constructor, and so
   on without end. -/
def step (invoke : V → A → V × R) (s : Store O V) :
    Action Nat O V A → Option (Store O V × Event R)
  | .construct o => (s.construct o none).map (·, .done)
  | .constructFrom o func address => (constructFrom s o func address).map (·, .done)
  | .copyConstruct .. => none
  | .copyAssign .. => none
  | .moveConstruct o other => (moveConstruct s o other).map (·, .done)
  | .assign o func address => (assign s o func address).map (·, .done)
  | .moveAssign o other => (moveAssign s o other).map (·, .done)
  | .assignNull o => (reset s o none).map (·, .done)
  | .test o => (s.pointer o).map fun p => (s, .tested p.isSome)
  | .call o args => call invoke s o args
  | .destroy o => (destroy s o).map (·, .done)

/-- The same operations on values: an object is not there, empty, or a callable. -/
def valueStep (invoke : V → A → V × R) (t : O → Option (Option V)) :
    Action Unit O V A → Option ((O → Option (Option V)) × Event R)
  | .construct o =>
    if (t o).isNone then some (Function.update t o (some none), .done) else none
  | .constructFrom o func _ =>
    if (t o).isNone then some (Function.update t o (some (some func)), .done) else none
  | .copyConstruct .. => none
  | .copyAssign .. => none
  | .moveConstruct o other =>
    match t other with
    | none => none
    | some v =>
      if (t o).isNone then
        some (Function.update (Function.update t other (some none)) o (some v), .done)
      else none
  | .assign o func _ =>
    if (t o).isSome then some (Function.update t o (some (some func)), .done) else none
  | .moveAssign o other =>
    match t other with
    | none => none
    | some v =>
      if (t o).isSome then
        some (Function.update (Function.update t other (some none)) o (some v), .done)
      else none
  | .assignNull o =>
    if (t o).isSome then some (Function.update t o (some none), .done) else none
  | .test o => (t o).map fun v => (t, .tested v.isSome)
  | .call o args =>
    match t o with
    | some (some func) =>
      let (func, result) := invoke func args
      some (Function.update t o (some (some func)), .returned result)
    | _ => none
  | .destroy o => if (t o).isSome then some (Function.update t o none, .done) else none

def Placed (s : Store O V) : Action Nat O V A → Prop
  | .constructFrom _ _ address => s.cell address = none
  | .assign _ _ address => s.cell address = none
  | _ => True

section Values
variable {invoke : V → A → V × R} {s s' : Store O V} {t t' : O → Option (Option V)} {o other : O}
  {func : V} {address : Nat}

theorem reset_shows {hand : Option Nat} {value old : Option V} (shows_ : Shows s hand t value)
    (there : t o = some old) :
    ∃ s', reset s o hand = some s' ∧ Shows s' none (Function.update t o (some value)) none := by
  obtain ⟨p,s₁,exchanged,shown⟩ := shows_exchange shows_ there
  obtain ⟨s₂,deleted,shown⟩ := shows_delete shown
  exact ⟨s₂,by rw [reset, exchanged]; exact deleted,shown⟩

theorem constructFrom_shows (shows_ : Shows s none t none) (free : s.cell address = none)
    (absent : t o = none) :
    ∃ s', constructFrom s o func address = some s' ∧
      Shows s' none (Function.update t o (some (some func))) none := by
  obtain ⟨s₁,made,shown⟩ := shows_new shows_ free func
  obtain ⟨s₂,built,shown⟩ := shows_construct shown absent
  exact ⟨s₂,by rw [constructFrom, made]; exact built,shown⟩

theorem assign_shows {old : Option V} (shows_ : Shows s none t none)
    (free : s.cell address = none) (there : t o = some old) :
    ∃ s', assign s o func address = some s' ∧
      Shows s' none (Function.update t o (some (some func))) none := by
  obtain ⟨s₁,made,shown⟩ := shows_new shows_ free func
  obtain ⟨s₂,assigned,shown⟩ := reset_shows shown there
  exact ⟨s₂,by rw [assign, made]; exact assigned,shown⟩

theorem moveConstruct_shows {v : Option V} (shows_ : Shows s none t none)
    (there : t other = some v) (absent : t o = none) :
    ∃ s', moveConstruct s o other = some s' ∧
      Shows s' none (Function.update (Function.update t other (some none)) o (some v)) none := by
  obtain ⟨p,s₁,taken,shown⟩ := shows_exchange shows_ there
  have apart : o ≠ other := by
    rintro rfl
    simp [absent] at there
  have still : Function.update t other (some none) o = none := by
    rw [Function.update_of_ne apart, absent]
  obtain ⟨s₂,built,shown⟩ := shows_construct shown still
  exact ⟨s₂,by rw [moveConstruct, taken]; exact built,shown⟩

/-- Also when the object is moved to itself: it is empty in between and gets its callable back. -/
theorem moveAssign_shows {v old : Option V} (shows_ : Shows s none t none)
    (there : t other = some v) (target : t o = some old) :
    ∃ s', moveAssign s o other = some s' ∧
      Shows s' none (Function.update (Function.update t other (some none)) o (some v)) none := by
  obtain ⟨p,s₁,taken,shown⟩ := shows_exchange shows_ there
  have still : ∃ old, Function.update t other (some none) o = some old := by
    by_cases same : o = other
    · exact ⟨none,by rw [same, Function.update_self]⟩
    · exact ⟨old,by rw [Function.update_of_ne same, target]⟩
  obtain ⟨_,target⟩ := still
  obtain ⟨s₂,assigned,shown⟩ := reset_shows shown target
  exact ⟨s₂,by rw [moveAssign, taken]; exact assigned,shown⟩

theorem destroy_shows {old : Option V} (shows_ : Shows s none t none) (there : t o = some old) :
    ∃ s', destroy s o = some s' ∧ Shows s' none (Function.update t o none) none := by
  obtain ⟨s₁,cleared,shown⟩ := reset_shows shows_ there
  have gone := shows_forget shown (Function.update_self o (some none) t)
  rw [Function.update_idem] at gone
  exact ⟨s₁.forget o,by rw [destroy, cleared, Option.map_some],gone⟩

theorem call_shows (shows_ : Shows s none t none) (there : t o = some (some func)) (args : A) :
    ∃ s', call invoke s o args = some (s', .returned (invoke func args).2) ∧
      Shows s' none (Function.update t o (some (some (invoke func args).1))) none := by
  obtain ⟨a,points,content,shown⟩ := shows_set shows_ there (invoke func args).1
  refine ⟨_,?_,shown⟩
  simp only [call, points, content, Option.bind_eq_bind, Option.bind_some]

/-- What happens to the values happens to the pointers, if the allocator does its part. -/
theorem value_taken {a : Action Nat O V A} {e : Event R} (shows_ : Shows s none t none)
    (placed : Placed s a) (taken : valueStep invoke t a.unplaced = some (t', e)) :
    ∃ s', step invoke s a = some (s', e) ∧ Shows s' none t' none := by
  cases a with
  | construct o =>
    obtain ⟨absent,done⟩ := Option.ite_none_right_eq_some.mp taken
    cases done
    obtain ⟨s',built,shown⟩ := shows_construct shows_ (Option.isNone_iff_eq_none.mp absent)
    exact ⟨s',by simp only [step, built, Option.map_some],shown⟩
  | constructFrom o func address =>
    obtain ⟨absent,done⟩ := Option.ite_none_right_eq_some.mp taken
    cases done
    obtain ⟨s',built,shown⟩ := constructFrom_shows shows_ placed (Option.isNone_iff_eq_none.mp absent)
    exact ⟨s',by simp only [step, built, Option.map_some],shown⟩
  | copyConstruct | copyAssign => cases taken
  | moveConstruct o other =>
    cases there : t other with
    | none => simp [valueStep, Action.unplaced, there] at taken
    | some v =>
      simp only [valueStep, Action.unplaced, there] at taken
      obtain ⟨absent,done⟩ := Option.ite_none_right_eq_some.mp taken
      cases done
      obtain ⟨s',moved,shown⟩ :=
        moveConstruct_shows shows_ there (Option.isNone_iff_eq_none.mp absent)
      exact ⟨s',by simp only [step, moved, Option.map_some],shown⟩
  | assign o func address =>
    obtain ⟨live,done⟩ := Option.ite_none_right_eq_some.mp taken
    cases done
    obtain ⟨old,there⟩ := Option.isSome_iff_exists.mp live
    obtain ⟨s',assigned,shown⟩ := assign_shows shows_ placed there
    exact ⟨s',by simp only [step, assigned, Option.map_some],shown⟩
  | moveAssign o other =>
    cases there : t other with
    | none => simp [valueStep, Action.unplaced, there] at taken
    | some v =>
      simp only [valueStep, Action.unplaced, there] at taken
      obtain ⟨live,done⟩ := Option.ite_none_right_eq_some.mp taken
      cases done
      obtain ⟨old,target⟩ := Option.isSome_iff_exists.mp live
      obtain ⟨s',moved,shown⟩ := moveAssign_shows shows_ there target
      exact ⟨s',by simp only [step, moved, Option.map_some],shown⟩
  | assignNull o =>
    obtain ⟨live,done⟩ := Option.ite_none_right_eq_some.mp taken
    cases done
    obtain ⟨old,there⟩ := Option.isSome_iff_exists.mp live
    obtain ⟨s',cleared,shown⟩ := reset_shows shows_ there
    exact ⟨s',by simp only [step, cleared, Option.map_some],shown⟩
  | test o =>
    obtain ⟨v,there,done⟩ := Option.map_eq_some_iff.mp taken
    cases done
    obtain ⟨owned,rfl,value⟩ := shows_
    obtain ⟨p,points,content⟩ := Option.map_eq_some_iff.mp there
    have same : p.isSome = v.isSome := by
      cases p with
      | none =>
        rw [← content]
        rfl
      | some a =>
        rw [← content]
        exact (owned.leads o a points).symm
    exact ⟨s,by simp only [step, points, Option.map_some, same],owned,rfl,value⟩
  | call o args =>
    cases there : t o with
    | none => simp [valueStep, Action.unplaced, there] at taken
    | some v =>
      cases v with
      | none => simp [valueStep, Action.unplaced, there] at taken
      | some func =>
        simp only [valueStep, Action.unplaced, there] at taken
        cases taken
        exact call_shows shows_ there args
  | destroy o =>
    obtain ⟨live,done⟩ := Option.ite_none_right_eq_some.mp taken
    cases done
    obtain ⟨old,there⟩ := Option.isSome_iff_exists.mp live
    obtain ⟨s',destroyed,shown⟩ := destroy_shows shows_ there
    exact ⟨s',by simp only [step, destroyed, Option.map_some],shown⟩

omit [DecidableEq O] in
theorem view_isSome (s : Store O V) (o : O) : (s.view o).isSome = (s.pointer o).isSome :=
  Option.isSome_map

omit [DecidableEq O] in
theorem view_isNone (s : Store O V) (o : O) : (s.view o).isNone = (s.pointer o).isNone :=
  Option.isNone_map

theorem exchange_there {p : Option Nat} {found : Option Nat × Store O V}
    (exchanged : s.exchange o p = some found) :
    (s.pointer o).isSome ∧ found.2 = s.assign o p := by
  obtain ⟨old,points,rfl⟩ := Option.map_eq_some_iff.mp exchanged
  exact ⟨by rw [points]; rfl,rfl⟩

theorem reset_there {p : Option Nat} (done : reset s o p = some s') : (s.pointer o).isSome := by
  obtain ⟨found,exchanged,_⟩ := Option.bind_eq_some_iff.mp done
  exact (exchange_there exchanged).1

theorem construct_absent {p : Option Nat} (done : s.construct o p = some s') :
    (s.pointer o).isNone := by
  obtain ⟨absent,_⟩ := Option.ite_none_right_eq_some.mp done
  rw [absent]
  rfl

omit [DecidableEq O] in
theorem new_free {made : Store O V} (done : s.new address func = some made) :
    s.cell address = none ∧ made.pointer = s.pointer := by
  obtain ⟨free,same⟩ := Option.ite_none_right_eq_some.mp done
  rw [← Option.some.inj same]
  exact ⟨Option.isNone_iff_eq_none.mp free,rfl⟩

theorem step_possible {a : Action Nat O V A} {e : Event R}
    (taken : step invoke s a = some (s', e)) :
    Placed s a ∧ (valueStep invoke s.view a.unplaced).isSome := by
  cases a with
  | construct o =>
    obtain ⟨_,done,_⟩ := Option.map_eq_some_iff.mp taken
    have absent := construct_absent done
    simp [Placed, valueStep, Action.unplaced, view_isNone, absent]
  | constructFrom o func address =>
    obtain ⟨_,done,_⟩ := Option.map_eq_some_iff.mp taken
    obtain ⟨made,allocated,built⟩ := Option.bind_eq_some_iff.mp done
    obtain ⟨free,same⟩ := new_free allocated
    have absent := same ▸ construct_absent built
    simp [Placed, valueStep, Action.unplaced, view_isNone, absent, free]
  | copyConstruct | copyAssign => cases taken
  | moveConstruct o other =>
    obtain ⟨_,done,_⟩ := Option.map_eq_some_iff.mp taken
    obtain ⟨⟨p,released⟩,exchanged,built⟩ := Option.bind_eq_some_iff.mp done
    obtain ⟨live,rfl⟩ := exchange_there exchanged
    have absent := construct_absent built
    obtain ⟨v,there⟩ := Option.isSome_iff_exists.mp ((view_isSome s other).trans live)
    have apart : o ≠ other := by
      rintro rfl
      simp [Store.assign] at absent
    have still : (s.view o).isNone := by
      rw [view_isNone]
      simpa [Store.assign, apart] using absent
    simp [Placed, valueStep, Action.unplaced, there, still]
  | assign o func address =>
    obtain ⟨_,done,_⟩ := Option.map_eq_some_iff.mp taken
    obtain ⟨made,allocated,assigned⟩ := Option.bind_eq_some_iff.mp done
    obtain ⟨free,same⟩ := new_free allocated
    have live := same ▸ reset_there assigned
    simp [Placed, valueStep, Action.unplaced, view_isSome, live, free]
  | moveAssign o other =>
    obtain ⟨_,done,_⟩ := Option.map_eq_some_iff.mp taken
    obtain ⟨⟨p,released⟩,exchanged,assigned⟩ := Option.bind_eq_some_iff.mp done
    obtain ⟨live,rfl⟩ := exchange_there exchanged
    have target := reset_there assigned
    obtain ⟨v,there⟩ := Option.isSome_iff_exists.mp ((view_isSome s other).trans live)
    have still : (s.view o).isSome := by
      rw [view_isSome]
      by_cases same : o = other
      · rw [same]
        exact live
      · simpa [Store.assign, same] using target
    simp [Placed, valueStep, Action.unplaced, there, still]
  | assignNull o =>
    obtain ⟨_,done,_⟩ := Option.map_eq_some_iff.mp taken
    have live := reset_there done
    simp [Placed, valueStep, Action.unplaced, view_isSome, live]
  | test o =>
    obtain ⟨p,points,_⟩ := Option.map_eq_some_iff.mp taken
    simp [Placed, valueStep, Action.unplaced, view_isSome, points]
  | call o args =>
    simp only [step, call, Option.bind_eq_bind, Option.bind_eq_some_iff] at taken
    obtain ⟨p,points,a,rfl,func,content,_⟩ := taken
    have there : s.view o = some (some func) := by simp [Store.view, points, content]
    simp [Placed, valueStep, Action.unplaced, there]
  | destroy o =>
    obtain ⟨_,done,_⟩ := Option.map_eq_some_iff.mp taken
    obtain ⟨cleared,reset_done,_⟩ := Option.map_eq_some_iff.mp done
    have live := reset_there reset_done
    simp [Placed, valueStep, Action.unplaced, view_isSome, live]

theorem step_follows (invoke : V → A → V × R) :
    Follows (step invoke) (valueStep invoke) Action.unplaced
      fun (s : Store O V) t => Shows s none t none := by
  intro s t a s' e shows_ taken
  obtain ⟨placed,possible⟩ := step_possible taken
  rw [shows_.view] at possible
  obtain ⟨⟨t',e'⟩,there⟩ := Option.isSome_iff_exists.mp possible
  obtain ⟨s₁,done,shown⟩ := value_taken shows_ placed there
  obtain ⟨rfl,rfl⟩ := Prod.mk.inj (Option.some.inj (done.symm.trans taken))
  exact ⟨t',there,shown⟩

end Values

/-- In every history of `Function` objects the results of calls and tests are those of values
that are copied nowhere and moved around: no callable is shared, lost or left behind, and an
operation is possible exactly when it is on the values. -/
theorem functions_are_values (invoke : V → A → V × R) {s : Store O V}
    {log : List (Action Nat O V A × Event R)}
    (run : Run (labelled (step invoke)) (fun _ _ _ => True) {} s log) :
    (∃ t, Run (labelled (valueStep invoke)) (fun _ _ _ => True) (fun _ => none) t
        (log.map fun entry => (entry.1.unplaced, entry.2)) ∧ s.view = t) ∧
      (∀ a, (step invoke s a).isSome ↔
        Placed s a ∧ (valueStep invoke s.view a.unplaced).isSome) ∧
      (∀ cell, (s.cell cell).isSome ↔ ∃ o, s.pointer o = some (some cell)) ∧
      ∀ o o' cell, s.pointer o = some (some cell) → s.pointer o' = some (some cell) → o = o' := by
  obtain ⟨t,values,shown⟩ := (step_follows invoke).run shows_empty run
  refine ⟨⟨t,values,shown.view⟩,fun a => ⟨?_,?_⟩,fun cell => ⟨?_,?_⟩,shown.owned.single⟩
  · intro taken
    obtain ⟨done,there⟩ := Option.isSome_iff_exists.mp taken
    exact step_possible there
  · rintro ⟨placed,possible⟩
    obtain ⟨⟨t',e⟩,there⟩ := Option.isSome_iff_exists.mp possible
    obtain ⟨s',done,_⟩ := value_taken (shown.view ▸ shown) placed there
    rw [done]
    rfl
  · intro live
    exact (shown.owned.held cell live).resolve_left (by simp)
  · rintro ⟨o,points⟩
    exact shown.owned.leads o cell points

def accumulate (total x : Nat) : Nat × Nat := (total + x, total + x)

theorem accumulator_moved : ∃ (s : Store Bool Nat) (log : List (Action Nat Bool Nat Nat × Event Nat)),
    Run (labelled (step accumulate)) (fun _ _ _ => True) {} s log ∧
      s.view = (fun o => some (if o then some 12 else none)) ∧
      (s.cell 8).isSome ∧ ¬ (s.cell 9).isSome := by
  let actions : List (Action Nat Bool Nat Nat) := [.constructFrom false 0 8, .call false 5,
    .constructFrom true 100 9, .moveAssign true false, .moveAssign true true, .call true 7,
    .test false]
  have computed : (replay (labelled (step accumulate)) (fun _ _ _ => True)
      ({} : Store Bool Nat) [] actions).map (fun (s, _) =>
        (s.pointer true, s.pointer false, s.view true, s.view false)) =
      some (some (some 8), some none, some (some 12), some none) := by decide
  obtain ⟨s,log,run,facts⟩ := replay_reaches computed
  simp only [Prod.mk.injEq] at facts
  obtain ⟨target,source,value,empty⟩ := facts
  obtain ⟨_,_,cells,_⟩ := functions_are_values accumulate run
  refine ⟨s,log,run,?_,(cells 8).mpr ⟨true,target⟩,?_⟩
  · funext o
    cases o with
    | false => simpa using empty
    | true => simpa using value
  · rintro live
    obtain ⟨o,points⟩ := (cells 9).mp live
    cases o with
    | false => simp [source] at points
    | true => simp [target] at points

end Function
end Aiopp
