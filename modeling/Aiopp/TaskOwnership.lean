import Aiopp.Foundations.UniquePointer
import Aiopp.Foundations.Transition

/-!
`Task` objects and the coroutine frames they own. Move assignment destroys the frame that the
target has before it takes over the other one, which is one order too many when both are the
same object.
-/
namespace Aiopp
namespace Tasks
open UniquePointer Transition
variable {O F : Type} [DecidableEq O]

inductive Action (O F : Type) where
  | constructDefault (o : O)
  | call (o : O) (frame : F) (address : Nat)
  | moveConstruct (o other : O)
  | moveAssign (o other : O)
  | destroy (o : O)
  deriving DecidableEq, Repr

def call (s : Store O F) (o : O) (frame : F) (address : Nat) : Option (Store O F) :=
  (s.new address frame).bind fun s => s.construct o (some address)

def moveConstruct (s : Store O F) (o other : O) : Option (Store O F) :=
  (s.exchange other none).bind fun (handle, s) => s.construct o handle

/-- `if (handle_) handle_.destroy()`, which leaves the handle as it is. -/
def destroyFrame (s : Store O F) (o : O) : Option (Store O F) :=
  (s.pointer o).bind fun handle => s.delete handle

def moveAssign (s : Store O F) (o other : O) : Option (Store O F) :=
  (destroyFrame s o).bind fun s =>
    (s.exchange other none).map fun (handle, s) => s.assign o handle

def destroy (s : Store O F) (o : O) : Option (Store O F) :=
  (destroyFrame s o).map fun s => s.forget o

def apply (s : Store O F) : Action O F → Option (Store O F)
  | .constructDefault o => s.construct o none
  | .call o frame address => call s o frame address
  | .moveConstruct o other => moveConstruct s o other
  | .moveAssign o other => moveAssign s o other
  | .destroy o => destroy s o

def step (s : Store O F) (a : Action O F) : Option (Store O F × Unit) := (apply s a).map (·, ())

def AnyOrder (_ : Store O F) (_ : List (Action O F × Unit)) (_ : Action O F) : Prop := True

def Keeps (s : Store O F) (_ : List (Action O F × Unit)) : Action O F → Prop
  | .moveAssign o other => o ≠ other ∨ s.pointer o = some none
  | _ => True

instance (s : Store O F) (log : List (Action O F × Unit)) :
    (a : Action O F) → Decidable (Keeps s log a)
  | .moveAssign _ _ => inferInstanceAs (Decidable (_ ∨ _))
  | .constructDefault _ | .call _ _ _ | .moveConstruct _ _ | .destroy _ => .isTrue trivial

/-- Every frame has exactly one task, and no task that is there is in the way of its destructor. -/
structure Sound (s : Store O F) : Prop where
  owned : Owned s none
  destructible : ∀ o, (s.pointer o).isSome → (destroy s o).isSome

section Operations
variable {s s' : Store O F} {o other : O}

omit [DecidableEq O] in
theorem owned_shows (owned : Owned s none) : Shows s none s.view none := ⟨owned,rfl,rfl⟩

theorem destroyFrame_shows {handle : Option Nat} (owned : Owned s none)
    (points : s.pointer o = some handle) :
    ∃ s', destroyFrame s o = some s' ∧
      Shows (s'.assign o none) none (Function.update s.view o (some none)) none := by
  have there : s.view o = some (handle.bind s.cell) := by simp [Store.view, points]
  obtain ⟨p,s₁,exchanged,shown⟩ := shows_exchange (owned_shows owned) there
  obtain ⟨s₂,deleted,gone⟩ := shows_delete shown
  rw [Store.exchange, points] at exchanged
  obtain ⟨rfl,rfl⟩ := Prod.mk.inj (Option.some.inj exchanged)
  cases handle with
  | none =>
    cases deleted
    exact ⟨s,by rw [destroyFrame, points]; rfl,gone⟩
  | some a =>
    obtain ⟨live,same⟩ := Option.ite_none_right_eq_some.mp deleted
    refine ⟨{ s with cell := Function.update s.cell a none },?_,?_⟩
    · rw [destroyFrame, points]
      exact if_pos live
    · rw [← Option.some.inj same] at gone
      exact gone

theorem destroy_owned (owned : Owned s none) (live : (s.pointer o).isSome) :
    ∃ s', destroy s o = some s' ∧ Owned s' none := by
  obtain ⟨handle,points⟩ := Option.isSome_iff_exists.mp live
  obtain ⟨s₁,destroyed,shown⟩ := destroyFrame_shows owned points
  have gone := shows_forget shown (Function.update_self o (some none) s.view)
  have same : (s₁.assign o none).forget o = s₁.forget o := by
    simp [Store.assign, Store.forget]
  rw [same] at gone
  exact ⟨s₁.forget o,by rw [destroy, destroyed]; rfl,gone.owned⟩

theorem owned_sound (owned : Owned s none) : Sound s := by
  refine ⟨owned,fun o live => ?_⟩
  obtain ⟨s',destroyed,_⟩ := destroy_owned owned live
  rw [destroyed]
  rfl

theorem call_owned {frame : F} {address : Nat} (owned : Owned s none)
    (done : call s o frame address = some s') : Owned s' none := by
  obtain ⟨made,allocated,built⟩ := Option.bind_eq_some_iff.mp done
  have free := (Option.ite_none_right_eq_some.mp allocated).1
  obtain ⟨s₁,made_so,shown⟩ :=
    shows_new (owned_shows owned) (Option.isNone_iff_eq_none.mp free) frame
  obtain rfl := Option.some.inj (made_so.symm.trans allocated)
  have absent : s₁.view o = none :=
    Option.map_eq_none_iff.mpr (Option.ite_none_right_eq_some.mp built).1
  obtain ⟨s₂,built_so,constructed⟩ := shows_construct shown (shown.view ▸ absent)
  obtain rfl := Option.some.inj (built_so.symm.trans built)
  exact constructed.owned

theorem constructDefault_owned (owned : Owned s none) (done : s.construct o none = some s') :
    Owned s' none := by
  have absent : s.view o = none :=
    Option.map_eq_none_iff.mpr (Option.ite_none_right_eq_some.mp done).1
  obtain ⟨s₁,built,shown⟩ := shows_construct (owned_shows owned) absent
  obtain rfl := Option.some.inj (built.symm.trans done)
  exact shown.owned

theorem moveConstruct_owned (owned : Owned s none) (done : moveConstruct s o other = some s') :
    Owned s' none := by
  obtain ⟨⟨p,released⟩,exchanged,built⟩ := Option.bind_eq_some_iff.mp done
  obtain ⟨held,points,_⟩ := Option.map_eq_some_iff.mp exchanged
  have there : s.view other = some (held.bind s.cell) := by rw [Store.view, points]; rfl
  obtain ⟨p₁,s₁,taken,shown⟩ := shows_exchange (owned_shows owned) there
  obtain ⟨rfl,rfl⟩ := Prod.mk.inj (Option.some.inj (taken.symm.trans exchanged))
  have absent : s₁.view o = none :=
    Option.map_eq_none_iff.mpr (Option.ite_none_right_eq_some.mp built).1
  obtain ⟨s₂,built_so,constructed⟩ := shows_construct shown (shown.view ▸ absent)
  obtain rfl := Option.some.inj (built_so.symm.trans built)
  exact constructed.owned

theorem assign_overwritten (s : Store O F) (o other : O) (first second third : Option Nat) :
    ((s.assign o first).assign other second).assign o third =
      (s.assign other second).assign o third := by
  unfold Store.assign
  congr 1
  funext x
  by_cases same : x = o
  · simp [same]
  · simp [Function.update_apply, same]

/-- The target is empty once its frame is destroyed, so that nothing is overwritten. -/
theorem moveAssign_owned (owned : Owned s none) (done : moveAssign s o other = some s')
    (keeps : o ≠ other ∨ s.pointer o = some none) : Owned s' none := by
  obtain ⟨destroyed,first,assigned⟩ := Option.bind_eq_some_iff.mp done
  obtain ⟨handle,points,_⟩ := Option.bind_eq_some_iff.mp first
  obtain ⟨s₁,destroyed_so,shown⟩ := destroyFrame_shows owned points
  obtain rfl := Option.some.inj (destroyed_so.symm.trans first)
  obtain ⟨⟨p,released⟩,exchanged,rfl⟩ := Option.map_eq_some_iff.mp assigned
  obtain ⟨held,there,eq⟩ := Option.map_eq_some_iff.mp exchanged
  obtain ⟨rfl,rfl⟩ := Prod.mk.inj eq
  by_cases same : o = other
  · subst same
    have null := keeps.resolve_left (not_not.mpr rfl)
    rw [destroyFrame, null] at first
    cases first
    obtain rfl := Option.some.inj (null.symm.trans there)
    have idle : (s.assign o none).assign o none = s.assign o none := by simp [Store.assign]
    change Owned ((s.assign o none).assign o none) none
    rw [idle]
    exact shown.owned
  · have there' : (s₁.assign o none).pointer other = some held := by
      simpa [Store.assign, Ne.symm same] using there
    have held_value : Function.update s.view o (some none) other =
        some (held.bind (s₁.assign o none).cell) := by
      rw [← shown.view, Store.view, there']
      rfl
    obtain ⟨p₂,s₂,taken,shown⟩ := shows_exchange shown held_value
    rw [Store.exchange, there'] at taken
    obtain ⟨rfl,rfl⟩ := Prod.mk.inj (Option.some.inj taken)
    have empty : ((s₁.assign o none).assign other none).pointer o = some none := by
      simp [Store.assign, same]
    have empty_value : Function.update (Function.update s.view o (some none)) other (some none) o =
        some none := by
      rw [Function.update_of_ne same, Function.update_self]
    obtain ⟨p₃,s₃,stored,shown⟩ := shows_exchange shown empty_value
    rw [Store.exchange, empty] at stored
    obtain ⟨rfl,rfl⟩ := Prod.mk.inj (Option.some.inj stored)
    rw [assign_overwritten] at shown
    exact shown.owned

/-- The handle that is moved is the one of the frame that was just destroyed. -/
theorem moveAssign_dangles (done : moveAssign s o other = some s')
    (careless : ¬ (o ≠ other ∨ s.pointer o = some none)) : ¬ Owned s' none := by
  obtain ⟨same,real⟩ := not_or.mp careless
  obtain rfl := not_not.mp same
  obtain ⟨destroyed,first,assigned⟩ := Option.bind_eq_some_iff.mp done
  obtain ⟨handle,points,deleted⟩ := Option.bind_eq_some_iff.mp first
  cases handle with
  | none => exact absurd points real
  | some a =>
    obtain ⟨_,eq⟩ := Option.ite_none_right_eq_some.mp deleted
    obtain rfl := Option.some.inj eq
    obtain ⟨⟨p,released⟩,exchanged,rfl⟩ := Option.map_eq_some_iff.mp assigned
    obtain ⟨held,there,eq⟩ := Option.map_eq_some_iff.mp exchanged
    obtain ⟨rfl,rfl⟩ := Prod.mk.inj eq
    obtain rfl := Option.some.inj (points.symm.trans there)
    intro after
    have live := after.leads o a (by simp [Store.assign])
    simp [Store.assign] at live

theorem apply_owned {a : Action O F} {log : List (Action O F × Unit)} (owned : Owned s none)
    (keeps : Keeps s log a) (done : apply s a = some s') : Owned s' none := by
  cases a with
  | constructDefault o => exact constructDefault_owned owned done
  | call o frame address => exact call_owned owned done
  | moveConstruct o other => exact moveConstruct_owned owned done
  | moveAssign o other => exact moveAssign_owned owned done keeps
  | destroy o =>
    obtain ⟨destroyed,first,_⟩ := Option.map_eq_some_iff.mp done
    obtain ⟨handle,points,_⟩ := Option.bind_eq_some_iff.mp first
    obtain ⟨s₁,done_so,after⟩ := destroy_owned owned (by rw [points]; rfl)
    obtain rfl := Option.some.inj (done_so.symm.trans done)
    exact after

theorem apply_dangles {a : Action O F} {log : List (Action O F × Unit)}
    (careless : ¬ Keeps s log a) (done : apply s a = some s') : ¬ Owned s' none := by
  cases a with
  | moveAssign o other => exact moveAssign_dangles done careless
  | _ => exact absurd trivial careless

theorem step_apply {a : Action O F} {e : Unit} (taken : step s a = some (s', e)) :
    apply s a = some s' := by
  obtain ⟨after,done,eq⟩ := Option.map_eq_some_iff.mp taken
  cases eq
  exact done

end Operations

/-- In a run of tasks that are called, moved, assigned and destroyed in any order, every frame
has one owner at all times and every destructor finds its frame, exactly when no task that has
a frame is assigned to itself. -/
theorem frames_owned_iff {s : Store O F} {log : List (Action O F × Unit)}
    (run : Run (labelled step) AnyOrder {} s log) :
    Throughout (labelled step) AnyOrder {} (fun s _ => Sound s) log ↔
      Run (labelled step) Keeps {} s log := by
  have iff := labelled_throughout_iff Keeps (fun s _ => Owned s none) (fun s _ => Sound s)
    shows_empty.owned (fun _ _ owned => owned_sound owned)
    (fun _ _ _ _ _ owned _ keeps taken => apply_owned owned keeps (step_apply taken))
    (fun _ _ _ _ _ _ _ careless taken sound =>
      apply_dangles careless (step_apply taken) sound.owned) run
  rw [iff]
  constructor
  · intro kept
    exact kept.relax fun _ _ _ allowed => allowed.2
  · intro kept
    exact kept.relax fun _ _ _ allowed => ⟨trivial,allowed⟩

theorem frames_owned_moves : ∃ (s : Store (Fin 3) Nat) (log : List (Action (Fin 3) Nat × Unit)),
    Run (labelled step) AnyOrder {} s log ∧
      Throughout (labelled step) AnyOrder {} (fun s _ => Sound s) log ∧
      s.view 1 = some (some 20) := by
  let actions : List (Action (Fin 3) Nat) := [.call 0 10 7, .call 1 20 8, .moveAssign 0 1,
    .moveConstruct 2 0, .moveAssign 1 1, .moveAssign 1 2, .destroy 0]
  have computed : (replay (labelled step) Keeps ({} : Store (Fin 3) Nat) [] actions).map
      (fun (s, _) => decide (s.view 1 = some (some 20))) = some true := by decide
  obtain ⟨⟨s,log⟩,played,facts⟩ := Option.map_eq_some_iff.mp computed
  have kept : Run (labelled step) Keeps {} s log := replay_run .nil played
  have run : Run (labelled step) AnyOrder {} s log := kept.relax fun _ _ _ _ => trivial
  exact ⟨s,log,run,(frames_owned_iff run).mpr kept,of_decide_eq_true facts⟩

end Tasks
end Aiopp
