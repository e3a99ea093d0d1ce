import Mathlib.Data.Int.Basic
import Mathlib.Logic.Function.Basic
import Aiopp.Foundations.Transition

/-!
The descriptors of a process and the `Fd` objects that own them. A descriptor is in
somebody's hand between the call that returned it and the object that takes it over;
only those that the user got from `release` are there between two operations.
-/
namespace Aiopp
open Transition

structure Fds (O : Type) where
  objects : O → Option Int32 := fun _ => none
  isOpen : Int32 → Bool := fun _ => false
  handed : Int32 → Bool := fun _ => false
  doubleClosed : Bool := false

namespace Fds
variable {O : Type} [DecidableEq O]

def closeFd (s : Fds O) (fd : Int32) : Fds O :=
  { s with isOpen := Function.update s.isOpen fd false, doubleClosed := s.doubleClosed || !s.isOpen fd }

def opened (s : Fds O) (fd : Int32) : Fds O :=
  { s with
    isOpen := Function.update s.isOpen fd (fd ≠ -1)
    handed := Function.update s.handed fd true }

def put (s : Fds O) (o : O) (fd : Int32) : Fds O :=
  { s with objects := Function.update s.objects o (some fd) }

/-- The object takes over what the caller had in hand. -/
def adopt (s : Fds O) (o : O) (fd : Int32) : Fds O :=
  { s.put o fd with handed := Function.update s.handed fd false }

def close (s : Fds O) (o : O) : Option (Fds O) :=
  (s.objects o).map fun fd => (if fd ≠ -1 then s.closeFd fd else s).put o (-1)

def reset (s : Fds O) (o : O) (fd : Int32) : Option (Fds O) :=
  (s.close o).map fun s => s.adopt o fd

def release (s : Fds O) (o : O) : Option (Int32 × Fds O) :=
  (s.objects o).map fun fd =>
    (fd, { s.put o (-1) with handed := Function.update s.handed fd true })

def construct (s : Fds O) (o : O) (fd : Int32) : Option (Fds O) :=
  if s.objects o = none then some (s.adopt o fd) else none

def moveConstruct (s : Fds O) (o other : O) : Option (Fds O) :=
  (s.release other).bind fun (fd, s) => s.construct o fd

def moveAssign (s : Fds O) (o other : O) : Option (Fds O) :=
  if s.objects o = none then none else (s.release other).map fun (fd, s) => s.adopt o fd

def destroy (s : Fds O) (o : O) : Option (Fds O) :=
  (s.close o).map fun s => { s with objects := Function.update s.objects o none }

inductive Action (O : Type) where
  | constructDefault (o : O)
  | construct (o : O) (fd : Int32)
  | moveConstruct (o other : O)
  | moveAssign (o other : O)
  | close (o : O)
  | reset (o : O) (fd : Int32)
  | release (o : O)
  | destroy (o : O)

def Fresh (s : Fds O) (fd : Int32) : Prop := fd = -1 ∨ 0 ≤ fd ∧ s.isOpen fd = false

instance (s : Fds O) (fd : Int32) : Decidable (s.Fresh fd) :=
  inferInstanceAs (Decidable (_ ∨ _ ∧ _))

def apply (s : Fds O) : Action O → Option (Fds O)
  | .constructDefault o => s.construct o (-1)
  | .construct o fd => if s.Fresh fd then (s.opened fd).construct o fd else none
  | .moveConstruct o other => s.moveConstruct o other
  | .moveAssign o other => s.moveAssign o other
  | .close o => s.close o
  | .reset o fd => if s.Fresh fd then (s.opened fd).reset o fd else none
  | .release o => (s.release o).map Prod.snd
  | .destroy o => s.destroy o

def step (s : Fds O) (a : Action O) : Option (Fds O × Action O) := (s.apply a).map (·, a)

/-- Every descriptor that is open has exactly one owner, and no other descriptor has any. -/
structure Linear (s : Fds O) : Prop where
  owned : ∀ fd, s.isOpen fd = true ↔
    fd ≠ -1 ∧ ((∃ o, s.objects o = some fd) ∨ s.handed fd = true)
  single : ∀ o other fd, s.objects o = some fd → s.objects other = some fd → fd = -1 ∨ o = other
  apart : ∀ o fd, s.objects o = some fd → fd = -1 ∨ s.handed fd = false
  once : s.doubleClosed = false

section Operations
variable {s s' : Fds O} {o other : O} {fd : Int32}

omit [DecidableEq O] in
theorem opened_linear (linear : s.Linear) (fresh : s.Fresh fd) : (s.opened fd).Linear := by
  have closed : fd = -1 ∨ s.isOpen fd = false := fresh.imp_right And.right
  have unheld : ∀ o, s.objects o = some fd → fd = -1 := by
    intro o held
    by_contra real
    have isOpen := (linear.owned fd).mpr ⟨real,.inl ⟨o,held⟩⟩
    simp [real, isOpen] at closed
  constructor
  · intro x
    have before := linear.owned x
    by_cases same : x = fd
    · subst x
      simp [opened]
    · simpa [opened, same] using before
  · exact linear.single
  · intro o x held
    by_cases same : x = fd
    · subst x
      exact .inl (unheld o held)
    · simpa [opened, same] using linear.apart o x held
  · exact linear.once

theorem put_held {x : Int32} (empty : ∀ old, s.objects o = some old → old = -1) (real : x ≠ -1) :
    (∃ a, (s.put o fd).objects a = some x) ↔ x = fd ∨ ∃ a, s.objects a = some x := by
  constructor
  · rintro ⟨a,held⟩
    by_cases same : a = o
    · subst a
      simp [put] at held
      exact .inl held.symm
    · exact .inr ⟨a,by simpa [put, same] using held⟩
  · rintro (rfl | ⟨a,held⟩)
    · exact ⟨o,by simp [put]⟩
    · have same : a ≠ o := by
        rintro rfl
        exact real (empty x held)
      exact ⟨a,by simpa [put, same] using held⟩

theorem adopt_linear (linear : s.Linear) (empty : ∀ old, s.objects o = some old → old = -1)
    (given : fd = -1 ∨ s.handed fd = true) : (s.adopt o fd).Linear := by
  obtain ⟨owned,single,apart,once⟩ := linear
  have unheld : ∀ a, s.objects a = some fd → fd = -1 := by grind
  constructor
  · intro x
    change s.isOpen x = true ↔ x ≠ -1 ∧ ((∃ a, (s.put o fd).objects a = some x) ∨
      Function.update s.handed fd false x = true)
    rw [owned x]
    apply and_congr_right
    intro real
    rw [put_held empty real]
    by_cases same : x = fd
    · subst x
      simp [given.resolve_left real]
    · simp [same]
  · intro a b x
    simp only [adopt, put, Function.update_apply]
    grind
  · intro a x
    simp only [adopt, put, Function.update_apply]
    grind
  · exact once

theorem adopt_leaks {old : Int32} (linear : s.Linear) (held : s.objects o = some old)
    (real : old ≠ -1) (distinct : fd ≠ old) : ¬ (s.adopt o fd).Linear := by
  intro after
  have isOpen : (s.adopt o fd).isOpen old = true := (linear.owned old).mpr ⟨real,.inl ⟨o,held⟩⟩
  rcases ((after.owned old).mp isOpen).2 with ⟨a,holder⟩ | handed
  · by_cases same : a = o
    · subst a
      simp [adopt, put, distinct] at holder
    · have elsewhere : s.objects a = some old := by simpa [adopt, put, same] using holder
      exact (linear.single a o old elsewhere held).elim real same
  · have unhanded := (linear.apart o old held).resolve_left real
    simp [adopt, distinct.symm, unhanded] at handed

theorem release_spec (linear : s.Linear) (run : s.release o = some (fd, s')) :
    s'.Linear ∧ s'.handed fd = true ∧ s.objects o = some fd ∧
      s'.objects = Function.update s.objects o (some (-1)) := by
  obtain ⟨old,held,eq⟩ := Option.map_eq_some_iff.mp run
  obtain ⟨rfl,rfl⟩ := Prod.mk.inj eq
  obtain ⟨owned,single,apart,once⟩ := linear
  refine ⟨⟨?_,?_,?_,once⟩,by simp,held,rfl⟩
  · intro x
    change s.isOpen x = true ↔ x ≠ -1 ∧ ((∃ a, (s.put o (-1)).objects a = some x) ∨
      Function.update s.handed old true x = true)
    rw [owned x]
    apply and_congr_right
    intro real
    by_cases same : x = old
    · subst x
      simpa using Or.inl ⟨o,held⟩
    · simp only [put, Function.update_apply]
      grind
  · intro a b x
    simp only [put, Function.update_apply]
    grind
  · intro a x
    simp only [put, Function.update_apply]
    grind

theorem close_spec (linear : s.Linear) (run : s.close o = some s') :
    s'.Linear ∧ s'.objects = Function.update s.objects o (some (-1)) ∧ s'.handed = s.handed := by
  obtain ⟨old,held,rfl⟩ := Option.map_eq_some_iff.mp run
  obtain ⟨owned,single,apart,once⟩ := linear
  by_cases real : old = -1
  · subst old
    simp only [ne_eq, not_true_eq_false, ↓reduceIte]
    have same : s.put o (-1) = s := by
      simp only [put, ← held, Function.update_eq_self]
    rw [same, ← held, Function.update_eq_self]
    exact ⟨⟨owned,single,apart,once⟩,rfl,rfl⟩
  · simp only [ne_eq, real, not_false_eq_true, ↓reduceIte]
    have isOpen := (owned old).mpr ⟨real,.inl ⟨o,held⟩⟩
    refine ⟨⟨?_,?_,?_,?_⟩,rfl,rfl⟩
    · intro x
      simp only [put, closeFd, Function.update_apply]
      grind
    · intro a b x
      simp only [put, closeFd, Function.update_apply]
      grind
    · intro a x
      simp only [put, closeFd, Function.update_apply]
      grind
    · simp [put, closeFd, once, isOpen]

theorem construct_linear (linear : s.Linear) (given : fd = -1 ∨ s.handed fd = true)
    (run : s.construct o fd = some s') : s'.Linear := by
  unfold construct at run
  split at run
  · rename_i absent
    cases run
    exact adopt_linear linear (by simp [absent]) given
  · simp at run

theorem reset_linear (linear : s.Linear) (given : s.handed fd = true)
    (run : s.reset o fd = some s') : s'.Linear := by
  obtain ⟨closed,close,rfl⟩ := Option.map_eq_some_iff.mp run
  obtain ⟨kept,objects,handed⟩ := close_spec linear close
  refine adopt_linear kept ?_ (.inr (by rw [handed, given]))
  simp [objects]

theorem destroy_linear (linear : s.Linear) (run : s.destroy o = some s') : s'.Linear := by
  obtain ⟨closed,close,rfl⟩ := Option.map_eq_some_iff.mp run
  obtain ⟨⟨owned,single,apart,once⟩,objects,handed⟩ := close_spec linear close
  have dropped : ∀ a x, Function.update closed.objects o none a = some x ↔
      closed.objects a = some x ∧ a ≠ o := by
    intro a x
    by_cases same : a = o
    · simp [same]
    · simp [same]
  have emptied : ∀ x, closed.objects o = some x → x = -1 := by simp [objects]
  refine ⟨?_,?_,?_,once⟩
  · intro x
    rw [owned x]
    apply and_congr_right
    intro real
    simp only [dropped]
    grind
  · intro a b x left right
    exact single a b x ((dropped a x).mp left).1 ((dropped b x).mp right).1
  · intro a x held
    exact apart a x ((dropped a x).mp held).1

theorem moveConstruct_linear (linear : s.Linear) (run : s.moveConstruct o other = some s') :
    s'.Linear := by
  obtain ⟨⟨fd,released⟩,release,construct⟩ := Option.bind_eq_some_iff.mp run
  obtain ⟨kept,handed,_⟩ := release_spec linear release
  exact construct_linear kept (.inr handed) construct

/-- The whole of `operator=(Fd&&)`: the target is overwritten and not closed. -/
theorem moveAssign_cases (run : s.moveAssign o other = some s') :
    ∃ old fd released, s.objects o = some old ∧ s.release other = some (fd, released) ∧
      s' = released.adopt o fd := by
  unfold moveAssign at run
  split at run
  · simp at run
  · rename_i live
    obtain ⟨⟨fd,released⟩,release,rfl⟩ := Option.map_eq_some_iff.mp run
    obtain ⟨old,held⟩ := Option.ne_none_iff_exists'.mp live
    exact ⟨old,fd,released,held,release,rfl⟩

theorem moveAssign_linear (linear : s.Linear) (run : s.moveAssign o other = some s')
    (kept : o = other ∨ s.objects o = some (-1)) : s'.Linear := by
  obtain ⟨old,fd,released,held,release,rfl⟩ := moveAssign_cases run
  obtain ⟨linear',handed,_,objects⟩ := release_spec linear release
  refine adopt_linear linear' ?_ (.inr handed)
  intro x content
  rw [objects] at content
  by_cases same : o = other
  · subst o
    simpa using content.symm
  · rw [Function.update_of_ne same, kept.resolve_left same] at content
    exact (Option.some.inj content).symm

theorem moveAssign_leaks (linear : s.Linear) (run : s.moveAssign o other = some s')
    (kept : ¬ (o = other ∨ s.objects o = some (-1))) : ¬ s'.Linear := by
  obtain ⟨old,fd,released,held,release,rfl⟩ := moveAssign_cases run
  obtain ⟨linear',_,given,objects⟩ := release_spec linear release
  obtain ⟨distinct,owner⟩ := not_or.mp kept
  have real : old ≠ -1 := by
    rintro rfl
    exact owner held
  have held' : released.objects o = some old := by rw [objects, Function.update_of_ne distinct, held]
  refine adopt_leaks linear' held' real ?_
  rintro rfl
  exact (linear.single o other fd held given).elim real distinct

end Operations

def AnyOrder (_ : Fds O) (_ : List (Action O)) (_ : Action O) : Prop := True

instance (s : Fds O) (log : List (Action O)) (a : Action O) : Decidable (AnyOrder s log a) :=
  isTrue trivial

/-- Nothing is overwritten: a move assignment is to the object itself or to one without a
descriptor. -/
def Keeps (s : Fds O) (_ : List (Action O)) : Action O → Prop
  | .moveAssign o other => o = other ∨ s.objects o = some (-1)
  | _ => True

instance (s : Fds O) (log : List (Action O)) : (a : Action O) → Decidable (Keeps s log a)
  | .moveAssign _ _ => inferInstanceAs (Decidable (_ ∨ _))
  | .constructDefault _ | .construct _ _ | .moveConstruct _ _ | .close _ | .reset _ _ | .release _
  | .destroy _ => .isTrue trivial

section Runs
variable {s s' : Fds O} {log later earlier : List (Action O)} {a e : Action O}

theorem step_apply (taken : s.step a = some (s', e)) : s.apply a = some s' ∧ a = e := by
  obtain ⟨after,run,eq⟩ := Option.map_eq_some_iff.mp taken
  cases eq
  exact ⟨run,rfl⟩

theorem apply_linear (linear : s.Linear) (keeps : s.Keeps log a) (run : s.apply a = some s') :
    s'.Linear := by
  cases a with
  | constructDefault o => exact construct_linear linear (.inl rfl) run
  | construct o fd =>
    simp only [apply] at run
    split at run
    · rename_i fresh
      exact construct_linear (opened_linear linear fresh) (.inr (by simp [opened])) run
    · simp at run
  | moveConstruct o other => exact moveConstruct_linear linear run
  | moveAssign o other => exact moveAssign_linear linear run keeps
  | close o => exact (close_spec linear run).1
  | reset o fd =>
    simp only [apply] at run
    split at run
    · rename_i fresh
      exact reset_linear (opened_linear linear fresh) (by simp [opened]) run
    · simp at run
  | release o =>
    obtain ⟨⟨fd,released⟩,release,rfl⟩ := Option.map_eq_some_iff.mp run
    exact (release_spec linear release).1
  | destroy o => exact destroy_linear linear run

theorem apply_leaks (linear : s.Linear) (overwrites : ¬ s.Keeps log a) (run : s.apply a = some s') :
    ¬ s'.Linear := by
  cases a with
  | moveAssign o other => exact moveAssign_leaks linear run overwrites
  | _ => exact absurd trivial overwrites

theorem run_unique (run : Run step AnyOrder {} s log) (run' : Run step AnyOrder {} s' log) :
    s = s' := by
  induction log generalizing s s' with
  | nil =>
    cases run
    cases run'
    rfl
  | cons e log ih =>
    cases run with
    | next run _ taken =>
      cases run' with
      | next run' _ taken' =>
        obtain ⟨applied,rfl⟩ := step_apply taken
        obtain ⟨applied',rfl⟩ := step_apply taken'
        rw [ih run run', applied'] at applied
        exact (Option.some.inj applied).symm

omit [DecidableEq O] in
theorem start_linear : ({} : Fds O).Linear := by
  constructor
  · simp
  · simp
  · simp
  · rfl

/-- Ownership is linear at all times of a run exactly when no move assignment of the run
overwrites a descriptor. -/
theorem fds_linear_iff (run : Run step AnyOrder {} s log) :
    (∀ later earlier s', log = later ++ earlier → Run step AnyOrder {} s' earlier → s'.Linear) ↔
      Run step Keeps {} s log := by
  have iff := throughout_iff Keeps (fun s _ => s.Linear) (fun s _ => s.Linear)
    (fun _ _ _ => run_unique) start_linear (fun _ _ linear => linear)
    (fun _ _ _ _ _ linear _ keeps taken => apply_linear linear keeps (step_apply taken).1)
    (fun _ _ _ _ _ linear _ overwrites taken =>
      apply_leaks linear overwrites (step_apply taken).1) run
  rw [Throughout] at iff
  rw [iff]
  constructor
  · intro kept
    exact kept.relax fun _ _ _ allowed => allowed.2
  · intro kept
    exact kept.relax fun _ _ _ allowed => ⟨trivial,allowed⟩

end Runs

theorem fds_linear_moves :
    ∃ (s : Fds (Fin 3)) (log : List (Action (Fin 3))), Run step AnyOrder {} s log ∧
      ∀ later earlier s', log = later ++ earlier → Run step AnyOrder {} s' earlier → s'.Linear := by
  let actions : List (Action (Fin 3)) := [.construct 0 3, .constructDefault 1, .moveAssign 1 0,
    .moveAssign 1 1, .reset 0 4, .moveConstruct 2 1, .release 2, .close 0, .reset 1 5, .destroy 1]
  have computed : (replay step Keeps ({} : Fds (Fin 3)) [] actions).isSome = true := by decide
  obtain ⟨⟨s,log⟩,played⟩ := Option.isSome_iff_exists.mp computed
  have kept : Run step Keeps {} s log := replay_run .nil played
  have run : Run step AnyOrder {} s log := kept.relax fun _ _ _ _ => trivial
  exact ⟨s,log,run,(fds_linear_iff run).mpr kept⟩

/-- The target of the assignment held 3, which is still open and has no owner. -/
theorem overwritten_descriptor_leaks :
    ¬ ∀ (s : Fds Bool) log, Run step AnyOrder {} s log → s.Linear := by
  intro claim
  let actions : List (Action Bool) := [.construct true 3, .construct false 4, .moveAssign true false]
  have computed : (replay step AnyOrder ({} : Fds Bool) [] actions).map (fun (s, _) =>
      (s.isOpen 3, s.handed 3, s.objects true, s.objects false)) =
      some (true, false, some 4, some (-1)) := by decide
  obtain ⟨s,log,run,facts⟩ := replay_reaches computed
  simp only [Prod.mk.injEq] at facts
  obtain ⟨isOpen,handed,target,source⟩ := facts
  obtain ⟨_,⟨o,held⟩ | released⟩ := ((claim s log run).owned 3).mp isOpen
  · cases o with
    | false => simp [source] at held
    | true => simp [target] at held
  · simp [handed] at released

end Fds
end Aiopp
