import Mathlib.Logic.Function.Basic

/-!
Objects that own what their pointer leads to. Between two assignments a pointer may be in
somebody's hand; `Shows` says which values the objects have and which value is in the hand,
and each operation on pointers has one rule about it.
-/
namespace UniquePointer

/-- The pointer of every live object, null or an address, and the cells of the heap. -/
structure Store (O V : Type) where
  pointer : O → Option (Option Nat) := fun _ => none
  cell : Nat → Option V := fun _ => none

namespace Store
variable {O V : Type}

def assign [DecidableEq O] (s : Store O V) (o : O) (p : Option Nat) : Store O V :=
  { s with pointer := Function.update s.pointer o (some p) }

def exchange [DecidableEq O] (s : Store O V) (o : O) (p : Option Nat) : Option (Option Nat × Store O V) :=
  (s.pointer o).map fun old => (old, s.assign o p)

def construct [DecidableEq O] (s : Store O V) (o : O) (p : Option Nat) : Option (Store O V) :=
  if s.pointer o = none then some (s.assign o p) else none

def forget [DecidableEq O] (s : Store O V) (o : O) : Store O V :=
  { s with pointer := Function.update s.pointer o none }

def new (s : Store O V) (a : Nat) (v : V) : Option (Store O V) :=
  if (s.cell a).isNone then some { s with cell := Function.update s.cell a (some v) } else none

/-- Nothing is there for the null pointer; a pointer that dangles must not be used. -/
def delete (s : Store O V) : Option Nat → Option (Store O V)
  | none => some s
  | some a =>
    if (s.cell a).isSome then some { s with cell := Function.update s.cell a none } else none

def set (s : Store O V) (a : Nat) (v : V) : Store O V :=
  { s with cell := Function.update s.cell a (some v) }

def view (s : Store O V) (o : O) : Option (Option V) := (s.pointer o).map fun p => p.bind s.cell

end Store

variable {O V : Type}

theorem view_cell (s : Store O V) (a : Nat) (v : Option V) (o : O) :
    { s with cell := Function.update s.cell a v }.view o =
      if s.pointer o = some (some a) then some v else s.view o := by
  unfold Store.view
  cases points : s.pointer o with
  | none => simp
  | some p =>
    cases p with
    | none => simp
    | some b =>
      by_cases same : b = a
      · simp [same]
      · simp [same]

/-- Every cell has one owner, an object or the hand, and no pointer dangles. -/
structure Owned (s : Store O V) (hand : Option Nat) : Prop where
  single : ∀ o o' a, s.pointer o = some (some a) → s.pointer o' = some (some a) → o = o'
  leads : ∀ o a, s.pointer o = some (some a) → (s.cell a).isSome
  held : ∀ a, (s.cell a).isSome → hand = some a ∨ ∃ o, s.pointer o = some (some a)
  loose : ∀ a, hand = some a → (s.cell a).isSome ∧ ∀ o, s.pointer o ≠ some (some a)

structure Shows (s : Store O V) (hand : Option Nat) (values : O → Option (Option V))
    (value : Option V) : Prop where
  owned : Owned s hand
  view : s.view = values
  value : hand.bind s.cell = value

section Rules
variable {s s' : Store O V} {hand : Option Nat} {values : O → Option (Option V)}
  {value : Option V} {o : O}

theorem view_assign [DecidableEq O] (p : Option Nat) :
    (s.assign o p).view = Function.update s.view o (some (p.bind s.cell)) := by
  funext x
  by_cases same : x = o
  · subst same
    simp [Store.view, Store.assign]
  · simp [Store.view, Store.assign, same]

theorem shows_empty : Shows ({} : Store O V) none (fun _ => none) none :=
  ⟨⟨by simp,by simp,by simp,by simp⟩,rfl,rfl⟩

theorem shows_exchange [DecidableEq O] {old : Option V} (shows_ : Shows s hand values value)
    (there : values o = some old) :
    ∃ p s', s.exchange o hand = some (p, s') ∧
      Shows s' p (Function.update values o (some value)) old := by
  obtain ⟨⟨single,leads,held,loose⟩,rfl,rfl⟩ := shows_
  obtain ⟨p,points,leads_old⟩ := Option.map_eq_some_iff.mp there
  refine ⟨p,s.assign o hand,by rw [Store.exchange, points]; rfl,⟨?_,?_,?_,?_⟩,view_assign hand,
    leads_old⟩
  · intro x y a at_x at_y
    simp only [Store.assign, Function.update_apply] at at_x at_y
    grind
  · intro x a at_x
    simp only [Store.assign, Function.update_apply] at at_x
    grind [Store.assign]
  · intro a live
    simp only [Store.assign, Function.update_apply]
    rcases held a live with here | ⟨x,owner⟩
    · exact .inr ⟨o,by simp [here]⟩
    · by_cases same : x = o
      · grind
      · exact .inr ⟨x,by simp [same, owner]⟩
  · intro a here
    refine ⟨leads o a (by rw [points, here]),?_⟩
    intro x at_x
    simp only [Store.assign, Function.update_apply] at at_x
    grind

theorem shows_construct [DecidableEq O] (shows_ : Shows s hand values value) (absent : values o = none) :
    ∃ s', s.construct o hand = some s' ∧
      Shows s' none (Function.update values o (some value)) none := by
  obtain ⟨⟨single,leads,held,loose⟩,rfl,rfl⟩ := shows_
  have unborn : s.pointer o = none := Option.map_eq_none_iff.mp absent
  refine ⟨s.assign o hand,if_pos unborn,⟨?_,?_,?_,by simp⟩,view_assign hand,rfl⟩
  · intro x y a at_x at_y
    simp only [Store.assign, Function.update_apply] at at_x at_y
    grind
  · intro x a at_x
    simp only [Store.assign, Function.update_apply] at at_x
    grind [Store.assign]
  · intro a live
    simp only [Store.assign, Function.update_apply]
    rcases held a live with here | ⟨x,owner⟩
    · exact .inr ⟨o,by simp [here]⟩
    · exact .inr ⟨x,by grind⟩

theorem shows_new {a : Nat} (shows_ : Shows s none values none) (free : s.cell a = none) (v : V) :
    ∃ s', s.new a v = some s' ∧ Shows s' (some a) values (some v) := by
  obtain ⟨⟨single,leads,held,loose⟩,rfl,_⟩ := shows_
  have unowned : ∀ x, s.pointer x ≠ some (some a) := by
    intro x at_x
    have live := leads x a at_x
    simp [free] at live
  refine ⟨_,if_pos (by simp [free]),⟨single,?_,?_,?_⟩,?_,by simp⟩
  · intro x b at_x
    simp only [Function.update_apply]
    grind
  · intro b live
    simp only [Function.update_apply] at live
    grind
  · intro b here
    cases here
    exact ⟨by simp,unowned⟩
  · funext x
    rw [view_cell, if_neg (unowned x)]

theorem shows_delete (shows_ : Shows s hand values value) :
    ∃ s', s.delete hand = some s' ∧ Shows s' none values none := by
  obtain ⟨⟨single,leads,held,loose⟩,rfl,rfl⟩ := shows_
  cases hand with
  | none => exact ⟨s,rfl,⟨single,leads,held,loose⟩,rfl,rfl⟩
  | some a =>
    obtain ⟨live,unowned⟩ := loose a rfl
    refine ⟨_,if_pos live,⟨single,?_,?_,by simp⟩,?_,rfl⟩
    · intro x b at_x
      simp only [Function.update_apply]
      grind
    · intro b still
      simp only [Function.update_apply] at still
      grind
    · funext x
      rw [view_cell, if_neg (unowned x)]

theorem shows_forget [DecidableEq O] (shows_ : Shows s hand values value) (empty : values o = some none) :
    Shows (s.forget o) hand (Function.update values o none) value := by
  obtain ⟨⟨single,leads,held,loose⟩,rfl,rfl⟩ := shows_
  have null : s.pointer o = some none := by
    obtain ⟨p,points,nothing⟩ := Option.map_eq_some_iff.mp empty
    cases p with
    | none => exact points
    | some a =>
      have live := leads o a points
      rw [Option.bind_some] at nothing
      simp [nothing] at live
  refine ⟨⟨?_,?_,?_,?_⟩,?_,rfl⟩
  · intro x y a at_x at_y
    simp only [Store.forget, Function.update_apply] at at_x at_y
    grind
  · intro x a at_x
    simp only [Store.forget, Function.update_apply] at at_x
    grind [Store.forget]
  · intro a live
    simp only [Store.forget, Function.update_apply]
    rcases held a live with here | ⟨x,owner⟩
    · exact .inl here
    · exact .inr ⟨x,by grind⟩
  · intro a here
    refine ⟨(loose a here).1,?_⟩
    intro x at_x
    simp only [Store.forget, Function.update_apply] at at_x
    grind
  · funext x
    by_cases same : x = o
    · subst same
      simp [Store.view, Store.forget]
    · simp [Store.view, Store.forget, same]

theorem shows_set [DecidableEq O] {v : V} (shows_ : Shows s hand values value) (there : values o = some (some v))
    (v' : V) :
    ∃ a, s.pointer o = some (some a) ∧ s.cell a = some v ∧
      Shows (s.set a v') hand (Function.update values o (some (some v'))) value := by
  obtain ⟨⟨single,leads,held,loose⟩,rfl,rfl⟩ := shows_
  obtain ⟨p,points,content⟩ := Option.map_eq_some_iff.mp there
  cases p with
  | none => simp at content
  | some a =>
    rw [Option.bind_some] at content
    have unheld : hand ≠ some a := fun here => (loose a here).2 o points
    refine ⟨a,points,content,⟨single,?_,?_,?_⟩,?_,?_⟩
    · intro x b at_x
      have before : s.pointer x = some (some b) := at_x
      simp only [Store.set, Function.update_apply]
      grind
    · intro b live
      simp only [Store.set, Function.update_apply] at live ⊢
      grind
    · intro b here
      simp only [Store.set, Function.update_apply]
      grind
    · funext x
      unfold Store.set
      rw [view_cell]
      by_cases same : x = o
      · subst same
        rw [if_pos points, Function.update_self]
      · rw [if_neg fun at_x => same (single x o a at_x points), Function.update_of_ne same]
    · cases hand with
      | none => rfl
      | some b =>
        have apart : b ≠ a := fun same => unheld (by rw [same])
        simp [Store.set, apart]

end Rules
end UniquePointer
