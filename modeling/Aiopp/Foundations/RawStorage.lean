import Mathlib.Data.List.Nodup
import Mathlib.Tactic.Tauto

/-!
Storage whose slots hold a constructed element or none, and what is done to them: an
element is constructed in a slot, moved out of, or destroyed. Nothing stops a program
from doing so to the wrong slot: the access is recorded with the slot as it was found, and
after one that is not legal the contents mean nothing.
-/
namespace RawStorage
variable {T : Type}

inductive Slot (T : Type) where
  | raw
  | element (value : Option T)
  deriving DecidableEq, Repr

/-- With the slot as it is found, if it is in the storage at all. -/
inductive Access (T : Type) where
  | construct (slot : Option (Slot T))
  | moveFrom (slot : Option (Slot T))
  | destroy (slot : Option (Slot T))
  deriving DecidableEq, Repr

def Access.slot : Access T → Option (Slot T)
  | .construct slot | .moveFrom slot | .destroy slot => slot

def Slot.value : Slot T → Option T
  | .raw => none
  | .element value => value

def valueAt (storage : List (Slot T)) (i : Nat) : Option T := storage[i]?.bind Slot.value

def Constructed (slot : Option (Slot T)) : Prop := ∃ value, slot = some (.element value)

/-- Elements are constructed in bare slots; only elements are moved from or destroyed. -/
def Access.Legal : Access T → Prop
  | .construct slot => slot = some .raw
  | .moveFrom slot | .destroy slot => Constructed slot

@[simp] theorem construct_legal (slot : Option (Slot T)) :
    (Access.construct slot).Legal ↔ slot = some .raw := Iff.rfl

@[simp] theorem moveFrom_legal (slot : Option (Slot T)) :
    (Access.moveFrom slot).Legal ↔ Constructed slot := Iff.rfl

@[simp] theorem destroy_legal (slot : Option (Slot T)) :
    (Access.destroy slot).Legal ↔ Constructed slot := Iff.rfl

/-- Elements move to the same place in a new storage, one after the other; `make` is what
    is constructed from one that is moved out of. -/
def relocate (make : T → T) (old new : List (Slot T)) :
    List Nat → List (Slot T) × List (Access T)
  | [] => (new, [])
  | i :: rest =>
    let moved := relocate make (old.set i .raw)
      (new.set i (.element ((valueAt old i).map make))) rest
    (moved.1, .moveFrom old[i]? :: .construct new[i]? :: .destroy old[i]? :: moved.2)

theorem raw_not_constructed : ¬ Constructed (some (.raw : Slot T)) := by
  simp [Constructed]

section Relocate
variable {make : T → T} {old new : List (Slot T)} {is : List Nat}

theorem relocate_length : (relocate make old new is).1.length = new.length := by
  induction is generalizing old new with
  | nil => rfl
  | cons i rest ih => simp [relocate, ih]

theorem relocate_other {j : Nat} (outside : j ∉ is) :
    (relocate make old new is).1[j]? = new[j]? := by
  induction is generalizing old new with
  | nil => rfl
  | cons i rest ih =>
    obtain ⟨apart,later⟩ := not_or.mp (mt List.mem_cons.mpr outside)
    rw [relocate, ih later, List.getElem?_set_ne (Ne.symm apart)]

theorem relocate_moved (nodup : is.Nodup) {j : Nat} (member : j ∈ is) (inside : j < new.length) :
    (relocate make old new is).1[j]? = some (.element ((valueAt old j).map make)) := by
  induction is generalizing old new with
  | nil => simp at member
  | cons i rest ih =>
    obtain ⟨absent,nodup⟩ := List.nodup_cons.mp nodup
    rw [relocate]
    rcases List.mem_cons.mp member with rfl | later
    · rw [relocate_other absent]
      simp [inside]
    · have apart : i ≠ j := by
        rintro rfl
        exact absent later
      have same : valueAt (old.set i .raw) j = valueAt old j := by
        simp [valueAt, List.getElem?_set_ne apart]
      rw [ih nodup later (by simpa using inside), same]

/-- The relocation is legal exactly when it meets an element at each place, and a bare slot
    for each. -/
theorem relocate_legal_iff (make : T → T) (old new : List (Slot T)) (nodup : is.Nodup) :
    (∀ access ∈ (relocate make old new is).2, access.Legal) ↔
      ∀ j ∈ is, Constructed old[j]? ∧ new[j]? = some .raw := by
  induction is generalizing old new with
  | nil => simp [relocate]
  | cons i rest ih =>
    obtain ⟨absent,nodup⟩ := List.nodup_cons.mp nodup
    have others : (∀ j ∈ rest, Constructed (old.set i .raw)[j]? ∧
        (new.set i (.element ((valueAt old i).map make)))[j]? = some .raw) ↔
        ∀ j ∈ rest, Constructed old[j]? ∧ new[j]? = some .raw := by
      refine forall₂_congr fun j later => ?_
      have apart : i ≠ j := by
        rintro rfl
        exact absent later
      rw [List.getElem?_set_ne apart, List.getElem?_set_ne apart]
    simp only [relocate, List.forall_mem_cons, construct_legal, moveFrom_legal, destroy_legal,
      ih _ _ nodup, others]
    tauto

theorem relocate_inside (make : T → T) (old new : List (Slot T))
    (inside : ∀ j ∈ is, j < old.length ∧ j < new.length) :
    ∀ access ∈ (relocate make old new is).2, access.slot.isSome := by
  induction is generalizing old new with
  | nil => simp [relocate]
  | cons i rest ih =>
    obtain ⟨here,later⟩ := List.forall_mem_cons.mp inside
    have rest_inside := ih (old.set i .raw) (new.set i (.element ((valueAt old i).map make)))
      (by simpa using later)
    simpa [relocate, Access.slot, here.1, here.2] using rest_inside

end Relocate

end RawStorage
