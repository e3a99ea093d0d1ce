import Aiopp.Foundations.RawStorage
import Aiopp.Foundations.Transition
import Mathlib.Algebra.Group.Nat.Defs
import Mathlib.Data.Set.Card

/-!
`VectorMap`: elements at the indices of one storage, which is replaced by a larger one as
needed. The storage, `size_` and `occupied_` change at different moments; after the sized
constructor `size_` is 0 although the other two have their length.
-/
namespace Aiopp
open RawStorage

structure VectorMap (T : Type) where
  data_ : List (Slot T) := []
  size_ : Nat := 0
  numOccupied_ : Nat := 0
  occupied_ : List Bool := []
  deriving DecidableEq, Repr

namespace VectorMap
variable {T : Type}

/-- What one call does: the size of a storage it allocates, then the slots and the entries of
    `occupied_` that it touches, each as it is found. It is `dangling` when it reads its
    argument from the storage that it has replaced. -/
structure Event (T : Type) where
  allocated : Option Nat := none
  accesses : List (Access T) := []
  flags : List (Option Bool) := []
  dangling : Bool := false
  deriving DecidableEq, Repr

inductive Ref (T : Type) where
  | object (value : T)
  | element (index : UInt64)
  deriving DecidableEq, Repr

/-- One `T`, or other arguments, with the value of `T { args... }`. -/
inductive Args (T : Type) where
  | one (v : Ref T)
  | build (value : T)
  deriving DecidableEq, Repr

def Args.own : Args T → Option UInt64
  | .one (.element index) => some index
  | _ => none

def create : Option UInt64 → VectorMap T
  | none => {}
  | some size =>
    { data_ := List.replicate size.toNat .raw, occupied_ := List.replicate size.toNat false }

def size (m : VectorMap T) : Nat := m.size_
def occupied (m : VectorMap T) : Nat := m.numOccupied_

def contains (m : VectorMap T) (index : Nat) : Bool := m.occupied_.getD index false

def get (m : VectorMap T) (index : Nat) : Option T :=
  if m.contains index then valueAt m.data_ index else none

/- `brace x` is the value of `T { x }` and of `T { std::move(x) }`, which is not `x` where `T`
   has a constructor from an initializer list that takes it. -/
section Construction
variable (brace : T → T)

def resize (m : VectorMap T) (size : Nat) : Option (VectorMap T × Event T) :=
  if size > m.size_ then
    let moved := relocate brace m.data_ (List.replicate size .raw) (List.range m.size_)
    some ({ m with
        data_ := moved.1
        size_ := size
        occupied_ := m.occupied_.take size ++ List.replicate (size - m.occupied_.length) false },
      { allocated := some size, accesses := moved.2 })
  else none

/-- Both operations on sizes are unsigned and wrap. -/
def grow (m : VectorMap T) (index : Nat) : Option (VectorMap T × Event T) :=
  if index ≥ m.size_ then
    m.resize brace (max (max (m.size_ * 2 % 2 ^ 64) ((index + 1) % 2 ^ 64)) 0)
  else some (m, {})

/-- `T { std::forward<Args>(args)... }` -/
def construct (m : VectorMap T) : Args T → Option T
  | .one (.object value) => some (brace value)
  | .one (.element index) => (m.get index.toNat).map brace
  | .build value => some value

def place (m : VectorMap T) (index : Nat) (value : Option T) : VectorMap T :=
  { m with
    data_ := m.data_.set index (.element value)
    occupied_ := m.occupied_.set index true
    numOccupied_ := m.numOccupied_ + 1 }

def emplace (m : VectorMap T) (index : Nat) (args : Args T) : Option (VectorMap T × Event T) :=
  if m.contains index then none
  else (m.grow brace index).map fun (m, e) =>
    let dangles := e.allocated.isSome && args.own.isSome
    (m.place index (if dangles then none else m.construct brace args), { e with
      accesses := e.accesses ++ [.construct m.data_[index]?]
      flags := [m.occupied_[index]?]
      dangling := dangles })

def insert (m : VectorMap T) (index : Nat) (v : Ref T) : Option (VectorMap T × Event T) :=
  m.emplace brace index (.one v)

end Construction

def remove (m : VectorMap T) (index : Nat) : Option (VectorMap T × Event T) :=
  if m.contains index then
    some ({ m with
        data_ := m.data_.set index .raw
        occupied_ := m.occupied_.set index false
        numOccupied_ := m.numOccupied_ - 1 },
      { accesses := [.destroy m.data_[index]?], flags := [m.occupied_[index]?] })
  else none

/-- A reference to an element comes from `operator[]`, which asserts that there is one. -/
def bound (m : VectorMap T) (args : Args T) : Bool :=
  args.own.all fun index => m.contains index.toNat

inductive Action (T : Type) where
  | insert (index : UInt64) (v : Ref T)
  | emplace (index : UInt64) (args : Args T)
  | remove (index : UInt64)
  | resize (size : UInt64)
  deriving DecidableEq, Repr

def step (brace : T → T) (m : VectorMap T) : Action T → Option (VectorMap T × Event T)
  | .insert index v => if m.bound (.one v) then m.insert brace index.toNat v else none
  | .emplace index args => if m.bound args then m.emplace brace index.toNat args else none
  | .remove index => m.remove index.toNat
  | .resize size => m.resize brace size.toNat

structure Sized (m : VectorMap T) : Prop where
  lengths : m.data_.length = m.occupied_.length
  fits : m.size_ ≤ m.data_.length
  below : ∀ index, m.contains index → index < m.size_
  small : m.data_.length < 2 ^ 64

def Event.Inside (e : Event T) : Prop :=
  (∀ access ∈ e.accesses, access.slot.isSome) ∧ ∀ flag ∈ e.flags, flag.isSome

def Counted (m : VectorMap T) : Prop := m.numOccupied_ = {index | m.contains index}.ncard

section Operations
variable {brace : T → T} {m m' : VectorMap T} {index size : Nat} {args : Args T} {e : Event T}

theorem contains_iff : m.contains index ↔ m.occupied_[index]? = some true := by
  unfold contains List.getD
  cases m.occupied_[index]? with
  | none => simp
  | some flag => simp

theorem resized_flag (flags : List Bool) (size i : Nat) :
    (flags.take size ++ List.replicate (size - flags.length) false)[i]? = some true ↔
      i < size ∧ flags[i]? = some true := by
  grind

theorem create_empty (size : Option UInt64) (index : Nat) :
    (create size : VectorMap T).contains index = false := by
  cases size with
  | none => rfl
  | some n =>
    rw [← Bool.not_eq_true, contains_iff]
    simp [create, List.getElem?_replicate]

theorem create_sized (size : Option UInt64) : (create size : VectorMap T).Sized := by
  constructor
  · cases size <;> simp [create]
  · cases size <;> simp [create]
  · intro index occupied
    simp [create_empty] at occupied
  · cases size with
    | none => simp [create]
    | some n => simpa [create] using n.toNat_lt

theorem create_counted (size : Option UInt64) : (create size : VectorMap T).Counted := by
  have none_counted : (create size : VectorMap T).numOccupied_ = 0 := by cases size <;> rfl
  simp [Counted, create_empty, none_counted]

theorem finite_contents (sized : m.Sized) : {index | m.contains index}.Finite := by
  apply (Set.finite_lt_nat m.size_).subset
  intro index occupied
  exact sized.below index occupied

/-- What a change of the storage leaves as it was. -/
structure Kept (m m' : VectorMap T) : Prop where
  contains : ∀ index, m'.contains index = m.contains index
  count : m'.numOccupied_ = m.numOccupied_

theorem Kept.counted (kept : Kept m m') (counted : m.Counted) : m'.Counted := by
  unfold Counted
  simp only [kept.count, kept.contains]
  exact counted

theorem resize_cases (run : m.resize brace size = some (m', e)) :
    m.size_ < size ∧ e.allocated = some size ∧ e.flags = [] ∧ ∃ storage,
      (storage, e.accesses) =
        relocate brace m.data_ (List.replicate size .raw) (List.range m.size_) ∧
      m' = { m with
        data_ := storage
        size_ := size
        occupied_ := m.occupied_.take size ++ List.replicate (size - m.occupied_.length) false } := by
  unfold resize at run
  split at run
  · rename_i larger
    cases run
    exact ⟨larger,rfl,rfl,_,rfl,rfl⟩
  · simp at run

theorem resize_sized (small : size < 2 ^ 64)
    (run : m.resize brace size = some (m', e)) :
    m'.Sized ∧ m'.size_ = size ∧ m'.data_.length = size := by
  obtain ⟨larger,_,_,storage,moved,rfl⟩ := resize_cases run
  have length : storage.length = size := by
    have same := congrArg (fun moved => moved.1.length) moved
    simpa [relocate_length] using same
  refine ⟨⟨?_,?_,?_,?_⟩,rfl,length⟩
  · simp [length]
    omega
  · exact Nat.le_of_eq length.symm
  · intro index occupied
    rw [contains_iff, resized_flag] at occupied
    exact occupied.1
  · simpa [length] using small

theorem resize_kept (sized : m.Sized) (run : m.resize brace size = some (m', e)) : Kept m m' := by
  obtain ⟨larger,_,_,storage,moved,rfl⟩ := resize_cases run
  refine ⟨?_,rfl⟩
  intro index
  rw [Bool.eq_iff_iff, contains_iff, contains_iff, resized_flag]
  constructor
  · exact And.right
  · intro occupied
    have below := sized.below index (contains_iff.mpr occupied)
    exact ⟨by omega,occupied⟩

theorem resize_get (sized : m.Sized) (run : m.resize brace size = some (m', e)) (index : Nat) :
    m'.get index = (m.get index).map brace := by
  have same := (resize_kept sized run).contains index
  obtain ⟨larger,_,_,storage,moved,rfl⟩ := resize_cases run
  unfold get
  rw [same]
  split
  · rename_i occupied
    have below := sized.below index occupied
    have place := congrArg (fun moved => moved.1[index]?) moved
    rw [relocate_moved List.nodup_range (by simpa using below) (by simp; omega)] at place
    simp only [valueAt, place]
    rfl
  · rfl

theorem resize_inside (sized : m.Sized) (run : m.resize brace size = some (m', e)) : e.Inside := by
  obtain ⟨larger,_,bare,storage,moved,rfl⟩ := resize_cases run
  have fits := sized.fits
  have bounds : ∀ index ∈ List.range m.size_,
      index < m.data_.length ∧ index < (List.replicate size (.raw : Slot T)).length := by
    intro index member
    rw [List.mem_range] at member
    rw [List.length_replicate]
    omega
  have inside := relocate_inside brace m.data_ (List.replicate size .raw) bounds
  rw [← moved] at inside
  exact ⟨inside,by simp [bare]⟩

/-- The larger of the two sizes is beyond the index, and so beyond the old size. -/
theorem grow_kept (brace : T → T) (sized : m.Sized) (bounded : index + 1 < 2 ^ 64) :
    ∃ m' e, m.grow brace index = some (m', e) ∧ m'.Sized ∧ Kept m m' ∧ index < m'.size_ ∧
      e.Inside := by
  unfold grow
  by_cases beyond : index ≥ m.size_
  · rw [if_pos beyond]
    have target : index < max (max (m.size_ * 2 % 2 ^ 64) ((index + 1) % 2 ^ 64)) 0 := by
      rw [Nat.mod_eq_of_lt bounded]
      omega
    have small : max (max (m.size_ * 2 % 2 ^ 64) ((index + 1) % 2 ^ 64)) 0 < 2 ^ 64 := by
      omega
    generalize max (max (m.size_ * 2 % 2 ^ 64) ((index + 1) % 2 ^ 64)) 0 = size at *
    have larger : size > m.size_ := by omega
    obtain ⟨⟨m',e⟩,run⟩ : ∃ resized, m.resize brace size = some resized := by
      simp [resize, larger]
    obtain ⟨sized',exact_size,_⟩ := resize_sized small run
    exact ⟨_,_,run,sized',resize_kept sized run,exact_size ▸ target,resize_inside sized run⟩
  · rw [if_neg beyond]
    exact ⟨m,{},rfl,sized,⟨fun _ => rfl,rfl⟩,by omega,by simp [Event.Inside]⟩

theorem grow_allocates (run : m.grow brace index = some (m', e)) :
    e.allocated.isSome = decide (m.size_ ≤ index) := by
  unfold grow at run
  split at run
  · rename_i beyond
    simp [(resize_cases run).2.1, beyond]
  · rename_i within
    cases run
    simpa using within

theorem grow_get (sized : m.Sized) (run : m.grow brace index = some (m', e)) (i : Nat) :
    m'.get i = if m.size_ ≤ index then (m.get i).map brace else m.get i := by
  unfold grow at run
  split at run
  · rename_i beyond
    rw [if_pos beyond]
    exact resize_get sized run i
  · rename_i within
    cases run
    rw [if_neg within]

theorem place_contains {value : Option T} (sized : m.Sized) (inside : index < m.size_) (i : Nat) :
    (m.place index value).contains i = (decide (i = index) || m.contains i) := by
  have bound : index < m.occupied_.length := by
    have fits := sized.fits
    have lengths := sized.lengths
    omega
  rw [Bool.eq_iff_iff, contains_iff]
  simp only [place, Bool.or_eq_true, decide_eq_true_eq, contains_iff]
  by_cases same : i = index
  · simp [same, bound]
  · simp [same, List.getElem?_set_ne (Ne.symm same)]

theorem place_get {value : Option T} (sized : m.Sized) (inside : index < m.size_) (i : Nat) :
    (m.place index value).get i = if i = index then value else m.get i := by
  have bound := Nat.lt_of_lt_of_le inside sized.fits
  unfold get
  rw [place_contains sized inside]
  by_cases same : i = index
  · simp [same, place, valueAt, bound, Slot.value]
  · simp [same, place, valueAt, List.getElem?_set_ne (Ne.symm same)]

theorem place_sized {value : Option T} (sized : m.Sized) (inside : index < m.size_) :
    (m.place index value).Sized := by
  constructor
  · simpa [place] using sized.lengths
  · simpa [place] using sized.fits
  · intro i occupied
    rw [place_contains sized inside, Bool.or_eq_true, decide_eq_true_eq] at occupied
    rcases occupied with rfl | old
    · exact inside
    · exact sized.below i old
  · simpa [place] using sized.small

theorem place_counted {value : Option T} (sized : m.Sized) (inside : index < m.size_)
    (counted : m.Counted) (free : m.contains index = false) : (m.place index value).Counted := by
  have set : {i | (m.place index value).contains i} = Insert.insert index {i | m.contains i} := by
    ext i
    simp [place_contains sized inside]
  unfold Counted
  rw [set, Set.ncard_insert_of_notMem (by simp [free]) (finite_contents sized), ← counted]
  rfl

theorem insert_taken {index : UInt64} {v : Ref T}
    (taken : m.step brace (.insert index v) = some (m', e)) :
    m.emplace brace index.toNat (.one v) = some (m', e) := by
  simp only [step] at taken
  split at taken
  · exact taken
  · simp at taken

theorem emplace_taken {index : UInt64}
    (taken : m.step brace (.emplace index args) = some (m', e)) :
    m.emplace brace index.toNat args = some (m', e) := by
  simp only [step] at taken
  split at taken
  · exact taken
  · simp at taken

theorem emplace_cases (taken : m.emplace brace index args = some (m', e)) :
    m.contains index = false ∧ ∃ grown moved, m.grow brace index = some (grown, moved) ∧
      e.dangling = (decide (m.size_ ≤ index) && args.own.isSome) ∧
      m' = grown.place index (if e.dangling then none else grown.construct brace args) ∧
      e = { moved with
        accesses := moved.accesses ++ [.construct grown.data_[index]?]
        flags := [grown.occupied_[index]?]
        dangling := e.dangling } := by
  unfold emplace at taken
  split at taken
  · simp at taken
  · rename_i free
    obtain ⟨⟨grown,moved⟩,run,eq⟩ := Option.map_eq_some_iff.mp taken
    cases eq
    exact ⟨by simpa using free,grown,moved,run,by rw [grow_allocates run],rfl,rfl⟩

theorem emplace_spec (sized : m.Sized) (bounded : index + 1 < 2 ^ 64)
    (taken : m.emplace brace index args = some (m', e)) :
    m'.Sized ∧ (∀ i, m'.contains i = (decide (i = index) || m.contains i)) ∧
      (m.Counted → m'.Counted) ∧ e.Inside := by
  obtain ⟨free,grown,moved,run,_,rfl,same⟩ := emplace_cases taken
  obtain ⟨m₁,_,run₁,sized',kept,inside,within⟩ := grow_kept brace sized bounded
  cases run.symm.trans run₁
  have fits := Nat.lt_of_lt_of_le inside sized'.fits
  have flagged : index < grown.occupied_.length := sized'.lengths ▸ fits
  refine ⟨place_sized sized' inside,?_,?_,?_⟩
  · intro i
    rw [place_contains sized' inside, kept.contains]
  · intro counted
    exact place_counted sized' inside (kept.counted counted) (by rw [kept.contains, free])
  · rw [same]
    refine ⟨?_,by simp [flagged]⟩
    intro access member
    rcases List.mem_append.mp member with before | placed
    · exact within.1 access before
    · rw [List.mem_singleton.mp placed]
      simp [Access.slot, fits]

theorem construct_grown (sized : m.Sized) (run : m.grow brace index = some (m', e))
    (there : (decide (m.size_ ≤ index) && args.own.isSome) = false) :
    m'.construct brace args = m.construct brace args := by
  cases args with
  | build value => rfl
  | one v =>
    cases v with
    | object value => rfl
    | element i =>
      have inside : ¬ m.size_ ≤ index := by simpa [Args.own] using there
      simp only [construct, grow_get sized run, if_neg inside]

theorem emplace_get (sized : m.Sized) (bounded : index + 1 < 2 ^ 64)
    (taken : m.emplace brace index args = some (m', e)) (i : Nat) :
    m'.get i = if i = index then (if e.dangling then none else m.construct brace args)
      else if m.size_ ≤ index then (m.get i).map brace else m.get i := by
  obtain ⟨_,grown,moved,run,dangles,rfl,_⟩ := emplace_cases taken
  obtain ⟨m₁,_,run₁,sized',_,inside,_⟩ := grow_kept brace sized bounded
  cases run.symm.trans run₁
  rw [place_get sized' inside, grow_get sized run]
  split
  · cases late : e.dangling with
    | true => rfl
    | false => simp [construct_grown sized run (dangles ▸ late)]
  · rfl

theorem emplace_succeeds (sized : m.Sized) (bounded : index + 1 < 2 ^ 64)
    (free : m.contains index = false) (args : Args T) : (m.emplace brace index args).isSome := by
  obtain ⟨grown,moved,run,_⟩ := grow_kept brace sized bounded
  simp [emplace, free, run]

theorem emplace_storage (taken : m.emplace brace index args = some (m', e)) :
    (index < m.size_ ∧ e.allocated = none ∧ m'.size_ = m.size_ ∧
      m'.data_.length = m.data_.length) ∨
    (m.size_ ≤ index ∧ e.allocated = some m'.size_ ∧ m.size_ < m'.size_ ∧
      m'.data_.length = m'.size_ ∧ m'.size_ < 2 ^ 64) := by
  obtain ⟨_,grown,moved,run,_,rfl,same⟩ := emplace_cases taken
  rw [same]
  unfold grow at run
  split at run
  · rename_i beyond
    have small : max (max (m.size_ * 2 % 2 ^ 64) ((index + 1) % 2 ^ 64)) 0 < 2 ^ 64 := by
      omega
    obtain ⟨larger,allocated,_⟩ := resize_cases run
    obtain ⟨_,exact_size,length⟩ := resize_sized small run
    refine .inr ⟨beyond,?_,?_,?_,?_⟩
    · simp [allocated, place, exact_size]
    · simpa [place, exact_size] using larger
    · simp [place, exact_size, length]
    · simpa [place, exact_size] using small
  · rename_i inside
    cases run
    exact .inl ⟨by omega,rfl,rfl,by simp [place]⟩

theorem remove_storage (taken : m.remove index = some (m', e)) :
    m.contains index ∧ m'.size_ = m.size_ ∧ m'.data_.length = m.data_.length := by
  unfold remove at taken
  split at taken
  · rename_i occupied
    cases taken
    exact ⟨occupied,rfl,by simp⟩
  · simp at taken

theorem remove_spec (sized : m.Sized) (taken : m.remove index = some (m', e)) :
    m'.Sized ∧ (∀ i, m'.contains i = (decide (i ≠ index) && m.contains i)) ∧
      (∀ i, m'.get i = if i = index then none else m.get i) ∧
      (m.Counted → m'.Counted) ∧ e.Inside := by
  have occupied := (remove_storage taken).1
  rw [remove, if_pos occupied] at taken
  cases taken
  have below := sized.below index occupied
  have fits := Nat.lt_of_lt_of_le below sized.fits
  have flagged : index < m.occupied_.length := sized.lengths ▸ fits
  have contents : ∀ i, VectorMap.contains ⟨m.data_.set index .raw, m.size_, m.numOccupied_ - 1,
      m.occupied_.set index false⟩ i = (decide (i ≠ index) && m.contains i) := by
    intro i
    rw [Bool.eq_iff_iff, contains_iff]
    simp only [Bool.and_eq_true, decide_eq_true_eq, contains_iff]
    by_cases same : i = index
    · simp [same, flagged]
    · simp [same, List.getElem?_set_ne (Ne.symm same)]
  refine ⟨⟨?_,?_,?_,?_⟩,contents,?_,?_,?_,?_⟩
  · simpa using sized.lengths
  · simpa using sized.fits
  · intro i kept
    rw [contents, Bool.and_eq_true] at kept
    exact sized.below i kept.2
  · simpa using sized.small
  · intro i
    unfold get
    rw [contents]
    by_cases same : i = index
    · simp [same]
    · simp [same, valueAt, List.getElem?_set_ne (Ne.symm same)]
  · intro counted
    have set : {i | VectorMap.contains ⟨m.data_.set index .raw, m.size_, m.numOccupied_ - 1,
        m.occupied_.set index false⟩ i} = {i | m.contains i} \ {index} := by
      ext i
      simp [contents, and_comm]
    unfold Counted at counted ⊢
    rw [set, Set.ncard_sdiff_singleton_of_mem (by exact occupied), ← counted]
  · simp [Access.slot, fits]
  · simp [flagged]

end Operations
end VectorMap
end Aiopp
