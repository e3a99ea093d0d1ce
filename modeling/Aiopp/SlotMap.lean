import Aiopp.VectorMapContent

/-!
`SlotMap`: a `VectorMap` that picks the indices itself, from the removed ones in the order
of their removal, else from a counter. It never picks a live one; what is at the live ones
is what the `VectorMap` makes of it.
-/
namespace Aiopp
structure SlotMap (T : Type) where
  data_ : VectorMap T
  nextIndex_ : Nat := 0
  /-- a queue, its front first -/
  freeList_ : List Nat := []
  deriving DecidableEq, Repr

namespace SlotMap
open Transition VectorMap
variable {T : Type}

def create (size : Option UInt64) : SlotMap T := { data_ := VectorMap.create size }

def size (s : SlotMap T) : Nat := s.data_.occupied
def contains (s : SlotMap T) (index : Nat) : Bool := s.data_.contains index

def getNewIndex (s : SlotMap T) : Nat × SlotMap T :=
  match s.freeList_ with
  | idx :: rest => (idx, { s with freeList_ := rest })
  | [] => (s.nextIndex_, { s with nextIndex_ := (s.nextIndex_ + 1) % 2 ^ 64 })

section Construction
variable (brace : T → T)

def resize (s : SlotMap T) (size : Nat) : Option (SlotMap T × VectorMap.Event T) :=
  if size > s.data_.size then
    (s.data_.resize brace size).map fun (data, e) =>
      ({ s with nextIndex_ := s.data_.size, data_ := data }, e)
  else none

def emplace (s : SlotMap T) (args : Args T) : Option (Nat × SlotMap T × VectorMap.Event T) :=
  let (idx, s) := s.getNewIndex
  (s.data_.emplace brace idx args).map fun (data, e) => (idx, { s with data_ := data }, e)

def insert (s : SlotMap T) (v : Ref T) : Option (Nat × SlotMap T × VectorMap.Event T) :=
  let (idx, s) := s.getNewIndex
  (s.data_.insert brace idx v).map fun (data, e) => (idx, { s with data_ := data }, e)

end Construction

def remove (s : SlotMap T) (index : Nat) : Option (SlotMap T × VectorMap.Event T) :=
  if s.data_.contains index then
    (s.data_.remove index).map fun (data, e) =>
      ({ s with data_ := data, freeList_ := s.freeList_ ++ [index] }, e)
  else none

def get (s : SlotMap T) (index : Nat) : Option T :=
  if s.data_.contains index then s.data_.get index else none

inductive Action (T : Type) where
  | insert (v : Ref T)
  | emplace (args : Args T)
  | remove (index : UInt64)
  | resize (size : UInt64)
  deriving DecidableEq, Repr

inductive Event (T : Type) where
  | inserted (index : Nat) (effect : VectorMap.Event T)
  | removed (index : Nat) (effect : VectorMap.Event T)
  | resized (effect : VectorMap.Event T)
  deriving DecidableEq, Repr

def step (brace : T → T) (s : SlotMap T) : Action T → Option (SlotMap T × Event T)
  | .insert v =>
    if s.data_.bound (.one v) then
      (s.insert brace v).map fun (idx, s, e) => (s, .inserted idx e)
    else none
  | .emplace args =>
    if s.data_.bound args then
      (s.emplace brace args).map fun (idx, s, e) => (s, .inserted idx e)
    else none
  | .remove index => (s.remove index.toNat).map fun (s, e) => (s, .removed index.toNat e)
  | .resize size => (s.resize brace size.toNat).map fun (s, e) => (s, .resized e)

def AnyOrder (_ : SlotMap T) (_ : List (Action T × Event T)) (_ : Action T) : Prop := True

instance (s : SlotMap T) (log : List (Action T × Event T)) (a : Action T) :
    Decidable (AnyOrder s log a) := .isTrue trivial

/-- Where a new element goes. -/
def newIndex (s : SlotMap T) : Nat := s.freeList_.headD s.nextIndex_

structure Slots (s : SlotMap T) : Prop where
  sized : s.data_.Sized
  counted : s.data_.Counted
  bounded : s.nextIndex_ ≤ s.data_.size_
  live : ∀ index, s.contains index → index < s.nextIndex_
  free : ∀ index ∈ s.freeList_, s.contains index = false ∧ index < s.nextIndex_
  nodup : s.freeList_.Nodup

section Operations
variable {brace : T → T} {s s' : SlotMap T} {index size : Nat} {args : Args T}
  {e : VectorMap.Event T}

theorem create_slots (size : Option UInt64) : Slots (create size : SlotMap T) := by
  constructor
  · exact VectorMap.create_sized size
  · exact VectorMap.create_counted size
  · exact Nat.zero_le _
  · intro index occupied
    simp [create, contains, VectorMap.create_empty] at occupied
  · simp [create]
  · simp [create]

theorem get_eq (s : SlotMap T) (index : Nat) : s.get index = s.data_.get index := by
  unfold get VectorMap.get
  split <;> simp_all

theorem getNewIndex_eq (s : SlotMap T) : s.getNewIndex = (s.newIndex, { s with
    freeList_ := s.freeList_.tail
    nextIndex_ := if s.freeList_ = [] then (s.nextIndex_ + 1) % 2 ^ 64 else s.nextIndex_ }) := by
  unfold getNewIndex newIndex
  cases queue : s.freeList_ <;> simp

theorem emplace_cases (taken : s.emplace brace args = some (index, s', e)) :
    index = s.newIndex ∧ s.data_.emplace brace index args = some (s'.data_, e) ∧
      s'.freeList_ = s.freeList_.tail ∧
      s'.nextIndex_ = if s.freeList_ = [] then (s.nextIndex_ + 1) % 2 ^ 64 else s.nextIndex_ := by
  unfold emplace at taken
  rw [getNewIndex_eq] at taken
  obtain ⟨⟨data,e'⟩,run,eq⟩ := Option.map_eq_some_iff.mp taken
  cases eq
  exact ⟨rfl,run,rfl,rfl⟩

theorem newIndex_le (slots : Slots s) : s.newIndex ≤ s.data_.size_ := by
  have bounded := slots.bounded
  unfold newIndex
  cases queue : s.freeList_ with
  | nil => exact bounded
  | cons idx rest =>
    have below := (slots.free idx (by simp [queue])).2
    exact Nat.le_of_lt (Nat.lt_of_lt_of_le below bounded)

theorem newIndex_free (slots : Slots s) : s.contains s.newIndex = false := by
  unfold newIndex
  cases queue : s.freeList_ with
  | nil =>
    rw [← Bool.not_eq_true]
    intro occupied
    exact Nat.lt_irrefl _ (slots.live s.nextIndex_ occupied)
  | cons idx rest => exact (slots.free idx (by simp [queue])).1

/-- The counter never wraps: the largest index does not fit any storage. -/
theorem emplace_bounded (slots : Slots s) (taken : s.emplace brace args = some (index, s', e)) :
    index + 1 < 2 ^ 64 := by
  obtain ⟨rfl,run,_⟩ := emplace_cases taken
  have limit := newIndex_le slots
  have fits := slots.sized.fits
  have small := slots.sized.small
  rcases VectorMap.emplace_storage run with ⟨inside,_⟩ | ⟨beyond,_,larger,_,tiny⟩
  · omega
  · omega

theorem emplace_spec (slots : Slots s) (taken : s.emplace brace args = some (index, s', e)) :
    Slots s' ∧ ∀ i, s'.contains i = (decide (i = index) || s.contains i) := by
  have small := emplace_bounded slots taken
  obtain ⟨rfl,run,rest,counter⟩ := emplace_cases taken
  obtain ⟨sized,contents,counted,_⟩ := VectorMap.emplace_spec slots.sized small run
  have contents' : ∀ i, s'.contains i = (decide (i = s.newIndex) || s.contains i) := contents
  have grows : s.data_.size_ ≤ s'.data_.size_ := by
    rcases VectorMap.emplace_storage run with ⟨_,_,same,_⟩ | ⟨_,_,larger,_⟩
    · omega
    · omega
  have inside : s.newIndex < s'.data_.size_ := by
    apply sized.below
    simp [contents]
  have bounded := slots.bounded
  -- the counter moves on exactly when the new index came from it
  have next : s.nextIndex_ ≤ s'.nextIndex_ ∧ s.newIndex < s'.nextIndex_ ∧
      s'.nextIndex_ ≤ s'.data_.size_ := by
    rw [counter]
    cases queue : s.freeList_ with
    | nil =>
      have own : s.newIndex = s.nextIndex_ := by simp [newIndex, queue]
      rw [own] at small inside ⊢
      rw [if_pos rfl, Nat.mod_eq_of_lt small]
      omega
    | cons idx others =>
      have own : s.newIndex = idx := by simp [newIndex, queue]
      have below := (slots.free idx (by simp [queue])).2
      rw [own, if_neg (by simp)]
      omega
  refine ⟨⟨sized,counted slots.counted,next.2.2,?_,?_,?_⟩,contents'⟩
  · intro i occupied
    rw [contents', Bool.or_eq_true, decide_eq_true_eq] at occupied
    rcases occupied with rfl | old
    · exact next.2.1
    · exact Nat.lt_of_lt_of_le (slots.live i old) next.1
  · intro i listed
    rw [rest] at listed
    have facts := slots.free i (List.mem_of_mem_tail listed)
    have apart : i ≠ s.newIndex := by
      rintro rfl
      have nodup := slots.nodup
      unfold newIndex at listed
      cases queue : s.freeList_ with
      | nil => simp [queue] at listed
      | cons idx others =>
        rw [queue] at listed nodup
        exact (List.nodup_cons.mp nodup).1 listed
    refine ⟨?_,Nat.lt_of_lt_of_le facts.2 next.1⟩
    rw [contents', facts.1]
    simp [apart]
  · rw [rest]
    exact slots.nodup.tail

theorem remove_cases (taken : s.remove index = some (s', e)) :
    s.contains index ∧ s.data_.remove index = some (s'.data_, e) ∧
      s'.nextIndex_ = s.nextIndex_ ∧ s'.freeList_ = s.freeList_ ++ [index] := by
  unfold remove at taken
  split at taken
  · rename_i occupied
    obtain ⟨⟨data,e'⟩,run,eq⟩ := Option.map_eq_some_iff.mp taken
    cases eq
    exact ⟨occupied,run,rfl,rfl⟩
  · simp at taken

theorem remove_spec (slots : Slots s) (taken : s.remove index = some (s', e)) :
    Slots s' ∧ ∀ i, s'.contains i = (decide (i ≠ index) && s.contains i) := by
  obtain ⟨occupied,run,counter,queued⟩ := remove_cases taken
  obtain ⟨sized,contents,_,counted,_⟩ := VectorMap.remove_spec slots.sized run
  have contents' : ∀ i, s'.contains i = (decide (i ≠ index) && s.contains i) := contents
  have same_size := (VectorMap.remove_storage run).2.1
  refine ⟨⟨sized,counted slots.counted,?_,?_,?_,?_⟩,contents'⟩
  · rw [counter, same_size]
    exact slots.bounded
  · intro i still
    rw [contents', Bool.and_eq_true] at still
    rw [counter]
    exact slots.live i still.2
  · intro i listed
    rw [queued] at listed
    rw [counter, contents']
    rcases List.mem_append.mp listed with old | new
    · have facts := slots.free i old
      simp [facts]
    · rw [List.mem_singleton.mp new]
      simp [slots.live index occupied]
  · rw [queued]
    apply List.nodup_append.mpr
    refine ⟨slots.nodup,by simp,?_⟩
    intro i old j new same
    rw [List.mem_singleton] at new
    have gone := (slots.free i old).1
    rw [same, new, occupied] at gone
    simp at gone

theorem resize_cases (taken : s.resize brace size = some (s', e)) :
    s.data_.resize brace size = some (s'.data_, e) ∧ s'.nextIndex_ = s.data_.size_ ∧
      s'.freeList_ = s.freeList_ := by
  unfold resize at taken
  split at taken
  · obtain ⟨⟨data,e'⟩,run,eq⟩ := Option.map_eq_some_iff.mp taken
    cases eq
    exact ⟨run,rfl,rfl⟩
  · simp at taken

theorem resize_spec (slots : Slots s) (small : size < 2 ^ 64)
    (taken : s.resize brace size = some (s', e)) :
    Slots s' ∧ ∀ i, s'.contains i = s.contains i := by
  obtain ⟨run,counter,queued⟩ := resize_cases taken
  obtain ⟨larger,_⟩ := VectorMap.resize_cases run
  obtain ⟨sized,exact_size,_⟩ := VectorMap.resize_sized small run
  have kept := VectorMap.resize_kept slots.sized run
  have contents : ∀ i, s'.contains i = s.contains i := kept.contains
  have bounded := slots.bounded
  refine ⟨⟨sized,kept.counted slots.counted,?_,?_,?_,?_⟩,contents⟩
  · omega
  · intro i occupied
    rw [contents] at occupied
    have below := slots.live i occupied
    omega
  · intro i listed
    rw [queued] at listed
    rw [contents]
    have facts := slots.free i listed
    exact ⟨facts.1,by omega⟩
  · rw [queued]
    exact slots.nodup

theorem step_cases {a : Action T} {e : Event T} (taken : s.step brace a = some (s', e)) :
    (∃ args index effect, ((∃ v, a = .insert v ∧ args = .one v) ∨ a = .emplace args) ∧
      e = .inserted index effect ∧ s.data_.bound args ∧
      s.emplace brace args = some (index, s', effect)) ∨
    (∃ index effect, a = .remove index ∧ e = .removed index.toNat effect ∧
      s.remove index.toNat = some (s', effect)) ∨
    ∃ size effect, a = .resize size ∧ e = .resized effect ∧
      s.resize brace size.toNat = some (s', effect) := by
  cases a with
  | insert v =>
    simp only [step] at taken
    split at taken
    · rename_i bound
      obtain ⟨⟨index,s₁,effect⟩,run,eq⟩ := Option.map_eq_some_iff.mp taken
      cases eq
      exact .inl ⟨.one v,index,effect,.inl ⟨v,rfl,rfl⟩,rfl,bound,run⟩
    · simp at taken
  | emplace args =>
    simp only [step] at taken
    split at taken
    · rename_i bound
      obtain ⟨⟨index,s₁,effect⟩,run,eq⟩ := Option.map_eq_some_iff.mp taken
      cases eq
      exact .inl ⟨args,index,effect,.inr rfl,rfl,bound,run⟩
    · simp at taken
  | remove index =>
    obtain ⟨⟨s₁,effect⟩,run,eq⟩ := Option.map_eq_some_iff.mp taken
    cases eq
    exact .inr (.inl ⟨index,effect,rfl,rfl,run⟩)
  | resize size =>
    obtain ⟨⟨s₁,effect⟩,run,eq⟩ := Option.map_eq_some_iff.mp taken
    cases eq
    exact .inr (.inr ⟨size,effect,rfl,rfl,run⟩)

theorem step_slots {a : Action T} {e : Event T} (slots : Slots s)
    (taken : s.step brace a = some (s', e)) : Slots s' := by
  rcases step_cases taken with ⟨args,index,effect,_,_,_,run⟩ | ⟨index,effect,_,_,run⟩ |
    ⟨size,effect,_,_,run⟩
  · exact (emplace_spec slots run).1
  · exact (remove_spec slots run).1
  · exact (resize_spec slots size.toNat_lt run).1

end Operations

def Event.effect : Event T → VectorMap.Event T
  | .inserted _ effect | .removed _ effect | .resized effect => effect

def Event.index : Event T → UInt64
  | .inserted index _ | .removed index _ => .ofNat index
  | .resized _ => 0

def vectorAction (e : Event T) : Action T → VectorMap.Action T
  | .insert v => .insert e.index v
  | .emplace args => .emplace e.index args
  | .remove index => .remove index
  | .resize size => .resize size

def vectorLog (log : List (Action T × Event T)) : List (VectorMap.Action T × VectorMap.Event T) :=
  log.map fun (a, e) => (vectorAction e a, e.effect)

/-- No live slot is handed out, the free ones are listed once, and the elements are those that
were inserted. -/
structure Unshared (brace : T → T) (s : SlotMap T) (log : List (Action T × Event T)) : Prop where
  handsOut : ∀ a s' index effect, s.step brace a = some (s', .inserted index effect) →
    s.contains index = false ∧ s'.contains index
  asserted : s.data_.contains s.getNewIndex.1 = false
  nodup : s.freeList_.Nodup
  free : ∀ index ∈ s.freeList_, s.contains index = false
  bounded : ∀ index, s.contains index ∨ index ∈ s.freeList_ → index < s.nextIndex_
  counted : s.size = {index | s.contains index}.ncard
  values : ∀ index, s.get index = latest index (vectorLog log)
  maps : Maps brace s.data_ (vectorLog log)

def Keeps (brace : T → T) (s : SlotMap T) (_ : List (Action T × Event T)) : Action T → Prop
  | .insert v => s.data_.Takes brace s.newIndex (.one v)
  | .emplace args => s.data_.Takes brace s.newIndex args
  | .resize _ => s.data_.Growable brace
  | .remove _ => True

instance [DecidableEq T] (brace : T → T) (s : SlotMap T) (log : List (Action T × Event T)) :
    (a : Action T) → Decidable (Keeps brace s log a)
  | .insert v => inferInstanceAs (Decidable (s.data_.Takes brace s.newIndex (.one v)))
  | .emplace args => inferInstanceAs (Decidable (s.data_.Takes brace s.newIndex args))
  | .resize _ => inferInstanceAs (Decidable (s.data_.Growable brace))
  | .remove _ => .isTrue trivial

section Driven
variable {brace : T → T} {s s' : SlotMap T} {e : Event T} {log : List (Action T × Event T)}

theorem newIndex_word (slots : Slots s) : (UInt64.ofNat s.newIndex).toNat = s.newIndex := by
  have limit := newIndex_le slots
  have fits := slots.sized.fits
  have small := slots.sized.small
  rw [UInt64.toNat_ofNat']
  omega

theorem step_drives (log : List (Action T × Event T)) {a : Action T} (slots : Slots s) (taken : s.step brace a = some (s', e)) :
    s.data_.step brace (vectorAction e a) = some (s'.data_, e.effect) ∧
      VectorMap.Small s.data_ (vectorLog log) (vectorAction e a) ∧
      (Keeps brace s log a ↔ VectorMap.Keeps brace s.data_ (vectorLog log) (vectorAction e a)) := by
  have word := newIndex_word slots
  rcases step_cases taken with ⟨args,index,effect,called,rfl,bound,run⟩ |
    ⟨index,effect,rfl,rfl,run⟩ | ⟨size,effect,rfl,rfl,run⟩
  · have bounded := emplace_bounded slots run
    obtain ⟨rfl,inserted,_⟩ := emplace_cases run
    rcases called with ⟨v,rfl,rfl⟩ | rfl
    · simp only [vectorAction, Event.index, Event.effect, VectorMap.step, if_pos bound,
        VectorMap.Small, Keeps, VectorMap.Keeps, word]
      exact ⟨inserted,bounded,trivial⟩
    · simp only [vectorAction, Event.index, Event.effect, VectorMap.step, if_pos bound,
        VectorMap.Small, Keeps, VectorMap.Keeps, word]
      exact ⟨inserted,bounded,trivial⟩
  · exact ⟨(remove_cases run).2.1,trivial,.rfl⟩
  · exact ⟨(resize_cases run).1,trivial,.rfl⟩

theorem slots_unshared (slots : Slots s) (mapped : Mapped brace s.data_ (vectorLog log)) :
    Unshared brace s log := by
  refine ⟨?_,?_,slots.nodup,fun index listed => (slots.free index listed).1,?_,slots.counted,?_,
    mapped.maps⟩
  · intro a s' index effect taken
    rcases step_cases taken with ⟨args,i,_,_,eq,_,run⟩ | ⟨_,_,_,eq,_⟩ | ⟨_,_,_,eq,_⟩
    · cases eq
      have free := newIndex_free slots
      rw [← (emplace_cases run).1] at free
      exact ⟨free,by simp [(emplace_spec slots run).2]⟩
    · simp at eq
    · simp at eq
  · rw [getNewIndex_eq]
    exact newIndex_free slots
  · intro index known
    rcases known with live | free
    · exact slots.live index live
    · exact (slots.free index free).2
  · intro index
    rw [get_eq]
    exact mapped.maps.values index

end Driven

section Runs
variable {brace : T → T} {s : SlotMap T} {size : Option UInt64} {log : List (Action T × Event T)}

end Runs

end SlotMap
end Aiopp
