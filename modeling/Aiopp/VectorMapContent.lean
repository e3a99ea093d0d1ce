import Aiopp.VectorMapLifetime

/-!
`VectorMap` as a finite map on indices, over whole runs of its operations. It is one as long
as no growth meets a hole, no argument is read from a storage that a growth has replaced,
and `T { x }` is `x`.
-/
namespace Aiopp
namespace VectorMap
open RawStorage Transition
variable {T : Type}

def Args.meant (values : Nat → Option T) : Args T → Option T
  | .one (.object value) => some value
  | .one (.element index) => values index.toNat
  | .build value => some value

/-- The value inserted last at an index and not removed since. -/
def latest (index : Nat) : List (Action T × Event T) → Option T
  | [] => none
  | (.insert i v, _) :: older =>
    if i.toNat = index then (Args.one v).meant (fun j => latest j older) else latest index older
  | (.emplace i args, _) :: older =>
    if i.toNat = index then args.meant (fun j => latest j older) else latest index older
  | (.remove i, _) :: older => if i.toNat = index then none else latest index older
  | (.resize _, _) :: older => latest index older

def Small (_ : VectorMap T) (_ : List (Action T × Event T)) : Action T → Prop
  | .insert index _ | .emplace index _ => index.toNat + 1 < 2 ^ 64
  | _ => True

instance (m : VectorMap T) (log : List (Action T × Event T)) :
    (a : Action T) → Decidable (Small m log a)
  | .insert .. | .emplace .. => inferInstanceAs (Decidable (_ < _))
  | .remove _ | .resize _ => .isTrue trivial

/-- What is contained, what is found there and how much it is; nothing is touched that is not
there, and a free index is always taken. -/
structure Maps (brace : T → T) (m : VectorMap T) (log : List (Action T × Event T)) : Prop where
  contents : ∀ index, m.contains index = (latest index log).isSome
  values : ∀ index, m.get index = latest index log
  counted : m.occupied = {index | m.contains index}.ncard
  below : ∀ index, m.contains index → index < m.size
  fits : m.size ≤ m.data_.length ∧ m.data_.length = m.occupied_.length
  inside : ∀ entry ∈ log, entry.2.Inside
  legal : ∀ entry ∈ log, ∀ access ∈ entry.2.accesses, access.Legal
  present : ∀ entry ∈ log, entry.2.dangling = false
  accepts : ∀ index args, Small m log (.emplace index args) → m.contains index.toNat = false →
    m.bound args → (m.step brace (.emplace index args)).isSome

def Args.source (m : VectorMap T) : Args T → Option T
  | .one (.object value) => some value
  | .one (.element index) => m.get index.toNat
  | .build _ => none

/-- The storage can be replaced: it has no hole, and every element survives its move. -/
def Growable (brace : T → T) (m : VectorMap T) : Prop :=
  m.Dense ∧ ∀ index < m.size_, ∀ value ∈ m.get index, brace value = value

def Takes (brace : T → T) (m : VectorMap T) (index : Nat) (args : Args T) : Prop :=
  (index < m.size ∨ m.Growable brace ∧ args.own = none) ∧
    ∀ value ∈ args.source m, brace value = value

/-- The storage grows only when it can be replaced and not for an argument that lies in it,
and `T { x }` is `x` for whatever is inserted. -/
def Keeps (brace : T → T) (m : VectorMap T) (_ : List (Action T × Event T)) : Action T → Prop
  | .insert index v => m.Takes brace index.toNat (.one v)
  | .emplace index args => m.Takes brace index.toNat args
  | .resize _ => m.Growable brace
  | .remove _ => True

section Decide
variable [DecidableEq T] (brace : T → T) (m : VectorMap T)

instance : Decidable (m.Growable brace) :=
  inferInstanceAs (Decidable (_ ∧ ∀ index < m.size_, ∀ value ∈ m.get index, _))

instance (index : Nat) (args : Args T) : Decidable (m.Takes brace index args) :=
  inferInstanceAs (Decidable ((_ ∨ _ ∧ _ = none) ∧ ∀ value ∈ args.source m, _))

instance (log : List (Action T × Event T)) : (a : Action T) → Decidable (Keeps brace m log a)
  | .insert index v => inferInstanceAs (Decidable (m.Takes brace index.toNat (.one v)))
  | .emplace index args => inferInstanceAs (Decidable (m.Takes brace index.toNat args))
  | .resize _ => inferInstanceAs (Decidable (m.Growable brace))
  | .remove _ => .isTrue trivial

end Decide

section Steps
variable {brace : T → T} {m m' : VectorMap T} {log : List (Action T × Event T)} {e : Event T}
  {index : Nat} {args : Args T}

theorem construct_meant (kept : ∀ value ∈ args.source m, brace value = value) :
    m.construct brace args = args.meant m.get := by
  cases args with
  | build value => rfl
  | one v =>
    cases v with
    | object value => exact congrArg some (kept value rfl)
    | element i =>
      simp only [construct, Args.meant]
      cases found : m.get i.toNat with
      | none => rfl
      | some value => exact congrArg some (kept value (by simpa [Args.source] using found))

theorem map_kept {found : Option T} (kept : ∀ value ∈ found, brace value = value) :
    found.map brace = found := by
  cases found with
  | none => rfl
  | some value => exact congrArg some (kept value rfl)

theorem growable_kept (sized : m.Sized) (growable : m.Growable brace) (i : Nat) :
    (m.get i).map brace = m.get i := by
  by_cases below : i < m.size_
  · exact map_kept (growable.2 i below)
  · have free : ¬ m.contains i := fun occupied => below (sized.below i occupied)
    simp [get, free]

/-- A new element that the map can take is what was meant, and the others stay. -/
theorem takes_values (sized : m.Sized) (bounded : index + 1 < 2 ^ 64)
    (takes : m.Takes brace index args) (taken : m.emplace brace index args = some (m', e)) :
    (∀ i, m'.get i = if i = index then args.meant m.get else m.get i) ∧ e.dangling = false := by
  obtain ⟨grows,kept⟩ := takes
  obtain ⟨_,_,_,_,dangles,_⟩ := emplace_cases taken
  have present : e.dangling = false := by
    rw [dangles, Bool.and_eq_false_iff]
    rcases grows with inside | ⟨_,outside⟩
    · exact .inl (decide_eq_false (Nat.not_le.mpr inside))
    · exact .inr (by simp [outside])
  refine ⟨?_,present⟩
  intro i
  rw [emplace_get sized bounded taken, present, construct_meant kept]
  by_cases new : i = index
  · rw [if_pos new, if_pos new, if_neg Bool.false_ne_true]
  · rw [if_neg new, if_neg new]
    split
    · rename_i beyond
      have growable : m.Growable brace := by
        rcases grows with inside | ⟨growable,_⟩
        · exact absurd beyond (Nat.not_le.mpr inside)
        · exact growable
      exact growable_kept sized growable i
    · rfl

/-- One that it cannot take is not what was meant, or harms another. -/
theorem untaken_harms (sized : m.Sized) (exact_slots : m.Exact) (bounded : index + 1 < 2 ^ 64)
    (careless : ¬ m.Takes brace index args) (taken : m.emplace brace index args = some (m', e))
    (legal : ∀ access ∈ e.accesses, access.Legal) (present : e.dangling = false)
    (values : ∀ i, m'.get i = if i = index then args.meant m.get else m.get i) : False := by
  have found := emplace_get sized bounded taken
  rw [present] at found
  obtain ⟨free,_,_,_,dangles,_⟩ := emplace_cases taken
  refine careless ⟨?_,?_⟩
  · by_cases inside : index < m.size
    · exact .inl inside
    · have beyond : m.size_ ≤ index := Nat.le_of_not_lt inside
      have dense : m.Dense := by
        by_contra sparse
        exact emplace_unlawful exact_slots (by omega)
          (fun grows => grows.elim inside fun filled => sparse filled.1) taken legal
      refine .inr ⟨⟨dense,?_⟩,?_⟩
      · intro i below value there
        have apart : i ≠ index := by omega
        have same := (found i).symm.trans (values i)
        rw [if_neg apart, if_pos beyond, if_neg apart, Option.mem_def.mp there] at same
        exact Option.some.inj same
      · rw [dangles, Bool.and_eq_false_iff] at present
        rcases present with inside | outside
        · simp [beyond] at inside
        · simpa using outside
  · intro value there
    have same := (found index).symm.trans (values index)
    rw [if_pos rfl, if_pos rfl, if_neg (by simp)] at same
    cases args with
    | build other => simp [Args.source] at there
    | one v =>
      cases v with
      | object other =>
        obtain rfl : other = value := by simpa [Args.source] using there
        exact Option.some.inj same
      | element i =>
        have held : m.get i.toNat = some value := there
        simp only [construct, Args.meant, held] at same
        exact Option.some.inj same

structure Mapped (brace : T → T) (m : VectorMap T) (log : List (Action T × Event T)) : Prop where
  sized : m.Sized
  slots : m.Exact
  maps : Maps brace m log

theorem sized_accepts (sized : m.Sized) (index : UInt64) (args : Args T)
    (small : Small m log (.emplace index args)) (free : m.contains index.toNat = false)
    (bound : m.bound args) : (m.step brace (.emplace index args)).isSome := by
  rw [step, if_pos bound]
  exact emplace_succeeds sized small free args

theorem create_mapped (size : Option UInt64) : Mapped brace (create size : VectorMap T) [] := by
  have sized := create_sized (T := T) size
  refine ⟨sized,create_exact size,?_,?_,create_counted size,sized.below,⟨sized.fits,sized.lengths⟩,
    by simp,by simp,by simp,sized_accepts sized⟩
  · simp [create_empty, latest]
  · simp [get, create_empty, latest]

theorem emplace_mapped (mapped : Mapped brace m log) {a : Action T} {index : UInt64}
    (small : index.toNat + 1 < 2 ^ 64) (takes : m.Takes brace index.toNat args)
    (bound : m.bound args) (taken : m.emplace brace index.toNat args = some (m', e))
    (newest : ∀ i, latest i ((a, e) :: log) =
      if i = index.toNat then args.meant (fun j => latest j log) else latest i log) :
    Mapped brace m' ((a, e) :: log) := by
  obtain ⟨sized,contents,counted,inside⟩ := emplace_spec mapped.sized small taken
  obtain ⟨values,present⟩ := takes_values mapped.sized small takes taken
  have dense : index.toNat < m.size_ ∨ m.Dense ∧ index.toNat + 1 < 2 ^ 64 :=
    takes.1.imp_right fun grows => ⟨grows.1.1,small⟩
  obtain ⟨slots,legal⟩ := emplace_lawful mapped.sized mapped.slots dense taken
  have same : m.get = fun j => latest j log := funext mapped.maps.values
  have found : ∀ i, m'.get i = latest i ((a, e) :: log) := by
    intro i
    rw [values, newest, same]
  refine ⟨sized,slots,?_,found,counted mapped.maps.counted,sized.below,⟨sized.fits,sized.lengths⟩,
    List.forall_mem_cons.mpr ⟨inside,mapped.maps.inside⟩,
    List.forall_mem_cons.mpr ⟨legal,mapped.maps.legal⟩,
    List.forall_mem_cons.mpr ⟨present,mapped.maps.present⟩,sized_accepts sized⟩
  intro i
  rw [contents, newest, mapped.maps.contents]
  by_cases new : i = index.toNat
  · have there : (args.meant fun j => latest j log).isSome := by
      cases args with
      | build value => rfl
      | one v =>
        cases v with
        | object value => rfl
        | element j =>
          have occupied : m.contains j.toNat := by simpa [VectorMap.bound, Args.own] using bound
          rwa [mapped.maps.contents] at occupied
    simp [new, there]
  · simp [new]

theorem remove_mapped (mapped : Mapped brace m log) {index : UInt64}
    (taken : m.remove index.toNat = some (m', e)) : Mapped brace m' ((.remove index, e) :: log) := by
  obtain ⟨sized,contents,values,counted,inside⟩ := remove_spec mapped.sized taken
  obtain ⟨slots,legal⟩ := remove_lawful mapped.sized mapped.slots taken
  have present : e.dangling = false := by
    rw [remove, if_pos (remove_storage taken).1] at taken
    cases taken
    rfl
  refine ⟨sized,slots,?_,?_,counted mapped.maps.counted,sized.below,⟨sized.fits,sized.lengths⟩,
    List.forall_mem_cons.mpr ⟨inside,mapped.maps.inside⟩,
    List.forall_mem_cons.mpr ⟨legal,mapped.maps.legal⟩,
    List.forall_mem_cons.mpr ⟨present,mapped.maps.present⟩,sized_accepts sized⟩
  · intro i
    rw [contents, latest, mapped.maps.contents]
    by_cases same : index.toNat = i
    · simp [same]
    · simp [same, Ne.symm same]
  · intro i
    rw [values, latest, mapped.maps.values]
    simp only [eq_comm]

theorem resize_mapped (mapped : Mapped brace m log) {size : UInt64} (growable : m.Growable brace)
    (run : m.resize brace size.toNat = some (m', e)) :
    Mapped brace m' ((.resize size, e) :: log) := by
  have kept := resize_kept mapped.sized run
  have sized := (resize_sized size.toNat_lt run).1
  have present : e.dangling = false := by
    unfold resize at run
    split at run
    · cases run
      rfl
    · simp at run
  refine ⟨sized,resize_exact mapped.sized growable.1 run,?_,?_,kept.counted mapped.maps.counted,
    sized.below,⟨sized.fits,sized.lengths⟩,
    List.forall_mem_cons.mpr ⟨resize_inside mapped.sized run,mapped.maps.inside⟩,
    List.forall_mem_cons.mpr ⟨(resize_legal_iff mapped.slots run).mpr growable.1,mapped.maps.legal⟩,
    List.forall_mem_cons.mpr ⟨present,mapped.maps.present⟩,sized_accepts sized⟩
  · intro i
    rw [kept.contains, mapped.maps.contents, latest]
  · intro i
    rw [resize_get mapped.sized run, growable_kept mapped.sized growable, mapped.maps.values, latest]

theorem step_bound {index : UInt64} {v : Ref T}
    (taken : m.step brace (.insert index v) = some (m', e)) : m.bound (.one v) := by
  simp only [step] at taken
  split at taken
  · assumption
  · simp at taken

theorem step_bound_args {index : UInt64}
    (taken : m.step brace (.emplace index args) = some (m', e)) : m.bound args := by
  simp only [step] at taken
  split at taken
  · assumption
  · simp at taken

theorem step_mapped {a : Action T} (mapped : Mapped brace m log) (small : Small m log a)
    (keeps : Keeps brace m log a) (taken : m.step brace a = some (m', e)) :
    Mapped brace m' ((a, e) :: log) := by
  cases a with
  | insert index v =>
    exact emplace_mapped mapped small keeps (step_bound taken) (insert_taken taken)
      (by simp [latest, eq_comm])
  | emplace index args =>
    exact emplace_mapped mapped small keeps (step_bound_args taken) (emplace_taken taken)
      (by simp [latest, eq_comm])
  | remove index => exact remove_mapped mapped taken
  | resize size => exact resize_mapped mapped keeps taken

theorem careless_emplace (mapped : Mapped brace m log) {a : Action T} {index : UInt64}
    (small : index.toNat + 1 < 2 ^ 64) (careless : ¬ m.Takes brace index.toNat args)
    (taken : m.emplace brace index.toNat args = some (m', e))
    (newest : ∀ i, latest i ((a, e) :: log) =
      if i = index.toNat then args.meant (fun j => latest j log) else latest i log) :
    ¬ Maps brace m' ((a, e) :: log) := by
  intro maps
  have same : m.get = fun j => latest j log := funext mapped.maps.values
  refine untaken_harms mapped.sized mapped.slots small careless taken
    (maps.legal _ List.mem_cons_self) (maps.present _ List.mem_cons_self) ?_
  intro i
  rw [maps.values, newest, same]

theorem careless_step {a : Action T} (mapped : Mapped brace m log) (small : Small m log a)
    (careless : ¬ Keeps brace m log a) (taken : m.step brace a = some (m', e)) :
    ¬ Maps brace m' ((a, e) :: log) := by
  cases a with
  | insert index v =>
    exact careless_emplace mapped small careless (insert_taken taken) (by simp [latest, eq_comm])
  | emplace index args =>
    exact careless_emplace mapped small careless (emplace_taken taken) (by simp [latest, eq_comm])
  | remove index => exact absurd trivial careless
  | resize size =>
    intro maps
    refine careless ⟨(resize_legal_iff mapped.slots taken).mp (maps.legal _ List.mem_cons_self),?_⟩
    intro i _ value there
    have moved := resize_get mapped.sized taken i
    rw [maps.values, latest, ← mapped.maps.values, Option.mem_def.mp there] at moved
    exact (Option.some.inj moved).symm

end Steps

section Runs
variable {brace : T → T} {m : VectorMap T} {size : Option UInt64}
  {log : List (Action T × Event T)}

end Runs

end VectorMap
end Aiopp
