import Aiopp.VectorMap

/-!
Lifetimes of the elements of a `VectorMap`. The loop of `resize` moves every slot below
`size_`, occupied or not, so a growth over a hole moves from and destroys an element that
was never constructed, and leaves one that nothing knows of.
-/
namespace Aiopp
namespace VectorMap
open RawStorage Transition
variable {T : Type}

def AnyOrder (_ : VectorMap T) (_ : List (Action T × Event T)) (_ : Action T) : Prop := True

instance (m : VectorMap T) (log : List (Action T × Event T)) (a : Action T) :
    Decidable (AnyOrder m log a) := .isTrue trivial

/-- The slots that hold an element are the occupied ones. -/
def Exact (m : VectorMap T) : Prop := ∀ index, Constructed m.data_[index]? ↔ m.contains index

def Lawful (m : VectorMap T) (log : List (Action T × Event T)) : Prop :=
  m.Exact ∧ ∀ entry ∈ log, ∀ access ∈ entry.2.accesses, access.Legal

def Dense (m : VectorMap T) : Prop := ∀ index < m.size_, m.contains index

instance (m : VectorMap T) : Decidable m.Dense :=
  inferInstanceAs (Decidable (∀ index < m.size_, m.contains index = true))

/-- The storage grows only when every slot below `size()` is occupied, and never for the
largest index, which has no successor. -/
def GrowsDense (m : VectorMap T) (_ : List (Action T × Event T)) : Action T → Prop
  | .insert index _ | .emplace index _ =>
    index.toNat < m.size ∨ m.Dense ∧ index.toNat + 1 < 2 ^ 64
  | .resize _ => m.Dense
  | .remove _ => True

instance (m : VectorMap T) (log : List (Action T × Event T)) :
    (a : Action T) → Decidable (GrowsDense m log a)
  | .insert .. | .emplace .. => inferInstanceAs (Decidable (_ ∨ _ ∧ _))
  | .resize _ => inferInstanceAs (Decidable (Dense _))
  | .remove _ => .isTrue trivial

section Operations
variable {brace : T → T} {m m' : VectorMap T} {index size : Nat} {args : Args T} {e : Event T}

theorem create_exact (size : Option UInt64) : (create size : VectorMap T).Exact := by
  intro index
  rw [create_empty]
  cases size with
  | none => simp [create, Constructed]
  | some n => simp [create, Constructed, List.getElem?_replicate]

theorem bare_slot (exact_slots : m.Exact) (free : m.contains index = false)
    (inside : index < m.data_.length) : m.data_[index]? = some .raw := by
  have unconstructed : ¬ Constructed m.data_[index]? := by
    rw [exact_slots index, free]
    simp
  rw [List.getElem?_eq_getElem inside] at unconstructed ⊢
  cases slot : m.data_[index] with
  | raw => rfl
  | element value => exact absurd ⟨value,by rw [slot]⟩ unconstructed

theorem resize_legal_iff (exact_slots : m.Exact) (run : m.resize brace size = some (m', e)) :
    (∀ access ∈ e.accesses, access.Legal) ↔ m.Dense := by
  obtain ⟨larger,_,_,storage,moved,rfl⟩ := resize_cases run
  have legal := relocate_legal_iff brace m.data_ (List.replicate size .raw)
    (List.nodup_range (n := m.size_))
  rw [← moved] at legal
  rw [legal]
  apply forall_congr'
  intro i
  rw [List.mem_range]
  apply imp_congr_right
  intro below
  rw [exact_slots i, List.getElem?_replicate, if_pos (by omega)]
  simp

theorem resize_exact (sized : m.Sized) (dense : m.Dense)
    (run : m.resize brace size = some (m', e)) : m'.Exact := by
  have kept := resize_kept sized run
  obtain ⟨larger,_,_,storage,moved,rfl⟩ := resize_cases run
  intro i
  rw [kept.contains]
  have place := congrArg (fun moved => moved.1[i]?) moved
  by_cases below : i < m.size_
  · rw [relocate_moved List.nodup_range (by simpa using below) (by simp; omega)] at place
    simp only [dense i below, iff_true]
    exact ⟨_,place⟩
  · rw [relocate_other (by simpa using below)] at place
    have free : m.contains i = false := by
      rw [← Bool.not_eq_true]
      exact fun occupied => below (sized.below i occupied)
    simp only [free, Bool.false_eq_true, iff_false]
    simp only [place, Constructed, List.getElem?_replicate]
    split <;> simp

theorem place_exact {value : Option T} (sized : m.Sized) (exact_slots : m.Exact) (inside : index < m.size_) :
    (m.place index value).Exact := by
  intro i
  have bound := Nat.lt_of_lt_of_le inside sized.fits
  rw [place_contains sized inside, Bool.or_eq_true, decide_eq_true_eq, ← exact_slots i]
  by_cases same : i = index
  · simp [same, place, bound, Constructed]
  · simp [same, place, List.getElem?_set_ne (Ne.symm same)]

theorem grow_exact (sized : m.Sized) (exact_slots : m.Exact)
    (dense : index < m.size_ ∨ m.Dense) (run : m.grow brace index = some (m', e)) :
    m'.Exact ∧ ∀ access ∈ e.accesses, access.Legal := by
  unfold grow at run
  split at run
  · rename_i beyond
    have filled := dense.resolve_left (by omega)
    exact ⟨resize_exact sized filled run,(resize_legal_iff exact_slots run).mpr filled⟩
  · cases run
    exact ⟨exact_slots,by simp⟩

theorem dense_bounded (sized : m.Sized)
    (dense : index < m.size_ ∨ m.Dense ∧ index + 1 < 2 ^ 64) : index + 1 < 2 ^ 64 := by
  have fits := sized.fits
  have small := sized.small
  rcases dense with inside | far
  · omega
  · exact far.2

theorem emplace_lawful (sized : m.Sized) (exact_slots : m.Exact)
    (dense : index < m.size_ ∨ m.Dense ∧ index + 1 < 2 ^ 64)
    (taken : m.emplace brace index args = some (m', e)) :
    m'.Exact ∧ ∀ access ∈ e.accesses, access.Legal := by
  obtain ⟨free,grown,moved,run,_,rfl,same⟩ := emplace_cases taken
  rw [same]
  have bounded := dense_bounded sized dense
  obtain ⟨m₁,_,run₁,sized',kept,inside,_⟩ := grow_kept brace sized bounded
  cases run.symm.trans run₁
  obtain ⟨exact_grown,legal⟩ := grow_exact sized exact_slots (dense.imp_right And.left) run
  refine ⟨place_exact sized' exact_grown inside,?_⟩
  have bare := bare_slot exact_grown (by rw [kept.contains, free])
    (Nat.lt_of_lt_of_le inside sized'.fits)
  intro access member
  rcases List.mem_append.mp member with before | placed
  · exact legal access before
  · rw [List.mem_singleton.mp placed]
    exact bare

/-- Either the loop meets a hole, or the element is constructed outside the storage. -/
theorem emplace_unlawful (exact_slots : m.Exact) (small_index : index < 2 ^ 64)
    (sparse : ¬ (index < m.size_ ∨ m.Dense ∧ index + 1 < 2 ^ 64))
    (taken : m.emplace brace index args = some (m', e)) :
    ¬ ∀ access ∈ e.accesses, access.Legal := by
  obtain ⟨beyond,holes⟩ := not_or.mp sparse
  obtain ⟨free,grown,moved,run,_,rfl,same⟩ := emplace_cases taken
  rw [same]
  rw [grow, if_pos (Nat.le_of_not_lt beyond)] at run
  intro legal
  obtain ⟨before,placed⟩ := List.forall_mem_append.mp legal
  have dense := (resize_legal_iff exact_slots run).mp before
  have last : ¬ index + 1 < 2 ^ 64 := fun bounded => holes ⟨dense,bounded⟩
  have small := (resize_sized (by omega) run).1.small
  have found : grown.data_[index]? = some .raw := placed _ (List.mem_singleton.mpr rfl)
  rw [List.getElem?_eq_none (by omega)] at found
  simp at found

theorem remove_lawful (sized : m.Sized) (exact_slots : m.Exact)
    (taken : m.remove index = some (m', e)) :
    m'.Exact ∧ ∀ access ∈ e.accesses, access.Legal := by
  have occupied := (remove_storage taken).1
  have contents := (remove_spec sized taken).2.1
  rw [remove, if_pos occupied] at taken
  cases taken
  constructor
  · intro i
    rw [contents, Bool.and_eq_true, decide_eq_true_eq, ← exact_slots i]
    by_cases same : i = index
    · subst same
      have bound := Nat.lt_of_lt_of_le (sized.below i occupied) sized.fits
      simp [bound, raw_not_constructed]
    · simp [same, List.getElem?_set_ne (Ne.symm same)]
  · simpa using (exact_slots index).mpr occupied

theorem step_lawful {a : Action T} {log : List (Action T × Event T)} (sized : m.Sized)
    (lawful : m.Lawful log) (dense : GrowsDense m log a) (taken : m.step brace a = some (m', e)) :
    m'.Lawful ((a, e) :: log) := by
  obtain ⟨exact_slots,legal⟩ := lawful
  have newest : m'.Exact ∧ ∀ access ∈ e.accesses, access.Legal := by
    cases a with
    | insert index v => exact emplace_lawful sized exact_slots dense (insert_taken taken)
    | emplace index args => exact emplace_lawful sized exact_slots dense (emplace_taken taken)
    | remove index => exact remove_lawful sized exact_slots taken
    | resize size =>
      exact ⟨resize_exact sized dense taken,(resize_legal_iff exact_slots taken).mpr dense⟩
  exact ⟨newest.1,List.forall_mem_cons.mpr ⟨newest.2,legal⟩⟩

theorem step_unlawful {a : Action T} {log : List (Action T × Event T)}
    (lawful : m.Lawful log) (sparse : ¬ GrowsDense m log a) (taken : m.step brace a = some (m', e)) :
    ¬ m'.Lawful ((a, e) :: log) := by
  intro after
  obtain ⟨newest,_⟩ := List.forall_mem_cons.mp after.2
  cases a with
  | insert index v =>
    exact emplace_unlawful lawful.1 index.toNat_lt sparse (insert_taken taken) newest
  | emplace index args =>
    exact emplace_unlawful lawful.1 index.toNat_lt sparse (emplace_taken taken) newest
  | remove index => exact sparse trivial
  | resize size => exact sparse ((resize_legal_iff lawful.1 taken).mp newest)

theorem step_sized {a : Action T} {log : List (Action T × Event T)} (sized : m.Sized)
    (dense : GrowsDense m log a) (taken : m.step brace a = some (m', e)) : m'.Sized := by
  cases a with
  | insert index v => exact (emplace_spec sized (dense_bounded sized dense) (insert_taken taken)).1
  | emplace index args =>
    exact (emplace_spec sized (dense_bounded sized dense) (emplace_taken taken)).1
  | remove index => exact (remove_spec sized taken).1
  | resize size => exact (resize_sized size.toNat_lt taken).1

end Operations

/-- Every element is constructed, moved and destroyed as it should be, and the slots hold
what is occupied, exactly in the runs in which no growth meets a hole. -/
theorem lifetimes_respected_iff {brace : T → T} {m : VectorMap T} {size : Option UInt64}
    {log : List (Action T × Event T)}
    (run : Run (labelled (step brace)) AnyOrder (create size) m log) :
    Throughout (labelled (step brace)) AnyOrder (create size) Lawful log ↔
      Run (labelled (step brace)) (fun m log a => AnyOrder m log a ∧ GrowsDense m log a)
        (create size) m log := by
  apply labelled_throughout_iff GrowsDense (fun m log => m.Sized ∧ m.Lawful log) Lawful
    ⟨create_sized size,create_exact size,by simp⟩
  · intro s older inv
    exact inv.2
  · intro s older a s' e inv _ dense taken
    exact ⟨step_sized inv.1 dense taken,step_lawful inv.1 inv.2 dense taken⟩
  · intro s older a s' e inv _ sparse taken
    exact step_unlawful inv.2 sparse taken
  · exact run

theorem dense_growth_lawful :
    ∃ (m : VectorMap Nat) (log : List (Action Nat × Event Nat)),
      Run (labelled (step id)) AnyOrder (create none) m log ∧ m.size = 8 ∧ m.occupied = 3 ∧
      Throughout (labelled (step id)) AnyOrder (create none) Lawful log := by
  have computed : (replay (labelled (step id))
      (fun m log a => AnyOrder m log a ∧ GrowsDense m log a) (create none : VectorMap Nat) []
      [.insert 0 (.object 50), .insert 1 (.object 60), .remove 1, .insert 1 (.element 0),
        .emplace 2 (.build 80), .insert 3 (.object 90), .resize 8, .remove 1]).map
      (fun (m, _) => decide (m.size = 8 ∧ m.occupied = 3)) = some true := by decide
  obtain ⟨m,log,dense,facts⟩ := replay_reaches computed
  obtain ⟨grown,three⟩ := of_decide_eq_true facts
  have run : Run (labelled (step id)) AnyOrder (create none) m log :=
    dense.relax fun _ _ _ allowed => allowed.1
  exact ⟨m,log,run,grown,three,(lifetimes_respected_iff run).mpr dense⟩

/-- The second insertion grows the map while slot 0 is empty, and moves from it. -/
theorem hole_moved_from :
    ¬ ∀ (m : VectorMap Nat) (log : List (Action Nat × Event Nat)),
      Run (labelled (step id)) AnyOrder (create none) m log → Lawful m log := by
  intro claim
  have computed : (replay (labelled (step id)) AnyOrder (create none : VectorMap Nat) []
      [.insert 1 (.object 50), .insert 2 (.object 60)]).map
      (fun (_, log) => decide (∃ entry ∈ log, .moveFrom (some .raw) ∈ entry.2.accesses)) =
      some true := by decide
  obtain ⟨m,log,run,facts⟩ := replay_reaches computed
  obtain ⟨entry,listed,moved⟩ := of_decide_eq_true facts
  have legal := (claim m log run).2 entry listed _ moved
  exact raw_not_constructed ((moveFrom_legal _).mp legal)

end VectorMap
end Aiopp
