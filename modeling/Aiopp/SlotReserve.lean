import Aiopp.SlotMap

/-!
The slots of a `SlotMap` that hold nothing yet. The sized constructor allocates slots that
`VectorMap` does not know of, and `resize` sets the counter to the old size, past the slots
it had not come to.
-/
namespace Aiopp
namespace SlotMap
open Transition VectorMap
variable {T : Type}

/-- Every allocated slot is live, free, or still to come. -/
def NoWaste (s : SlotMap T) : Prop :=
  ∀ index < s.data_.data_.length,
    s.contains index ∨ index ∈ s.freeList_ ∨ s.nextIndex_ ≤ index

/-- No slot is lost so far, and an insertion allocates only when every slot is live. -/
def Thrifty (brace : T → T) (s : SlotMap T) (_ : List (Action T × Event T)) (a : Action T) :
    Prop :=
  s.NoWaste ∧ ∀ s' index effect, s.step brace a = some (s', .inserted index effect) →
    effect.allocated ≠ none → ∀ i < s.data_.data_.length, s.contains i

/-- The first insertion does not meet the storage of the sized constructor, and a resize
comes only when the counter has come to the end of the storage. -/
def Reserves (s : SlotMap T) (_ : List (Action T × Event T)) : Action T → Prop
  | .insert _ | .emplace _ => s.data_.data_.length = s.data_.size
  | .resize _ => s.nextIndex_ = s.data_.size
  | .remove _ => True

instance (s : SlotMap T) (log : List (Action T × Event T)) :
    (a : Action T) → Decidable (Reserves s log a)
  | .insert _ | .emplace _ | .resize _ => inferInstanceAs (Decidable (_ = _))
  | .remove _ => .isTrue trivial

def Whole (s : SlotMap T) : Prop := s.data_.size_ = s.data_.data_.length ∨ s.data_.size_ = 0

section Operations
variable {brace : T → T} {s s' : SlotMap T} {index size : Nat} {args : Args T}
  {e : VectorMap.Event T} {log : List (Action T × Event T)}

theorem create_whole (size : Option UInt64) : (create size : SlotMap T).Whole := by
  cases size with
  | none => exact .inl rfl
  | some n => exact .inr rfl

theorem create_noWaste (size : Option UInt64) : (create size : SlotMap T).NoWaste := by
  intro index _
  exact .inr (.inr (Nat.zero_le index))

theorem step_whole {a : Action T} {e : Event T} (whole : s.Whole)
    (taken : s.step brace a = some (s', e)) : s'.Whole := by
  rcases step_cases taken with ⟨args,index,effect,_,_,_,run⟩ | ⟨index,effect,_,_,run⟩ |
    ⟨size,effect,_,_,run⟩
  · obtain ⟨_,inserted,_⟩ := emplace_cases run
    unfold Whole at whole ⊢
    rcases VectorMap.emplace_storage inserted with ⟨_,_,same,length⟩ | ⟨_,_,_,length,_⟩
    · rwa [same, length]
    · exact .inl length.symm
  · obtain ⟨_,removed,_⟩ := remove_cases run
    obtain ⟨_,same,length⟩ := VectorMap.remove_storage removed
    unfold Whole
    rwa [same, length]
  · obtain ⟨resized,_⟩ := resize_cases run
    obtain ⟨_,exact_size,length⟩ := VectorMap.resize_sized size.toNat_lt resized
    exact .inl (by omega)

theorem noWaste_everywhere (slots : Slots s) (thrifty : s.NoWaste) (i : Nat) :
    s.contains i ∨ i ∈ s.freeList_ ∨ s.nextIndex_ ≤ i := by
  by_cases inside : i < s.data_.data_.length
  · exact thrifty i inside
  · have bounded := slots.bounded
    have fits := slots.sized.fits
    exact .inr (.inr (by omega))

theorem emplace_noWaste (slots : Slots s) (thrifty : s.NoWaste)
    (taken : s.emplace brace args = some (index, s', e)) : s'.NoWaste := by
  obtain ⟨_,contents⟩ := emplace_spec slots taken
  have small := emplace_bounded slots taken
  obtain ⟨own,_,rest,counter⟩ := emplace_cases taken
  intro i _
  rw [contents, rest, counter]
  by_cases new : i = index
  · simp [new]
  · rcases noWaste_everywhere slots thrifty i with live | free | later
    · simp [live]
    · right
      left
      unfold newIndex at own
      cases queue : s.freeList_ with
      | nil => simp [queue] at free
      | cons idx others =>
        rw [queue] at own free
        rcases List.mem_cons.mp free with front | behind
        · exact absurd (front.trans own.symm) new
        · exact behind
    · right
      right
      unfold newIndex at own
      split
      · rename_i empty
        rw [empty, List.headD_nil] at own
        rw [Nat.mod_eq_of_lt (by omega)]
        omega
      · exact later

theorem remove_noWaste (slots : Slots s) (thrifty : s.NoWaste)
    (taken : s.remove index = some (s', e)) : s'.NoWaste := by
  obtain ⟨_,contents⟩ := remove_spec slots taken
  obtain ⟨_,_,counter,queued⟩ := remove_cases taken
  intro i _
  rw [contents, counter, queued]
  by_cases freed : i = index
  · simp [freed]
  · rcases noWaste_everywhere slots thrifty i with live | free | later
    · simp [freed, live]
    · simp [free]
    · exact .inr (.inr later)

theorem resize_noWaste (slots : Slots s) (thrifty : s.NoWaste) (small : size < 2 ^ 64)
    (spent : s.nextIndex_ = s.data_.size_) (taken : s.resize brace size = some (s', e)) :
    s'.NoWaste := by
  obtain ⟨_,contents⟩ := resize_spec slots small taken
  obtain ⟨_,counter,queued⟩ := resize_cases taken
  intro i _
  rw [contents, counter, queued, ← spent]
  exact noWaste_everywhere slots thrifty i

theorem resize_wastes (slots : Slots s) (small : size < 2 ^ 64)
    (spare : s.nextIndex_ ≠ s.data_.size_) (taken : s.resize brace size = some (s', e)) :
    ¬ s'.NoWaste := by
  obtain ⟨_,contents⟩ := resize_spec slots small taken
  obtain ⟨resized,counter,queued⟩ := resize_cases taken
  obtain ⟨larger,_⟩ := VectorMap.resize_cases resized
  obtain ⟨_,_,length⟩ := VectorMap.resize_sized small resized
  have bounded := slots.bounded
  intro thrifty
  rcases thrifty s.nextIndex_ (by omega) with live | free | later
  · rw [contents] at live
    have below := slots.live _ live
    omega
  · rw [queued] at free
    have below := (slots.free _ free).2
    omega
  · omega

/-- The storage is allocated anew when the queue is empty and the counter is at its end. -/
theorem emplace_thrifty (slots : Slots s) (thrifty : s.NoWaste)
    (whole : s.data_.data_.length = s.data_.size_)
    (taken : s.emplace brace args = some (index, s', e)) (allocated : e.allocated ≠ none) {i : Nat}
    (inside : i < s.data_.data_.length) : s.contains i := by
  obtain ⟨own,inserted,_⟩ := emplace_cases taken
  have bounded := slots.bounded
  rcases VectorMap.emplace_storage inserted with ⟨_,nothing,_⟩ | ⟨beyond,_⟩
  · exact absurd nothing allocated
  · unfold newIndex at own
    cases queue : s.freeList_ with
    | nil =>
      rw [queue, List.headD_nil] at own
      rcases thrifty i inside with live | free | later
      · exact live
      · simp [queue] at free
      · omega
    | cons idx others =>
      rw [queue, List.headD_cons] at own
      have below := (slots.free idx (by simp [queue])).2
      omega

theorem emplace_wastes (slots : Slots s) (whole : s.Whole)
    (unknown : s.data_.data_.length ≠ s.data_.size_)
    (taken : s.emplace brace args = some (index, s', e)) :
    e.allocated ≠ none ∧ 0 < s.data_.data_.length ∧ s.contains 0 = false := by
  obtain ⟨_,inserted,_⟩ := emplace_cases taken
  have bounded := slots.bounded
  have nothing : s.data_.size_ = 0 := whole.resolve_left (Ne.symm unknown)
  refine ⟨?_,by omega,?_⟩
  · rcases VectorMap.emplace_storage inserted with ⟨inside,_⟩ | ⟨_,allocated,_⟩
    · omega
    · simp [allocated]
  · rw [← Bool.not_eq_true]
    intro live
    have below := slots.live 0 live
    omega

theorem step_noWaste {a : Action T} {e : Event T} (slots : Slots s) (thrifty : s.NoWaste)
    (careful : Reserves s log a) (taken : s.step brace a = some (s', e)) : s'.NoWaste := by
  rcases step_cases taken with ⟨args,index,effect,_,_,_,run⟩ | ⟨index,effect,_,_,run⟩ |
    ⟨size,effect,rfl,_,run⟩
  · exact emplace_noWaste slots thrifty run
  · exact remove_noWaste slots thrifty run
  · exact resize_noWaste slots thrifty size.toNat_lt careful run

theorem reserves_thrifty {a : Action T} (slots : Slots s) (thrifty : s.NoWaste)
    (careful : Reserves s log a) : Thrifty brace s log a := by
  refine ⟨thrifty,?_⟩
  intro s' index effect taken allocated i inside
  rcases step_cases taken with ⟨args,j,_,called,eq,_,run⟩ | ⟨_,_,_,eq,_⟩ | ⟨_,_,_,eq,_⟩
  · cases eq
    have whole : s.data_.data_.length = s.data_.size_ := by
      rcases called with ⟨v,rfl,_⟩ | rfl
      · exact careful
      · exact careful
    exact emplace_thrifty slots thrifty whole run allocated inside
  · simp at eq
  · simp at eq

theorem thrifty_reserves {a : Action T} {e : Event T} (slots : Slots s) (whole : s.Whole)
    (thrifty : Thrifty brace s log a) (taken : s.step brace a = some (s', e)) (after : s'.NoWaste) :
    Reserves s log a := by
  rcases step_cases taken with ⟨args,index,effect,called,rfl,_,run⟩ | ⟨index,effect,rfl,_,run⟩ |
    ⟨size,effect,rfl,_,run⟩
  · have known : s.data_.data_.length = s.data_.size_ := by
      by_contra unknown
      obtain ⟨allocated,some_slot,dead⟩ := emplace_wastes slots whole unknown run
      have live := thrifty.2 s' index effect taken allocated 0 some_slot
      simp [dead] at live
    rcases called with ⟨v,rfl,_⟩ | rfl
    · exact known
    · exact known
  · trivial
  · by_contra spare
    exact resize_wastes slots size.toNat_lt spare run after

end Operations

section Runs
variable {brace : T → T} {s : SlotMap T} {size : Option UInt64}
  {log : List (Action T × Event T)}

theorem labelled_slots {policy : SlotMap T → List (Action T × Event T) → Action T → Prop}
    (run : Run (labelled (step brace)) policy (create size) s log) : Slots s ∧ s.Whole := by
  apply run.labelled_invariant (fun s _ => Slots s ∧ s.Whole) ⟨create_slots size,create_whole size⟩
  intro s older a s' e inv _ taken
  exact ⟨step_slots inv.1 taken,step_whole inv.2 taken⟩

/-- In the states of a run no slot is lost, and its insertions allocate only when every slot
is live, exactly when no insertion meets the storage of the sized constructor and no resize
comes before the counter has reached the end of the storage. -/
theorem no_slot_wasted_iff :
    Run (labelled (step brace)) (Thrifty brace) (create size) s log ∧ s.NoWaste ↔
      Run (labelled (step brace)) Reserves (create size) s log := by
  constructor
  · intro both
    obtain ⟨run,after⟩ := both
    induction run with
    | nil => exact .nil
    | next run allowed taken ih =>
      obtain ⟨slots,whole⟩ := labelled_slots run
      obtain ⟨e,rfl,stepped⟩ := labelled_eq_some.mp taken
      exact .next (ih allowed.1) (thrifty_reserves slots whole allowed stepped after) taken
  · intro run
    have keep : ∀ (s : SlotMap T) log a s' entry, Slots s ∧ s.NoWaste → Reserves s log a →
        labelled (step brace) s a = some (s', entry) → Slots s' ∧ s'.NoWaste := by
      intro s log a s' entry inv careful taken
      obtain ⟨e,rfl,stepped⟩ := labelled_eq_some.mp taken
      exact ⟨step_slots inv.1 stepped,step_noWaste inv.1 inv.2 careful stepped⟩
    have base : Slots (create size : SlotMap T) ∧ (create size : SlotMap T).NoWaste :=
      ⟨create_slots size,create_noWaste size⟩
    constructor
    · exact run.relax_within (fun s _ => Slots s ∧ s.NoWaste) base keep
        fun s log a inv careful => reserves_thrifty inv.1 inv.2 careful
    · exact (run.invariant (fun s _ => Slots s ∧ s.NoWaste) base keep).2

end Runs

/- Filled, resized when full, grown, emptied in part and refilled. -/
example : (replay (labelled (step id)) Reserves (create none : SlotMap Nat) []
    [.resize 2, .insert (.object 50), .insert (.object 60), .resize 3, .emplace (.build 70),
      .insert (.object 80), .remove 1, .insert (.object 90)]).isSome = true := by decide

/-- Two resizes leave the first four slots behind, and the fifth insertion allocates; after
the sized constructor the first one does. -/
theorem reserved_slots_lost :
    (∃ (s : SlotMap Nat) (log : List (Action Nat × Event Nat)),
      Run (labelled (step id)) AnyOrder (create none) s log ∧
      s.data_.data_.length = 8 ∧ s.contains 0 = false ∧ ∃ s' effect,
        s.step id (.insert (.object 90)) = some (s', .inserted 8 effect) ∧
        effect.allocated = some 16) ∧
    (create (some 4) : SlotMap Nat).data_.data_.length = 4 ∧
    ∃ s' effect, (create (some 4) : SlotMap Nat).step id (.insert (.object 50)) =
      some (s', .inserted 0 effect) ∧ effect.allocated = some 1 := by
  constructor
  · have computed : ((replay (labelled (step id)) AnyOrder (create none : SlotMap Nat) []
        [.resize 4, .resize 8, .insert (.object 50), .insert (.object 60), .insert (.object 70),
          .insert (.object 80)]).bind fun (s, _) =>
          (s.insert id (.object 90)).map fun (index, _, effect) => decide
            (s.data_.data_.length = 8 ∧ s.contains 0 = false ∧ index = 8 ∧
              effect.allocated = some 16)) = some true := by
      decide
    obtain ⟨⟨s,log⟩,played,rest⟩ := Option.bind_eq_some_iff.mp computed
    obtain ⟨⟨index,s',effect⟩,inserted,facts⟩ := Option.map_eq_some_iff.mp rest
    obtain ⟨slots,dead,rfl,allocated⟩ := of_decide_eq_true facts
    exact ⟨s,log,replay_run .nil played,slots,dead,s',effect,
      by simp [step, VectorMap.bound, Args.own, inserted],allocated⟩
  · have computed : ((create (some 4) : SlotMap Nat).insert id (.object 50)).map
        (fun (index, _, effect) => decide (index = 0 ∧ effect.allocated = some 1)) = some true := by
      decide
    obtain ⟨⟨index,s',effect⟩,inserted,facts⟩ := Option.map_eq_some_iff.mp computed
    obtain ⟨rfl,allocated⟩ := of_decide_eq_true facts
    exact ⟨rfl,s',effect,by simp [step, VectorMap.bound, Args.own, inserted],allocated⟩

end SlotMap
end Aiopp
