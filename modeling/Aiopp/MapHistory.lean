import Aiopp.CompleterMap

/-!
Whole histories of a completer map. The abstract side is the history itself:
a key's value is the one of its latest insert that no remove has followed.
-/
namespace Aiopp
namespace CompleterMap

inductive MapOp where
  | insert : UInt64 → UInt64 → MapOp
  | get : UInt64 → MapOp
  | remove : UInt64 → MapOp
  deriving DecidableEq, Repr

/-- The returned pointer, or nothing where the call returns void. -/
def apply (m : CompleterMap) : MapOp → Option (CompleterMap × Option UInt64)
  | .insert key value => (m.insert key value).map fun m' => (m', none)
  | .get key => some (m, some (m.get key))
  | .remove key => some ((m.remove key).2, some (m.remove key).1)

def run (m : CompleterMap) : List MapOp → Option (CompleterMap × List (Option UInt64))
  | [] => some (m, [])
  | op :: ops =>
    (m.apply op).bind fun (m', answer) =>
      (run m' ops).map fun (m'', answers) => (m'', answer :: answers)

def runFrom (num : UInt64) (ops : List MapOp) : Option (CompleterMap × List (Option UInt64)) :=
  (create num).bind fun m => m.run ops

/-- The value of the latest insert not removed since. The newest operation comes first. -/
def latest (key : UInt64) : List MapOp → Option UInt64
  | [] => none
  | .insert k value :: older => if k = key then some value else latest key older
  | .get _ :: older => latest key older
  | .remove k :: older => if k = key then none else latest key older

def Allowed (older : List MapOp) : MapOp → Prop
  | .insert key value => latest key older = none ∧ value ≠ Empty ∧ value ≠ Tombstone
  | _ => True

def Disciplined (older : List MapOp) : List MapOp → Prop
  | [] => True
  | op :: ops => Allowed older op ∧ Disciplined (op :: older) ops

def answer (older : List MapOp) : MapOp → Option UInt64
  | .insert _ _ => none
  | .get key => some ((latest key older).getD Empty)
  | .remove key => some ((latest key older).getD Empty)

def answers (older : List MapOp) : List MapOp → List (Option UInt64)
  | [] => []
  | op :: ops => answer older op :: answers (op :: older) ops

instance (older : List MapOp) : (op : MapOp) → Decidable (Allowed older op)
  | .insert _ _ => inferInstanceAs (Decidable (_ ∧ _ ∧ _))
  | .get _ | .remove _ => isTrue trivial

instance decidableDisciplined : (older ops : List MapOp) → Decidable (Disciplined older ops)
  | _, [] => isTrue trivial
  | older, op :: ops =>
    have := decidableDisciplined (op :: older) ops
    inferInstanceAs (Decidable (Allowed older op ∧ Disciplined (op :: older) ops))

theorem latest_insert (key value : UInt64) (older : List MapOp) :
    (fun k => latest k (.insert key value :: older)) =
      Function.update (fun k => latest k older) key (some value) := by
  funext k
  simp only [latest, Function.update_apply, eq_comm]

theorem latest_remove (key : UInt64) (older : List MapOp) :
    (fun k => latest k (.remove key :: older)) =
      Function.update (fun k => latest k older) key none := by
  funext k
  simp only [latest, Function.update_apply, eq_comm]

theorem apply_represents {m m' : CompleterMap} {older : List MapOp} {op : MapOp}
    {result : Option UInt64} (rep : Represents m fun k => latest k older)
    (allowed : Allowed older op) (step : m.apply op = some (m', result)) :
    result = answer older op ∧ Represents m' fun k => latest k (op :: older) := by
  cases op with
  | insert key value =>
    obtain ⟨m₁,inserted,eq⟩ := Option.map_eq_some_iff.mp step
    cases eq
    refine ⟨rfl,?_⟩
    rw [latest_insert]
    exact represents_insert rep allowed.1 allowed.2.1 allowed.2.2 inserted
  | get key =>
    cases step
    exact ⟨congrArg some (represents_get rep key),rep⟩
  | remove key =>
    cases step
    have removed := represents_remove rep key
    refine ⟨congrArg some removed.1,?_⟩
    rw [latest_remove]
    exact removed.2

/-- Induction over the remaining operations; the history already made is carried along. -/
theorem run_represents {ops older : List MapOp} {m m' : CompleterMap}
    {results : List (Option UInt64)} (rep : Represents m fun k => latest k older)
    (disciplined : Disciplined older ops) (ran : m.run ops = some (m', results)) :
    results = answers older ops ∧ Represents m' fun k => latest k (ops.reverse ++ older) := by
  induction ops generalizing older m results with
  | nil =>
    cases ran
    exact ⟨rfl,rep⟩
  | cons op ops ih =>
    obtain ⟨⟨m₁,result⟩,step,rest⟩ := Option.bind_eq_some_iff.mp ran
    obtain ⟨⟨m₂,tail⟩,more,eq⟩ := Option.map_eq_some_iff.mp rest
    cases eq
    obtain ⟨here,rep₁⟩ := apply_represents rep disciplined.1 step
    obtain ⟨later,rep₂⟩ := ih rep₁ disciplined.2 more
    exact ⟨by simp [answers, here, later],by simpa using rep₂⟩

theorem runFrom_represents {num : UInt64} {ops : List MapOp} {m : CompleterMap}
    {results : List (Option UInt64)} (disciplined : Disciplined [] ops)
    (ran : runFrom num ops = some (m, results)) :
    results = answers [] ops ∧ Represents m fun k => latest k ops.reverse := by
  obtain ⟨m₀,made,rest⟩ := Option.bind_eq_some_iff.mp ran
  simpa using run_represents (create_represents made) disciplined rest

/-- Every history without an aborting insert behaves as a finite partial map:
    all answers, the effect of one more remove on every key, and the size. -/
theorem history_refines_partial_map {num : UInt64} {ops : List MapOp} {m : CompleterMap}
    {results : List (Option UInt64)} (disciplined : Disciplined [] ops)
    (ran : runFrom num ops = some (m, results)) :
    results = answers [] ops ∧
    (∀ key, m.get key = (latest key ops.reverse).getD Empty) ∧
    (∀ key, (m.remove key).1 = (latest key ops.reverse).getD Empty ∧
      (m.remove key).2.get key = Empty ∧
      ∀ other, other ≠ key → (m.remove key).2.get other = m.get other) ∧
    (∀ key, latest key ops.reverse = none → m.remove key = (Empty, m)) ∧
    m.size.toNat = {key | (latest key ops.reverse).isSome}.ncard ∧
    (∀ num' ops' m' results', Disciplined [] ops' → runFrom num' ops' = some (m', results') →
      (∀ key, latest key ops'.reverse = latest key ops.reverse) →
      (∀ key, m'.get key = m.get key ∧ (m'.remove key).1 = (m.remove key).1) ∧
        m'.size = m.size) := by
  obtain ⟨exact_answers,rep⟩ := runFrom_represents disciplined ran
  refine ⟨exact_answers,represents_get rep,?_,?_,represents_size rep,?_⟩
  · intro key
    have removed := represents_remove rep key
    refine ⟨removed.1,?_,?_⟩
    · rw [represents_get removed.2, Function.update_self]
      rfl
    · intro other apart
      rw [represents_get removed.2, represents_get rep, Function.update_of_ne apart]
  · intro key absent
    exact represents_remove_absent rep absent
  · intro num' ops' m' results' disciplined' ran' same
    have rep' := (runFrom_represents disciplined' ran').2
    refine ⟨fun key => ⟨?_,?_⟩,?_⟩
    · rw [represents_get rep', represents_get rep, same]
    · rw [(represents_remove rep' key).1, (represents_remove rep key).1, same]
    · apply UInt64.toNat_inj.mp
      rw [represents_size rep', represents_size rep]
      simp only [same]

theorem colliding_history_refines :
    ∃ m results,
      runFrom 0 [.insert 0 8, .insert 53 16, .remove 0, .get 53] = some (m, results) ∧
      results = [none, none, some 8, some 16] ∧ m.get 53 = 16 ∧ m.get 0 = 0 := by
  have ran : (runFrom 0 [.insert 0 8, .insert 53 16, .remove 0, .get 53]).isSome := by
    decide +kernel
  obtain ⟨⟨m,results⟩,eq⟩ := Option.isSome_iff_exists.mp ran
  obtain ⟨all,gets,_⟩ := history_refines_partial_map (by decide) eq
  exact ⟨m,results,eq,all,gets 53,gets 0⟩

end CompleterMap
end Aiopp
