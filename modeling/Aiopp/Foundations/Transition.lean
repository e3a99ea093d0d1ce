import Mathlib.Algebra.GroupWithZero.Nat
import Mathlib.Data.List.Basic

/-!
Labelled step functions and their finite runs. A policy restricts which actions
the surroundings take, from the state and the log so far. Logs are newest first.
-/
namespace Transition
variable {S A E : Type}

inductive Run (step : S → A → Option (S × E)) (policy : S → List E → A → Prop) (start : S) :
    S → List E → Prop where
  | nil : Run step policy start start []
  | next {s s' : S} {log : List E} {a : A} {e : E} (run : Run step policy start s log)
      (allowed : policy s log a) (taken : step s a = some (s', e)) :
      Run step policy start s' (e :: log)

variable {step : S → A → Option (S × E)} {policy : S → List E → A → Prop} {start s : S}
  {log : List E}

theorem Run.invariant (run : Run step policy start s log) (inv : S → List E → Prop)
    (base : inv start [])
    (keep : ∀ s log a s' e, inv s log → policy s log a → step s a = some (s', e) →
      inv s' (e :: log)) : inv s log := by
  induction run with
  | nil => exact base
  | next run allowed taken ih => exact keep _ _ _ _ _ ih allowed taken

theorem Run.relax {wider : S → List E → A → Prop} (run : Run step policy start s log)
    (covers : ∀ s log a, policy s log a → wider s log a) : Run step wider start s log := by
  induction run with
  | nil => exact .nil
  | next run allowed taken ih => exact .next ih (covers _ _ _ allowed) taken

theorem Run.relax_within {wider : S → List E → A → Prop} (inv : S → List E → Prop)
    (run : Run step policy start s log) (base : inv start [])
    (keep : ∀ s log a s' e, inv s log → policy s log a → step s a = some (s', e) →
      inv s' (e :: log))
    (covers : ∀ s log a, inv s log → policy s log a → wider s log a) :
    Run step wider start s log := by
  induction run with
  | nil => exact .nil
  | next run allowed taken ih =>
    exact .next ih (covers _ _ _ (run.invariant inv base keep) allowed) taken

theorem Run.before {later earlier : List E} (run : Run step policy start s (later ++ earlier)) :
    ∃ s', Run step policy start s' earlier := by
  induction later generalizing s with
  | nil => exact ⟨s,run⟩
  | cons e later ih =>
    cases run with
    | next run allowed taken => exact ih run

/-- A policy that does not look at the log does not mind where a run began. -/
theorem Run.append {policy : S → A → Prop} {middle : S} {earlier later : List E}
    (first : Run step (fun s _ a => policy s a) start middle earlier)
    (second : Run step (fun s _ a => policy s a) middle s later) :
    Run step (fun s _ a => policy s a) start s (later ++ earlier) := by
  induction second with
  | nil => exact first
  | next run allowed taken ih => exact .next ih allowed taken

theorem Run.accounts (due : S → Nat) (spent : E → Nat)
    (each : ∀ s log a s' e, policy s log a → step s a = some (s', e) → spent e + due s' = due s)
    (run : Run step policy start s log) : (log.map spent).sum + due s = due start := by
  induction run with
  | nil => simp
  | next run allowed taken ih =>
    have one := each _ _ _ _ _ allowed taken
    rw [List.map_cons, List.sum_cons]
    omega

/-- A system that can always get nearer to its end, by a measure, can be brought to it. -/
theorem Run.finishes {policy : S → A → Prop} (inv : S → List E → Prop) (measure : S → List E → Nat)
    (finished : S → Prop)
    (nearer : ∀ s log, inv s log → ¬ finished s → ∃ more s',
      Run step (fun s _ a => policy s a) s s' more ∧ inv s' (more ++ log) ∧
        measure s' (more ++ log) < measure s log)
    {s : S} {log : List E} (holds : inv s log) : ∃ more s',
      Run step (fun s _ a => policy s a) s s' more ∧ inv s' (more ++ log) ∧ finished s' := by
  induction left : measure s log using Nat.strongRecOn generalizing s log with
  | ind n ih =>
    by_cases done : finished s
    · exact ⟨[],s,.nil,holds,done⟩
    · obtain ⟨more,s',run,next,less⟩ := nearer s log holds done
      obtain ⟨later,final,rest,kept,stopped⟩ := ih _ (left ▸ less) next rfl
      rw [← List.append_assoc] at kept
      exact ⟨later ++ more,final,run.append rest,kept,stopped⟩

/-- Where every step spends some of a measure, a run is no longer than what it has spent. -/
theorem Run.spends {policy : S → A → Prop} (inv : S → List E → Prop) (measure : S → Nat)
    (spends : ∀ s log a s' e, inv s log → policy s a → step s a = some (s', e) →
      inv s' (e :: log) ∧ measure s' < measure s)
    {s final : S} {log more : List E} (holds : inv s log)
    (run : Run step (fun s _ a => policy s a) s final more) :
    inv final (more ++ log) ∧ more.length + measure final ≤ measure s := by
  induction run with
  | nil => exact ⟨holds,by simp⟩
  | next run allowed taken ih =>
    obtain ⟨kept,bound⟩ := ih
    obtain ⟨next,less⟩ := spends _ _ _ _ _ kept allowed taken
    refine ⟨next,?_⟩
    rw [List.length_cons]
    omega

/-- Where every step spends some of a measure and there is one before the end, the end is
    reached. -/
theorem Run.comes_to_rest {policy : S → A → Prop} (inv : S → List E → Prop) (measure : S → Nat)
    (finished : S → Prop)
    (spends : ∀ s log a s' e, inv s log → policy s a → step s a = some (s', e) →
      inv s' (e :: log) ∧ measure s' < measure s)
    (moves : ∀ s log, inv s log → ¬ finished s →
      ∃ a s' e, policy s a ∧ step s a = some (s', e))
    {s : S} {log : List E} (holds : inv s log) : ∃ more final,
      Run step (fun s _ a => policy s a) s final more ∧ inv final (more ++ log) ∧
        finished final := by
  refine Run.finishes inv (fun s _ => measure s) finished ?_ holds
  intro s log holds unfinished
  obtain ⟨a,s',e,allowed,taken⟩ := moves s log holds unfinished
  obtain ⟨next,less⟩ := spends s log a s' e holds allowed taken
  exact ⟨[e],s',.next .nil allowed taken,next,less⟩

theorem Run.split {later earlier : List E} {e : E}
    (run : Run step policy start s (later ++ e :: earlier)) :
    ∃ before a after, Run step policy start before earlier ∧ policy before earlier a ∧
      step before a = some (after, e) ∧ Run step policy start after (e :: earlier) := by
  induction later generalizing s with
  | nil =>
    cases run with
    | next run allowed taken => exact ⟨_,_,_,run,allowed,taken,.next run allowed taken⟩
  | cons f later ih =>
    cases run with
    | next run allowed taken => exact ih run

/-- The same steps, logged together with the action that was taken. -/
def labelled (step : S → A → Option (S × E)) (s : S) (a : A) : Option (S × (A × E)) :=
  (step s a).map fun (s', e) => (s', (a, e))

def byEvents (policy : S → List E → A → Prop) (s : S) (log : List (A × E)) (a : A) : Prop :=
  policy s (log.map Prod.snd) a

instance [∀ s log a, Decidable (policy s log a)] (s : S) (log : List (A × E)) (a : A) :
    Decidable (byEvents policy s log a) :=
  inferInstanceAs (Decidable (policy s (log.map Prod.snd) a))

theorem labelled_eq_some {s s' : S} {a : A} {entry : A × E} :
    labelled step s a = some (s', entry) ↔ ∃ e, entry = (a, e) ∧ step s a = some (s', e) := by
  unfold labelled
  rw [Option.map_eq_some_iff]
  constructor
  · rintro ⟨⟨s₁,e⟩,taken,eq⟩
    cases eq
    exact ⟨e,rfl,taken⟩
  · rintro ⟨e,rfl,taken⟩
    exact ⟨(s', e),taken,rfl⟩

theorem Run.events {log : List (A × E)}
    (run : Run (labelled step) (byEvents policy) start s log) :
    Run step policy start s (log.map Prod.snd) := by
  induction run with
  | nil => exact .nil
  | next run allowed taken ih =>
    obtain ⟨e,rfl,stepped⟩ := labelled_eq_some.mp taken
    exact .next ih allowed stepped

theorem Run.labelled_invariant {policy : S → List (A × E) → A → Prop} {log : List (A × E)}
    (run : Run (labelled step) policy start s log) (inv : S → List (A × E) → Prop)
    (base : inv start [])
    (keep : ∀ s log a s' e, inv s log → policy s log a → step s a = some (s', e) →
      inv s' ((a, e) :: log)) : inv s log := by
  apply run.invariant inv base
  intro s log a s' entry holds allowed taken
  obtain ⟨e,rfl,stepped⟩ := labelled_eq_some.mp taken
  exact keep s log a s' e holds allowed stepped

theorem labelled_unique {policy : S → List (A × E) → A → Prop} {s' : S} {log : List (A × E)}
    (run : Run (labelled step) policy start s log)
    (run' : Run (labelled step) policy start s' log) : s = s' := by
  induction log generalizing s s' with
  | nil =>
    cases run
    cases run'
    rfl
  | cons entry log ih =>
    cases run with
    | next run _ taken =>
      cases run' with
      | next run' _ taken' =>
        obtain ⟨e,rfl,stepped⟩ := labelled_eq_some.mp taken
        obtain ⟨e',same,stepped'⟩ := labelled_eq_some.mp taken'
        cases same
        rw [ih run run', stepped'] at stepped
        exact (Prod.mk.inj (Option.some.inj stepped)).1.symm

/-- A property of every moment of a run. -/
def Throughout (step : S → A → Option (S × E)) (policy : S → List E → A → Prop) (start : S)
    (good : S → List E → Prop) (log : List E) : Prop :=
  ∀ later earlier s, log = later ++ earlier → Run step policy start s earlier → good s earlier

/-- Where every step keeps the invariant or breaks the property, the property holds at every
    moment exactly in the runs whose steps all keep the invariant. -/
theorem throughout_iff (keeps : S → List E → A → Prop) (inv good : S → List E → Prop)
    (unique : ∀ s s' log, Run step policy start s log → Run step policy start s' log → s = s')
    (base : inv start []) (sound : ∀ s log, inv s log → good s log)
    (kept : ∀ s log a s' e, inv s log → policy s log a → keeps s log a →
      step s a = some (s', e) → inv s' (e :: log))
    (broken : ∀ s log a s' e, inv s log → policy s log a → ¬ keeps s log a →
      step s a = some (s', e) → ¬ good s' (e :: log))
    (run : Run step policy start s log) :
    Throughout step policy start good log ↔
      Run step (fun s log a => policy s log a ∧ keeps s log a) start s log := by
  have invariant : ∀ s log, Run step (fun s log a => policy s log a ∧ keeps s log a) start s log →
      inv s log := by
    intro s log run
    refine run.invariant inv base ?_
    intro s log a s' e holds allowed taken
    exact kept s log a s' e holds allowed.1 allowed.2 taken
  constructor
  · intro always
    induction run with
    | nil => exact .nil
    | next run allowed taken ih =>
      rename_i before after earlier a e
      have prior : Throughout step policy start good earlier := by
        intro later rest s split first
        exact always (e :: later) rest s (by rw [split, List.cons_append]) first
      have careful := ih prior
      refine .next careful ⟨allowed,?_⟩ taken
      by_contra careless
      refine broken before earlier a after e (invariant _ _ careful) allowed careless taken ?_
      exact always [] (e :: earlier) after rfl (.next run allowed taken)
  · intro careful later earlier s' split first
    rw [split] at careful
    obtain ⟨before,prefix_run⟩ := careful.before
    have same := unique _ _ _ first (prefix_run.relax fun _ _ _ allowed => allowed.1)
    rw [same]
    exact sound _ _ (invariant _ _ prefix_run)

theorem labelled_throughout_iff {policy : S → List (A × E) → A → Prop} {log : List (A × E)}
    (keeps : S → List (A × E) → A → Prop) (inv good : S → List (A × E) → Prop)
    (base : inv start []) (sound : ∀ s log, inv s log → good s log)
    (kept : ∀ s log a s' e, inv s log → policy s log a → keeps s log a →
      step s a = some (s', e) → inv s' ((a, e) :: log))
    (broken : ∀ s log a s' e, inv s log → policy s log a → ¬ keeps s log a →
      step s a = some (s', e) → ¬ good s' ((a, e) :: log))
    (run : Run (labelled step) policy start s log) :
    Throughout (labelled step) policy start good log ↔
      Run (labelled step) (fun s log a => policy s log a ∧ keeps s log a) start s log := by
  apply throughout_iff keeps inv good (fun _ _ _ => labelled_unique) base sound
  · intro s log a s' entry holds allowed careful taken
    obtain ⟨e,rfl,stepped⟩ := labelled_eq_some.mp taken
    exact kept s log a s' e holds allowed careful stepped
  · intro s log a s' entry holds allowed careless taken
    obtain ⟨e,rfl,stepped⟩ := labelled_eq_some.mp taken
    exact broken s log a s' e holds allowed careless stepped
  · exact run

/-- Executes a list of actions, refusing one that the policy forbids. -/
def replay (step : S → A → Option (S × E)) (policy : S → List E → A → Prop)
    [∀ s log a, Decidable (policy s log a)] (s : S) (log : List E) :
    List A → Option (S × List E)
  | [] => some (s, log)
  | a :: rest =>
    if policy s log a then
      match step s a with
      | none => none
      | some (s', e) => replay step policy s' (e :: log) rest
    else none

theorem replay_run_within {wider : S → List E → A → Prop}
    [∀ s log a, Decidable (policy s log a)] {actions : List A} {s' : S} {log' : List E}
    (covers : ∀ s log a, policy s log a → wider s log a) (run : Run step wider start s log)
    (done : replay step policy s log actions = some (s', log')) :
    Run step wider start s' log' := by
  induction actions generalizing s log with
  | nil =>
    cases done
    exact run
  | cons a rest ih =>
    simp only [replay] at done
    split at done
    · rename_i allowed
      split at done
      · simp at done
      · rename_i taken
        exact ih (.next run (covers _ _ _ allowed) taken) done
    · simp at done

theorem replay_run [∀ s log a, Decidable (policy s log a)] {actions : List A} {s' : S}
    {log' : List E} (run : Run step policy start s log)
    (done : replay step policy s log actions = some (s', log')) :
    Run step policy start s' log' :=
  replay_run_within (fun _ _ _ allowed => allowed) run done

theorem replay_reaches {B : Type*} [∀ s log a, Decidable (policy s log a)] {actions : List A}
    {found : S × List E → B} {seen : B}
    (computed : (replay step policy start [] actions).map found = some seen) :
    ∃ s log, Run step policy start s log ∧ found (s, log) = seen := by
  obtain ⟨⟨s,log⟩,played,facts⟩ := Option.map_eq_some_iff.mp computed
  exact ⟨s,log,replay_run .nil played,facts⟩

def Follows {T B : Type} (step : S → A → Option (S × E)) (step' : T → B → Option (T × E))
    (name : A → B) (related : S → T → Prop) : Prop :=
  ∀ s t a s' e, related s t → step s a = some (s', e) →
    ∃ t', step' t (name a) = some (t', e) ∧ related s' t'

theorem Follows.run {T B : Type} {step' : T → B → Option (T × E)} {name : A → B} {start' : T}
    {related : S → T → Prop} {policy : S → List (A × E) → A → Prop} {log : List (A × E)}
    (follows : Follows step step' name related) (first : related start start')
    (run : Run (labelled step) policy start s log) :
    ∃ t, Run (labelled step') (fun _ _ _ => True) start' t
      (log.map fun entry => (name entry.1, entry.2)) ∧ related s t := by
  induction run with
  | nil => exact ⟨start',.nil,first⟩
  | next run allowed taken ih =>
    obtain ⟨t,followed,both⟩ := ih
    obtain ⟨e,rfl,stepped⟩ := labelled_eq_some.mp taken
    obtain ⟨t',there,next⟩ := follows _ t _ _ e both stepped
    exact ⟨t',.next followed trivial (labelled_eq_some.mpr ⟨e,rfl,there⟩),next⟩

section LockStep
variable {T : Type} {step' : T → A → Option (T × E)} {start' t : T} {related : S → T → Prop}

/-- From related states an action is refused by both, or taken by both with the same event. -/
def LockStep (step : S → A → Option (S × E)) (step' : T → A → Option (T × E))
    (related : S → T → Prop) : Prop :=
  ∀ s t a, related s t → (step s a = none ∧ step' t a = none) ∨
    ∃ s' t' e, step s a = some (s', e) ∧ step' t a = some (t', e) ∧ related s' t'

theorem LockStep.symm (lock : LockStep step step' related) :
    LockStep step' step fun t s => related s t := by
  intro t s a both
  rcases lock s t a both with ⟨refused,refused'⟩ | ⟨s',t',e,taken,taken',after⟩
  · exact .inl ⟨refused',refused⟩
  · exact .inr ⟨t',s',e,taken',taken,after⟩

theorem LockStep.follow {policy : List (A × E) → A → Prop} {log : List (A × E)}
    (lock : LockStep step step' related) (first : related start start')
    (run : Run (labelled step) (fun _ => policy) start s log) :
    ∃ t, Run (labelled step') (fun _ => policy) start' t log ∧ related s t := by
  induction run with
  | nil => exact ⟨start',.nil,first⟩
  | next run allowed taken ih =>
    rename_i before after earlier a entry
    obtain ⟨t,followed,both⟩ := ih
    obtain ⟨e,rfl,stepped⟩ := labelled_eq_some.mp taken
    rcases lock before t a both with ⟨refused,_⟩ | ⟨s',t',e',here,there,next⟩
    · rw [refused] at stepped
      contradiction
    · obtain ⟨rfl,rfl⟩ := Prod.mk.inj (Option.some.inj (here.symm.trans stepped))
      exact ⟨t',.next followed allowed (labelled_eq_some.mpr ⟨e',rfl,there⟩),next⟩

/-- Systems in lock step have the same runs, and are in related states after each of them. -/
theorem LockStep.same_runs (lock : LockStep step step' related) (first : related start start')
    (policy : List (A × E) → A → Prop) (log : List (A × E)) :
    ((∃ s, Run (labelled step) (fun _ => policy) start s log) ↔
        ∃ t, Run (labelled step') (fun _ => policy) start' t log) ∧
      ∀ s t, Run (labelled step) (fun _ => policy) start s log →
        Run (labelled step') (fun _ => policy) start' t log → related s t := by
  refine ⟨⟨?_,?_⟩,?_⟩
  · rintro ⟨s,run⟩
    obtain ⟨t,followed,_⟩ := lock.follow first run
    exact ⟨t,followed⟩
  · rintro ⟨t,run⟩
    obtain ⟨s,followed,_⟩ := lock.symm.follow first run
    exact ⟨s,followed⟩
  · intro s t run run'
    obtain ⟨t',followed,both⟩ := lock.follow first run
    rw [labelled_unique run' followed]
    exact both

end LockStep

end Transition
