import Mathlib.Data.List.Basic

/-!
Programs that ask questions and call subprograms, evaluated in direct style, and
what is left of an evaluation when it is interrupted: a point of focus and the
continuations that wait for it. A program is a set of points with the instruction
at each of them, so loops and unbounded recursion are included.
-/
namespace DirectStyle

inductive Instr (Q A V L : Type) where
  | ret (v : V)
  | ask (q : Q) (k : A → L)
  | call (task : L) (k : V → L)

inductive Obs (Q V : Type) where
  | asked (q : Q)
  | called
  | handed (v : V)
  deriving DecidableEq, Repr

inductive Outcome (A V : Type) where
  | waiting
  | done (v : V) (rest : List A)
  deriving DecidableEq, Repr

variable {Q A V L : Type} {code : L → Instr Q A V L}

/-- Direct-style evaluation from a point, with the answers to its questions in order. -/
inductive Direct (code : L → Instr Q A V L) :
    L → List A → List (Obs Q V) → Outcome A V → Prop where
  | ret {l : L} {v : V} (here : code l = .ret v) (answers : List A) :
      Direct code l answers [] (.done v answers)
  | wait {l : L} {q : Q} {k : A → L} (here : code l = .ask q k) :
      Direct code l [] [.asked q] .waiting
  | ask {l : L} {q : Q} {k : A → L} {a : A} {answers : List A} {tr : List (Obs Q V)}
      {o : Outcome A V} (here : code l = .ask q k) (rest : Direct code (k a) answers tr o) :
      Direct code l (a :: answers) (.asked q :: tr) o
  | callWaits {l task : L} {k : V → L} {answers : List A} {tr : List (Obs Q V)}
      (here : code l = .call task k) (inner : Direct code task answers tr .waiting) :
      Direct code l answers (.called :: tr) .waiting
  | call {l task : L} {k : V → L} {answers left : List A} {tr tr' : List (Obs Q V)} {v : V}
      {o : Outcome A V} (here : code l = .call task k)
      (inner : Direct code task answers tr (.done v left)) (rest : Direct code (k v) left tr' o) :
      Direct code l answers (.called :: (tr ++ .handed v :: tr')) o

inductive Focus (A V L : Type) where
  | point (l : L)
  | asked (k : A → L)
  | returning (v : V)

inductive Eval (code : L → Instr Q A V L) :
    Focus A V L → List A → List (Obs Q V) → Outcome A V → Prop where
  | point {l : L} {answers : List A} {tr : List (Obs Q V)} {o : Outcome A V}
      (direct : Direct code l answers tr o) : Eval code (.point l) answers tr o
  | unanswered (k : A → L) : Eval code (.asked k) [] [] .waiting
  | answered {k : A → L} {a : A} {answers : List A} {tr : List (Obs Q V)} {o : Outcome A V}
      (direct : Direct code (k a) answers tr o) : Eval code (.asked k) (a :: answers) tr o
  | returning (v : V) (answers : List A) : Eval code (.returning v) answers [] (.done v answers)

/-- The focus, and after it the continuations that wait for its result. -/
inductive Residual (code : L → Instr Q A V L) :
    Focus A V L → List (V → L) → List A → List (Obs Q V) → Outcome A V → Prop where
  | waits {f : Focus A V L} {answers : List A} {tr : List (Obs Q V)} (ks : List (V → L))
      (eval : Eval code f answers tr .waiting) : Residual code f ks answers tr .waiting
  | done {f : Focus A V L} {answers left : List A} {tr : List (Obs Q V)} {v : V}
      (eval : Eval code f answers tr (.done v left)) :
      Residual code f [] answers tr (.done v left)
  | hand {f : Focus A V L} {k : V → L} {ks : List (V → L)} {answers left : List A}
      {tr tr' : List (Obs Q V)} {v : V} {o : Outcome A V}
      (eval : Eval code f answers tr (.done v left))
      (rest : Residual code (.point (k v)) ks left tr' o) :
      Residual code f (k :: ks) answers (tr ++ .handed v :: tr') o

theorem residual_start {l : L} {answers : List A} {tr : List (Obs Q V)} {o : Outcome A V} :
    Residual code (.point l) [] answers tr o ↔ Direct code l answers tr o := by
  constructor
  · intro residual
    cases residual with
    | waits ks eval =>
      cases eval with
      | point direct => exact direct
    | done eval =>
      cases eval with
      | point direct => exact direct
  · intro direct
    cases o with
    | waiting => exact .waits [] (.point direct)
    | done v left => exact .done (.point direct)

theorem residual_mono {f g : Focus A V L} {ks : List (V → L)} {answers : List A}
    {answers' : List A} {tr : List (Obs Q V)} {o : Outcome A V} (pre : List (Obs Q V))
    (eval : ∀ tr o, Eval code f answers tr o → Eval code g answers' (pre ++ tr) o)
    (residual : Residual code f ks answers tr o) : Residual code g ks answers' (pre ++ tr) o := by
  cases residual with
  | waits ks inner => exact .waits ks (eval _ _ inner)
  | done inner => exact .done (eval _ _ inner)
  | hand inner rest =>
    rw [← List.append_assoc]
    exact .hand (eval _ _ inner) rest

section Steps
variable {l : L} {ks : List (V → L)} {answers : List A} {tr : List (Obs Q V)} {o : Outcome A V}

theorem residual_ret {v : V} (here : code l = .ret v) :
    Residual code (.point l) ks answers tr o ↔ Residual code (.returning v) ks answers tr o := by
  constructor
  · intro residual
    refine residual_mono [] ?_ residual
    intro tr o eval
    cases eval with
    | point direct =>
      cases direct with
      | ret there =>
        obtain rfl := Instr.ret.inj (here.symm.trans there)
        exact .returning _ _
      | wait there => simp [here] at there
      | ask there => simp [here] at there
      | callWaits there => simp [here] at there
      | call there => simp [here] at there
  · intro residual
    refine residual_mono [] ?_ residual
    intro tr o eval
    cases eval with
    | returning => exact .point (.ret here _)

theorem residual_ask {q : Q} {k : A → L} (here : code l = .ask q k) :
    Residual code (.point l) ks answers tr o ↔
      ∃ tr', tr = .asked q :: tr' ∧ Residual code (.asked k) ks answers tr' o := by
  have split : ∀ tr o, Eval code (.point l) answers tr o →
      ∃ tr', tr = .asked q :: tr' ∧ Eval code (.asked k) answers tr' o := by
    intro tr o eval
    cases eval with
    | point direct =>
      cases direct with
      | wait there =>
        obtain ⟨rfl,rfl⟩ := Instr.ask.inj (here.symm.trans there)
        exact ⟨[],rfl,.unanswered _⟩
      | ask there rest =>
        obtain ⟨rfl,rfl⟩ := Instr.ask.inj (here.symm.trans there)
        exact ⟨_,rfl,.answered rest⟩
      | ret there => simp [here] at there
      | callWaits there => simp [here] at there
      | call there => simp [here] at there
  constructor
  · intro residual
    cases residual with
    | waits ks eval =>
      obtain ⟨tr',rfl,inner⟩ := split _ _ eval
      exact ⟨tr',rfl,.waits ks inner⟩
    | done eval =>
      obtain ⟨tr',rfl,inner⟩ := split _ _ eval
      exact ⟨tr',rfl,.done inner⟩
    | hand eval rest =>
      obtain ⟨tr',rfl,inner⟩ := split _ _ eval
      exact ⟨_,rfl,.hand inner rest⟩
  · rintro ⟨tr',rfl,residual⟩
    refine residual_mono [.asked q] ?_ residual
    intro tr o eval
    cases eval with
    | unanswered => exact .point (.wait here)
    | answered direct => exact .point (.ask here direct)

theorem residual_answer {k : A → L} {a : A} :
    Residual code (.asked k) ks (a :: answers) tr o ↔
      Residual code (.point (k a)) ks answers tr o := by
  constructor
  · intro residual
    refine residual_mono [] ?_ residual
    intro tr o eval
    cases eval with
    | answered direct => exact .point direct
  · intro residual
    refine residual_mono [] ?_ residual
    intro tr o eval
    cases eval with
    | point direct => exact .answered direct

theorem residual_suspended {k : A → L} :
    Residual code (.asked k) ks [] tr o ↔ tr = [] ∧ o = .waiting := by
  constructor
  · intro residual
    cases residual with
    | waits ks eval =>
      cases eval with
      | unanswered => exact ⟨rfl,rfl⟩
    | done eval => cases eval
    | hand eval rest => cases eval
  · rintro ⟨rfl,rfl⟩
    exact .waits ks (.unanswered k)

/-- A call pushes its continuation; the callee's own evaluation comes first. -/
theorem residual_call {task : L} {k : V → L} (here : code l = .call task k) :
    Residual code (.point l) ks answers tr o ↔
      ∃ tr', tr = .called :: tr' ∧ Residual code (.point task) (k :: ks) answers tr' o := by
  constructor
  · intro residual
    have inverted : ∀ tr o, Direct code l answers tr o →
        (∃ tr', tr = .called :: tr' ∧ o = .waiting ∧ Direct code task answers tr' .waiting) ∨
        (∃ tr₁ tr₂ v left, tr = .called :: (tr₁ ++ .handed v :: tr₂) ∧
          Direct code task answers tr₁ (.done v left) ∧ Direct code (k v) left tr₂ o) := by
      intro tr o direct
      cases direct with
      | callWaits there inner =>
        obtain ⟨rfl,rfl⟩ := Instr.call.inj (here.symm.trans there)
        exact .inl ⟨_,rfl,rfl,inner⟩
      | call there inner rest =>
        obtain ⟨rfl,rfl⟩ := Instr.call.inj (here.symm.trans there)
        exact .inr ⟨_,_,_,_,rfl,inner,rest⟩
      | ret there => simp [here] at there
      | wait there => simp [here] at there
      | ask there => simp [here] at there
    cases residual with
    | waits ks eval =>
      cases eval with
      | point direct =>
        rcases inverted _ _ direct with ⟨tr',rfl,_,inner⟩ | ⟨tr₁,tr₂,v,left,rfl,inner,rest⟩
        · exact ⟨tr',rfl,.waits _ (.point inner)⟩
        · exact ⟨_,rfl,.hand (.point inner) (.waits ks (.point rest))⟩
    | done eval =>
      cases eval with
      | point direct =>
        rcases inverted _ _ direct with ⟨tr',_,impossible,_⟩ | ⟨tr₁,tr₂,v,left,rfl,inner,rest⟩
        · simp at impossible
        · exact ⟨_,rfl,.hand (.point inner) (.done (.point rest))⟩
    | @hand _ k' ks' _ left' _ tr₃ w _ eval later =>
      cases eval with
      | point direct =>
        rcases inverted _ _ direct with ⟨tr',_,impossible,_⟩ | ⟨tr₁,tr₂,v,left,rfl,inner,rest⟩
        · simp at impossible
        · refine ⟨tr₁ ++ .handed v :: (tr₂ ++ .handed w :: tr₃),by simp,?_⟩
          exact .hand (.point inner) (.hand (.point rest) later)
  · rintro ⟨tr',rfl,residual⟩
    cases residual with
    | waits ks' eval =>
      cases eval with
      | point inner => exact .waits ks (.point (.callWaits here inner))
    | hand eval rest =>
      cases eval with
      | point inner =>
        cases rest with
        | waits ks' eval =>
          cases eval with
          | point outer => exact .waits ks (.point (.call here inner outer))
        | done eval =>
          cases eval with
          | point outer => exact .done (.point (.call here inner outer))
        | @hand _ k' _ _ _ tr₁ tr₂ v' _ eval later =>
          cases eval with
          | point outer =>
            have whole : Residual code (.point l) (k' :: _) answers _ o :=
              .hand (.point (.call here inner outer)) later
            simpa using whole

theorem residual_hand {v : V} {k : V → L} :
    Residual code (.returning v) (k :: ks) answers tr o ↔
      ∃ tr', tr = .handed v :: tr' ∧ Residual code (.point (k v)) ks answers tr' o := by
  constructor
  · intro residual
    cases residual with
    | waits ks eval => cases eval
    | hand eval rest =>
      cases eval with
      | returning => exact ⟨_,rfl,rest⟩
  · rintro ⟨tr',rfl,residual⟩
    have whole : Residual code (.returning v) (k :: ks) answers ([] ++ .handed v :: tr') o :=
      .hand (.returning v answers) residual
    exact whole

theorem residual_done {v : V} :
    Residual code (.returning v) [] answers tr o ↔ tr = [] ∧ o = .done v answers := by
  constructor
  · intro residual
    cases residual with
    | waits ks eval => cases eval
    | done eval =>
      cases eval with
      | returning => exact ⟨rfl,rfl⟩
  · rintro ⟨rfl,rfl⟩
    exact .done (.returning v answers)

end Steps

/-- The evaluation from `l` has observed `tr` with the answers so far, and what is left
    of it is exactly the focus with its continuations. -/
def Remaining (code : L → Instr Q A V L) (l : L) (answers : List A) (tr : List (Obs Q V))
    (f : Focus A V L) (ks : List (V → L)) : Prop :=
  ∀ more tr' o, Direct code l (answers ++ more) tr' o ↔
    ∃ rest, tr' = tr ++ rest ∧ Residual code f ks more rest o

section Remaining
variable {l p task : L} {answers : List A} {tr : List (Obs Q V)} {f g : Focus A V L}
  {ks ks' : List (V → L)}

theorem remaining_start : Remaining code l [] [] (.point l) [] := by
  intro more tr' o
  simp [residual_start]

theorem remaining_step (extra : List A) (obs : List (Obs Q V))
    (remaining : Remaining code l answers tr f ks)
    (step : ∀ more rest o, Residual code f ks (extra ++ more) rest o ↔
      ∃ rest', rest = obs ++ rest' ∧ Residual code g ks' more rest' o) :
    Remaining code l (answers ++ extra) (tr ++ obs) g ks' := by
  intro more tr' o
  rw [List.append_assoc, remaining]
  constructor
  · rintro ⟨rest,rfl,residual⟩
    obtain ⟨rest',rfl,next⟩ := (step more rest o).mp residual
    exact ⟨rest',by simp,next⟩
  · rintro ⟨rest',rfl,next⟩
    exact ⟨obs ++ rest',by simp,(step more _ o).mpr ⟨rest',rfl,next⟩⟩

theorem remaining_ret {v : V} (here : code p = .ret v)
    (remaining : Remaining code l answers tr (.point p) ks) :
    Remaining code l answers tr (.returning v) ks := by
  have next := remaining_step [] [] remaining (fun more rest o => by
    simpa using residual_ret here)
  simpa using next

theorem remaining_ask {q : Q} {k : A → L} (here : code p = .ask q k)
    (remaining : Remaining code l answers tr (.point p) ks) :
    Remaining code l answers (tr ++ [.asked q]) (.asked k) ks := by
  have next := remaining_step [] [.asked q] remaining (fun more rest o => residual_ask here)
  simpa using next

theorem remaining_answer {k : A → L} (a : A)
    (remaining : Remaining code l answers tr (.asked k) ks) :
    Remaining code l (answers ++ [a]) tr (.point (k a)) ks := by
  have next := remaining_step [a] [] remaining (fun more rest o => by
    simpa using residual_answer)
  simpa using next

theorem remaining_call {k : V → L} (here : code p = .call task k)
    (remaining : Remaining code l answers tr (.point p) ks) :
    Remaining code l answers (tr ++ [.called]) (.point task) (k :: ks) := by
  have next := remaining_step [] [.called] remaining (fun more rest o => residual_call here)
  simpa using next

theorem remaining_hand {v : V} {k : V → L}
    (remaining : Remaining code l answers tr (.returning v) (k :: ks)) :
    Remaining code l answers (tr ++ [.handed v]) (.point (k v)) ks := by
  have next := remaining_step [] [.handed v] remaining (fun more rest o => residual_hand)
  simpa using next

theorem remaining_extends (remaining : Remaining code l answers tr f ks) {more : List A}
    {tr' : List (Obs Q V)} {o : Outcome A V} (direct : Direct code l (answers ++ more) tr' o) :
    tr <+: tr' := by
  obtain ⟨rest,rfl,_⟩ := (remaining more tr' o).mp direct
  exact List.prefix_append tr rest

theorem remaining_suspended {k : A → L} (remaining : Remaining code l answers tr (.asked k) ks)
    {tr' : List (Obs Q V)} {o : Outcome A V} :
    Direct code l answers tr' o ↔ tr' = tr ∧ o = .waiting := by
  have whole := remaining [] tr' o
  rw [List.append_nil] at whole
  simp [whole, residual_suspended]

theorem remaining_done {v : V} (remaining : Remaining code l answers tr (.returning v) [])
    {tr' : List (Obs Q V)} {o : Outcome A V} :
    Direct code l answers tr' o ↔ tr' = tr ∧ o = .done v [] := by
  have whole := remaining [] tr' o
  rw [List.append_nil] at whole
  simp [whole, residual_done]

end Remaining
end DirectStyle
