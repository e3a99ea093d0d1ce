import Aiopp.WrapAsTask

/-!
What a wrapped call returns. The loop thread knows of a value before it calls `get`, from
`ready` or from the eventfd, so it never sleeps in there; each call reads its eventfd at most
once and takes a 1 out of it; and what it returns is what its function has returned.
-/
namespace Aiopp
namespace WrapAsTask
open Transition Future Submit
variable {W P J O : Type} {R : J → Type}

def Phase.promised {T : Type} : Phase T → Bool
  | .tested true | .completed _ | .getting => true
  | _ => false

def Phase.unread {T : Type} : Phase T → Bool
  | .fresh | .submitting | .testing | .tested _ | .queued | .pending => true
  | _ => false

def Phase.asking {T : Type} : Phase T → Bool
  | .testing | .getting => true
  | _ => false

/-- Which call the loop thread is asking for. -/
def Reading (phases : (j : J) → Phase (R j)) : Reader J → Prop
  | .lock j .ready | .check j .ready => phases j = .testing
  | .lock j .get | .check j .get => phases j = .getting
  | .sleeping _ => False
  | .idle | .unlock _ => ∀ j, (phases j).asking = false

structure Sound (s : WrapAsTask W P J O R) : Prop where
  own : ∀ j, (s.phases j).active ↔ s.current = some j
  reading : Reading s.phases (s.tp.readers ())
  given : ∀ j, (s.phases j).promised → (s.tp.shared j).value.isSome
  unread : ∀ j, (s.phases j).unread → s.consumed j = 0
  one : ∀ j buf, s.phases j = .completed buf → buf = 1
  begun : ∀ j, s.phases j ≠ .fresh → s.tp.submitted j = true

section Reader
variable [DecidableEq W] [DecidableEq P] [DecidableEq J] [Fintype W]
  {residue : (j : J) → R j → R j} {s s' : Submit W P Unit J O R}
  {e : Submit.Event W P J O R}

inductive Heard (s s' : Submit W P Unit J O R) : Submit.Event W P J O R → Prop where
  | apart {e : Submit.Event W P J O R} (same : s'.readers = s.readers)
      (unanswered : ∀ j ready, e ≠ .answered j ready) (ungot : ∀ j v, e ≠ .noted j (.got v)) :
      Heard s s' e
  | locked {j : J} {question : Question} (here : s.readers () = .lock j question)
      (next : s'.readers () = .check j question) : Heard s s' .stepped
  | answered {j : J} (here : s.readers () = .check j .ready) (next : s'.readers () = .unlock j) :
      Heard s s' (.answered j (s.shared j).value.isSome)
  | got {j : J} {v : R j} (here : s.readers () = .check j .get)
      (full : (s.shared j).value = some v) (next : s'.readers () = .unlock j) :
      Heard s s' (.noted j (.got v))
  | slept {j : J} (here : s.readers () = .check j .get) (empty : (s.shared j).value = none) :
      Heard s s' .stepped
  | woke {j : J} (here : s.readers () = .sleeping j) : Heard s s' .stepped
  | notified {j : J} (next : s'.readers () = (s.readers ()).wake j) : Heard s s' .stepped
  | unlocked {j : J} (here : s.readers () = .unlock j) (next : s'.readers () = .idle) :
      Heard s s' .stepped

omit [DecidableEq W] [DecidableEq P] [Fintype W] in
theorem read_heard (taken : s.read residue () = some (s', e)) : Heard s s' e := by
  unfold Submit.read at taken
  split at taken
  · simp at taken
  · rename_i here
    split at taken
    · cases taken
      exact .locked here (by simp [moveReader])
    · simp at taken
  · rename_i here
    cases taken
    exact .answered here (by simp [moveReader])
  · rename_i here
    split at taken
    · rename_i full
      cases taken
      exact .got here full (by simp [moveReader])
    · rename_i empty
      cases taken
      exact .slept here empty
  · rename_i here
    cases taken
    exact .woke here
  · rename_i here
    cases taken
    exact .unlocked here (by simp [moveReader])

theorem body_heard {w : W} {j : J} (taken : s.body w j = some (s', e)) : Heard s s' e := by
  unfold Submit.body at taken
  split at taken
  · cases taken
    refine .apart rfl (by simp) ?_
    intro i v eq
    cases eq
  · simp at taken
  · split at taken
    · cases taken
      exact .apart rfl (by simp) (by simp)
    · simp at taken
  · split at taken
    · cases taken
      exact .apart rfl (by simp) (by simp)
    · simp at taken
  · cases taken
    exact .apart rfl (by simp) (by simp)
  · cases taken
    exact .notified rfl
  · cases taken
    exact .apart rfl (by simp) (by simp)
  · obtain ⟨⟨pool,event⟩,_,eq⟩ := Option.map_eq_some_iff.mp taken
    cases eq
    exact .apart rfl (by simp) (by simp)

theorem step_heard {a : Submit.Action W P Unit J O R} (other : ∀ q j question, a ≠ .ask q j question)
    (taken : Submit.step residue s a = some (s', e)) : Heard s s' e := by
  cases a with
  | submit p j =>
    simp only [Submit.step] at taken
    split at taken
    · simp at taken
    · obtain ⟨⟨pool,event⟩,_,eq⟩ := Option.map_eq_some_iff.mp taken
      cases eq
      exact .apart rfl (by simp) (by simp)
  | pool a =>
    simp only [Submit.step] at taken
    split at taken
    · obtain ⟨⟨pool,event⟩,_,eq⟩ := Option.map_eq_some_iff.mp taken
      cases eq
      exact .apart rfl (by simp) (by simp)
    · simp at taken
  | work w =>
    simp only [Submit.step] at taken
    split at taken
    · exact body_heard taken
    · simp at taken
  | returns w j v =>
    simp only [Submit.step] at taken
    split at taken
    · split at taken
      · cases taken
        refine .apart rfl (by simp) ?_
        intro i u eq
        cases eq
      · simp at taken
    · simp at taken
  | ask q j question => exact absurd rfl (other q j question)
  | read q => exact read_heard taken

theorem asked_reader {j : J} {question : Question}
    (taken : Submit.step residue s (.ask () j question) = some (s', e)) :
    s' = s.moveReader () (.lock j question) ∧ e = .stepped ∧ s.readers () = .idle := by
  simp only [Submit.step] at taken
  split at taken
  · rename_i idle
    split at taken
    · cases taken
      exact ⟨rfl,rfl,idle⟩
    · simp at taken
  · simp at taken

theorem submit_submitted {p : P} {j : J}
    (taken : Submit.step residue s (.submit p j) = some (s', e)) :
    s'.submitted j = true ∧ s'.readers = s.readers := by
  simp only [Submit.step] at taken
  split at taken
  · simp at taken
  · obtain ⟨⟨pool,event⟩,_,eq⟩ := Option.map_eq_some_iff.mp taken
    cases eq
    exact ⟨by simp,rfl⟩

end Reader

section Sound
variable [DecidableEq J] {s s' : WrapAsTask W P J O R} {j : J} {next : Phase (R j)}

/-- It does not sleep, so `notify_all` leaves it where it is. -/
theorem reading_awake {phases : (j : J) → Phase (R j)} {reader : Reader J}
    (reading : Reading phases reader) : Reading phases (reader.wake j) := by
  cases reader with
  | sleeping => exact reading.elim
  | _ => exact reading

theorem reading_other {phases : (j : J) → Phase (R j)} {reader : Reader J}
    (reading : Reading phases reader) (before : (phases j).asking = false)
    (after : next.asking = false) : Reading (Function.update phases j next) reader := by
  have elsewhere (i : J) (asks : (phases i).asking = true) : i ≠ j := by
    rintro rfl
    simp [before] at asks
  have nowhere (none : ∀ i, (phases i).asking = false) (i : J) :
      (Function.update phases j next i).asking = false := by
    by_cases same : i = j
    · subst same
      simpa using after
    · simpa [same] using none i
  cases reader with
  | idle | unlock => exact nowhere reading
  | sleeping => exact reading
  | lock i question | check i question =>
    cases question with
    | ready =>
      have point : phases i = .testing := reading
      have other := elsewhere i (by rw [point]; rfl)
      simpa [Reading, other] using point
    | get =>
      have point : phases i = .getting := reading
      have other := elsewhere i (by rw [point]; rfl)
      simpa [Reading, other] using point

theorem sound_move (sound : Sound s) (phases : s'.phases = Function.update s.phases j next)
    (own : next.active ↔ s'.current = some j)
    (others : ∀ i, i ≠ j → (s'.current = some i ↔ s.current = some i))
    (reading : Reading s'.phases (s'.tp.readers ()))
    (values : ∀ i, (s.tp.shared i).value.isSome → (s'.tp.shared i).value.isSome)
    (submitted : ∀ i, s.tp.submitted i = true → s'.tp.submitted i = true)
    (consumed : ∀ i, i ≠ j → s'.consumed i = s.consumed i)
    (given : next.promised → (s'.tp.shared j).value.isSome)
    (unread : next.unread → s'.consumed j = 0) (one : ∀ buf, next = .completed buf → buf = 1)
    (begun : s'.tp.submitted j = true) : Sound s' := by
  have here : s'.phases j = next := by simp [phases]
  have there (i : J) (other : i ≠ j) : s'.phases i = s.phases i := by simp [phases, other]
  constructor
  · intro i
    by_cases same : i = j
    · subst same
      rwa [here]
    · rw [there i same, others i same]
      exact sound.own i
  · exact reading
  · intro i promised
    by_cases same : i = j
    · subst same
      exact given (here ▸ promised)
    · exact values i (sound.given i (there i same ▸ promised))
  · intro i before
    by_cases same : i = j
    · subst same
      exact unread (here ▸ before)
    · rw [consumed i same]
      exact sound.unread i (there i same ▸ before)
  · intro i buf point
    by_cases same : i = j
    · subst same
      exact one buf (here ▸ point)
    · exact sound.one i buf (there i same ▸ point)
  · intro i point
    by_cases same : i = j
    · subst same
      exact begun
    · exact submitted i (sound.begun i (there i same ▸ point))

omit [DecidableEq J] in
theorem asks_once (sound : Sound s) {i : J} (first : (s.phases i).active)
    (second : (s.phases j).active) : i = j := by
  have same := ((sound.own i).mp first).symm.trans ((sound.own j).mp second)
  exact Option.some.inj same

theorem asking_active {T : Type} {phase : Phase T} (asks : phase.asking = true) :
    phase.active = true := by
  cases phase <;> simp_all [Phase.asking, Phase.active]

theorem reading_answered (sound : Sound s) (before : (s.phases j).asking = true)
    (after : next.asking = false) (i : J) :
    (Function.update s.phases j next i).asking = false := by
  by_cases same : i = j
  · subst same
    simpa using after
  · rw [Function.update_of_ne same]
    by_contra asks
    rw [Bool.not_eq_false] at asks
    exact same (asks_once sound (asking_active asks) (asking_active before))

end Sound

section Kept
variable {sqEntries capacity : Nat} [DecidableEq W] [DecidableEq P] [DecidableEq J] [Fintype W]
  {residue : (j : J) → R j → R j} {s s' : WrapAsTask W P J O R}
  {e : Event W P J O R} {log : List (Event W P J O R)}

omit [DecidableEq W] [DecidableEq P] [DecidableEq J] [Fintype W] in
theorem passed_unasked {a : Submit.Action W (Option P) Unit J O R} (passed : s.passes a) :
    ∀ q j question, a ≠ .ask q j question := by
  rintro q j question rfl
  simp [passes] at passed

omit [DecidableEq W] [DecidableEq P] [Fintype W] in
theorem hear_apart {e : Submit.Event W (Option P) J O R}
    (unanswered : ∀ j ready, e ≠ .answered j ready) (ungot : ∀ j v, e ≠ .noted j (.got v)) :
    hear s.phases e = s.phases := by
  cases e with
  | answered j ready => exact absurd rfl (unanswered j ready)
  | noted j note =>
    cases note with
    | got v => exact absurd rfl (ungot j v)
    | _ => rfl
  | _ => rfl

omit [DecidableEq W] [DecidableEq P] [Fintype W] in
theorem inner_sound {tp : Submit W (Option P) Unit J O R} {e : Submit.Event W (Option P) J O R}
    (sound : Sound s) (heard : Heard s.tp tp e)
    (values : ∀ i, (s.tp.shared i).value.isSome → (tp.shared i).value.isSome)
    (submitted : ∀ i, s.tp.submitted i = true → tp.submitted i = true) :
    Sound { s with tp := tp, phases := hear s.phases e } := by
  have reading := sound.reading
  have still (same : hear s.phases e = s.phases)
      (after : Reading s.phases (tp.readers ())) :
      Sound { s with tp := tp, phases := hear s.phases e } := by
    rw [same]
    exact ⟨sound.own,after,fun i promised => values i (sound.given i promised),sound.unread,
      sound.one,fun i begun => submitted i (sound.begun i begun)⟩
  cases heard with
  | apart same unanswered ungot =>
    exact still (hear_apart unanswered ungot) (same ▸ reading)
  | @locked j question here next =>
    refine still rfl ?_
    rw [here] at reading
    rw [next]
    cases question <;> exact reading
  | @answered j here next =>
    rw [here] at reading
    have point : s.phases j = .testing := reading
    refine sound_move sound (j := j) rfl ?_ (fun _ _ => .rfl) ?_ values submitted (fun _ _ => rfl)
      ?_ ?_ ?_ ?_
    · rw [← sound.own j, point]
      rfl
    · rw [next]
      exact reading_answered sound (by rw [point]; rfl) rfl
    · intro promised
      cases full : (s.tp.shared j).value with
      | none => simp [full, Phase.promised] at promised
      | some v => exact values j (by rw [full]; rfl)
    · intro _
      exact sound.unread j (by rw [point]; rfl)
    · intro buf eq
      cases eq
    · exact submitted j (sound.begun j (by simp [point]))
  | @got j v here full next =>
    rw [here] at reading
    have point : s.phases j = .getting := reading
    refine sound_move sound (j := j) rfl ?_ (fun _ _ => .rfl) ?_ values submitted (fun _ _ => rfl)
      ?_ ?_ ?_ ?_
    · rw [← sound.own j, point]
      rfl
    · rw [next]
      exact reading_answered sound (by rw [point]; rfl) rfl
    · intro promised
      cases promised
    · intro before
      cases before
    · intro buf eq
      cases eq
    · exact submitted j (sound.begun j (by simp [point]))
  | @slept j here empty =>
    rw [here] at reading
    have point : s.phases j = .getting := reading
    have given := sound.given j (by rw [point]; rfl)
    simp [empty] at given
  | woke here =>
    rw [here] at reading
    exact reading.elim
  | notified next =>
    exact still rfl (next ▸ reading_awake reading)
  | unlocked here next =>
    refine still rfl ?_
    rw [here] at reading
    rw [next]
    exact reading

omit [DecidableEq W] [DecidableEq P] [Fintype W] in
theorem quiet_reading (sound : Sound s) {j : J} {next : Phase (R j)}
    (before : (s.phases j).asking = false) (after : next.asking = false) :
    Reading (Function.update s.phases j next) (s.tp.readers ()) :=
  reading_other sound.reading before after

omit [DecidableEq W] [DecidableEq P] [Fintype W] in
theorem sound_asks (sound : Sound s) {j : J} {question : Question} {next : Phase (R j)}
    (tp : s'.tp = s.tp.moveReader () (.lock j question))
    (phases : s'.phases = Function.update s.phases j next) (current : s'.current = some j)
    (consumed : s'.consumed = s.consumed) (alone : ∀ i, i ≠ j → s.current ≠ some i)
    (active : next.active) (asks : Reading s'.phases (.lock j question))
    (given : next.promised → (s.phases j).promised) (unread : next.unread → (s.phases j).unread)
    (one : ∀ buf, next ≠ .completed buf) (begun : s.phases j ≠ .fresh) : Sound s' := by
  refine sound_move sound phases ?_ ?_ ?_ ?_ ?_ ?_ ?_ ?_ ?_ ?_
  · simp [active, current]
  · intro i other
    simp [current, Ne.symm other, alone i other]
  · simpa [tp, moveReader] using asks
  · simp [tp, moveReader]
  · simp [tp, moveReader]
  · simp [consumed]
  · intro promised
    simpa [tp, moveReader] using sound.given j (given promised)
  · intro before
    rw [consumed]
    exact sound.unread j (unread before)
  · intro buf eq
    exact absurd eq (one buf)
  · simpa [tp, moveReader] using sound.begun j begun

omit [DecidableEq W] [DecidableEq P] [Fintype W] in
theorem sound_stays (sound : Sound s) {j : J} {next : Phase (R j)} (tp : s'.tp = s.tp)
    (phases : s'.phases = Function.update s.phases j next) (consumed : s'.consumed = s.consumed)
    (own : next.active ↔ s'.current = some j)
    (others : ∀ i, i ≠ j → (s'.current = some i ↔ s.current = some i))
    (before : (s.phases j).asking = false) (after : next.asking = false)
    (given : ¬ next.promised) (unread : next.unread → (s.phases j).unread)
    (one : ∀ buf, next ≠ .completed buf) (begun : s.phases j ≠ .fresh) : Sound s' := by
  refine sound_move sound phases own others ?_ ?_ ?_ ?_ ?_ ?_ ?_ ?_
  · rw [tp, phases]
    exact quiet_reading sound before after
  · simp [tp]
  · simp [tp]
  · simp [consumed]
  · intro promised
    exact absurd promised given
  · intro before
    rw [consumed]
    exact sound.unread j (unread before)
  · intro buf eq
    exact absurd eq (one buf)
  · rw [tp]
    exact sound.begun j begun

theorem called_sound (sound : Sound s) {j : J} {tp : Submit W (Option P) Unit J O R}
    {e : Submit.Event W (Option P) J O R} (free : s.current = none) (fresh : s.phases j = .fresh)
    (taken : Submit.step residue s.tp (.submit none j) = some (tp, e)) :
    Sound ({ s with tp := tp, current := some j }.move j .submitting) := by
  obtain ⟨named,same⟩ := submit_submitted taken
  refine sound_move sound (j := j) rfl ?_ ?_ ?_ ?_ ?_ (fun _ _ => rfl) ?_ ?_ ?_ named
  · simp [move, Phase.active]
  · intro i other
    simp [move, free, Ne.symm other]
  · change Reading _ (tp.readers ())
    rw [same]
    exact quiet_reading sound (by rw [fresh]; rfl) rfl
  · exact fun i => moved_value (Submit.step_moved taken)
  · exact fun i => Submit.submitted_stays taken
  · intro promised
    cases promised
  · intro _
    exact sound.unread j (by rw [fresh]; rfl)
  · intro buf eq
    cases eq

theorem completed_sound (sound : Sound s)
    (run : Run (Submit.step residue) Submit.AnyOrder {} s.tp (submitLog log)) {j : J} {buf : Nat}
    (point : s.phases j = .pending) (read : buf = (s.tp.shared j).counter - s.consumed j)
    (raised : 0 < buf) :
    Sound ({ s with consumed := Function.update s.consumed j (s.consumed j + buf) }.move j
      (.completed buf)) := by
  have untouched : s.consumed j = 0 := sound.unread j (by rw [point]; rfl)
  rw [untouched, Nat.sub_zero] at read
  have bound := (run_counted run j).bound
  refine sound_move sound (j := j) rfl ?_ (fun _ _ => .rfl) ?_ (fun _ => id) (fun _ => id)
    ?_ ?_ ?_ ?_ ?_
  · change _ ↔ s.current = some j
    rw [← sound.own j, point]
    rfl
  · exact quiet_reading sound (by rw [point]; rfl) rfl
  · intro i other
    simp [move, other]
  · intro _
    exact counter_value run (read ▸ raised)
  · intro before
    cases before
  · intro one eq
    cases eq
    omega
  · exact sound.begun j (by simp [point])

theorem moved_sound (sound : Sound s)
    (run : Run (Submit.step residue) Submit.AnyOrder {} s.tp (submitLog log))
    (moved : Moved residue s s' e) : Sound s' := by
  cases moved with
  | called free fresh taken => exact called_sound sound free fresh taken
  | @tests j tp e own point taken =>
    obtain ⟨rfl,_,_⟩ := asked_reader taken
    exact sound_asks sound (j := j) rfl rfl rfl rfl (by simp [own, eq_comm]) rfl
      (by simp [move, Reading]) (by simp [Phase.promised]) (by simp [point, Phase.unread])
      (by simp) (by simp [point])
  | @gets j tp e own point taken =>
    obtain ⟨rfl,_,_⟩ := asked_reader taken
    exact sound_asks sound (j := j) rfl rfl rfl rfl (by simp [own, eq_comm]) rfl
      (by simp [move, Reading]) (by simp [point, Phase.promised]) (by simp [Phase.unread])
      (by simp) (by simp [point])
  | @resumed j tp e free point taken =>
    obtain ⟨rfl,_,_⟩ := asked_reader taken
    exact sound_asks sound (j := j) rfl rfl rfl rfl (by simp [free]) rfl
      (by simp [move, Reading]) (by simp [point, Phase.promised]) (by simp [Phase.unread])
      (by simp) (by simp [point])
  | @suspended j own point idle =>
    refine sound_stays sound (j := j) rfl rfl rfl (by simp [move, Phase.active]) ?_
      (by simp [point, Phase.asking]) rfl (by simp [Phase.promised])
      (by simp [point, Phase.unread]) (by simp) (by simp [point])
    intro i other
    simp [move, own, Ne.symm other]
  | @finished j v own point idle =>
    refine sound_stays sound (j := j) rfl rfl rfl (by simp [move, Phase.active]) ?_
      (by simp [point, Phase.asking]) rfl (by simp [Phase.promised]) (by simp [Phase.unread])
      (by simp) (by simp [point])
    intro i other
    simp [move, own, Ne.symm other]
  | inner passed taken =>
    exact inner_sound sound (step_heard (passed_unasked passed) taken)
      (fun i => moved_value (Submit.step_moved taken)) (fun i => Submit.submitted_stays taken)
  | @submitted j point =>
    refine sound_stays sound (j := j) rfl rfl rfl ?_ (fun _ _ => .rfl)
      (by simp [point, Phase.asking]) rfl (by simp [Phase.promised])
      (by simp [point, Phase.unread]) (by simp) (by simp [point])
    change _ ↔ s.current = some j
    rw [← sound.own j, point]
    rfl
  | completed point read raised => exact completed_sound sound run point read raised

theorem moved_submits (moved : Moved residue s s' e) :
    (∃ a event, Submit.step residue s.tp a = some (s'.tp, event) ∧ e = some event) ∨
      s'.tp = s.tp ∧ e = none := by
  cases moved with
  | called free fresh taken => exact .inl ⟨_,_,taken,rfl⟩
  | tests own point taken => exact .inl ⟨_,_,taken,rfl⟩
  | gets own point taken => exact .inl ⟨_,_,taken,rfl⟩
  | resumed free point taken => exact .inl ⟨_,_,taken,rfl⟩
  | inner passed taken => exact .inl ⟨_,_,taken,rfl⟩
  | suspended | finished | submitted | completed => exact .inr ⟨rfl,rfl⟩

theorem run_submits (run : Run (step residue) AnyOrder (start sqEntries capacity) s log) :
    Run (Submit.step residue) Submit.AnyOrder {} s.tp (submitLog log) := by
  induction run with
  | nil => exact .nil
  | @next s s' log a e run allowed taken ih =>
    rcases moved_submits (step_moved taken) with ⟨b,event,moves,rfl⟩ | ⟨same,rfl⟩
    · exact .next ih trivial moves
    · rw [same]
      exact ih

theorem run_sound (run : Run (step residue) AnyOrder (start sqEntries capacity) s log) : Sound s := by
  induction run with
  | nil =>
    constructor
    · simp [start, Phase.active]
    · intro j
      rfl
    · intro j promised
      cases promised
    · intro j _
      rfl
    · intro j buf eq
      cases eq
    · intro j point
      exact absurd rfl point
  | next run allowed taken ih => exact moved_sound ih (run_submits run) (step_moved taken)

end Kept

def Told {T : Type} (past : List (Note T)) : Phase T → Prop
  | .got v | .returned v => past = spoken v ++ [.got v]
  | _ => ∀ v, .got v ∉ past

section Told
variable {sqEntries capacity : Nat} [DecidableEq W] [DecidableEq P] [DecidableEq J] [Fintype W]
  {residue : (j : J) → R j → R j} {s s' : WrapAsTask W P J O R}
  {e : Event W P J O R} {log : List (Event W P J O R)} {j : J}

omit [DecidableEq W] [DecidableEq P] [DecidableEq J] [Fintype W] in
theorem told_other {T : Type} {past : List (Note T)}
    {before after : Phase T} (told : Told past before)
    (open_ : ∀ v, before ≠ .got v ∧ before ≠ .returned v)
    (still : ∀ v, after ≠ .got v ∧ after ≠ .returned v) : Told past after := by
  have none : ∀ v, .got v ∉ past := by
    cases before with
    | got v => exact absurd rfl (open_ v).1
    | returned v => exact absurd rfl (open_ v).2
    | _ => exact told
  cases after with
  | got v => exact absurd rfl (still v).1
  | returned v => exact absurd rfl (still v).2
  | _ => exact none

theorem noted_before {tp tp' : Submit W (Option P) Unit J O R} {note : Note (R j)}
    {past : List (Submit.Event W (Option P) J O R)} (kept : Submit.Kept tp past j)
    (moved : Submit.Moved residue tp tp' (.noted j note)) :
    (∃ v, note = .got v ∧ (tp.shared j).value = some v) ∨
      (history j past = [] ∨ history j past = [.called]) ∧ ∀ v, note ≠ .got v := by
  generalize event : Submit.Event.noted j note = e at moved
  cases moved with
  | @entered w i here point =>
    cases event
    obtain ⟨empty,_⟩ : history j past = [] ∧ (tp.shared j).value = none := by
      simpa [point, Stage] using kept.stage w here
    exact .inr ⟨.inl empty,by simp⟩
  | @returned w i v here point =>
    cases event
    obtain ⟨called,_⟩ : history j past = [.called] ∧ (tp.shared j).value = none := by
      simpa [point, Stage] using kept.stage w here
    exact .inr ⟨.inr called,by simp⟩
  | @got q i v next full =>
    cases event
    exact .inl ⟨v,rfl,full⟩
  | asked silent => rcases silent with rfl | ⟨i,ready,rfl⟩ <;> cases event
  | _ => cases event

omit [DecidableEq W] [DecidableEq P] [Fintype W] in
theorem got_spoken {tp : Submit W (Option P) Unit J O R}
    {past : List (Submit.Event W (Option P) J O R)} (kept : Submit.Kept tp past j) {v : R j}
    (full : (tp.shared j).value = some v) (ungot : ∀ u, .got u ∉ history j past) :
    history j past = spoken v := by
  obtain ⟨u,gets,eq,first,_⟩ := kept.ready (by rw [full]; rfl)
  have none : gets = [] := by
    cases gets with
    | nil => rfl
    | cons g gets =>
      refine absurd ?_ (ungot g)
      rw [eq]
      exact List.mem_append_right _ (List.mem_map.mpr ⟨g,by simp,rfl⟩)
  have same : v = u := by
    have there := first none
    rw [full] at there
    exact Option.some.inj there
  rw [eq, none, same]
  simp

omit [DecidableEq W] [DecidableEq P] [Fintype W] in
theorem history_cons (e : Submit.Event W (Option P) J O R)
    (past : List (Submit.Event W (Option P) J O R)) :
    history j (e :: past) = history j past ∨
      ∃ note, e = .noted j note ∧ history j (e :: past) = history j past ++ [note] := by
  cases e with
  | noted i note =>
    by_cases same : j = i
    · subst same
      exact .inr ⟨note,rfl,history_same note⟩
    · exact .inl (history_other note same)
  | _ => exact .inl rfl

theorem apart_told {tp : Submit W (Option P) Unit J O R} {e : Submit.Event W (Option P) J O R}
    {past : List (Submit.Event W (Option P) J O R)} {phase : Phase (R j)}
    (told : Told (history j past) phase) (kept : Submit.Kept s.tp past j)
    (moved : Submit.Moved residue s.tp tp e) (ungot : ∀ v, e ≠ .noted j (.got v)) :
    Told (history j (e :: past)) phase := by
  rcases history_cons (j := j) e past with same | ⟨note,rfl,more⟩
  · rw [same]
    exact told
  · obtain ⟨early,quiet⟩ := (noted_before kept moved).resolve_left
      fun ⟨v,eq,_⟩ => ungot v (by rw [eq])
    rw [more]
    have late (v : R j) : history j past ≠ spoken v ++ [.got v] := by
      intro eq
      have member : Note.got v ∈ history j past := by simp [eq]
      rcases early with early | early <;> simp [early] at member
    have none (v : R j) : .got v ∉ history j past ++ [note] := by
      intro member
      rcases List.mem_append.mp member with before | now
      · rcases early with early | early <;> simp [early] at before
      · exact quiet v (List.mem_singleton.mp now).symm
    cases phase with
    | got v | returned v => exact absurd told (late v)
    | _ => exact none

omit [DecidableEq W] [DecidableEq P] [Fintype W] in
theorem update_told {past : List (Submit.Event W (Option P) J O R)} {i : J}
    {next : Phase (R i)} (told : Told (history j past) (s.phases j))
    (mine : Told (history i past) (s.phases i) → Told (history i past) next) :
    Told (history j past) (Function.update s.phases i next j) := by
  by_cases same : j = i
  · subst same
    simpa using mine told
  · simpa [same] using told

theorem moved_told (sound : Sound s) (kept : Submit.Kept s.tp (submitLog log) j)
    (moved : Moved residue s s' e) (told : Told (history j (submitLog log)) (s.phases j)) :
    Told (history j (submitLog (e :: log))) (s'.phases j) := by
  cases moved with
  | @called i tp e free fresh taken =>
    have past : Told (history j (e :: submitLog log)) (s.phases j) := by
      refine apart_told told kept (Submit.step_moved taken) ?_
      rintro v rfl
      simp only [Submit.step] at taken
      split at taken <;> simp at taken
    refine update_told past ?_
    intro told
    exact told_other told (by simp [fresh]) (by simp)
  | @tests i tp e own point taken =>
    obtain ⟨_,rfl,_⟩ := asked_reader taken
    refine update_told told ?_
    intro told
    exact told_other told (by simp [point]) (by simp)
  | @gets i tp e own point taken | @resumed i tp e own point taken =>
    obtain ⟨_,rfl,_⟩ := asked_reader taken
    refine update_told told ?_
    intro told
    exact told_other told (by simp [point]) (by simp)
  | @suspended i own point idle =>
    refine update_told told ?_
    intro told
    exact told_other told (by simp [point]) (by simp)
  | @finished i v own point idle =>
    refine update_told told ?_
    intro told
    rw [point] at told
    exact told
  | @submitted i point =>
    refine update_told told ?_
    intro told
    exact told_other told (by simp [point]) (by simp)
  | @completed i buf point read raised =>
    refine update_told told ?_
    intro told
    exact told_other told (by simp [point]) (by simp)
  | @inner a tp e passed taken =>
    have moved := Submit.step_moved taken
    have reading := sound.reading
    cases step_heard (passed_unasked passed) taken with
    | apart same unanswered ungot =>
      change Told _ (hear s.phases e j)
      rw [hear_apart unanswered ungot]
      exact apart_told told kept moved (ungot j)
    | @answered i here next =>
      rw [here] at reading
      have point : s.phases i = .testing := reading
      refine update_told told ?_
      intro told
      exact told_other told (by simp [point]) (by simp)
    | @got i v here full next =>
      rw [here] at reading
      have point : s.phases i = .getting := reading
      by_cases same : j = i
      · subst same
        rw [point] at told
        have past : history j (submitLog (some (.noted j (.got v)) :: log)) =
            history j (submitLog log) ++ [.got v] := history_same _
        rw [past, got_spoken kept full told]
        simp [hear, Told]
      · have past : history j (submitLog (some (.noted i (.got v)) :: log)) =
            history j (submitLog log) := history_other _ same
        rw [past]
        simpa [hear, same] using told
    | locked | slept | woke | notified | unlocked => exact told

theorem run_told (run : Run (step residue) AnyOrder (start sqEntries capacity) s log) (j : J) :
    Told (history j (submitLog log)) (s.phases j) := by
  induction run with
  | nil =>
    intro v member
    simp [submitLog, history] at member
  | next run allowed taken ih =>
    exact moved_told (run_sound run) (run_kept (run_submits run) j) (step_moved taken) ih

/-- The loop thread never sleeps inside `get`, a completed read has taken exactly 1, and a
wrapped call that has returned has returned what its function returned in its only call. -/
theorem wrapped_calls_return (run : Run (step residue) AnyOrder (start sqEntries capacity) s log) :
    (∀ j, s.tp.readers () ≠ .sleeping j) ∧
    ∀ j, (∀ buf, s.phases j = .completed buf → buf = 1 ∧ (s.tp.shared j).value.isSome) ∧
      ∀ v, s.phases j = .returned v →
        history j (submitLog log) = [.called, .returned v, .got v] := by
  have sound := run_sound run
  refine ⟨?_,fun j => ⟨?_,?_⟩⟩
  · intro j asleep
    have reading := sound.reading
    rw [asleep] at reading
    exact reading
  · intro buf point
    exact ⟨sound.one j buf point,sound.given j (by rw [point]; rfl)⟩
  · intro v point
    have told := run_told run j
    rw [point] at told
    exact told

end Told

theorem first_call_returned :
    ∃ s : WrapAsTask Unit Empty Bool Empty fun _ => Nat, ∃ log,
      Run (step fun _ => id) AnyOrder (start 64 53) s log ∧ s.phases true = .returned (7 : Nat) ∧
      s.phases false = .queued ∧
      history true (submitLog log) = [.called, .returned (7 : Nat), .got (7 : Nat)] := by
  let submits (j : Bool) : List (Action Unit Empty Bool Empty fun _ => Nat) :=
    [.call j, .inner (.pool (.push none)), .inner (.pool (.push none)),
      .inner (.pool (.notifyOne none none)), .go, .inner (.read ()), .inner (.read ()),
      .inner (.read ()), .go]
  let worker : Action Unit Empty Bool Empty fun _ => Nat := .inner (.work ())
  let actions : List (Action Unit Empty Bool Empty fun _ => Nat) :=
    submits true ++ [.submitSqes true] ++ submits false ++
    List.replicate 7 (.inner (.pool (.work ()))) ++
    [worker, .inner (.returns () true (7 : Nat)), worker, worker, worker, worker, worker, worker,
      .completeRead true, .resume true, .inner (.read ()), .inner (.read ()), .inner (.read ()), .go]
  have computed : (replay (step fun _ => id) AnyOrder
      (start 64 53 : WrapAsTask Unit Empty Bool Empty fun _ => Nat) [] actions).map
      (fun (s, _) => ((s.phases true : Phase Nat), (s.phases false : Phase Nat))) =
        some ((.returned 7 : Phase Nat), (.queued : Phase Nat)) := by
    decide +kernel
  obtain ⟨s,log,run,facts⟩ := replay_reaches computed
  obtain ⟨returned,queued⟩ := Prod.mk.inj facts
  refine ⟨s,log,run,returned,queued,?_⟩
  exact ((wrapped_calls_return run).2 true).2 (7 : Nat) returned

end WrapAsTask
end Aiopp
