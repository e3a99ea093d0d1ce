import Aiopp.SubmitProgress
import Aiopp.WrapAsTaskReturns
import Mathlib.Data.Fintype.Option

/-!
Wrapped calls come to an end. While the submission queue and the map of completers have room
for all calls under way, the pool, the loop thread and the kernel come to rest together, and
then every call has returned.
-/
namespace Aiopp
namespace WrapAsTask
open Transition Future Submit
variable {W P J O : Type} {R : J → Type}

def Phase.rest {T : Type} : Phase T → Nat
  | .fresh | .returned _ => 0
  | .got _ | .getting => 1
  | .completed _ => 5
  | .pending => 6
  | .queued => 7
  | .tested _ | .testing => 8
  | .submitting => 12

def Phase.waiting {T : Type} : Phase T → Bool
  | .queued | .pending | .completed _ => true
  | _ => false

def Phase.underway {T : Type} : Phase T → Bool
  | .fresh | .returned _ => false
  | _ => true

def underway [Fintype J] (s : WrapAsTask W P J O R) : Finset J :=
  Finset.univ.filter fun j => (s.phases j).underway

/-- The submission queue and the map of completers have room for all calls under way. -/
def Room [Fintype J] (s : WrapAsTask W P J O R) : Prop :=
  s.underway.card ≤ s.sqEntries ∧ s.underway.card ≤ s.capacity

structure Listed (s : WrapAsTask W P J O R) : Prop where
  sqOnce : s.sq.Nodup
  sq : ∀ j, j ∈ s.sq → s.phases j = .queued
  completersOnce : s.completers.Nodup
  completers : ∀ j, j ∈ s.completers → (s.phases j).waiting

def effort [Fintype W] [Fintype P] [Fintype J] (s : WrapAsTask W P J O R) : Nat :=
  Submit.effort s.tp + ∑ j, (s.phases j).rest

def Inner (s : WrapAsTask W P J O R) : Action W P J O R → Prop
  | .call _ => False
  | .inner a => Submit.Inner s.tp a
  | _ => True

structure Rests (s : WrapAsTask W P J O R) : Prop where
  tp : Submit.Rests s.tp
  calls : ∀ j, (s.phases j).underway = false

section Effort
variable {sqEntries capacity : Nat} [DecidableEq W] [DecidableEq P] [DecidableEq J] [Fintype W] [Fintype P] [Fintype J]
  {residue : (j : J) → R j → R j} {s s' : WrapAsTask W P J O R}
  {e : Event W P J O R} {log : List (Event W P J O R)}

omit [DecidableEq W] [DecidableEq P] [Fintype W] [Fintype P] in
theorem phase_rest (phases : (j : J) → Phase (R j)) (j : J)
    (next : Phase (R j)) :
    ∑ i, (Function.update phases j next i).rest + (phases j).rest =
      ∑ i, (phases i).rest + next.rest := by
  have total := ThreadPool.sum_update id (fun i => (phases i).rest) j next.rest
  have same (i : J) : (Function.update phases j next i).rest =
      Function.update (fun i => (phases i).rest) j next.rest i :=
    Function.apply_update (fun _ phase => phase.rest) phases j next i
  simpa only [same, id] using total

omit [DecidableEq W] [DecidableEq P] in
theorem move_effort (s s' : WrapAsTask W P J O R) {j : J} {next : Phase (R j)}
    (phases : s'.phases = Function.update s.phases j next) (tp : s'.tp = s.tp)
    (less : next.rest < (s.phases j).rest) : effort s' < effort s := by
  have total := phase_rest s.phases j next
  simp only [effort, phases, tp]
  omega

/-- A call of `ready`, or of `get` with the value there, brings three steps of the reader
   with it. -/
theorem ask_effort {j : J} {question : Question} {next : Phase (R j)}
    (taken : s.ask residue j (.ask () j question) next = some (s', e))
    (given : question = .get → (s.tp.shared j).value.isSome)
    (less : next.rest + 3 < (s.phases j).rest) : effort s' < effort s := by
  obtain ⟨⟨tp,event⟩,moves,eq⟩ := Option.map_eq_some_iff.mp taken
  cases eq
  obtain ⟨rfl,_,idle⟩ := asked_reader moves
  have total := phase_rest s.phases j next
  have before : readerRest s.tp () = 0 := by simp [readerRest, idle, Reader.rest]
  have after : readerRest (s.tp.moveReader () (.lock j question)) () = 3 := by
    cases question with
    | ready => simp [readerRest, moveReader, Reader.rest]
    | get => simp [readerRest, moveReader, Reader.rest, given rfl]
  have more : Submit.effort (s.tp.moveReader () (.lock j question)) = Submit.effort s.tp + 3 := by
    simp only [Submit.effort, Fintype.sum_unique]
    change 8 * s.tp.pool.effort + ∑ w, lambdaRest s.tp w + readerRest _ () =
      8 * s.tp.pool.effort + ∑ w, lambdaRest s.tp w + readerRest s.tp () + 3
    rw [after, before]
  simp only [effort, move]
  omega

omit [DecidableEq W] [DecidableEq P] [Fintype W] [Fintype P] in
theorem heard_effort {tp : Submit W (Option P) Unit J O R} {e : Submit.Event W (Option P) J O R}
    (sound : Sound s) (heard : Heard s.tp tp e) :
    ∑ j, (hear s.phases e j).rest ≤ ∑ j, (s.phases j).rest := by
  have reading := sound.reading
  cases heard with
  | apart same unanswered ungot => rw [hear_apart unanswered ungot]
  | @answered j here next =>
    rw [here] at reading
    have point : s.phases j = .testing := reading
    have total := phase_rest s.phases j (.tested (s.tp.shared j).value.isSome)
    rw [point] at total
    simp only [hear, Phase.rest] at total ⊢
    omega
  | @got j v here full next =>
    rw [here] at reading
    have point : s.phases j = .getting := reading
    have total := phase_rest s.phases j (.got v)
    rw [point] at total
    simp only [hear, Phase.rest] at total ⊢
    omega
  | locked | slept | woke | notified | unlocked => exact Nat.le_refl _

theorem inner_lowers [Nonempty W] {a : Action W P J O R}
    (run : Run (step residue) AnyOrder (start sqEntries capacity) s log) (before : s.tp.pool.destructor = .idle)
    (inner : Inner s a) (taken : step residue s a = some (s', e)) : effort s' < effort s := by
  cases a with
  | call j => exact absurd inner not_false
  | go =>
    simp only [step] at taken
    split at taken
    · rename_i j own
      unfold goOn at taken
      split at taken
      · rename_i point
        split at taken
        · exact ask_effort taken (by simp) (by simp [point, Phase.rest])
        · simp at taken
      · rename_i point
        have given := (run_sound run).given j (by rw [point]; rfl)
        exact ask_effort taken (fun _ => given) (by simp [point, Phase.rest])
      · rename_i point
        split at taken
        · split at taken
          · cases taken
            exact move_effort s _ rfl rfl (by simp [point, Phase.rest])
          · simp at taken
        · simp at taken
      · rename_i v point
        split at taken
        · cases taken
          exact move_effort s _ rfl rfl (by simp [point, Phase.rest])
        · simp at taken
      · simp at taken
    · simp at taken
  | inner a =>
    simp only [step] at taken
    split at taken
    · rename_i passed
      obtain ⟨⟨tp,event⟩,moves,eq⟩ := Option.map_eq_some_iff.mp taken
      cases eq
      have lowers := Submit.inner_effort (run_submits run) before inner moves
      have still := heard_effort (run_sound run) (step_heard (passed_unasked passed) moves)
      simp only [effort]
      omega
    · simp at taken
  | submitSqes j =>
    simp only [step] at taken
    split at taken
    · rename_i point
      cases taken
      exact move_effort s _ rfl rfl (by simp [point, Phase.rest])
    · simp at taken
  | completeRead j =>
    simp only [step] at taken
    split at taken
    · rename_i point
      split at taken
      · cases taken
        exact move_effort s _ rfl rfl (by simp [point, Phase.rest])
      · simp at taken
    · simp at taken
  | resume j =>
    simp only [step] at taken
    split at taken
    · rename_i free point quiet
      have given := (run_sound run).given j (by rw [point]; rfl)
      split at taken
      · have lowers : effort s' < effort { s with completers := s.completers.erase j } :=
          ask_effort taken (fun _ => given) (by simp [point, Phase.rest])
        exact lowers
      · simp at taken
    · simp at taken

end Effort

section Listed
variable {sqEntries capacity : Nat} [DecidableEq W] [DecidableEq P] [DecidableEq J] [Fintype W]
  {residue : (j : J) → R j → R j} {s s' : WrapAsTask W P J O R}
  {e : Event W P J O R} {log : List (Event W P J O R)}

omit [DecidableEq W] [DecidableEq P] [Fintype W] in
theorem listed_move (listed : Listed s) {j : J} {next : Phase (R j)}
    (phases : s'.phases = Function.update s.phases j next) (sqOnce : s'.sq.Nodup)
    (sq : ∀ i ∈ s'.sq, (i = j ∧ next = .queued) ∨ (i ≠ j ∧ i ∈ s.sq))
    (completersOnce : s'.completers.Nodup)
    (completers : ∀ i ∈ s'.completers, (i = j ∧ next.waiting) ∨ (i ≠ j ∧ i ∈ s.completers)) :
    Listed s' := by
  refine ⟨sqOnce,?_,completersOnce,?_⟩
  · intro i member
    rw [phases]
    rcases sq i member with ⟨rfl,now⟩ | ⟨other,before⟩
    · simpa using now
    · simpa [other] using listed.sq i before
  · intro i member
    rw [phases]
    rcases completers i member with ⟨rfl,now⟩ | ⟨other,before⟩
    · simpa using now
    · simpa [other] using listed.completers i before

omit [DecidableEq W] [DecidableEq P] [DecidableEq J] [Fintype W] in
theorem unlisted (listed : Listed s) {j : J} (elsewhere : (s.phases j).waiting = false) :
    (∀ i ∈ s.sq, i ≠ j) ∧ ∀ i ∈ s.completers, i ≠ j := by
  refine ⟨?_,?_⟩
  · rintro i member rfl
    simp [listed.sq i member, Phase.waiting] at elsewhere
  · rintro i member rfl
    simp [listed.completers i member] at elsewhere

omit [DecidableEq W] [DecidableEq P] [Fintype W] in
theorem listed_elsewhere (listed : Listed s) {j : J} {next : Phase (R j)}
    (phases : s'.phases = Function.update s.phases j next) (sq : s'.sq = s.sq)
    (completers : s'.completers = s.completers) (elsewhere : (s.phases j).waiting = false) :
    Listed s' := by
  obtain ⟨unqueued,unmapped⟩ := unlisted listed elsewhere
  refine listed_move listed phases (sq ▸ listed.sqOnce) ?_ (completers ▸ listed.completersOnce) ?_
  · intro i member
    rw [sq] at member
    exact .inr ⟨unqueued i member,member⟩
  · intro i member
    rw [completers] at member
    exact .inr ⟨unmapped i member,member⟩

omit [DecidableEq W] [DecidableEq P] [Fintype W] in
theorem suspended_listed (listed : Listed s) {j : J} (point : s.phases j = .tested false) :
    Listed ({ s with
      current := none, sq := s.sq ++ [j], completers := s.completers ++ [j] }.move j .queued) := by
  obtain ⟨unqueued,unmapped⟩ := unlisted listed (j := j) (by rw [point]; rfl)
  refine listed_move listed (j := j) rfl ?_ ?_ ?_ ?_
  · exact listed.sqOnce.append (List.nodup_singleton j) (by simpa using fun member => unqueued j member rfl)
  · intro i member
    rcases List.mem_append.mp member with before | now
    · exact .inr ⟨unqueued i before,before⟩
    · exact .inl ⟨List.mem_singleton.mp now,rfl⟩
  · exact listed.completersOnce.append (List.nodup_singleton j)
      (by simpa using fun member => unmapped j member rfl)
  · intro i member
    rcases List.mem_append.mp member with before | now
    · exact .inr ⟨unmapped i before,before⟩
    · exact .inl ⟨List.mem_singleton.mp now,rfl⟩

theorem moved_listed (sound : Sound s) (listed : Listed s) (moved : Moved residue s s' e) :
    Listed s' := by
  cases moved with
  | @called j tp e free fresh taken =>
    exact listed_elsewhere listed (j := j) rfl rfl rfl (by rw [fresh]; rfl)
  | @tests j tp e own point taken =>
    exact listed_elsewhere listed (j := j) rfl rfl rfl (by rw [point]; rfl)
  | @gets j tp e own point taken =>
    exact listed_elsewhere listed (j := j) rfl rfl rfl (by rw [point]; rfl)
  | @resumed j tp e free point taken =>
    refine listed_move listed (j := j) rfl listed.sqOnce ?_ (listed.completersOnce.erase j) ?_
    · intro i member
      refine .inr ⟨?_,member⟩
      rintro rfl
      simp [listed.sq i member] at point
    · intro i member
      exact .inr (listed.completersOnce.mem_erase_iff.mp member)
  | suspended own point idle => exact suspended_listed listed point
  | @finished j v own point idle =>
    exact listed_elsewhere listed (j := j) rfl rfl rfl (by rw [point]; rfl)
  | @inner a tp event passed taken =>
    have reading := sound.reading
    cases step_heard (passed_unasked passed) taken with
    | apart same unanswered ungot =>
      rw [hear_apart unanswered ungot]
      exact ⟨listed.sqOnce,listed.sq,listed.completersOnce,listed.completers⟩
    | @answered i here next =>
      rw [here] at reading
      have asks : s.phases i = .testing := reading
      exact listed_elsewhere listed (j := i) rfl rfl rfl (by rw [asks]; rfl)
    | @got i v here full next =>
      rw [here] at reading
      have asks : s.phases i = .getting := reading
      exact listed_elsewhere listed (j := i) rfl rfl rfl (by rw [asks]; rfl)
    | locked | slept | woke | notified | unlocked =>
      exact ⟨listed.sqOnce,listed.sq,listed.completersOnce,listed.completers⟩
  | @submitted j point =>
    refine listed_move listed (j := j) rfl (listed.sqOnce.erase j) ?_ listed.completersOnce ?_
    · intro i member
      exact .inr (listed.sqOnce.mem_erase_iff.mp member)
    · intro i member
      by_cases same : i = j
      · exact .inl ⟨same,rfl⟩
      · exact .inr ⟨same,member⟩
  | @completed j buf point read raised =>
    refine listed_move listed (j := j) rfl listed.sqOnce ?_ listed.completersOnce ?_
    · intro i member
      refine .inr ⟨?_,member⟩
      rintro rfl
      simp [listed.sq i member] at point
    · intro i member
      by_cases same : i = j
      · exact .inl ⟨same,rfl⟩
      · exact .inr ⟨same,member⟩

theorem run_listed (run : Run (step residue) AnyOrder (start sqEntries capacity) s log) :
    Listed s := by
  induction run with
  | nil => exact ⟨List.nodup_nil,by simp [start],List.nodup_nil,by simp [start]⟩
  | next run _ taken ih => exact moved_listed (run_sound run) ih (step_moved taken)

omit [DecidableEq W] [DecidableEq P] [Fintype W] in
theorem listed_card [Fintype J] {calls : List J} (once : calls.Nodup)
    (inside : ∀ j ∈ calls, (s.phases j).underway) : calls.length ≤ s.underway.card := by
  rw [← List.toFinset_card_of_nodup once]
  refine Finset.card_le_card ?_
  intro j member
  simpa [underway] using inside j (List.mem_toFinset.mp member)

omit [DecidableEq W] [DecidableEq P] [Fintype W] in
theorem room_left [Fintype J] (listed : Listed s) (room : Room s) {j : J}
    (point : s.phases j = .tested false) :
    s.sq.length < s.sqEntries ∧ s.completers.length < s.capacity := by
  obtain ⟨unqueued,unmapped⟩ := unlisted listed (j := j) (by rw [point]; rfl)
  have queued : (j :: s.sq).length ≤ s.underway.card := by
    refine listed_card (List.nodup_cons.mpr ⟨fun member => unqueued j member rfl,listed.sqOnce⟩) ?_
    intro i member
    rcases List.mem_cons.mp member with rfl | member
    · rw [point]
      rfl
    · rw [listed.sq i member]
      rfl
  have mapped : (j :: s.completers).length ≤ s.underway.card := by
    refine listed_card
      (List.nodup_cons.mpr ⟨fun member => unmapped j member rfl,listed.completersOnce⟩) ?_
    intro i member
    rcases List.mem_cons.mp member with rfl | member
    · rw [point]
      rfl
    · have waiting := listed.completers i member
      cases there : s.phases i <;> simp_all [Phase.waiting, Phase.underway]
  exact ⟨Nat.lt_of_lt_of_le queued room.1,Nat.lt_of_lt_of_le mapped room.2⟩

end Listed

section Progress
variable {sqEntries capacity : Nat} [DecidableEq W] [DecidableEq P] [DecidableEq J] [Fintype W]
  {residue : (j : J) → R j → R j} {s s' : WrapAsTask W P J O R}
  {e : Event W P J O R} {log : List (Event W P J O R)}

def Proceeds (residue : (j : J) → R j → R j) (s : WrapAsTask W P J O R) : Prop :=
  ∃ a s' e, Inner s a ∧ step residue s a = some (s', e)

omit [DecidableEq W] [DecidableEq P] [DecidableEq J] [Fintype W] in
theorem inner_passes {a : Submit.Action W (Option P) Unit J O R} (inner : Submit.Inner s.tp a) :
    s.passes a := by
  cases a with
  | submit p j => exact absurd inner not_false
  | ask q j question => exact absurd inner not_false
  | pool b =>
    cases b with
    | call p task => exact absurd inner not_false
    | _ => rfl
  | _ => rfl

theorem tp_proceeds (proceeds : Submit.Proceeds residue s.tp) : Proceeds residue s := by
  obtain ⟨a,tp,event,inner,taken⟩ := proceeds
  exact ⟨.inner a,{ s with tp := tp, phases := hear s.phases event },some event,inner,
    by simp [step, inner_passes inner, taken]⟩

theorem step_proceeds {a : Action W P J O R} (inner : Inner s a)
    (defined : (step residue s a).isSome) : Proceeds residue s := by
  obtain ⟨⟨s',e⟩,taken⟩ := Option.isSome_iff_exists.mp defined
  exact ⟨a,s',e,inner,taken⟩

theorem current_proceeds [Fintype J] (sound : Sound s) (listed : Listed s) (room : Room s)
    (rest : Submit.Rests s.tp) {j : J} (own : s.current = some j) : Proceeds residue s := by
  have idle := rest.readers ()
  have active := (sound.own j).mpr own
  have quiet := rest.pool.pushers none
  have nobody : ∀ i, (s.phases i).asking = false := by
    have reading := sound.reading
    rwa [idle] at reading
  have begun : s.tp.submitted j = true := by
    apply sound.begun
    intro fresh
    rw [fresh] at active
    cases active
  refine step_proceeds (a := .go) trivial ?_
  cases point : s.phases j with
  | submitting => simp [step, own, goOn, point, quiet, ask, Submit.step, idle, begun]
  | tested ready =>
    cases ready with
    | true => simp [step, own, goOn, point, ask, Submit.step, idle, begun]
    | false => simp [step, own, goOn, point, idle, room_left listed room point]
  | got v => simp [step, own, goOn, point, idle]
  | testing | getting =>
    have asks := nobody j
    rw [point] at asks
    cases asks
  | fresh | queued | pending | completed | returned =>
    rw [point] at active
    cases active

theorem rest_raised {j : J} (run : Run (step residue) AnyOrder (start sqEntries capacity) s log)
    (rest : Submit.Rests s.tp) (begun : s.phases j ≠ .fresh) : (s.tp.shared j).counter = 1 := by
  have submits := run_submits run
  obtain ⟨w,completed⟩ := rest_completed submits rest.pool ((run_sound run).begun j begun)
  exact (run_counted submits j).done w completed

theorem free_proceeds {j : J}
    (run : Run (step residue) AnyOrder (start sqEntries capacity) s log)
    (rest : Submit.Rests s.tp) (free : s.current = none) (busy : (s.phases j).underway) :
    Proceeds residue s := by
  have sound := run_sound run
  have quiet := rest.pool.pushers none
  have idle := rest.readers ()
  have inactive : (s.phases j).active = false := by
    rw [← Bool.not_eq_true, sound.own j, free]
    simp
  cases point : s.phases j with
  | fresh | returned =>
    rw [point] at busy
    cases busy
  | queued => exact step_proceeds (a := .submitSqes j) trivial (by simp [step, point])
  | pending =>
    have untouched := sound.unread j (by rw [point]; rfl)
    have raised := rest_raised run rest (j := j) (by simp [point])
    have more : 0 < (s.tp.shared j).counter - s.consumed j := by omega
    exact step_proceeds (a := .completeRead j) trivial (by simp only [step, point, if_pos more]; rfl)
  | completed buf =>
    obtain rfl := sound.one j buf point
    have begun := sound.begun j (by simp [point])
    refine step_proceeds (a := .resume j) trivial ?_
    simp [step, free, point, quiet, ask, Submit.step, idle, begun]
  | submitting | testing | tested | getting | got =>
    rw [point] at inactive
    cases inactive

theorem rests_or_proceeds [Nonempty W] [Fintype J] (result : (j : J) → R j)
    (run : Run (step residue) AnyOrder (start sqEntries capacity) s log)
    (before : s.tp.pool.destructor = .idle) (room : Room s) : Rests s ∨ Proceeds residue s := by
  rcases Submit.rests_or_proceeds result (run_submits run) before with rest | proceeds
  · cases own : s.current with
    | some j => exact .inr (current_proceeds (run_sound run) (run_listed run) room rest own)
    | none =>
      by_cases settled : ∀ j, (s.phases j).underway = false
      · exact .inl ⟨rest,settled⟩
      · obtain ⟨j,busy⟩ := not_forall.mp settled
        exact .inr (free_proceeds run rest own (by simpa using busy))
  · exact .inr (tp_proceeds proceeds)

theorem rests_stays (sound : Sound s) (rest : Rests s) : ¬ Proceeds residue s := by
  rintro ⟨a,s',e,inner,taken⟩
  cases a with
  | call j => exact inner
  | go =>
    cases own : s.current with
    | none => simp [step, own] at taken
    | some j =>
      have active := (sound.own j).mpr own
      have settled := rest.calls j
      cases point : s.phases j <;> simp_all [Phase.active, Phase.underway]
  | inner a =>
    simp only [step] at taken
    split at taken
    · obtain ⟨⟨tp,event⟩,moves,_⟩ := Option.map_eq_some_iff.mp taken
      exact Submit.rests_stays rest.tp ⟨a,tp,event,inner,moves⟩
    · simp at taken
  | submitSqes j =>
    simp only [step] at taken
    split at taken
    · rename_i point
      simpa [point, Phase.underway] using rest.calls j
    · simp at taken
  | completeRead j =>
    simp only [step] at taken
    split at taken
    · rename_i point
      simpa [point, Phase.underway] using rest.calls j
    · simp at taken
  | resume j =>
    simp only [step] at taken
    split at taken
    · rename_i point _
      simpa [point, Phase.underway] using rest.calls j
    · simp at taken

theorem rest_returned {j : J} (run : Run (step residue) AnyOrder (start sqEntries capacity) s log)
    (rest : Rests s) (begun : s.phases j ≠ .fresh) :
    ∃ v, s.phases j = .returned v ∧ history j (submitLog log) = [.called, .returned v, .got v] := by
  have told := run_told run j
  have settled := rest.calls j
  cases point : s.phases j with
  | returned v =>
    rw [point] at told
    exact ⟨v,rfl,told⟩
  | fresh => exact absurd point begun
  | _ => simp [point, Phase.underway] at settled

end Progress

section Runs
variable {sqEntries capacity : Nat} [DecidableEq W] [DecidableEq P] [DecidableEq J] [Fintype W]
  {residue : (j : J) → R j → R j} {s s' final : WrapAsTask W P J O R}
  {e : Event W P J O R} {log more : List (Event W P J O R)}

theorem ask_pool {j : J} {question : Question} {next : Phase (R j)}
    (taken : s.ask residue j (.ask () j question) next = some (s', e)) :
    s'.tp.pool = s.tp.pool := by
  obtain ⟨⟨tp,event⟩,moves,eq⟩ := Option.map_eq_some_iff.mp taken
  cases eq
  obtain ⟨rfl,_,_⟩ := asked_reader moves
  rfl

theorem goOn_pool {j : J} (taken : s.goOn residue j = some (s', e)) :
    s'.tp.pool = s.tp.pool := by
  unfold goOn at taken
  split at taken
  · split at taken
    · exact ask_pool taken
    · simp at taken
  · exact ask_pool taken
  · split at taken
    · split at taken
      · cases taken
        rfl
      · simp at taken
    · simp at taken
  · split at taken
    · cases taken
      rfl
    · simp at taken
  · simp at taken

theorem inner_before {a : Action W P J O R} (before : s.tp.pool.destructor = .idle)
    (inner : Inner s a) (taken : step residue s a = some (s', e)) :
    s'.tp.pool.destructor = .idle := by
  cases a with
  | call j => exact absurd inner not_false
  | go =>
    simp only [step] at taken
    split at taken
    · rw [goOn_pool taken, before]
    · simp at taken
  | inner a =>
    simp only [step] at taken
    split at taken
    · obtain ⟨⟨tp,event⟩,moves,eq⟩ := Option.map_eq_some_iff.mp taken
      cases eq
      exact Submit.inner_before before inner moves
    · simp at taken
  | submitSqes j =>
    simp only [step] at taken
    split at taken
    · cases taken
      exact before
    · simp at taken
  | completeRead j =>
    simp only [step] at taken
    split at taken
    · split at taken
      · cases taken
        exact before
      · simp at taken
    · simp at taken
  | resume j =>
    simp only [step] at taken
    split at taken
    · split at taken
      · rw [ask_pool taken, before]
      · simp at taken
    · simp at taken

omit [DecidableEq W] [DecidableEq P] [Fintype W] in
theorem move_room [Fintype J] (room : Room s) {j : J} {next : Phase (R j)}
    (phases : s'.phases = Function.update s.phases j next) (sqEntries : s'.sqEntries = s.sqEntries)
    (capacity : s'.capacity = s.capacity) (before : (s.phases j).underway) : Room s' := by
  have fewer : s'.underway ⊆ s.underway := by
    intro i member
    by_cases same : i = j
    · subst same
      simpa [underway] using before
    · simpa [underway, phases, same] using member
  have card := Finset.card_le_card fewer
  exact ⟨by rw [sqEntries]; exact card.trans room.1,by rw [capacity]; exact card.trans room.2⟩

theorem ask_room [Fintype J] (room : Room s) {j : J} {question : Question} {next : Phase (R j)}
    (taken : s.ask residue j (.ask () j question) next = some (s', e))
    (before : (s.phases j).underway) : Room s' := by
  obtain ⟨⟨tp,event⟩,_,eq⟩ := Option.map_eq_some_iff.mp taken
  cases eq
  exact move_room room rfl rfl rfl before

theorem goOn_room [Fintype J] (room : Room s) {j : J} (taken : s.goOn residue j = some (s', e)) :
    Room s' := by
  unfold goOn at taken
  split at taken
  · rename_i point
    split at taken
    · exact ask_room room taken (by rw [point]; rfl)
    · simp at taken
  · rename_i point
    exact ask_room room taken (by rw [point]; rfl)
  · rename_i point
    split at taken
    · split at taken
      · cases taken
        exact move_room room (j := j) rfl rfl rfl (by rw [point]; rfl)
      · simp at taken
    · simp at taken
  · rename_i v point
    split at taken
    · cases taken
      exact move_room room (j := j) rfl rfl rfl (by rw [point]; rfl)
    · simp at taken
  · simp at taken

omit [DecidableEq W] [DecidableEq P] [Fintype W] in
theorem heard_room [Fintype J] (sound : Sound s) (room : Room s)
    {tp : Submit W (Option P) Unit J O R} {e : Submit.Event W (Option P) J O R}
    (heard : Heard s.tp tp e) : Room { s with tp := tp, phases := hear s.phases e } := by
  have reading := sound.reading
  cases heard with
  | apart same unanswered ungot =>
    rw [hear_apart unanswered ungot]
    exact room
  | @answered j here next =>
    rw [here] at reading
    have point : s.phases j = .testing := reading
    exact move_room room (j := j) rfl rfl rfl (by rw [point]; rfl)
  | @got j v here full next =>
    rw [here] at reading
    have point : s.phases j = .getting := reading
    exact move_room room (j := j) rfl rfl rfl (by rw [point]; rfl)
  | locked | slept | woke | notified | unlocked => exact room

theorem inner_room [Fintype J] {a : Action W P J O R} (sound : Sound s) (room : Room s)
    (inner : Inner s a) (taken : step residue s a = some (s', e)) : Room s' := by
  cases a with
  | call j => exact absurd inner not_false
  | go =>
    simp only [step] at taken
    split at taken
    · exact goOn_room room taken
    · simp at taken
  | inner a =>
    simp only [step] at taken
    split at taken
    · rename_i passed
      obtain ⟨⟨tp,event⟩,moves,eq⟩ := Option.map_eq_some_iff.mp taken
      cases eq
      exact heard_room sound room (step_heard (passed_unasked passed) moves)
    · simp at taken
  | submitSqes j =>
    simp only [step] at taken
    split at taken
    · rename_i point
      cases taken
      exact move_room room (j := j) rfl rfl rfl (by rw [point]; rfl)
    · simp at taken
  | completeRead j =>
    simp only [step] at taken
    split at taken
    · rename_i point
      split at taken
      · cases taken
        exact move_room room (j := j) rfl rfl rfl (by rw [point]; rfl)
      · simp at taken
    · simp at taken
  | resume j =>
    simp only [step] at taken
    split at taken
    · rename_i free point quiet
      split at taken
      · have mapped : Room { s with completers := s.completers.erase j } := room
        exact ask_room mapped taken (by rw [point]; rfl)
      · simp at taken
    · simp at taken

theorem inner_spends [Nonempty W] [Fintype P] [Fintype J] (s : WrapAsTask W P J O R)
    (log : List (Event W P J O R)) (a : Action W P J O R) (s' : WrapAsTask W P J O R)
    (e : Event W P J O R)
    (holds : Run (step residue) AnyOrder (start sqEntries capacity) s log ∧
      s.tp.pool.destructor = .idle ∧ Room s)
    (inner : Inner s a) (taken : step residue s a = some (s', e)) :
    (Run (step residue) AnyOrder (start sqEntries capacity) s' (e :: log) ∧
      s'.tp.pool.destructor = .idle ∧ Room s') ∧ effort s' < effort s := by
  obtain ⟨run,before,room⟩ := holds
  exact ⟨⟨.next run trivial taken,inner_before before inner taken,
    inner_room (run_sound run) room inner taken⟩,inner_lowers run before inner taken⟩

theorem reaches_rest [Nonempty W] [Fintype P] [Fintype J] (result : (j : J) → R j)
    (run : Run (step residue) AnyOrder (start sqEntries capacity) s log)
    (before : s.tp.pool.destructor = .idle) (room : Room s) :
    ∃ more final, Run (step residue) (fun s _ a => Inner s a) s final more ∧ Rests final := by
  obtain ⟨more,final,inner,_,rest⟩ := Run.comes_to_rest _ _ Rests inner_spends
    (fun _ _ holds busy => (rests_or_proceeds result holds.1 holds.2.1 holds.2.2).resolve_left busy)
    ⟨run,before,room⟩
  exact ⟨more,final,inner,rest⟩

/-- Before the destructor of the pool begins, and with room in the submission queue and in the
map of completers for all calls under way, wrapped calls come to an end: pool, loop thread and
kernel rest after boundedly many steps in any order and stop short of that in none, and at
rest every call has returned what its function returned in its only call. -/
theorem wrapped_calls_finish [Nonempty W] [Fintype P] [Fintype J] (result : (j : J) → R j)
    (run : Run (step residue) AnyOrder (start sqEntries capacity) s log)
    (before : s.tp.pool.destructor = .idle) (room : Room s) :
    (∀ more final, Run (step residue) (fun s _ a => Inner s a) s final more →
      more.length + effort final ≤ effort s ∧ (Rests final ↔ ¬ Proceeds residue final) ∧
      (Rests final → ∀ j, final.phases j ≠ .fresh → ∃ v, final.phases j = .returned v ∧
        history j (submitLog (more ++ log)) = [.called, .returned v, .got v])) ∧
    ∃ more final, Run (step residue) (fun s _ a => Inner s a) s final more ∧ Rests final := by
  refine ⟨?_,reaches_rest result run before room⟩
  intro more final rest
  obtain ⟨⟨whole,still,fits⟩,bound⟩ := Run.spends _ _ inner_spends ⟨run,before,room⟩ rest
  refine ⟨bound,⟨rests_stays (run_sound whole),?_⟩,?_⟩
  · exact fun stuck => (rests_or_proceeds result whole still fits).resolve_right stuck
  · exact fun rests j begun => rest_returned whole rests begun

end Runs

theorem two_calls_finish :
    ∃ s : WrapAsTask Unit Empty Bool Empty fun _ => Nat, ∃ log,
      Run (step fun _ => id) AnyOrder (start 64 53) s log ∧ s.phases true = .pending ∧
      s.phases false = .submitting ∧
      ∃ more final, Run (step fun _ => id) (fun s _ a => Inner s a) s final more ∧ Rests final := by
  let actions : List (Action Unit Empty Bool Empty fun _ => Nat) :=
    [.call true, .inner (.pool (.push none)), .inner (.pool (.push none)),
      .inner (.pool (.notifyOne none none)), .go, .inner (.read ()), .inner (.read ()),
      .inner (.read ()), .go, .submitSqes true] ++
    List.replicate 7 (.inner (.pool (.work ()))) ++ [.inner (.work ()), .call false]
  have computed : (replay (step fun _ => id) AnyOrder
      (start 64 53 : WrapAsTask Unit Empty Bool Empty fun _ => Nat) [] actions).map
      (fun (s, _) => (s.tp.pool.destructor, (s.phases true : Phase Nat),
        (s.phases false : Phase Nat), s.sqEntries, s.capacity)) =
        some (.idle, (.pending : Phase Nat), (.submitting : Phase Nat), 64, 53) := by
    decide +kernel
  obtain ⟨s,log,run,facts⟩ := replay_reaches computed
  obtain ⟨before,points⟩ := Prod.mk.inj facts
  obtain ⟨first,points⟩ := Prod.mk.inj points
  obtain ⟨second,limits⟩ := Prod.mk.inj points
  obtain ⟨entries,capacity⟩ := Prod.mk.inj limits
  have few : s.underway.card ≤ 2 := Finset.card_le_univ _
  have room : Room s := ⟨by omega,by omega⟩
  exact ⟨s,log,run,first,second,(wrapped_calls_finish (fun _ => (42 : Nat)) run before room).2⟩

end WrapAsTask
end Aiopp
