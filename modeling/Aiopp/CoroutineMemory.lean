import Aiopp.DirectExecution

/-!
The heap of the coroutines. Every frame that is allocated lies on the chain of a coroutine that
has begun and not returned, so that none is left behind; and every operation under way is held
by one frame, which lives until the completion of the operation has been consumed.
-/
namespace Aiopp
namespace Coroutine
open DirectStyle IoQueue Transition
variable {C V L : Type}

def Inner (point : Point V L) : Prop := ∀ task k, point ≠ .awaiting task k

def Chain (frameAt : Nat → Option (Frame C V L)) (c : C) (frames : List Nat) : Prop :=
  ∃ top continuation point ks ids, Stack frameAt c top continuation point ks ids ∧ Inner point ∧
    frames = top :: ids

/-- A coroutine has no other frames than these. -/
def Gathered (frameAt : Nat → Option (Frame C V L)) (c : C) (frames : List Nat) : Prop :=
  ∀ f frame, frameAt f = some frame → frame.owner = c → f ∈ frames

def Elsewhere (c : C) (frameAt frameAt' : Nat → Option (Frame C V L)) : Prop :=
  ∀ f frame, frame.owner ≠ c → (frameAt' f = some frame ↔ frameAt f = some frame)

section Heap
variable {frameAt frameAt' frameAt'' : Nat → Option (Frame C V L)} {c : C} {child top f : Nat}
  {continuation : Option Nat} {point : Point V L} {ks ks' : List (V → L)} {ids ids' frames : List Nat}

theorem linked_awaits (linked : Linked frameAt c child continuation ks ids) :
    ∀ f ∈ ids, ∃ continuation task k, frameAt f = some ⟨c,continuation,.awaiting task k⟩ := by
  induction linked with
  | root child => simp
  | task stored rest ih =>
    intro f member
    rcases List.mem_cons.mp member with rfl | outer
    · exact ⟨_,_,_,stored⟩
    · exact ih f outer

theorem linked_unique (first : Linked frameAt c child continuation ks ids)
    (second : Linked frameAt c child continuation ks' ids') : ids = ids' := by
  induction first generalizing ks' ids' with
  | root child =>
    cases second
    rfl
  | task stored rest ih =>
    cases second with
    | task stored' rest' =>
      obtain ⟨_,rfl,_⟩ := Frame.mk.inj (Option.some.inj (stored.symm.trans stored'))
      rw [ih rest']

theorem chain_unique (chain : Chain frameAt c frames) (gathered : Gathered frameAt c frames)
    (stack : Stack frameAt c top continuation point ks ids) (inner : Inner point) :
    frames = top :: ids := by
  obtain ⟨top',continuation',point',ks',ids',stack',_,rfl⟩ := chain
  have inside := gathered top _ stack.stored rfl
  rcases List.mem_cons.mp inside with rfl | outer
  · obtain ⟨_,rfl,_⟩ := Frame.mk.inj (Option.some.inj (stack.stored.symm.trans stack'.stored))
    rw [linked_unique stack.linked stack'.linked]
  · obtain ⟨_,task,k,stored⟩ := linked_awaits stack'.linked top outer
    obtain ⟨_,_,same⟩ := Frame.mk.inj (Option.some.inj (stack.stored.symm.trans stored))
    exact absurd same (inner task k)

theorem inner_top {continuation' : Option Nat} {point' : Point V L}
    (stack : Stack frameAt c top continuation point ks ids)
    (gathered : Gathered frameAt c (top :: ids))
    (stored : frameAt f = some ⟨c,continuation',point'⟩) (inner : Inner point') :
    f = top ∧ point' = point := by
  rcases List.mem_cons.mp (gathered f _ stored rfl) with rfl | outer
  · obtain ⟨_,_,same⟩ := Frame.mk.inj (Option.some.inj (stored.symm.trans stack.stored))
    exact ⟨rfl,same⟩
  · obtain ⟨_,task,k,there⟩ := linked_awaits stack.linked f outer
    obtain ⟨_,_,same⟩ := Frame.mk.inj (Option.some.inj (stored.symm.trans there))
    exact absurd same (inner task k)

theorem elsewhere_update {value : Option (Frame C V L)}
    (before : ∀ frame, frameAt f = some frame → frame.owner = c)
    (after : ∀ frame, value = some frame → frame.owner = c) :
    Elsewhere c frameAt (Function.update frameAt f value) := by
  intro g frame other
  by_cases same : g = f
  · subst same
    rw [Function.update_self]
    constructor
    · intro there
      exact absurd (after frame there) other
    · intro there
      exact absurd (before frame there) other
  · rw [Function.update_of_ne same]

theorem Elsewhere.trans (first : Elsewhere c frameAt frameAt')
    (second : Elsewhere c frameAt' frameAt'') : Elsewhere c frameAt frameAt'' :=
  fun f frame other => (second f frame other).trans (first f frame other)

theorem elsewhere_pair {g : Nat} {value value' : Option (Frame C V L)}
    (first : ∀ frame, frameAt g = some frame → frame.owner = c)
    (new : ∀ frame, value = some frame → frame.owner = c)
    (second : ∀ frame, frameAt f = some frame → frame.owner = c)
    (new' : ∀ frame, value' = some frame → frame.owner = c) :
    Elsewhere c frameAt (Function.update (Function.update frameAt g value) f value') := by
  refine (elsewhere_update first new).trans (elsewhere_update ?_ new')
  intro frame there
  by_cases same : f = g
  · rw [same, Function.update_self] at there
    exact new frame there
  · rw [Function.update_of_ne same] at there
    exact second frame there

theorem elsewhere_chain {c' : C} (other : c' ≠ c) (elsewhere : Elsewhere c frameAt frameAt')
    (chain : Chain frameAt c' frames) : Chain frameAt' c' frames := by
  obtain ⟨top,continuation,point,ks,ids,stack,inner,rfl⟩ := chain
  refine ⟨top,continuation,point,ks,ids,stack_kept stack ?_,inner,rfl⟩
  rintro f frame rfl stored
  exact (elsewhere f frame other).mpr stored

theorem elsewhere_gathered {c' : C} (other : c' ≠ c) (elsewhere : Elsewhere c frameAt frameAt')
    (gathered : Gathered frameAt c' frames) : Gathered frameAt' c' frames := by
  rintro f frame stored rfl
  exact gathered f frame ((elsewhere f frame other).mp stored) rfl

theorem gathered_update (gathered : Gathered frameAt c frames) (inside : f ∈ frames)
    (value : Option (Frame C V L)) : Gathered (Function.update frameAt f value) c frames := by
  intro g frame stored own
  by_cases same : g = f
  · exact same ▸ inside
  · rw [Function.update_of_ne same] at stored
    exact gathered g frame stored own

theorem gathered_put (gathered : Gathered frameAt c frames) (value : Option (Frame C V L)) :
    Gathered (Function.update frameAt f value) c (f :: frames) := by
  refine gathered_update ?_ (by simp) value
  intro g frame stored own
  exact List.mem_cons_of_mem f (gathered g frame stored own)

theorem gathered_gone (gathered : Gathered frameAt c (f :: frames)) :
    Gathered (Function.update frameAt f none) c frames := by
  intro g frame stored own
  have apart : g ≠ f := by
    rintro rfl
    simp at stored
  rw [Function.update_of_ne apart] at stored
  exact (List.mem_cons.mp (gathered g frame stored own)).resolve_left apart

theorem stack_below {caller : Nat} (stack : Stack frameAt c top (some caller) point ks ids) :
    ∃ ids', ids = caller :: ids' := by
  cases stack.linked with
  | task stored rest => exact ⟨_,rfl⟩

theorem stack_handed {caller : Nat} {k : V → L}
    (stack : Stack frameAt c top (some caller) point ks (caller :: ids))
    (waiting : frameAt caller = some ⟨c,continuation,.awaiting top k⟩) (point' : Point V L) :
    Stack (Function.update (Function.update frameAt top none) caller
      (some ⟨c,continuation,point'⟩)) c caller continuation point' ks.tail ids := by
  obtain ⟨_,linked,distinct⟩ := stack
  cases linked with
  | @task _ _ continuation' _ _ _ stored rest =>
    obtain ⟨_,rfl,_⟩ := Frame.mk.inj (Option.some.inj (stored.symm.trans waiting))
    have below := List.nodup_cons.mp (List.nodup_cons.mp distinct).2
    refine ⟨by simp,linked_frame rest ?_,List.nodup_cons.mpr below⟩
    intro f member
    rw [Function.update_of_ne, Function.update_of_ne]
    · rintro rfl
      exact (List.nodup_cons.mp distinct).1 (List.mem_cons_of_mem _ member)
    · rintro rfl
      exact below.1 member

end Heap

variable [DecidableEq C]

/-- Every frame lies on the chain of its owner, which has begun and not returned. -/
structure Tidy (m : Machine C V L) (log : List (Event C V)) : Prop where
  begun : ∀ f frame, m.frameAt f = some frame →
    own frame.owner log ≠ [] ∧ results frame.owner log = []
  chained : ∀ f frame, m.frameAt f = some frame →
    ∃ frames, Chain m.frameAt frame.owner frames ∧ Gathered m.frameAt frame.owner frames

section Steps
variable {p : Program C V L} {size : UInt64} {m m' : Machine C V L} {log : List (Event C V)}
  {c : C} {who : Option C} {e : Event C V} {a : Action C} {f : Nat}

theorem unreturned_cons (before : own c log ≠ [] ∧ results c log = []) (silent : e.result = []) :
    own c (e :: log) ≠ [] ∧ results c (e :: log) = [] := by
  obtain ⟨begun,unreturned⟩ := before
  rw [results, own_cons]
  split
  · rw [List.flatMap_append]
    exact ⟨by simp,by simp [silent, show (own c log).flatMap Event.result = [] from unreturned]⟩
  · exact ⟨begun,unreturned⟩

theorem concerns_other (owner : ∀ note, e.note = some note → note.owner = c) {c' : C}
    (other : c' ≠ c) : e.concerns c' = false := by
  cases note : e.note with
  | none => simp [Event.concerns, note]
  | some n => simp [Event.concerns, note, owner n note, Ne.symm other]

/-- What one coroutine does with its frames does not concern the others. -/
theorem tidy_moves (tidy : Tidy m log) (elsewhere : Elsewhere c m.frameAt m'.frameAt)
    (owner : ∀ note, e.note = some note → note.owner = c)
    (mine : (∀ f frame, m'.frameAt f = some frame → frame.owner ≠ c) ∨
      (own c (e :: log) ≠ [] ∧ results c (e :: log) = []) ∧
        ∃ frames, Chain m'.frameAt c frames ∧ Gathered m'.frameAt c frames) :
    Tidy m' (e :: log) := by
  constructor
  · intro f frame stored
    by_cases same : frame.owner = c
    · obtain ⟨begun,_⟩ := mine.resolve_left fun gone => gone f frame stored same
      exact same ▸ begun
    · rw [results, own_other (concerns_other owner same)]
      exact tidy.begun f frame ((elsewhere f frame same).mp stored)
  · intro f frame stored
    by_cases same : frame.owner = c
    · obtain ⟨_,chain⟩ := mine.resolve_left fun gone => gone f frame stored same
      exact same ▸ chain
    · obtain ⟨frames,chain,gathered⟩ :=
        tidy.chained f frame ((elsewhere f frame same).mp stored)
      exact ⟨frames,elsewhere_chain same elsewhere chain,elsewhere_gathered same elsewhere gathered⟩

theorem tidy_same (tidy : Tidy m log) (same : m'.frameAt = m.frameAt) (silent : e.result = []) :
    Tidy m' (e :: log) := by
  constructor
  · intro f frame stored
    exact unreturned_cons (tidy.begun f frame (same ▸ stored)) silent
  · rw [same]
    exact tidy.chained

section Chained
variable {continuation : Option Nat} {point : Point V L} {ks : List (V → L)} {ids : List Nat}

theorem chain_gathered (tidy : Tidy m log) (stack : Stack m.frameAt c f continuation point ks ids)
    (inner : Inner point) : Gathered m.frameAt c (f :: ids) := by
  obtain ⟨frames,chain,gathered⟩ := tidy.chained f _ stack.stored
  rwa [chain_unique chain gathered stack inner] at gathered

theorem inner_unique {g : Nat} {frame frame' : Frame C V L} (tidy : Tidy m log)
    (stored : m.frameAt f = some frame) (stored' : m.frameAt g = some frame')
    (same : frame.owner = frame'.owner) (inner : Inner frame.point) (inner' : Inner frame'.point) :
    f = g := by
  obtain ⟨frames,⟨top,_,_,_,ids,stack,_,rfl⟩,gathered⟩ := tidy.chained f frame stored
  obtain ⟨c,_,_⟩ := frame
  obtain ⟨c',_,_⟩ := frame'
  obtain rfl : c = c' := same
  obtain ⟨rfl,_⟩ := inner_top stack gathered stored inner
  obtain ⟨rfl,_⟩ := inner_top stack gathered stored' inner'
  rfl

theorem tidy_put (tidy : Tidy m log) (stack : Stack m.frameAt c f continuation point ks ids)
    (inner : Inner point) {point' : Point V L} (inner' : Inner point')
    (put : m'.frameAt = Function.update m.frameAt f (some ⟨c,continuation,point'⟩))
    (owner : ∀ note, e.note = some note → note.owner = c) (silent : e.result = []) :
    Tidy m' (e :: log) := by
  have gathered := chain_gathered tidy stack inner
  refine tidy_moves tidy ?_ owner (.inr ⟨unreturned_cons (tidy.begun f _ stack.stored) silent,
    f :: ids,?_,?_⟩)
  · rw [put]
    exact elsewhere_update (owner_of_stored stack.stored) (by simp)
  · rw [put]
    exact ⟨f,continuation,point',ks,ids,stack_put stack point',inner',rfl⟩
  · rw [put]
    exact gathered_update gathered (by simp) _

theorem start_tidy (tidy : Tidy m log) (fresh : own c log = []) (free : m.frameAt f = none)
    {l : L} (put : m'.frameAt = Function.update m.frameAt f (some ⟨c,none,.running l⟩))
    (note : e.note = some (.started c)) : Tidy m' (e :: log) := by
  have nothing : Gathered m.frameAt c [] := by
    rintro g frame stored rfl
    exact absurd fresh (tidy.begun g frame stored).1
  have mine : own c (e :: log) = own c log ++ [e] :=
    own_mine (by simp [Event.concerns, note, Note.owner]) log
  refine tidy_moves (c := c) tidy ?_ (by simp [note, Note.owner]) (.inr ⟨⟨?_,?_⟩,[f],?_,?_⟩)
  · rw [put]
    exact elsewhere_update (by simp [free]) (by simp)
  · simp [mine]
  · rw [results, mine, fresh]
    simp [Event.result, note]
  · rw [put]
    exact ⟨f,none,.running l,[],[],⟨by simp,.root f,by simp⟩,by simp [Inner],rfl⟩
  · rw [put]
    exact gathered_put nothing _

theorem call_tidy (tidy : Tidy m log) {l task : L} {child : Nat} {k : V → L}
    (stack : Stack m.frameAt c f continuation (.running l) ks ids) (free : m.frameAt child = none)
    (put : m'.frameAt = Function.update (Function.update m.frameAt child
      (some ⟨c,some f,.running task⟩)) f (some ⟨c,continuation,.awaiting child k⟩))
    (owner : ∀ note, e.note = some note → note.owner = c) (silent : e.result = []) :
    Tidy m' (e :: log) := by
  have gathered := chain_gathered tidy stack (by simp [Inner])
  refine tidy_moves (c := c) tidy ?_ owner
    (.inr ⟨unreturned_cons (tidy.begun f _ stack.stored) silent,child :: f :: ids,?_,?_⟩)
  · rw [put]
    exact elsewhere_pair (by simp [free]) (by simp) (owner_of_stored stack.stored) (by simp)
  · rw [put]
    exact ⟨child,some f,_,_,_,stack_call stack free,by simp [Inner],rfl⟩
  · rw [put]
    exact gathered_update (gathered_put gathered _) (by simp) _

theorem hand_tidy (tidy : Tidy m log) {task : Nat} {l : L} {k : V → L} {v : V}
    {continuation' : Option Nat}
    (stack : Stack m.frameAt c task (some f) (.final v) ks ids)
    (waiting : m.frameAt f = some ⟨c,continuation',.awaiting task k⟩)
    (put : m'.frameAt = Function.update (Function.update m.frameAt task none) f
      (some ⟨c,continuation',.running l⟩))
    (owner : ∀ note, e.note = some note → note.owner = c) (silent : e.result = []) :
    Tidy m' (e :: log) := by
  obtain ⟨ids,rfl⟩ := stack_below stack
  have gathered := chain_gathered tidy stack (by simp [Inner])
  refine tidy_moves (c := c) tidy ?_ owner
    (.inr ⟨unreturned_cons (tidy.begun f _ waiting) silent,f :: ids,?_,?_⟩)
  · rw [put]
    exact elsewhere_pair (owner_of_stored stack.stored) (by simp) (owner_of_stored waiting) (by simp)
  · rw [put]
    exact ⟨f,_,_,_,ids,stack_handed stack waiting (.running l),by simp [Inner],rfl⟩
  · rw [put]
    exact gathered_update (gathered_gone gathered) (by simp) _

end Chained

theorem moved_tidy (sound : Sound p size m log who) (tidy : Tidy m log) (allowed : Fresh m log a)
    (moved : Moved p m a m' e) : Tidy m' (e :: log) := by
  cases moved with
  | started c kind idle free =>
    subst kind
    exact start_tidy tidy allowed free rfl rfl
  | ended control stored here =>
    obtain ⟨rfl,busy⟩ := sound_active sound control stored
    cases busy with
    | running stack seen =>
      exact tidy_put tidy stack (by simp [Inner]) (by simp [Inner]) rfl (by simp [Note.owner]) rfl
  | @returned f c l v control stored here =>
    obtain ⟨rfl,busy⟩ := sound_active sound control stored
    cases busy with
    | running stack seen =>
      have gathered := chain_gathered tidy stack (by simp [Inner])
      cases stack.linked with
      | root =>
        refine tidy_moves (c := c) tidy (elsewhere_update (owner_of_stored stored) (by simp))
          (by simp [Note.owner]) (.inl ?_)
        intro g frame there own
        exact absurd (gathered_gone gathered g frame there own) (by simp)
  | asked slot control stored here valid =>
    obtain ⟨rfl,busy⟩ := sound_active sound control stored
    cases busy with
    | running stack seen =>
      exact tidy_put tidy stack (by simp [Inner]) (by simp [Inner]) rfl (by simp [Note.owner]) rfl
  | called control stored here free =>
    obtain ⟨rfl,busy⟩ := sound_active sound control stored
    cases busy with
    | running stack seen => exact call_tidy tidy stack free rfl (by simp [Note.owner]) rfl
  | awaited control stored run =>
    obtain ⟨rfl,busy⟩ := sound_active sound control stored
    cases busy with
    | holding stack seen issued unawaited unconsumed =>
      exact tidy_put tidy stack (by simp [Inner]) (by simp [Inner]) rfl (by simp [Note.owner]) rfl
  | released control stored lives run =>
    obtain ⟨rfl,busy⟩ := sound_active sound control stored
    cases busy with
    | woken stack there cleared seen =>
      exact tidy_put tidy stack (by simp [Inner]) (by simp [Inner]) rfl (by simp [Note.owner]) rfl
  | handed control stored done =>
    obtain ⟨rfl,busy⟩ := sound_active sound control stored
    cases busy with
    | returning stack waiting seen =>
      exact hand_tidy tidy stack waiting rfl (by simp [Note.owner]) rfl
  | background kind run => exact tidy_same tidy rfl rfl
  | dropped idle run => exact tidy_same tidy rfl rfl
  | resumed idle run stored => exact tidy_same tidy rfl rfl

end Steps

def HeldAt (m : Machine C V L) (id : UInt64) (point : Point V L) : Prop :=
  (∃ k, point = .issued ⟨true,id⟩ k) ∨ ∃ address k awaiter, point = .suspended address k ∧
    m.io.awaiterAt address = some awaiter ∧ awaiter.operation = ⟨true,id⟩

/-- A frame that has issued an operation and not yet been handed its result. -/
def Holds (m : Machine C V L) (f : Nat) (id : UInt64) : Prop :=
  ∃ frame, m.frameAt f = some frame ∧ HeldAt m id frame.point

section Operations
variable {p : Program C V L} {size : UInt64} {m : Machine C V L} {log : List (Event C V)}
  {c : C} {who : Option C} {f : Nat} {id : UInt64}

theorem issued_asked {q : IoQueue} (run : Run (step p) Fresh { io := q } m log)
    (issued : id ∈ issuedIds (queueLog log)) : ∃ c, id ∈ operations c log := by
  have noted : ∀ e ∈ log, ∀ qe, e.queue = some qe → issuedBy qe ≠ [] →
      ∃ c req, e.note = some (.asked c req) := by
    refine run.invariant (fun _ log => ∀ e ∈ log, ∀ qe, e.queue = some qe → issuedBy qe ≠ [] →
      ∃ c req, e.note = some (.asked c req)) (by simp) ?_
    intro m older a m' e before _ taken e' member qe queue issues
    rcases List.mem_cons.mp member with rfl | earlier
    · cases step_moved taken with
      | asked => exact ⟨_,_,rfl⟩
      | awaited _ _ run =>
        obtain rfl := Option.some.inj queue
        cases step_taken run
        exact absurd rfl issues
      | released _ _ _ run =>
        obtain rfl := Option.some.inj queue
        cases step_taken run <;> exact absurd rfl issues
      | background kind run =>
        obtain rfl := Option.some.inj queue
        rcases kind with rfl | rfl | ⟨_,_,rfl⟩ <;> cases step_taken run <;> exact absurd rfl issues
      | dropped | resumed =>
        obtain rfl := Option.some.inj queue
        exact absurd rfl issues
      | _ => simp at queue
    · exact before e' earlier qe queue issues
  obtain ⟨qe,member,issues⟩ := List.mem_flatMap.mp issued
  obtain ⟨e,logged,queue⟩ := List.mem_filterMap.mp member
  obtain ⟨c,req,note⟩ := noted e logged qe queue (List.ne_nil_of_mem issues)
  refine ⟨c,List.mem_flatMap.mpr ⟨e,?_,?_⟩⟩
  · rw [own, List.mem_reverse, List.mem_filter]
    exact ⟨logged,by simp [Event.concerns, note, Note.owner]⟩
  · simpa [Event.operation, note, queue] using issues

theorem seen_pending (sound : Sound p size m log who) {pending : List UInt64}
    {focus : Focus Int32 V L} {ks : List (V → L)} {returned : List V} {credit : Nat}
    (seen : Seen p log c pending focus ks returned credit) (asked : id ∈ operations c log)
    (under_way : id ∈ outstanding m.io) : id ∈ pending := by
  have conserved := reaches_conserved prompt_bounded sound.queue
  rw [seen.asked] at asked
  refine (List.mem_append.mp asked).resolve_left fun delivered => ?_
  obtain ⟨cqe,member,rfl⟩ := List.mem_map.mp delivered
  obtain ⟨r,consumed⟩ := delivered_consumed member
  have ordinary := (resumed_own_id prompt_vacant sound.queue cqe r consumed).1
  exact outstanding_unconsumed conserved under_way
    (List.mem_flatMap.mpr ⟨_,consumed,by simp [consumedBy, ordinary]⟩)

theorem outstanding_held {q : IoQueue} (run : Run (step p) Fresh { io := q } m log)
    (sound : Sound p size m log who) (under_way : id ∈ outstanding m.io) :
    ∃ f, Holds m f id := by
  have conserved := reaches_conserved prompt_bounded sound.queue
  have issued := conserved.perm.mem_iff.mpr (List.mem_append_left _ under_way)
  obtain ⟨c,asked⟩ := issued_asked run issued
  by_cases executes : who = some c
  · subst executes
    obtain ⟨f,continuation,point,_,busy⟩ := sound.active
    cases busy with
    | holding stack seen =>
      obtain rfl := List.mem_singleton.mp (seen_pending sound seen asked under_way)
      exact ⟨f,_,stack.stored,.inl ⟨_,rfl⟩⟩
    | running _ seen | woken _ _ _ seen | returning _ _ seen =>
      simpa using seen_pending sound seen asked under_way
  · cases sound.idle c executes with
    | unborn fresh => simp [operations, fresh] at asked
    | resting resting =>
      obtain ⟨top,continuation,k,ks,ids,stack,seen,_,awaiter,lives,own_id,_⟩ := resting
      obtain rfl := List.mem_singleton.mp (seen_pending sound seen asked under_way)
      exact ⟨top,_,stack.stored,.inr ⟨_,k,awaiter,rfl,lives,own_id⟩⟩
    | finished seen => simpa using seen_pending sound seen asked under_way

omit [DecidableEq C] in
theorem heldAt_inner {point : Point V L} (held : HeldAt m id point) : Inner point := by
  intro task k same
  simp [HeldAt, same] at held

/-- A frame that holds an operation is in control and about to await it, or waits for it. -/
theorem holds_cases (sound : Sound p size m log who) (tidy : Tidy m log) (holds : Holds m f id) :
    (m.control = some f ∧ id ∈ issuedIds (queueLog log) ∧ id ∉ awaitedIds (queueLog log) ∧
      id ∉ consumedIds (queueLog log)) ∨
    ∃ address, Awaiting m.io (queueLog log) id address f := by
  obtain ⟨⟨c,continuation,point⟩,stored,held⟩ := holds
  have inner : Inner point := heldAt_inner held
  by_cases executes : who = some c
  · subst executes
    obtain ⟨g,_,_,control,busy⟩ := sound.active
    cases busy with
    | running stack seen =>
      obtain ⟨_,rfl⟩ := inner_top stack (chain_gathered tidy stack (by simp [Inner])) stored inner
      simp [HeldAt] at held
    | holding stack seen issued unawaited unconsumed =>
      obtain ⟨rfl,rfl⟩ :=
        inner_top stack (chain_gathered tidy stack (by simp [Inner])) stored inner
      obtain rfl : id = _ := by simpa [HeldAt, eq_comm] using held
      exact .inl ⟨control,issued,unawaited,unconsumed⟩
    | woken stack lives cleared seen =>
      obtain ⟨_,rfl⟩ := inner_top stack (chain_gathered tidy stack (by simp [Inner])) stored inner
      simp [HeldAt, lives, cleared] at held
    | returning stack waiting seen =>
      obtain ⟨_,rfl⟩ := inner_top stack (chain_gathered tidy stack (by simp [Inner])) stored inner
      simp [HeldAt] at held
  · have before := tidy.begun f _ stored
    cases sound.idle c executes with
    | unborn fresh => exact absurd fresh before.1
    | @resting id' address resting =>
      obtain ⟨top,_,k,ks,ids,stack,seen,awaiting⟩ := resting
      obtain ⟨rfl,rfl⟩ :=
        inner_top stack (chain_gathered tidy stack (by simp [Inner])) stored inner
      obtain ⟨awaiter,lives,own_id,_⟩ := awaiting.lives
      have same : id' = id := by simpa [HeldAt, lives, own_id] using held
      subst same
      exact .inr ⟨address,awaiting⟩
    | finished seen => simpa [seen.outcome] using before.2

theorem held_outstanding (sound : Sound p size m log who) (tidy : Tidy m log)
    (holds : Holds m f id) : id ∈ outstanding m.io := by
  have conserved := reaches_conserved prompt_bounded sound.queue
  rcases holds_cases sound tidy holds with ⟨_,issued,_,unconsumed⟩ | ⟨address,awaiting⟩
  · exact (List.mem_append.mp (conserved.perm.mem_iff.mp issued)).resolve_right unconsumed
  · exact prompt_outstanding sound.queue awaiting.registered

theorem holder_unique {g : Nat} (sound : Sound p size m log who) (tidy : Tidy m log)
    (first : Holds m f id) (second : Holds m g id) : f = g := by
  rcases holds_cases sound tidy first with ⟨here,_,unawaited,_⟩ | ⟨address,waits⟩
  · rcases holds_cases sound tidy second with ⟨there,_⟩ | ⟨_,waits⟩
    · exact Option.some.inj (here.symm.trans there)
    · exact absurd (awaited_mem (registration_awaited waits.registered)) unawaited
  · rcases holds_cases sound tidy second with ⟨_,_,unawaited,_⟩ | ⟨address',waits'⟩
    · exact absurd (awaited_mem (registration_awaited waits.registered)) unawaited
    · obtain ⟨registered,awaiter,lives,_,rfl⟩ := waits
      obtain ⟨registered',awaiter',lives',_,rfl⟩ := waits'
      obtain rfl := Option.some.inj (registered.symm.trans registered')
      obtain rfl := Option.some.inj (lives.symm.trans lives')
      rfl

omit [DecidableEq C] in
theorem holding_unique {id' : UInt64} (first : Holds m f id) (second : Holds m f id') : id = id' := by
  obtain ⟨frame,stored,held⟩ := first
  obtain ⟨frame',stored',held'⟩ := second
  obtain rfl := Option.some.inj (stored.symm.trans stored')
  rcases held with ⟨k,here⟩ | ⟨address,k,awaiter,here,lives,own_id⟩
  · simpa [HeldAt, here] using held'
  · simpa [HeldAt, here, lives, own_id] using held'

theorem taken_awaiters {q q' : IoQueue} {qa : IoQueue.Action} {qe : IoQueue.Event}
    (taken : Taken q qa q' qe) : q'.awaiterAt = q.awaiterAt ∨
      ∃ address value, q'.awaiterAt = Function.update q.awaiterAt address value ∧
        ∀ awaiter awaiter', q.awaiterAt address = some awaiter → value = some awaiter' →
          awaiter'.caller = awaiter.caller := by
  cases taken with
  | issued req slot => exact .inl (issue_registry q req slot).2.2
  | linked run => exact .inl (linkTimeout_registry run).2.2
  | awaited vacant unused nonempty unmarked run =>
    exact .inr ⟨_,_,await_awaiterAt run,by simp [vacant]⟩
  | @cancelled op cancelHandler slot sqe valid =>
    left
    rw [finalizeSqe_awaiterAt]
    cases cancelHandler <;> rfl
  | released present cleared => exact .inr ⟨_,none,rfl,by simp⟩
  | abandoned sqe present valid => exact .inr ⟨_,none,rfl,by simp⟩
  | submitted | submitFailed | completed => exact .inl rfl
  | @consumed cqe rest resumed q' active queued run =>
    simp only [dispatch] at run
    split at run
    · split at run
      · obtain ⟨⟨q₁,r⟩,completed,eq⟩ := Option.map_eq_some_iff.mp run
        cases eq
        simp only [complete, Option.bind_eq_bind, Option.bind_eq_some_iff] at completed
        obtain ⟨⟨address⟩,_,found,there,done⟩ := completed
        cases done
        refine .inr ⟨address,_,rfl,?_⟩
        intro awaiter awaiter' lives written
        rw [← Option.some.inj (there.symm.trans lives), ← Option.some.inj written]
      · cases run
        exact .inl rfl
    · cases run
      exact .inl rfl

theorem caller_kept {q q' : IoQueue} {qa : IoQueue.Action} {qe : IoQueue.Event} {address : Nat}
    {awaiter awaiter' : OperationAwaiter} (taken : Taken q qa q' qe)
    (lives : q.awaiterAt address = some awaiter) (lives' : q'.awaiterAt address = some awaiter') :
    awaiter'.caller = awaiter.caller := by
  rcases taken_awaiters taken with same | ⟨place,value,written,keeps⟩
  · rw [same, lives] at lives'
    rw [Option.some.inj lives']
  · by_cases here : address = place
    · subst here
      rw [written, Function.update_self] at lives'
      exact keeps awaiter awaiter' lives lives'
    · rw [written, Function.update_of_ne here, lives] at lives'
      rw [Option.some.inj lives']

omit [DecidableEq C] in
theorem moved_queue {m' : Machine C V L} {a : Action C} {e : Event C V} (moved : Moved p m a m' e) :
    (m'.io = m.io ∧ e.queue = none) ∨
      ∃ qa qe, Taken m.io qa m'.io qe ∧ e.queue = some qe := by
  cases moved with
  | asked slot _ _ _ _ => exact .inr ⟨_,_,step_taken (step_issue m.io _ slot),rfl⟩
  | awaited _ _ run => exact .inr ⟨_,_,step_taken run,rfl⟩
  | released _ _ _ run => exact .inr ⟨_,_,step_taken run,rfl⟩
  | background _ run => exact .inr ⟨_,_,step_taken run,rfl⟩
  | dropped _ run => exact .inr ⟨_,_,step_taken run,rfl⟩
  | resumed _ run _ => exact .inr ⟨_,_,step_taken run,rfl⟩
  | _ => exact .inl ⟨rfl,rfl⟩

/-- One registration at a time: a step that keeps an operation awaited keeps its awaiter. -/
theorem awaiting_same {m' : Machine C V L} {a : Action C} {e : Event C V} {who' : Option C}
    {address address' g : Nat} (moved : Moved p m a m' e)
    (after : Sound p size m' (e :: log) who')
    (before : Awaiting m.io (queueLog log) id address f)
    (later : Awaiting m'.io (queueLog (e :: log)) id address' g) : g = f := by
  obtain ⟨registered,awaiter,lives,_,rfl⟩ := before
  obtain ⟨registered',awaiter',lives',_,rfl⟩ := later
  rcases moved_queue moved with ⟨same,quiet⟩ | ⟨qa,qe,taken,queue⟩
  · have grown : queueLog (e :: log) = queueLog log := by simp [queueLog, quiet]
    rw [grown, registered] at registered'
    obtain rfl := Option.some.inj registered'
    rw [same, lives] at lives'
    exact congrArg OperationAwaiter.caller (Option.some.inj lives').symm
  · have grown : queueLog (e :: log) = qe :: queueLog log := by simp [queueLog, queue]
    have once := awaited_once (fun _ _ _ _ _ _ allowed => allowed.2.1) after.queue
    rw [grown] at registered' once
    rcases registration_cons id qe (queueLog log) with ⟨place,rfl,_⟩ | ⟨_,gone⟩ | ⟨_,_,_,kept⟩
    · have earlier := awaited_mem (registration_awaited registered)
      exact absurd earlier (List.nodup_cons.mp once).1
    · simp [gone] at registered'
    · rw [kept, registered] at registered'
      obtain rfl := Option.some.inj registered'
      exact caller_kept taken lives lives'

theorem holder_stays {q : IoQueue} {m' : Machine C V L} {a : Action C} {e : Event C V}
    {who' : Option C} (run : Run (step p) Fresh { io := q } m' (e :: log))
    (moved : Moved p m a m' e) (before : Sound p size m log who) (tidy : Tidy m log)
    (after : Sound p size m' (e :: log) who') (tidy' : Tidy m' (e :: log))
    (holds : Holds m f id) (under_way : id ∈ outstanding m'.io) : Holds m' f id := by
  rcases holds_cases before tidy holds with ⟨control,_⟩ | ⟨address,awaiting⟩
  · obtain ⟨frame,stored,held⟩ := holds
    -- the frame in control can only go on to await, or the kernel works meanwhile
    have elsewhere : ∀ {point : Point V L} {c continuation g}, m.control = some g →
        m.frameAt g = some ⟨c,continuation,point⟩ → g = f ∧ HeldAt m id point := by
      rintro point c continuation g active there
      obtain rfl := Option.some.inj (active.symm.trans control)
      rw [Option.some.inj (stored.symm.trans there)] at held
      exact ⟨rfl,held⟩
    cases moved with
    | started _ _ idle _ => simp [control] at idle
    | dropped idle _ => simp [control] at idle
    | resumed idle _ _ => simp [control] at idle
    | ended active there _ => simpa [HeldAt] using (elsewhere active there).2
    | returned active there _ => simpa [HeldAt] using (elsewhere active there).2
    | asked _ active there _ _ => simpa [HeldAt] using (elsewhere active there).2
    | called active there _ _ => simpa [HeldAt] using (elsewhere active there).2
    | handed active there _ => simpa [HeldAt] using (elsewhere active there).2
    | released active there lives _ =>
      obtain ⟨rfl,busy⟩ := sound_active before active there
      cases busy with
      | woken _ lives' cleared _ =>
        have held := (elsewhere active there).2
        simp [HeldAt, lives', cleared] at held
    | @awaited g address c continuation op k completer io qe active there taken =>
      obtain ⟨rfl,here⟩ := elsewhere active there
      obtain rfl : op = ⟨true,id⟩ := by simpa [HeldAt] using here
      cases step_taken taken with
      | awaited _ _ _ _ awaits =>
        refine ⟨_,Function.update_self g _ _,
          .inr ⟨address,k,⟨⟨true,id⟩,g,-2147483648⟩,rfl,?_,rfl⟩⟩
        rw [await_awaiterAt awaits, Function.update_self]
    | @background _ io _ kind taken =>
      have same : io.awaiterAt = m.io.awaiterAt := by
        rcases kind with rfl | rfl | ⟨_,_,rfl⟩ <;> cases step_taken taken <;> rfl
      refine ⟨frame,stored,held.imp_right ?_⟩
      rintro ⟨address,k,awaiter,here,lives,own_id⟩
      exact ⟨address,k,awaiter,here,same ▸ lives,own_id⟩
  · obtain ⟨g,there⟩ := outstanding_held run after under_way
    suffices g = f from this ▸ there
    rcases holds_cases after tidy' there with ⟨_,_,unawaited,_⟩ | ⟨address',awaiting'⟩
    · have earlier := registration_awaited awaiting.registered
      have logged : queueLog log ⊆ queueLog (e :: log) := List.filterMap_subset _ (by simp)
      exact absurd (awaited_mem (logged earlier)) unawaited
    · exact awaiting_same moved after awaiting awaiting'

end Operations

theorem run_keeps {p : Program C V L} {size : UInt64} {q : IoQueue} {m : Machine C V L}
    {log : List (Event C V)} (made : create size = some q)
    (inv : Machine C V L → List (Event C V) → Prop) (base : inv { io := q } [])
    (keep : ∀ m log who a m' e, Sound p size m log who → inv m log → Fresh m log a →
      Moved p m a m' e → inv m' (e :: log))
    (run : Run (step p) Fresh { io := q } m log) :
    drawn (queueLog log) < 2 ^ 64 - 2 → inv m log := by
  induction run with
  | nil => exact fun _ => base
  | @next m m' log a e before allowed taken ih =>
    intro bound
    have earlier : drawn (queueLog log) ≤ drawn (queueLog (e :: log)) := by
      cases queued : e.queue with
      | none => simp [queueLog, queued]
      | some qe =>
        have grown : queueLog (e :: log) = qe :: queueLog log := by simp [queueLog, queued]
        rw [grown]
        exact drawn_cons qe (queueLog log)
    obtain ⟨who,sound⟩ := run_sound made before (by omega)
    exact keep m log who a m' e sound (ih (by omega)) allowed (step_moved taken)

theorem run_tidy {p : Program C V L} {size : UInt64} {q : IoQueue} {m : Machine C V L}
    {log : List (Event C V)} (made : create size = some q)
    (run : Run (step p) Fresh { io := q } m log) : drawn (queueLog log) < 2 ^ 64 - 2 → Tidy m log := by
  refine run_keeps made Tidy ⟨by simp,by simp⟩ ?_ run
  intro m log who a m' e sound tidy allowed moved
  exact moved_tidy sound tidy allowed moved

/-- In every run no frame is lost, and the operations under way are those that the frames hold,
one to one: the frame that issued an operation holds it until its completion is consumed. -/
theorem frames_accounted {p : Program C V L} {size : UInt64} {q : IoQueue} {m : Machine C V L}
    {log : List (Event C V)} (made : create size = some q)
    (run : Run (step p) Fresh { io := q } m log) (bound : drawn (queueLog log) < 2 ^ 64 - 2) :
    (∀ f frame, m.frameAt f = some frame →
      own frame.owner log ≠ [] ∧ results frame.owner log = [] ∧
        ∃ frames, Chain m.frameAt frame.owner frames ∧ f ∈ frames ∧
          ∀ g frame', m.frameAt g = some frame' → frame'.owner = frame.owner → g ∈ frames) ∧
    (∀ id, id ∈ outstanding m.io ↔ ∃ f, Holds m f id) ∧
    (∀ f g id, Holds m f id → Holds m g id → f = g) ∧
    (∀ f id id', Holds m f id → Holds m f id' → id = id') ∧
    ∀ a m' e f id, Fresh m log a → step p m a = some (m', e) →
      drawn (queueLog (e :: log)) < 2 ^ 64 - 2 → Holds m f id → id ∈ outstanding m'.io →
      Holds m' f id := by
  have tidy := run_tidy made run bound
  obtain ⟨who,sound⟩ := run_sound made run bound
  refine ⟨?_,fun id => ⟨outstanding_held run sound,?_⟩,fun f g id => holder_unique sound tidy,
    fun f id id' => holding_unique,?_⟩
  · intro f frame stored
    obtain ⟨begun,unreturned⟩ := tidy.begun f frame stored
    obtain ⟨frames,chain,gathered⟩ := tidy.chained f frame stored
    exact ⟨begun,unreturned,frames,chain,gathered f frame stored rfl,gathered⟩
  · rintro ⟨f,holds⟩
    exact held_outstanding sound tidy holds
  · intro a m' e f id allowed taken bound' holds under_way
    have run' := run.next allowed taken
    obtain ⟨who',sound'⟩ := run_sound made run' bound'
    exact holder_stays run' (step_moved taken) sound tidy sound' (run_tidy made run' bound') holds
      under_way

theorem relay_frames_accounted :
    ∃ q m log, create 0 = some q ∧ Run (step relay) Fresh { io := q } m log ∧
      outstanding m.io = [0, 1] ∧ (∃ f, Holds m f 0) ∧ (∃ f, Holds m f 1) ∧
      ∃ frames, Chain m.frameAt true frames ∧ 1 ∈ frames ∧ 2 ∈ frames := by
  let next : Action Bool := .proceed blankSqe 0 0 0
  let actions : List (Action Bool) := [.start true 1, .proceed blankSqe 0 0 2, next,
    .proceed blankSqe 100 16 0, .start false 3, next, .proceed blankSqe 200 32 0, .submit]
  have computed : ((create 0).bind fun q =>
      (replay (step relay) Fresh { io := q } [] actions).map fun (m, log) =>
        decide (drawn (queueLog log) < 2 ^ 64 - 2 ∧ outstanding m.io = [0, 1] ∧
          (m.frameAt 1).map Frame.owner = some true ∧ (m.frameAt 2).map Frame.owner = some true)) =
      some true := by decide +kernel
  obtain ⟨q,made,rest⟩ := Option.bind_eq_some_iff.mp computed
  obtain ⟨m,log,run,facts⟩ := replay_reaches rest
  obtain ⟨bound,under_way,outer,inner⟩ := of_decide_eq_true facts
  obtain ⟨frame,stored,owner⟩ := Option.map_eq_some_iff.mp outer
  obtain ⟨frame',stored',owner'⟩ := Option.map_eq_some_iff.mp inner
  obtain ⟨chained,held,_⟩ := frames_accounted made run bound
  obtain ⟨_,_,frames,chain,inside,others⟩ := chained 1 frame stored
  exact ⟨q,m,log,made,run,under_way,(held 0).mp (by simp [under_way]),
    (held 1).mp (by simp [under_way]),frames,owner ▸ chain,inside,
    others 2 frame' stored' (owner'.trans owner.symm)⟩

end Coroutine
end Aiopp
