import Mathlib.Data.List.Basic
import Mathlib.Logic.Function.Basic
import Mathlib.Logic.Relation

/-!
Singly linked chains some of whose links are not written yet. The order of the
nodes is known in full; a missing link is owed by somebody, and the first node
can leave once its own link is there.
-/
namespace PartialChain
variable {α : Type}

def Adjacent : List α → α → α → Prop
  | a :: b :: rest, x, y => (x = a ∧ y = b) ∨ Adjacent (b :: rest) x y
  | _, _, _ => False

theorem adjacent_mem {nodes : List α} {x y : α} (adjacent : Adjacent nodes x y) :
    x ∈ nodes ∧ y ∈ nodes.tail := by
  induction nodes with
  | nil => exact adjacent.elim
  | cons a rest ih =>
    cases rest with
    | nil => exact adjacent.elim
    | cons b rest =>
      rcases adjacent with ⟨rfl,rfl⟩ | later
      · simp
      · have inside := ih later
        exact ⟨List.mem_cons_of_mem a inside.1,List.mem_of_mem_tail inside.2⟩

theorem adjacent_unique {nodes : List α} {x y z : α} (nodup : nodes.Nodup)
    (first : Adjacent nodes x y) (second : Adjacent nodes x z) : y = z := by
  induction nodes with
  | nil => exact first.elim
  | cons a rest ih =>
    cases rest with
    | nil => exact first.elim
    | cons b rest =>
      have outside := (List.nodup_cons.mp nodup).1
      rcases first with ⟨rfl,rfl⟩ | first
      · rcases second with ⟨_,rfl⟩ | second
        · rfl
        · exact absurd (adjacent_mem second).1 outside
      · rcases second with ⟨rfl,rfl⟩ | second
        · exact absurd (adjacent_mem first).1 outside
        · exact ih (List.nodup_cons.mp nodup).2 first second

theorem adjacent_not_last {nodes : List α} {x y : α} (nodup : nodes.Nodup)
    (adjacent : Adjacent nodes x y) : nodes.getLast? ≠ some x := by
  induction nodes with
  | nil => exact adjacent.elim
  | cons a rest ih =>
    cases rest with
    | nil => exact adjacent.elim
    | cons b rest =>
      rw [List.getLast?_cons_cons]
      rcases adjacent with ⟨rfl,rfl⟩ | later
      · intro last
        exact (List.nodup_cons.mp nodup).1 (List.mem_of_getLast? last)
      · exact ih (List.nodup_cons.mp nodup).2 later

theorem adjacent_push {nodes : List α} {last new x y : α} (ends : nodes.getLast? = some last) :
    Adjacent (nodes ++ [new]) x y ↔ Adjacent nodes x y ∨ x = last ∧ y = new := by
  induction nodes with
  | nil => simp at ends
  | cons a rest ih =>
    cases rest with
    | nil =>
      obtain rfl : a = last := by simpa using ends
      simp [Adjacent]
    | cons b rest =>
      rw [List.getLast?_cons_cons] at ends
      have inner := ih ends
      simp only [List.cons_append] at inner ⊢
      simp only [Adjacent, inner]
      tauto

theorem adjacent_of_not_last {nodes : List α} {x : α} (member : x ∈ nodes)
    (inner : nodes.getLast? ≠ some x) : ∃ y, Adjacent nodes x y := by
  induction nodes with
  | nil => simp at member
  | cons a rest ih =>
    cases rest with
    | nil =>
      obtain rfl : x = a := by simpa using member
      simp at inner
    | cons b rest =>
      rcases List.mem_cons.mp member with here | later
      · exact ⟨b,.inl ⟨here,rfl⟩⟩
      · rw [List.getLast?_cons_cons] at inner
        obtain ⟨y,adjacent⟩ := ih later inner
        exact ⟨y,.inr adjacent⟩

theorem reachable_from_head {nodes : List α} {first x : α} (head : nodes.head? = some first)
    (member : x ∈ nodes) : Relation.ReflTransGen (Adjacent nodes) first x := by
  induction nodes generalizing first with
  | nil => simp at head
  | cons a rest ih =>
    obtain rfl : a = first := by simpa using head
    rcases List.mem_cons.mp member with here | later
    · rw [here]
    · cases rest with
      | nil => simp at later
      | cons b rest =>
        have beyond := ih rfl later
        have lifted : Relation.ReflTransGen (Adjacent (a :: b :: rest)) b x :=
          beyond.lift id fun u v adjacent => .inr adjacent
        exact .head (.inl ⟨rfl,rfl⟩) lifted

/-- Nodes in order, with every link written or owed, and nothing behind the last. -/
structure Chain (next : α → Option α) (owed : α → α → Prop) (nodes : List α) : Prop where
  nodup : nodes.Nodup
  links : ∀ x y, Adjacent nodes x y → next x = some y ∨ next x = none ∧ owed x y
  final : ∀ x, nodes.getLast? = some x → next x = none
  debts : ∀ x y, owed x y → Adjacent nodes x y ∧ next x = none

variable {next next' : α → Option α} {owed owed' : α → α → Prop} {nodes : List α}

theorem Chain.frame (chain : Chain next owed nodes) (same : ∀ x ∈ nodes, next' x = next x)
    (debts : ∀ x y, owed' x y ↔ owed x y) : Chain next' owed' nodes := by
  constructor
  · exact chain.nodup
  · intro x y adjacent
    rw [same x (adjacent_mem adjacent).1, debts]
    exact chain.links x y adjacent
  · intro x last
    rw [same x (List.mem_of_getLast? last)]
    exact chain.final x last
  · intro x y due
    have held := chain.debts x y ((debts x y).mp due)
    rw [same x (adjacent_mem held.1).1]
    exact held

def Completed (next : α → Option α) (owed : α → α → Prop) (x y : α) : Prop :=
  next x = some y ∨ owed x y

theorem Chain.completed_mem (chain : Chain next owed nodes) {x y : α} (member : x ∈ nodes)
    (link : Completed next owed x y) : y ∈ nodes := by
  rcases link with written | due
  · have inner : nodes.getLast? ≠ some x := by
      intro last
      simp [chain.final x last] at written
    obtain ⟨z,adjacent⟩ := adjacent_of_not_last member inner
    rcases chain.links x z adjacent with set | ⟨missing,_⟩
    · obtain rfl : y = z := Option.some.inj (written.symm.trans set)
      exact List.mem_of_mem_tail (adjacent_mem adjacent).2
    · simp [missing] at written
  · exact List.mem_of_mem_tail (adjacent_mem (chain.debts x y due).1).2

/-- The nodes are what can be reached from the first one over the completed links. -/
theorem Chain.reachable_iff (chain : Chain next owed nodes) {first x : α}
    (head : nodes.head? = some first) :
    Relation.ReflTransGen (Completed next owed) first x ↔ x ∈ nodes := by
  constructor
  · intro path
    induction path with
    | refl => exact List.mem_of_head? head
    | tail path link ih => exact chain.completed_mem ih link
  · intro member
    apply (reachable_from_head head member).lift id
    intro u v adjacent
    rcases chain.links u v adjacent with written | ⟨_,due⟩
    · exact .inl written
    · exact .inr due

theorem Chain.push (chain : Chain next owed nodes) {last new : α}
    (ends : nodes.getLast? = some last) (fresh : new ∉ nodes) (bare : next new = none)
    (debts : ∀ x y, owed' x y ↔ owed x y ∨ x = last ∧ y = new) :
    Chain next owed' (nodes ++ [new]) := by
  constructor
  · apply List.nodup_append.mpr
    refine ⟨chain.nodup,by simp,?_⟩
    intro a inside b here same
    rw [List.mem_singleton] at here
    exact fresh (here ▸ same ▸ inside)
  · intro x y adjacent
    rw [debts]
    rcases (adjacent_push ends).mp adjacent with inner | ⟨rfl,rfl⟩
    · rcases chain.links x y inner with written | ⟨missing,due⟩
      · exact .inl written
      · exact .inr ⟨missing,.inl due⟩
    · exact .inr ⟨chain.final x ends,.inr ⟨rfl,rfl⟩⟩
  · intro x last
    obtain rfl : new = x := by simpa using last
    exact bare
  · intro x y due
    rcases (debts x y).mp due with old | ⟨rfl,rfl⟩
    · have held := chain.debts x y old
      exact ⟨(adjacent_push ends).mpr (.inl held.1),held.2⟩
    · exact ⟨(adjacent_push ends).mpr (.inr ⟨rfl,rfl⟩),chain.final x ends⟩

theorem Chain.link [DecidableEq α] (chain : Chain next owed nodes) {a b : α} (due : owed a b)
    (written : ∀ x, next' x = Function.update next a (some b) x)
    (debts : ∀ x y, owed' x y ↔ owed x y ∧ x ≠ a) : Chain next' owed' nodes := by
  have here := chain.debts a b due
  constructor
  · exact chain.nodup
  · intro x y adjacent
    rw [written, debts]
    by_cases same : x = a
    · subst same
      rw [adjacent_unique chain.nodup adjacent here.1]
      simp
    · rw [Function.update_of_ne same]
      rcases chain.links x y adjacent with set | ⟨missing,other⟩
      · exact .inl set
      · exact .inr ⟨missing,other,same⟩
  · intro x last
    have apart : x ≠ a := by
      rintro rfl
      exact adjacent_not_last chain.nodup here.1 last
    rw [written, Function.update_of_ne apart]
    exact chain.final x last
  · intro x y still
    obtain ⟨old,apart⟩ := (debts x y).mp still
    rw [written, Function.update_of_ne apart]
    exact chain.debts x y old

theorem Chain.pop {a b : α} {rest : List α} (chain : Chain next owed (a :: rest))
    (written : next a = some b) : ∃ more, rest = b :: more ∧ Chain next owed rest := by
  cases rest with
  | nil =>
    have bare := chain.final a rfl
    simp [bare] at written
  | cons c more =>
    have first := chain.links a c (.inl ⟨rfl,rfl⟩)
    obtain rfl : b = c := by
      rcases first with set | ⟨missing,_⟩
      · exact Option.some.inj (written.symm.trans set)
      · simp [missing] at written
    refine ⟨more,rfl,(List.nodup_cons.mp chain.nodup).2,?_,?_,?_⟩
    · intro x y adjacent
      exact chain.links x y (.inr adjacent)
    · intro x last
      exact chain.final x (by rwa [List.getLast?_cons_cons])
    · intro x y due
      have held := chain.debts x y due
      rcases held.1 with ⟨rfl,rfl⟩ | inner
      · simp [held.2] at written
      · exact ⟨inner,held.2⟩

end PartialChain
