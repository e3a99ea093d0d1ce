import Aiopp.Conservation

/-!
Operation ids without a bound on their number. The two reserved values are skipped before
an id is read, so the counter runs through a cycle of 2^64 - 2 ids.
-/
namespace Aiopp
namespace IoQueue

def nextOpIds : Nat → IoQueue → List UInt64
  | 0, _ => []
  | n + 1, q => q.getNextOpId.1 :: nextOpIds n q.getNextOpId.2

section Cycle
variable {q : IoQueue}

theorem getNextOpId_below (q : IoQueue) : q.getNextOpId.1.toNat < 2 ^ 64 - 2 := by
  obtain ⟨valid,unignored⟩ := getNextOpId_ordinary q
  have first : q.getNextOpId.1.toNat ≠ 2 ^ 64 - 2 := by
    intro same
    exact valid (UInt64.toNat_inj.mp (by simpa [OpIdInvalid] using same))
  have second : q.getNextOpId.1.toNat ≠ 2 ^ 64 - 1 := by
    intro same
    exact unignored (UInt64.toNat_inj.mp (by simpa [OpIdIgnore] using same))
  have small := q.getNextOpId.1.toNat_lt
  omega

theorem getNextOpId_skips (reserved : q.nextOpId_ = OpIdInvalid ∨ q.nextOpId_ = OpIdIgnore) :
    q.getNextOpId.1 = 0 := if_pos reserved

theorem getNextOpId_counter (ordinary : ¬ (q.nextOpId_ = OpIdInvalid ∨ q.nextOpId_ = OpIdIgnore)) :
    q.getNextOpId.1 = q.nextOpId_ := if_neg ordinary

/-- The increment may reach the first reserved value; the call after it reads 0. -/
theorem getNextOpId_successor (q : IoQueue) :
    q.getNextOpId.2.getNextOpId.1.toNat = (q.getNextOpId.1.toNat + 1) % (2 ^ 64 - 2) := by
  have below := getNextOpId_below q
  have value : q.getNextOpId.2.nextOpId_.toNat = q.getNextOpId.1.toNat + 1 := by
    change (q.getNextOpId.1 + 1).toNat = _
    rw [UInt64.toNat_add, UInt64.toNat_one]
    omega
  by_cases last : q.getNextOpId.1.toNat + 1 = 2 ^ 64 - 2
  · have reserved : q.getNextOpId.2.nextOpId_ = OpIdInvalid := by
      rw [← UInt64.toNat_inj, value, last]
      rfl
    rw [getNextOpId_skips (.inl reserved), last, Nat.mod_self]
    rfl
  · have ordinary : ¬ (q.getNextOpId.2.nextOpId_ = OpIdInvalid ∨
        q.getNextOpId.2.nextOpId_ = OpIdIgnore) := by
      have invalid : OpIdInvalid.toNat = 2 ^ 64 - 2 := rfl
      have ignore : OpIdIgnore.toNat = 2 ^ 64 - 1 := rfl
      rintro (same | same)
      · rw [same] at value
        omega
      · rw [same] at value
        omega
    rw [getNextOpId_counter ordinary, value, Nat.mod_eq_of_lt (by omega)]

theorem nextOpIds_cycle (n : Nat) (q : IoQueue) :
    (nextOpIds n q).map UInt64.toNat =
      (List.range n).map fun k => (q.getNextOpId.1.toNat + k) % (2 ^ 64 - 2) := by
  induction n generalizing q with
  | zero => rfl
  | succ n ih =>
    have below := getNextOpId_below q
    have here : (q.getNextOpId.1.toNat + 0) % (2 ^ 64 - 2) = q.getNextOpId.1.toNat :=
      Nat.mod_eq_of_lt below
    rw [nextOpIds, List.map_cons, ih, getNextOpId_successor, List.range_succ_eq_map, List.map_cons,
      List.map_map, here]
    congr 1
    apply List.map_congr_left
    intro k _
    simp only [Function.comp, Nat.mod_add_mod]
    congr 1
    omega

theorem nextOpIds_ordinary (n : Nat) (q : IoQueue) :
    ∀ id ∈ nextOpIds n q, id ≠ OpIdInvalid ∧ id ≠ OpIdIgnore := by
  induction n generalizing q with
  | zero => simp [nextOpIds]
  | succ n ih => exact List.forall_mem_cons.mpr ⟨getNextOpId_ordinary q,ih _⟩

theorem nextOpIds_nodup (q : IoQueue) {n : Nat} (cycle : n ≤ 2 ^ 64 - 2) :
    (nextOpIds n q).Nodup := by
  apply List.Nodup.of_map UInt64.toNat
  rw [nextOpIds_cycle]
  apply List.Nodup.map_on _ List.nodup_range
  intro i hi j hj same
  rw [List.mem_range] at hi hj
  have congr : i ≡ j [MOD 2 ^ 64 - 2] := Nat.ModEq.add_left_cancel' _ same
  exact congr.eq_of_lt_of_lt (by omega) (by omega)

/-- No more calls than the cycle is long return distinct ids, none of them reserved, and 0
follows the largest. -/
theorem ids_distinct_in_cycle (q : IoQueue) {n : Nat} (cycle : n ≤ 2 ^ 64 - 2) :
    (nextOpIds n q).length = n ∧ (nextOpIds n q).Nodup ∧
    (∀ id ∈ nextOpIds n q, id ≠ OpIdInvalid ∧ id ≠ OpIdIgnore) ∧
    (q.getNextOpId.1.toNat = 2 ^ 64 - 3 → q.getNextOpId.2.getNextOpId.1 = 0) := by
  refine ⟨?_,nextOpIds_nodup q cycle,nextOpIds_ordinary n q,?_⟩
  · simpa using congrArg List.length (nextOpIds_cycle n q)
  · intro last
    have next := getNextOpId_successor q
    rw [last] at next
    exact UInt64.toNat_inj.mp next

theorem ids_distinct_across_wrap :
    ∃ q : IoQueue, nextOpIds 4 q = [0xfffffffffffffffc, 0xfffffffffffffffd, 0, 1] ∧ (nextOpIds 4 q).Nodup := by
  let q : IoQueue := { nextOpId_ := 0xfffffffffffffffc, completers_ := ⟨[],0⟩, sqEntries := 64 }
  exact ⟨q,by decide,(ids_distinct_in_cycle q (n := 4) (by omega)).2.1⟩

end Cycle

end IoQueue
end Aiopp
