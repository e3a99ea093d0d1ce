import Aiopp.Foundations.ProbeTable
import Mathlib.Algebra.Field.ZMod
import Mathlib.Algebra.BigOperators.Ring.Finset
import Mathlib.Order.Interval.Finset.Fin

/-!
Arithmetic progressions modulo a prime whose later part is shifted, as by a sum that wraps
in a word of some other size.
-/
namespace ProbeTable
variable {p step turn shift : Nat}

theorem covering_sums_agree [NeZero p] {visit visit' : Nat → Nat}
    (covers : ∀ r < p, ∃ i < p, visit i % p = r) (covers' : ∀ r < p, ∃ i < p, visit' i % p = r) :
    ∑ i : Fin p, (visit i : ZMod p) = ∑ i : Fin p, (visit' i : ZMod p) := by
  have all : ∀ v : Nat → Nat, (∀ r < p, ∃ i < p, v i % p = r) →
      ∑ i : Fin p, (v i : ZMod p) = ∑ x : ZMod p, x := by
    intro v covers
    have onto : Function.Surjective fun i : Fin p => (v i : ZMod p) := by
      intro x
      obtain ⟨i,inside,same⟩ := covers x.val x.val_lt
      refine ⟨⟨i,inside⟩,?_⟩
      dsimp only
      rw [← ZMod.natCast_mod, same, ZMod.natCast_zmod_val]
    have bijective : Function.Bijective fun i : Fin p => (v i : ZMod p) :=
      (Fintype.bijective_iff_surjective_and_card _).mpr ⟨onto,by simp [ZMod.card]⟩
    exact bijective.sum_comp fun x => x
  rw [all visit covers, all visit' covers']

/-- A progression that is shifted from some step on misses a residue. -/
theorem shifted_progression_misses (prime : p.Prime) (coprime : Nat.Coprime p step)
    (start : Nat) (moved : 0 < turn) (inside : turn < p) (apart : ¬ p ∣ shift)
    (visit : Nat → Nat) (before : ∀ i < turn, visit i = start + i * step)
    (after : ∀ i < p, turn ≤ i → visit i + shift = start + i * step) :
    ∃ r < p, ∀ i < p, visit i % p ≠ r := by
  by_contra covered
  push Not at covered
  have _ : Fact p.Prime := ⟨prime⟩
  have agree := covering_sums_agree covered
    (fun r bound => progression_covers coprime start bound)
  have difference : ∀ i : Fin p, ((start + i * step : Nat) : ZMod p) =
      visit i + if turn ≤ i.val then (shift : ZMod p) else 0 := by
    intro i
    split
    · rename_i late
      rw [← after i i.isLt late]
      push_cast
      rfl
    · rename_i early
      rw [before i (by omega), add_zero]
  have late : (Finset.univ.filter fun i : Fin p => turn ≤ i.val).card = p - turn := by
    have interval : (Finset.univ.filter fun i : Fin p => turn ≤ i.val) = Finset.Ici ⟨turn,inside⟩ := by
      ext i
      simp [Fin.le_def]
    rw [interval, Fin.card_Ici]
  have zero : ((p - turn : Nat) : ZMod p) * (shift : ZMod p) = 0 := by
    rw [Finset.sum_congr rfl fun i _ => difference i, Finset.sum_add_distrib] at agree
    have count : ∑ i : Fin p, (if turn ≤ i.val then (shift : ZMod p) else 0) =
        ((p - turn : Nat) : ZMod p) * shift := by
      rw [← Finset.sum_filter, Finset.sum_const, nsmul_eq_mul, late]
    rw [← count]
    simpa using agree
  rcases mul_eq_zero.mp zero with early | aligned
  · have divides := (ZMod.natCast_eq_zero_iff _ _).mp early
    exact absurd (Nat.le_of_dvd (by omega) divides) (by omega)
  · exact apart ((ZMod.natCast_eq_zero_iff _ _).mp aligned)

end ProbeTable
