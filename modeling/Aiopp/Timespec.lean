import Mathlib.Algebra.Group.Int.Defs

/-!
The timespecs of timeouts. Division and remainder truncate towards zero, and a signed result
outside the 64-bit range has no meaning.
-/
namespace Aiopp

structure Timespec where
  tv_sec : Int
  tv_nsec : Int
  deriving DecidableEq, Repr

def Timespec.nanoseconds (ts : Timespec) : Int := ts.tv_sec * 1000000000 + ts.tv_nsec

/-- A reading of CLOCK_MONOTONIC, whose count of nanoseconds is what the steady clock returns. -/
structure Clock where
  tv_sec : Int
  tv_nsec : Int
  nsec_range : 0 ≤ tv_nsec ∧ tv_nsec < 1000000000
  count_range : -2 ^ 63 ≤ tv_sec * 1000000000 + tv_nsec ∧
    tv_sec * 1000000000 + tv_nsec < 2 ^ 63

def Clock.now (clock : Clock) : Int := clock.tv_sec * 1000000000 + clock.tv_nsec

def int64 (x : Int) : Option Int := if -2 ^ 63 ≤ x ∧ x < 2 ^ 63 then some x else none

namespace Duration

def setTimespec (ms : Int64) : Timespec :=
  { tv_sec := ms.toInt.tdiv 1000
    tv_nsec := ms.toInt.tmod 1000 * 1000 * 1000 }

theorem nanoseconds_setTimespec (ms : Int64) :
    (setTimespec ms).nanoseconds = ms.toInt * 1000000 := by
  have split := Int.mul_tdiv_add_tmod ms.toInt 1000
  simp only [setTimespec, Timespec.nanoseconds]
  omega

end Duration

namespace TimePoint

/-- The first test is the assertion of the source. -/
def setTimespec (clock : Clock) (tp : Int64) : Option Timespec :=
  if clock.now ≥ tp.toInt then do
    let delta ← int64 (tp.toInt - clock.now)
    let deltaMs := delta.tdiv 1000000
    let tv_sec ← int64 (clock.tv_sec + deltaMs.tdiv 1000)
    let tv_nsec ← int64 (clock.tv_nsec + deltaMs.tmod 1000 * 1000 * 1000)
    let tv_sec ← int64 (tv_sec + tv_nsec.tdiv (1000 * 1000 * 1000))
    some ⟨tv_sec,tv_nsec.tmod (1000 * 1000 * 1000)⟩
  else none

/-- The timespec of a time point names the instant that was asked for. -/
def Denotes (clock : Clock) (tp : Int64) : Prop :=
  ∃ ts, setTimespec clock tp = some ts ∧ 0 ≤ ts.tv_nsec ∧ ts.tv_nsec < 1000000000 ∧
    ts.nanoseconds = clock.now + (tp.toInt - clock.now).tdiv 1000000 * 1000000 ∧
    ∀ d : Int64, 0 ≤ d.toInt → tp.toInt = clock.now + d.toInt * 1000000 →
      ts.nanoseconds = clock.now + (Duration.setTimespec d).nanoseconds

theorem int64_fits {x : Int} (low : -2 ^ 63 ≤ x) (high : x < 2 ^ 63) : int64 x = some x :=
  if_pos ⟨low,high⟩

theorem truncated_neg {n b : Int} (nonneg : 0 ≤ n) :
    (-n).tdiv b = -(n / b) ∧ (-n).tmod b = -(n % b) := by
  rw [Int.neg_tdiv, Int.neg_tmod, Int.tdiv_eq_ediv_of_nonneg nonneg,
    Int.tmod_eq_emod_of_nonneg nonneg]
  exact ⟨rfl,rfl⟩

theorem truncated_small {x b : Int} (low : -b < x) (high : x < b) :
    x.tdiv b = 0 ∧ x.tmod b = x := by
  by_cases nonneg : 0 ≤ x
  · exact ⟨Int.tdiv_eq_zero_of_lt nonneg high,Int.tmod_eq_of_lt nonneg high⟩
  · have negated := truncated_neg (n := -x) (b := b) (by omega)
    rw [Int.neg_neg, Int.ediv_eq_zero_of_lt (by omega) (by omega),
      Int.emod_eq_of_lt (by omega) (by omega), Int.neg_neg] at negated
    exact negated

/-- Nothing is carried: a past instant is subtracted part by part. -/
theorem setTimespec_past {clock : Clock} {tp : Int64} (past : tp.toInt ≤ clock.now)
    (near : clock.now - tp.toInt ≤ 2 ^ 63) :
    setTimespec clock tp = some
      ⟨clock.tv_sec - (clock.now - tp.toInt) / 1000000 / 1000,
        clock.tv_nsec - (clock.now - tp.toInt) / 1000000 % 1000 * 1000000⟩ := by
  obtain ⟨nsec_nonneg,nsec_lt⟩ := clock.nsec_range
  obtain ⟨count_low,count_high⟩ := clock.count_range
  generalize elapsed : clock.now - tp.toInt = n at near ⊢
  have nonneg : 0 ≤ n := by omega
  have delta : tp.toInt - clock.now = -n := by omega
  have whole := truncated_neg (n := n) (b := 1000000) nonneg
  have parts := truncated_neg (n := n / 1000000) (b := 1000) (by omega)
  have nsec := truncated_small (x := clock.tv_nsec + -(n / 1000000 % 1000) * 1000 * 1000)
    (b := 1000000000) (by omega) (by omega)
  simp only [setTimespec, ge_iff_le, if_pos past, delta]
  rw [int64_fits (by omega) (by omega)]
  simp only [Option.bind_eq_bind, Option.bind_some, whole.1, parts.1, parts.2]
  rw [int64_fits (by omega) (by omega), int64_fits (by omega) (by omega)]
  simp only [Option.bind_some, Int.reduceMul, nsec.1, nsec.2]
  rw [int64_fits (by omega) (by omega)]
  simp only [Option.bind_some, Option.some.injEq, Timespec.mk.injEq]
  omega

theorem setTimespec_some {clock : Clock} {tp : Int64} {ts : Timespec}
    (set : setTimespec clock tp = some ts) :
    tp.toInt ≤ clock.now ∧ clock.now - tp.toInt ≤ 2 ^ 63 := by
  unfold setTimespec at set
  split at set
  · rename_i past
    by_cases near : clock.now - tp.toInt ≤ 2 ^ 63
    · exact ⟨past,near⟩
    · have overflow : int64 (tp.toInt - clock.now) = none := if_neg (by omega)
      simp [overflow] at set
  · contradiction

/-- A time point in the future fails the assertion, and the milliseconds of a past one are
taken from the nanoseconds of the clock without a borrow. -/
theorem denotes_iff (clock : Clock) (tp : Int64) :
    Denotes clock tp ↔
      tp.toInt ≤ clock.now ∧ clock.now - tp.toInt ≤ 2 ^ 63 ∧
        (clock.now - tp.toInt) / 1000000 % 1000 * 1000000 ≤ clock.tv_nsec := by
  constructor
  · rintro ⟨ts,set,nsec_nonneg,_⟩
    obtain ⟨past,near⟩ := setTimespec_some set
    rw [setTimespec_past past near] at set
    cases set
    refine ⟨past,near,?_⟩
    simpa using nsec_nonneg
  · rintro ⟨past,near,milliseconds⟩
    have range := clock.nsec_range
    have counted : clock.now = clock.tv_sec * 1000000000 + clock.tv_nsec := rfl
    have truncated := truncated_neg (n := clock.now - tp.toInt) (b := 1000000) (by omega)
    rw [Int.neg_sub] at truncated
    refine ⟨_,setTimespec_past past near,by simpa using milliseconds,?_,?_,?_⟩
    · simp only
      omega
    · simp only [Timespec.nanoseconds, truncated.1]
      omega
    · intro d nonneg ahead
      have same : clock.now - tp.toInt = 0 := by omega
      rw [Duration.nanoseconds_setTimespec]
      simp only [Timespec.nanoseconds, same]
      omega

/-- one millisecond ahead of a clock that reads one second -/
theorem future_fails_assertion : ¬ ∀ (clock : Clock) (tp : Int64), Denotes clock tp := by
  intro claim
  obtain ⟨ts,set,_⟩ := claim ⟨1,0,by decide,by decide⟩ 1001000000
  have failed : setTimespec ⟨1,0,by decide,by decide⟩ 1001000000 = none := by decide
  rw [failed] at set
  contradiction

end TimePoint
end Aiopp
