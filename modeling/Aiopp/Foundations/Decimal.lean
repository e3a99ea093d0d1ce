import Mathlib.Data.List.Basic

/-!
Decimal numbers as ASCII bytes: the unpadded text of a number and the value of a run of
digits, which may start with zeros.
-/
namespace Decimal

def isDigit (c : UInt8) : Bool := 48 ≤ c && c ≤ 57

def digitValue (c : UInt8) : Nat := c.toNat - 48

def digits (n : Nat) : List UInt8 := (Nat.toDigits 10 n).map Char.toUInt8

def valueFrom (n : Nat) : List UInt8 → Nat
  | [] => n
  | c :: rest => valueFrom (10 * n + digitValue c) rest

def value (text : List UInt8) : Nat := valueFrom 0 text

theorem digitChar_byte {d : Nat} (small : d < 10) :
    isDigit (Nat.digitChar d).toUInt8 = true ∧ digitValue (Nat.digitChar d).toUInt8 = d := by
  have all : ∀ d < 10, isDigit (Nat.digitChar d).toUInt8 = true ∧
      digitValue (Nat.digitChar d).toUInt8 = d := by decide
  exact all d small

theorem digits_eq (n : Nat) : digits n =
    (if n < 10 then [] else digits (n / 10)) ++ [(Nat.digitChar (n % 10)).toUInt8] := by
  unfold digits
  rw [Nat.toDigits_eq_if (by omega)]
  split
  · rename_i small
    rw [Nat.mod_eq_of_lt small]
    rfl
  · simp

theorem digits_nonempty (n : Nat) : digits n ≠ [] := by
  rw [digits_eq]
  simp

theorem digits_isDigit (n : Nat) : ∀ c ∈ digits n, isDigit c = true := by
  induction n using Nat.strongRecOn with
  | ind n ih =>
    intro c member
    rw [digits_eq, List.mem_append] at member
    rcases member with earlier | last
    · split at earlier
      · simp at earlier
      · exact ih (n / 10) (by omega) c earlier
    · rw [List.mem_singleton.mp last]
      exact (digitChar_byte (Nat.mod_lt n (by omega))).1

theorem valueFrom_append (n : Nat) (front back : List UInt8) :
    valueFrom n (front ++ back) = valueFrom (valueFrom n front) back := by
  induction front generalizing n with
  | nil => rfl
  | cons c front ih => exact ih (10 * n + digitValue c)

theorem value_append_digit (text : List UInt8) (c : UInt8) :
    value (text ++ [c]) = 10 * value text + digitValue c := valueFrom_append 0 text [c]

theorem value_digits (n : Nat) : value (digits n) = n := by
  induction n using Nat.strongRecOn with
  | ind n ih =>
    have last := (digitChar_byte (d := n % 10) (by omega)).2
    rw [digits_eq, value_append_digit, last]
    split
    · have nothing : value [] = 0 := rfl
      omega
    · rw [ih (n / 10) (by omega)]
      omega

theorem not_mem_digits {c : UInt8} (other : isDigit c = false) (n : Nat) : c ∉ digits n := by
  intro member
  simp [digits_isDigit n c member] at other

end Decimal
