import Mathlib.Data.List.Basic
import Mathlib.Algebra.Group.Nat.Defs

/-!
Records laid out in bytes. A store writes a value into a field, least significant byte first;
its offset counts from the start of the record.
-/
namespace ByteLayout

abbrev Memory := Nat → UInt8

structure Store where
  offset : Nat
  width : Nat
  value : Nat
  deriving DecidableEq, Repr

def Store.Touches (s : Store) (k : Nat) : Prop := s.offset ≤ k ∧ k < s.offset + s.width

def Store.Apart (s t : Store) : Prop :=
  s.offset + s.width ≤ t.offset ∨ t.offset + t.width ≤ s.offset

def Store.Fits (s : Store) : Prop := s.value < 256 ^ s.width

def write (base : Nat) (m : Memory) (s : Store) : Memory := fun a =>
  if base + s.offset ≤ a ∧ a < base + s.offset + s.width then
    UInt8.ofNat (s.value / 256 ^ (a - (base + s.offset)))
  else m a

def writeAll (base : Nat) (m : Memory) (stores : List Store) : Memory := stores.foldl (write base) m

def load (m : Memory) (a : Nat) : Nat → Nat
  | 0 => 0
  | width + 1 => (m a).toNat + 256 * load m (a + 1) width

def Reads (base : Nat) (m : Memory) (fields : List Store) : Prop :=
  ∀ s ∈ fields, load m (base + s.offset) s.width = s.value

section Writing
variable {base base' k : Nat} {m m' : Memory} {s : Store} {stores : List Store}

theorem write_touched (touched : s.Touches k) :
    write base m s (base + k) = UInt8.ofNat (s.value / 256 ^ (k - s.offset)) := by
  obtain ⟨low,high⟩ := touched
  have inside : base + s.offset ≤ base + k ∧ base + k < base + s.offset + s.width := by omega
  have distance : base + k - (base + s.offset) = k - s.offset := by omega
  rw [write, if_pos inside, distance]

theorem write_untouched (untouched : ¬ s.Touches k) : write base m s (base + k) = m (base + k) := by
  apply if_neg
  unfold Store.Touches at untouched
  omega

theorem writeAll_append (stores' : List Store) :
    writeAll base m (stores ++ stores') = writeAll base (writeAll base m stores) stores' :=
  List.foldl_append

/-- A byte that a store touches does not depend on what was there, nor on where the record is. -/
theorem writeAll_determined (determined : m (base + k) = m' (base' + k) ∨ ∃ s ∈ stores, s.Touches k) :
    writeAll base m stores (base + k) = writeAll base' m' stores (base' + k) := by
  induction stores generalizing m m' with
  | nil => simpa [writeAll] using determined
  | cons s rest ih =>
    apply ih
    by_cases touched : s.Touches k
    · exact Or.inl ((write_touched touched).trans (write_touched touched).symm)
    · rw [write_untouched touched, write_untouched touched]
      refine determined.imp_right ?_
      rintro ⟨t,listed,touches⟩
      cases List.mem_cons.mp listed with
      | inl same => exact absurd (same ▸ touches) touched
      | inr later => exact ⟨t,later,touches⟩

theorem writeAll_frame {size a : Nat} (within : ∀ s ∈ stores, s.offset + s.width ≤ size)
    (outside : a < base ∨ base + size ≤ a) : writeAll base m stores a = m a := by
  induction stores generalizing m with
  | nil => rfl
  | cons s rest ih =>
    have ends := within s List.mem_cons_self
    have kept : write base m s a = m a := by
      apply if_neg
      omega
    exact (ih fun t later => within t (List.mem_cons_of_mem s later)).trans kept

end Writing

section Reading
variable {base : Nat} {m : Memory} {s : Store}

theorem load_add (a v w : Nat) : load m a (v + w) = load m a v + 256 ^ v * load m (a + v) w := by
  induction v generalizing a with
  | zero => simp [load]
  | succ v ih =>
    have next : a + 1 + v = a + (v + 1) := by omega
    rw [Nat.succ_add, load, load, ih, next, Nat.mul_add, ← Nat.mul_assoc, Nat.pow_succ',
      Nat.add_assoc]

theorem load_congr {m' : Memory} {a w : Nat} (same : ∀ i < w, m (a + i) = m' (a + i)) :
    load m a w = load m' a w := by
  induction w generalizing a with
  | zero => rfl
  | succ w ih =>
    have first : m a = m' a := same 0 (by omega)
    have rest : load m (a + 1) w = load m' (a + 1) w := by
      apply ih
      intro i bound
      have next : a + 1 + i = a + (i + 1) := by omega
      rw [next]
      exact same (i + 1) (by omega)
    rw [load, load, first, rest]

theorem load_write_part {i w : Nat} (bound : i + w ≤ s.width) :
    load (write base m s) (base + s.offset + i) w = s.value / 256 ^ i % 256 ^ w := by
  induction w generalizing i with
  | zero => simp [load, Nat.mod_one]
  | succ w ih =>
    have touched : s.Touches (s.offset + i) := ⟨by omega,by omega⟩
    have place : base + s.offset + i = base + (s.offset + i) := by omega
    have distance : s.offset + i - s.offset = i := by omega
    have first : (write base m s (base + s.offset + i)).toNat = s.value / 256 ^ i % 256 := by
      rw [place, write_touched touched, distance]
      rfl
    have rest := ih (i := i + 1) (by omega)
    rw [← Nat.add_assoc, Nat.pow_succ, ← Nat.div_div_eq_div_mul] at rest
    rw [load, first, rest, Nat.pow_succ', Nat.mod_mul]

theorem load_write (fits : s.Fits) : load (write base m s) (base + s.offset) s.width = s.value := by
  have whole : load (write base m s) (base + s.offset + 0) s.width =
      s.value / 256 ^ 0 % 256 ^ s.width := load_write_part (by omega)
  rw [Nat.add_zero, Nat.pow_zero, Nat.div_one, Nat.mod_eq_of_lt fits] at whole
  exact whole

theorem load_write_apart {t : Store} (apart : s.Apart t) :
    load (write base m s) (base + t.offset) t.width = load m (base + t.offset) t.width := by
  apply load_congr
  intro i bound
  have untouched : ¬ s.Touches (t.offset + i) := by
    unfold Store.Touches
    unfold Store.Apart at apart
    omega
  rw [Nat.add_assoc]
  exact write_untouched untouched

theorem load_lt (a w : Nat) : load m a w < 256 ^ w := by
  induction w generalizing a with
  | zero => simp [load]
  | succ w ih =>
    have first := (m a).toNat_lt
    have rest := ih (a + 1)
    rw [load, Nat.pow_succ']
    omega

theorem load_write_low (fits : s.Fits) (w : Nat) :
    load (write base m s) (base + s.offset) (s.width + w) =
      s.value + 256 ^ s.width * (load m (base + s.offset) (s.width + w) / 256 ^ s.width) := by
  have upper : load (write base m s) (base + s.offset + s.width) w =
      load m (base + s.offset + s.width) w := by
    have apart : s.Apart ⟨s.offset + s.width,w,0⟩ := Or.inl (Nat.le_refl _)
    rw [Nat.add_assoc]
    exact load_write_apart apart
  have split := load_add (m := m) (base + s.offset) s.width w
  have lower := load_lt (m := m) (base + s.offset) s.width
  have quotient : load m (base + s.offset) (s.width + w) / 256 ^ s.width =
      load m (base + s.offset + s.width) w := by
    rw [split, Nat.add_mul_div_left _ _ (Nat.lt_of_le_of_lt (Nat.zero_le _) lower),
      Nat.div_eq_of_lt lower, Nat.zero_add]
  rw [load_add, load_write fits, upper, quotient]

theorem reads_write {fields fields' : List Store} (reads : Reads base m fields) (fits : s.Fits)
    (split : ∀ t ∈ fields', t = s ∨ t ∈ fields ∧ s.Apart t) :
    Reads base (write base m s) fields' := by
  intro t listed
  cases split t listed with
  | inl same => rw [same, load_write fits]
  | inr earlier => rw [load_write_apart earlier.2, reads t earlier.1]

theorem load_writeAll_apart {stores : List Store} {t : Store} (apart : ∀ s ∈ stores, t.Apart s) :
    load (writeAll base m stores) (base + t.offset) t.width =
      load m (base + t.offset) t.width := by
  induction stores generalizing m with
  | nil => rfl
  | cons s rest ih =>
    have first : s.Apart t := (apart s List.mem_cons_self).symm
    rw [← load_write_apart (m := m) first]
    exact ih fun u later => apart u (List.mem_cons_of_mem s later)

theorem reads_writeAll {stores : List Store} (apart : stores.Pairwise Store.Apart)
    (fits : ∀ s ∈ stores, s.Fits) : Reads base (writeAll base m stores) stores := by
  induction stores generalizing m with
  | nil => simp [Reads]
  | cons s rest ih =>
    obtain ⟨clear,apart_rest⟩ := List.pairwise_cons.mp apart
    intro t listed
    cases List.mem_cons.mp listed with
    | inl same =>
      rw [same]
      exact (load_writeAll_apart clear).trans (load_write (fits s List.mem_cons_self))
    | inr later => exact ih apart_rest (fun u rest_u => fits u (List.mem_cons_of_mem s rest_u)) t later

end Reading
end ByteLayout
