import Mathlib.Algebra.Order.Ring.Nat
import Mathlib.Data.List.Induction

/-!
A queue in a circular array whose positions are counted by words that run freely and wrap. Its
items lie in consecutive cells from `head` to `tail`, counted modulo the number of cells, which
divides the number of words; what an item looks like in a cell is a parameter.
-/
namespace CircularBuffer
variable {A : Type} {w : Nat}

/-- The wrapped counters still tell a full array from an empty one. -/
structure Fits (w entries : Nat) : Prop where
  divides : entries ∣ 2 ^ w
  small : entries < 2 ^ w

structure Holds (stored : Nat → A → Prop) (entries : Nat) (head tail : BitVec w)
    (items : List A) : Prop where
  count : (tail - head).toNat = items.length
  room : items.length ≤ entries
  item : ∀ i item, items[i]? = some item →
    stored ((head + BitVec.ofNat w i).toNat % entries) item

variable {stored stored' : Nat → A → Prop} {entries : Nat} {head tail : BitVec w}
  {items : List A}

theorem cells_apart {i j : Nat} (before : i < j) (near : j < i + entries) :
    i % entries ≠ j % entries := by
  intro same
  have multiple : (j - i) % entries = 0 := Nat.sub_mod_eq_zero_of_mod_eq same.symm
  have small : (j - i) % entries = j - i := Nat.mod_eq_of_lt (by omega)
  omega

/-- Where the counter wraps does not show in the cells. -/
theorem cell_eq (fits : Fits w entries) (head : BitVec w) (i : Nat) :
    (head + BitVec.ofNat w i).toNat % entries = (head.toNat + i) % entries := by
  rw [BitVec.toNat_add, BitVec.toNat_ofNat, Nat.add_mod_mod, Nat.mod_mod_of_dvd _ fits.divides]

theorem positions_apart (fits : Fits w entries) {i j : Nat} (other : i ≠ j) (low : i < entries)
    (high : j < entries) : (head + BitVec.ofNat w i).toNat % entries ≠
      (head + BitVec.ofNat w j).toNat % entries := by
  rw [cell_eq fits, cell_eq fits]
  rcases Nat.lt_or_gt_of_ne other with before | behind
  · exact cells_apart (by omega) (by omega)
  · exact (cells_apart (by omega) (by omega)).symm

theorem tail_eq (holds : Holds stored entries head tail items) :
    tail = head + BitVec.ofNat w items.length := by
  rw [← holds.count, BitVec.ofNat_toNat, BitVec.setWidth_eq, BitVec.add_comm, BitVec.sub_add_cancel]

theorem holds_empty (head : BitVec w) : Holds stored entries head head [] :=
  ⟨by simp,Nat.zero_le _,by simp⟩

theorem holds_push {item : A} (fits : Fits w entries)
    (holds : Holds stored entries head tail items)
    (space : (tail - head).toNat < entries) (new : stored' (tail.toNat % entries) item)
    (kept : ∀ cell ≠ tail.toNat % entries, ∀ x, stored cell x → stored' cell x) :
    Holds stored' entries head (tail + 1) (items ++ [item]) := by
  have count := holds.count
  have last := tail_eq holds
  have small := fits.small
  refine ⟨?_,?_,?_⟩
  · have next : tail + 1 - head = BitVec.ofNat w (items.length + 1) := by
      rw [last, BitVec.ofNat_add, BitVec.add_assoc, BitVec.add_comm head, BitVec.add_sub_cancel]
      rfl
    rw [next, BitVec.toNat_ofNat, List.length_append, List.length_singleton]
    exact Nat.mod_eq_of_lt (by omega)
  · rw [List.length_append, List.length_singleton]
    omega
  · intro i x found
    by_cases old : i < items.length
    · rw [List.getElem?_append_left old] at found
      have apart : (head + BitVec.ofNat w i).toNat % entries ≠ tail.toNat % entries := by
        rw [last]
        exact positions_apart fits (by omega) (by omega) (by omega)
      exact kept _ apart x (holds.item i x found)
    · rw [List.getElem?_append_right (by omega)] at found
      obtain ⟨inside,rfl⟩ := List.getElem?_eq_some_iff.mp found
      obtain rfl : i = items.length := by
        rw [List.length_singleton] at inside
        omega
      rw [← last]
      simpa using new

theorem holds_set {item old : A} {position : Nat} (fits : Fits w entries)
    (holds : Holds stored entries head tail items) (found : items[position]? = some old)
    (new : stored' ((head + BitVec.ofNat w position).toNat % entries) item)
    (kept : ∀ cell ≠ (head + BitVec.ofNat w position).toNat % entries, ∀ x,
      stored cell x → stored' cell x) :
    Holds stored' entries head tail (items.set position item) := by
  obtain ⟨inside,_⟩ := List.getElem?_eq_some_iff.mp found
  have room := holds.room
  refine ⟨by rw [List.length_set]; exact holds.count,by rw [List.length_set]; exact room,?_⟩
  intro i x there
  by_cases same : i = position
  · subst same
    rw [List.getElem?_set_self inside] at there
    obtain rfl := Option.some.inj there
    exact new
  · rw [List.getElem?_set_ne (Ne.symm same)] at there
    obtain ⟨within,_⟩ := List.getElem?_eq_some_iff.mp there
    exact kept _ (positions_apart fits same (by omega) (by omega)) x (holds.item i x there)

theorem holds_read {read : Nat → Option A} (holds : Holds stored entries head tail items)
    (reads : ∀ cell x, stored cell x → read cell = some x) :
    (List.range (tail - head).toNat).mapM
      (fun i => read ((head + BitVec.ofNat w i).toNat % entries)) = some items := by
  have found (i : Nat) (item : A) (there : items[i]? = some item) :
      read ((head + BitVec.ofNat w i).toNat % entries) = some item :=
    reads _ _ (holds.item i item there)
  rw [holds.count]
  clear holds
  induction items using List.reverseRecOn with
  | nil => rfl
  | append_singleton items last ih =>
    have earlier := ih fun i item there => by
      obtain ⟨inside,_⟩ := List.getElem?_eq_some_iff.mp there
      exact found i item (by rw [List.getElem?_append_left inside]; exact there)
    have here := found items.length last (by simp)
    have single : [items.length].mapM
        (fun i => read ((head + BitVec.ofNat w i).toNat % entries)) = some [last] := by
      simp only [List.mapM_cons, List.mapM_nil, here]
      rfl
    rw [List.length_append, List.length_singleton, List.range_succ, List.mapM_append, earlier, single]
    rfl

end CircularBuffer
