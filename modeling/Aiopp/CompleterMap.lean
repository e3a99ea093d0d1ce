import Aiopp.Foundations.ProbeTable
import Mathlib.Tactic.NormNum
import Mathlib.Tactic.NormNum.Prime

/-!
The completer map of the queue: open addressing with double hashing over a
fixed prime number of entries. Pointers are 64-bit words, so `Empty` and
`Tombstone` are ordinary values that a stored pointer must avoid. Assertions
are kept and count as aborts; an aborting call has no result.
-/
namespace Aiopp
open ProbeTable

namespace CompleterMap

def Empty : UInt64 := 0
def Tombstone : UInt64 := 0xffffffffffffffff

structure Entry where
  key : UInt64 := 0xffffffffffffffff
  value : UInt64 := Empty
  deriving DecidableEq, Repr

def hash (x : UInt64) : UInt64 :=
  let x := x ^^^ (x >>> 30)
  let x := x * 0xbf58476d1ce4e5b9
  let x := x ^^^ (x >>> 27)
  let x := x * 0x94d049bb133111eb
  x ^^^ (x >>> 31)

def primes : List UInt64 :=
  [53, 97, 193, 389, 769, 1543, 3079, 6151, 12289, 24593, 49157, 98317, 196613]

/-- The last prime passes the assertion and is then refused by the loop. -/
def getNextSize (num : UInt64) : Option UInt64 :=
  if num ≤ 196613 then primes.find? (fun prime => num < prime) else none

end CompleterMap

open CompleterMap in
structure CompleterMap where
  entries_ : List Entry
  size_ : UInt64 := 0
  deriving DecidableEq, Repr

namespace CompleterMap

def create (numEntries : UInt64) : Option CompleterMap :=
  (getNextSize numEntries).map fun n => { entries_ := List.replicate n.toNat {} }

def size (m : CompleterMap) : UInt64 := m.size_
def capacity (m : CompleterMap) : Nat := m.entries_.length

def stride (capacity : Nat) (key : UInt64) : UInt64 :=
  hash key % (UInt64.ofNat capacity - 1) + 1

/-- The sum is taken in 64 bits and wraps before it is reduced. -/
def probe (capacity : Nat) (key : UInt64) (i : Nat) : Nat :=
  (key + UInt64.ofNat i * stride capacity key).toNat % capacity

def entryAt (m : CompleterMap) (key : UInt64) (i : Nat) : Entry :=
  m.entries_.getD (probe m.capacity key i) {}

def insertLoop (m : CompleterMap) (key value : UInt64) : List Nat → Option CompleterMap
  | [] => none
  | i :: rest =>
    let entry := m.entryAt key i
    if entry.value = Empty ∨ entry.value = Tombstone then
      some { entries_ := m.entries_.set (probe m.capacity key i) ⟨key, value⟩
             size_ := m.size_ + 1 }
    else insertLoop m key value rest

def insert (m : CompleterMap) (key value : UInt64) : Option CompleterMap :=
  if m.size.toNat < m.capacity then m.insertLoop key value (List.range m.capacity) else none

def lookupLoop (m : CompleterMap) (key : UInt64) : List Nat → Option Nat
  | [] => none
  | i :: rest =>
    let entry := m.entryAt key i
    if entry.value = Empty then none
    else if entry.value ≠ Tombstone ∧ entry.key = key then some (probe m.capacity key i)
    else lookupLoop m key rest

def lookup (m : CompleterMap) (key : UInt64) : Option Nat :=
  m.lookupLoop key (List.range m.capacity)

def get (m : CompleterMap) (key : UInt64) : UInt64 :=
  match m.lookup key with
  | none => Empty
  | some idx => (m.entries_.getD idx {}).value

def remove (m : CompleterMap) (key : UInt64) : UInt64 × CompleterMap :=
  match m.lookup key with
  | none => (Empty, m)
  | some idx =>
    let entry := m.entries_.getD idx {}
    (entry.value, { entries_ := m.entries_.set idx { entry with value := Tombstone }
                    size_ := m.size_ - 1 })

theorem getNextSize_prime {num n : UInt64} (accepted : getNextSize num = some n) :
    n.toNat.Prime ∧ 53 ≤ n.toNat ∧ n.toNat ≤ 196613 := by
  have member : n ∈ primes := by
    unfold getNextSize at accepted
    split at accepted
    · exact List.mem_of_find?_eq_some accepted
    · simp at accepted
  have listed : n.toNat ∈ primes.map UInt64.toNat := List.mem_map_of_mem member
  rw [show primes.map UInt64.toNat = [53, 97, 193, 389, 769, 1543, 3079, 6151, 12289, 24593,
    49157, 98317, 196613] from rfl] at listed
  simp only [List.mem_cons, List.not_mem_nil, or_false] at listed
  rcases listed with h | h | h | h | h | h | h | h | h | h | h | h | h <;> rw [h] <;> norm_num

/-- The entry's word as a slot of a probe table. A stale key behind a deletion
   mark is forgotten. -/
def Entry.slot (e : Entry) : Slot UInt64 UInt64 :=
  if e.value = Empty then .empty else if e.value = Tombstone then .tombstone
  else .live e.key e.value

theorem slot_free_iff (e : Entry) : e.slot.Free ↔ e.value = Empty ∨ e.value = Tombstone := by
  unfold Entry.slot
  split
  · simp_all [Slot.Free]
  · split <;> simp_all [Slot.Free]

theorem slot_of_stored {key value : UInt64} (nonempty : value ≠ Empty)
    (unmarked : value ≠ Tombstone) : Entry.slot ⟨key,value⟩ = .live key value := by
  simp [Entry.slot, nonempty, unmarked]

theorem slot_of_marked (key : UInt64) : Entry.slot ⟨key,Tombstone⟩ = .tombstone := by
  simp [Entry.slot, Empty, Tombstone]

theorem slot_live {e : Entry} {key value : UInt64} (held : e.slot = .live key value) :
    e.key = key ∧ e.value = value ∧ e.value ≠ Empty ∧ e.value ≠ Tombstone := by
  unfold Entry.slot at held
  split at held
  · simp at held
  · split at held
    · simp at held
    · obtain ⟨hk,hv⟩ := Slot.live.inj held
      exact ⟨hk,hv,by assumption,by assumption⟩

def place (n : Nat) (key : UInt64) (i : Fin n) : Fin n :=
  ⟨probe n key i,Nat.mod_lt _ i.pos⟩

def path (n : Nat) (key : UInt64) : List (Fin n) := (List.finRange n).map (place n key)

theorem range_eq_finRange (n : Nat) : List.range n = (List.finRange n).map Fin.val := by
  apply List.ext_getElem <;> simp

structure Models (m : CompleterMap) {n : Nat} (t : Table (path n) UInt64) : Prop where
  capacity_eq : m.capacity = n
  slot_eq : ∀ j : Fin n, (m.entries_.getD j.val {}).slot = t.slots j
  size_eq : m.size_.toNat = t.count
  small : n < 2 ^ 64

section Simulation
variable {m : CompleterMap} {n : Nat} {t : Table (path n) UInt64}

theorem entryAt_slot (models : Models m t) (key : UInt64) (i : Fin n) :
    (m.entryAt key i).slot = t.slots (place n key i) := by
  rw [entryAt, models.capacity_eq]
  exact models.slot_eq (place n key i)

theorem lookupLoop_models (models : Models m t) (key : UInt64) (is : List (Fin n)) :
    m.lookupLoop key (is.map Fin.val) =
      (findKey t.slots key (is.map (place n key))).map Fin.val := by
  induction is with
  | nil => rfl
  | cons i rest ih =>
    have here := entryAt_slot models key i
    simp only [List.map_cons, lookupLoop, findKey]
    unfold Entry.slot at here
    split at here
    · rename_i empty
      rw [if_pos empty, ← here]
      rfl
    · rename_i nonempty
      rw [if_neg nonempty]
      split at here
      · rename_i marked
        rw [if_neg (by simp [marked]), ← here, ih]
      · rename_i unmarked
        rw [← here]
        dsimp only
        by_cases same : (m.entryAt key i).key = key
        · rw [if_pos ⟨unmarked,same⟩, if_pos same, models.capacity_eq]
          rfl
        · rw [if_neg (fun both => same both.2), if_neg same, ih]

theorem lookup_models (models : Models m t) (key : UInt64) :
    m.lookup key = (t.find key).map Fin.val := by
  rw [lookup, models.capacity_eq, range_eq_finRange, lookupLoop_models models]
  rfl

theorem get_models (models : Models m t) (key : UInt64) :
    m.get key = (t.content key).getD Empty := by
  rw [get, lookup_models models]
  cases found : t.find key with
  | none => simp [(t.find_none_iff key).mp found]
  | some i =>
    obtain ⟨v,held⟩ := findKey_sound found
    have holds := (t.content_some_iff key v).mpr ⟨i,held⟩
    have word := slot_live ((models.slot_eq i).trans held)
    simp only [Option.map_some, holds, Option.getD_some]
    exact word.2.1

theorem slot_eq_set (models : Models m t) (i : Fin n) (e : Entry) (j : Fin n) :
    ((m.entries_.set i.val e).getD j.val {}).slot = Function.update t.slots i e.slot j := by
  have inside : i.val < m.entries_.length := by
    have := models.capacity_eq
    simp only [capacity] at this
    omega
  by_cases same : j = i
  · subst same
    simp [List.getD, inside]
  · have apart : i.val ≠ j.val := fun eq => same (Fin.ext eq.symm)
    rw [Function.update_of_ne same, ← models.slot_eq j]
    simp [List.getD, List.getElem?_set_ne apart]

theorem remove_absent (models : Models m t) {key : UInt64} (absent : t.content key = none) :
    m.remove key = (Empty, m) := by
  rw [remove, lookup_models models, (t.find_none_iff key).mpr absent]
  rfl

theorem remove_present (models : Models m t) {key value : UInt64}
    (holds : t.content key = some value) :
    ∃ t' : Table (path n) UInt64, Models (m.remove key).2 t' ∧ (m.remove key).1 = value ∧
      t'.content = Function.update t.content key none := by
  obtain ⟨i,held⟩ := (t.content_some_iff key value).mp holds
  have word := slot_live ((models.slot_eq i).trans held)
  have counted := t.count_erase held
  refine ⟨t.erase i,?_,?_,t.erase_content held⟩
  · rw [remove, lookup_models models, Table.find_of_live held]
    refine ⟨by simpa [capacity] using models.capacity_eq,?_,?_,models.small⟩
    · intro j
      rw [Table.erase_slots, ← slot_of_marked (m.entries_.getD i.val {}).key]
      exact slot_eq_set models i _ j
    · have positive : (1 : UInt64) ≤ m.size_ := by
        rw [UInt64.le_iff_toNat_le, models.size_eq]
        simp
        omega
      change (m.size_ - 1).toNat = _
      rw [UInt64.toNat_sub_of_le _ _ positive, models.size_eq, UInt64.toNat_one]
      omega
  · rw [remove, lookup_models models, Table.find_of_live held]
    exact word.2.1

theorem insertLoop_models (models : Models m t) (key value : UInt64) (is : List (Fin n)) :
    m.insertLoop key value (is.map Fin.val) =
      (findFree t.slots (is.map (place n key))).map fun j =>
        { entries_ := m.entries_.set j.val ⟨key,value⟩, size_ := m.size_ + 1 } := by
  induction is with
  | nil => rfl
  | cons i rest ih =>
    have here := slot_free_iff (m.entryAt key i)
    rw [entryAt_slot models key i] at here
    simp only [List.map_cons, insertLoop, findFree]
    by_cases free : (t.slots (place n key i)).Free
    · rw [if_pos (here.mp free), if_pos free, models.capacity_eq]
      rfl
    · rw [if_neg (fun word => free (here.mpr word)), if_neg free, ih]

theorem insert_models (models : Models m t) {key value : UInt64} {m' : CompleterMap}
    (absent : t.content key = none) (nonempty : value ≠ Empty) (unmarked : value ≠ Tombstone)
    (run : m.insert key value = some m') :
    ∃ t' : Table (path n) UInt64, Models m' t' ∧
      t'.content = Function.update t.content key (some value) := by
  unfold insert at run
  split at run
  · rename_i room
    rw [models.capacity_eq, range_eq_finRange, insertLoop_models models] at run
    obtain ⟨i,found,rfl⟩ := Option.map_eq_some_iff.mp run
    change findFree t.slots (path n key) = some i at found
    refine ⟨t.insert key value i absent found,?_,t.insert_content key value i absent found⟩
    refine ⟨by simpa [capacity] using models.capacity_eq,?_,?_,models.small⟩
    · intro j
      rw [Table.insert_slots, ← slot_of_stored nonempty unmarked]
      exact slot_eq_set models i _ j
    · have bound := models.size_eq
      rw [size, models.capacity_eq] at room
      have small := models.small
      rw [t.count_insert key value i absent found, UInt64.toNat_add, bound]
      simp
      omega
  · simp at run

end Simulation

/-- What the map stands for. Tombstones, slots and stale keys are not part of it. -/
def Represents (m : CompleterMap) (content : UInt64 → Option UInt64) : Prop :=
  ∃ (n : Nat) (t : Table (path n) UInt64), Models m t ∧ t.content = content

section Represents
variable {m m' : CompleterMap} {content : UInt64 → Option UInt64}

theorem create_represents {num : UInt64} (made : create num = some m) :
    Represents m (fun _ => none) := by
  obtain ⟨n,accepted,rfl⟩ := Option.map_eq_some_iff.mp made
  refine ⟨n.toNat,Table.fresh _ _,⟨by simp [capacity],?_,?_,n.toNat_lt⟩,?_⟩
  · intro j
    simp [List.getD, Table.fresh, Entry.slot]
  · simp [Table.count_fresh]
  · funext key
    exact Table.fresh_content key

theorem create_capacity {num : UInt64} (made : create num = some m) :
    m.capacity.Prime ∧ 53 ≤ m.capacity ∧ m.capacity ≤ 196613 := by
  obtain ⟨n,accepted,rfl⟩ := Option.map_eq_some_iff.mp made
  simpa [capacity] using getNextSize_prime accepted

theorem represents_get (rep : Represents m content) (key : UInt64) :
    m.get key = (content key).getD Empty := by
  obtain ⟨n,t,models,rfl⟩ := rep
  exact get_models models key

theorem represents_size (rep : Represents m content) :
    m.size.toNat = {key | (content key).isSome}.ncard := by
  obtain ⟨n,t,models,rfl⟩ := rep
  rw [size, models.size_eq, t.count_eq_keys]

theorem represents_capacity (rep : Represents m content) : m.capacity < 2 ^ 64 := by
  obtain ⟨n,t,models,rfl⟩ := rep
  exact models.capacity_eq ▸ models.small

theorem represents_remove_absent (rep : Represents m content) {key : UInt64}
    (absent : content key = none) : m.remove key = (Empty, m) := by
  obtain ⟨n,t,models,rfl⟩ := rep
  exact remove_absent models absent

theorem represents_remove (rep : Represents m content) (key : UInt64) :
    (m.remove key).1 = (content key).getD Empty ∧
      Represents (m.remove key).2 (Function.update content key none) := by
  cases holds : content key with
  | none =>
    rw [represents_remove_absent rep holds, ← holds, Function.update_eq_self]
    simp [holds, rep]
  | some value =>
    obtain ⟨n,t,models,rfl⟩ := rep
    obtain ⟨t',models',answer,erased⟩ := remove_present models holds
    exact ⟨answer,n,t',models',erased⟩

theorem represents_insert (rep : Represents m content) {key value : UInt64}
    (absent : content key = none) (nonempty : value ≠ Empty) (unmarked : value ≠ Tombstone)
    (run : m.insert key value = some m') :
    Represents m' (Function.update content key (some value)) := by
  obtain ⟨n,t,models,rfl⟩ := rep
  obtain ⟨t',models',grown⟩ := insert_models models absent nonempty unmarked run
  exact ⟨n,t',models',grown⟩

/-- Stored pointers are never one of the two reserved words. -/
theorem represents_value (rep : Represents m content) {key value : UInt64}
    (holds : content key = some value) : value ≠ Empty ∧ value ≠ Tombstone := by
  obtain ⟨n,t,models,rfl⟩ := rep
  obtain ⟨i,held⟩ := (t.content_some_iff key value).mp holds
  have word := slot_live ((models.slot_eq i).trans held)
  exact word.2.1 ▸ word.2.2

theorem insertLoop_capacity {key value : UInt64} {is : List Nat}
    (run : m.insertLoop key value is = some m') : m'.capacity = m.capacity := by
  induction is with
  | nil => simp [insertLoop] at run
  | cons i rest ih =>
    simp only [insertLoop] at run
    split at run
    · cases run
      simp [capacity]
    · exact ih run

theorem insert_capacity {key value : UInt64} (run : m.insert key value = some m') :
    m'.capacity = m.capacity := by
  unfold insert at run
  split at run
  · exact insertLoop_capacity run
  · simp at run

theorem remove_capacity (m : CompleterMap) (key : UInt64) :
    (m.remove key).2.capacity = m.capacity := by
  unfold remove
  split <;> simp [capacity]

end Represents

section Removal
variable {m : CompleterMap} {key other : UInt64} {idx : Nat}

theorem lookupLoop_found {is : List Nat} (found : m.lookupLoop key is = some idx) :
    (m.entries_.getD idx {}).value ≠ Empty ∧ (m.entries_.getD idx {}).key = key := by
  induction is with
  | nil => simp [lookupLoop] at found
  | cons i rest ih =>
    simp only [lookupLoop] at found
    split at found
    · simp at found
    · rename_i stored
      split at found
      · rename_i here
        obtain rfl : probe m.capacity key i = idx := Option.some.inj found
        exact ⟨stored,here.2⟩
      · exact ih found

theorem lookupLoop_marked (stored : (m.entries_.getD idx {}).value ≠ Empty)
    (own : (m.entries_.getD idx {}).key = key) (apart : other ≠ key) (count : UInt64)
    (is : List Nat) :
    CompleterMap.lookupLoop ⟨m.entries_.set idx ⟨key,Tombstone⟩,count⟩ other is =
      m.lookupLoop other is := by
  have marked : (m.entries_.set idx ⟨key,Tombstone⟩).getD idx {} = ⟨key,Tombstone⟩ := by
    have inside : idx < m.entries_.length := by
      by_contra outside
      simp [List.getD, List.getElem?_eq_none (Nat.le_of_not_lt outside), Empty] at stored
    simp [List.getD, inside]
  have others : ∀ j, j ≠ idx →
      (m.entries_.set idx ⟨key,Tombstone⟩).getD j {} = m.entries_.getD j {} := by
    intro j elsewhere
    simp only [List.getD, List.getElem?_set_ne elsewhere.symm]
  induction is with
  | nil => rfl
  | cons i rest ih =>
    simp only [lookupLoop, entryAt, capacity, List.length_set, ih]
    by_cases here : probe m.entries_.length other i = idx
    · have foreign : (m.entries_.getD idx {}).key ≠ other := own ▸ apart.symm
      simp only [here, marked, stored, foreign]
      simp [Tombstone, Empty]
    · simp only [others _ here]
      rfl

theorem remove_get_other (m : CompleterMap) {key other : UInt64} (apart : other ≠ key) :
    (m.remove key).2.get other = m.get other := by
  unfold remove
  cases found : m.lookup key with
  | none => rfl
  | some idx =>
    obtain ⟨stored,own⟩ := lookupLoop_found found
    have same := lookupLoop_marked stored own apart (m.size_ - 1) (List.range m.capacity)
    simp only [get, lookup, own, capacity, List.length_set] at same ⊢
    rw [same]
    cases held : m.lookupLoop other (List.range m.entries_.length) with
    | none => rfl
    | some j =>
      have elsewhere : idx ≠ j := by
        rintro rfl
        exact apart ((lookupLoop_found held).2.symm.trans own)
      simp only [List.getD, List.getElem?_set_ne elsewhere]

end Removal
section Reach
variable {n : Nat}

theorem stride_bounds (prime : n.Prime) (small : n < 2 ^ 64) (key : UInt64) :
    0 < (stride n key).toNat ∧ (stride n key).toNat < n := by
  have two := prime.two_le
  have one : (1 : UInt64) ≤ UInt64.ofNat n := by
    rw [UInt64.le_iff_toNat_le, UInt64.toNat_ofNat_of_lt' small, UInt64.toNat_one]
    omega
  have below : (UInt64.ofNat n - 1).toNat = n - 1 := by
    rw [UInt64.toNat_sub_of_le _ _ one, UInt64.toNat_ofNat_of_lt' small, UInt64.toNat_one]
  have bound : (hash key).toNat % (n - 1) < n - 1 := Nat.mod_lt _ (by omega)
  have value : (stride n key).toNat = (hash key).toNat % (n - 1) + 1 := by
    rw [stride, UInt64.toNat_add, UInt64.toNat_mod, below, UInt64.toNat_one]
    exact Nat.mod_eq_of_lt (by omega)
  omega

/-- Without a wrap of the 64-bit sum, double hashing over a prime table
    visits every entry. -/
theorem path_covers (prime : n.Prime) (small : n < 2 ^ 64) {key : UInt64}
    (unwrapped : key.toNat + (n - 1) * (stride n key).toNat < 2 ^ 64) (j : Fin n) :
    j ∈ path n key := by
  have bounds := stride_bounds prime small key
  have coprime : Nat.Coprime n (stride n key).toNat :=
    Nat.coprime_of_lt_prime (Nat.ne_of_gt bounds.1) bounds.2 prime
  obtain ⟨i,inside,visits⟩ := progression_covers coprime key.toNat j.isLt
  refine List.mem_map.mpr ⟨⟨i,inside⟩,by simp,Fin.ext ?_⟩
  have product : i * (stride n key).toNat ≤ (n - 1) * (stride n key).toNat :=
    Nat.mul_le_mul_right _ (by omega)
  have exact_sum : (key + UInt64.ofNat i * stride n key).toNat =
      key.toNat + i * (stride n key).toNat := by
    have index : (UInt64.ofNat i).toNat = i :=
      UInt64.toNat_ofNat_of_lt' (Nat.lt_trans inside small)
    have factor : i * (stride n key).toNat % 2 ^ 64 = i * (stride n key).toNat :=
      Nat.mod_eq_of_lt (by omega)
    rw [UInt64.toNat_add, UInt64.toNat_mul, index, factor]
    exact Nat.mod_eq_of_lt (by omega)
  simpa [place, probe, exact_sum] using visits

theorem insert_succeeds {m : CompleterMap} {content : UInt64 → Option UInt64}
    (rep : Represents m content) (prime : m.capacity.Prime) {key : UInt64} (value : UInt64)
    (room : m.size.toNat < m.capacity)
    (unwrapped : key.toNat + (m.capacity - 1) * (stride m.capacity key).toNat < 2 ^ 64) :
    ∃ m', m.insert key value = some m' := by
  obtain ⟨n,t,models,rfl⟩ := rep
  obtain rfl := models.capacity_eq
  have covering := path_covers prime models.small unwrapped
  have space : t.count < Fintype.card (Fin m.capacity) := by
    rw [Fintype.card_fin, ← models.size_eq]
    exact room
  obtain ⟨i,found⟩ := t.findFree_of_covering covering space
  rw [path] at found
  rw [insert, if_pos room, range_eq_finRange, insertLoop_models models, found]
  exact ⟨_,rfl⟩

end Reach

end CompleterMap
end Aiopp
