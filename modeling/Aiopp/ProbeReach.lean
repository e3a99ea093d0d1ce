import Aiopp.MapHistory
import Aiopp.Foundations.Progression

/-!
Which keys find every free entry of the completer map. Where the 64-bit sum wraps, the rest
of the path is shifted by 2^64, which no prime size divides, and one entry is left out.
-/
namespace Aiopp
namespace CompleterMap
open ProbeTable

def lastSum (n : Nat) (key : UInt64) : Nat := key.toNat + (n - 1) * (stride n key).toNat

def word (n : Nat) (key : UInt64) (i : Nat) : Nat := (key + UInt64.ofNat i * stride n key).toNat

section Path
variable {n : Nat} {key : UInt64}

theorem word_eq (prime : n.Prime) (small : n < 2 ^ 32) {i : Nat} (inside : i < n) :
    word n key i = (key.toNat + i * (stride n key).toNat) % 2 ^ 64 ∧
      key.toNat + i * (stride n key).toNat < 2 ^ 65 := by
  have bounds := stride_bounds prime (by omega) key
  have index : (UInt64.ofNat i).toNat = i :=
    UInt64.toNat_ofNat_of_lt' (show i < 2 ^ 64 by omega)
  have product : i * (stride n key).toNat ≤ 2 ^ 32 * 2 ^ 32 :=
    Nat.mul_le_mul (by omega) (by omega)
  have key_small := key.toNat_lt
  refine ⟨?_,by omega⟩
  rw [word, UInt64.toNat_add, UInt64.toNat_mul, index, Nat.add_mod_mod]

theorem probes_once (prime : n.Prime) (small : n < 2 ^ 64) (unwrapped : lastSum n key < 2 ^ 64)
    {j : Nat} (bound : j < n) : ∃! i, i < n ∧ probe n key i = j := by
  have onto : Function.Surjective (place n key) := by
    intro entry
    obtain ⟨i,_,visits⟩ := List.mem_map.mp (path_covers prime small unwrapped entry)
    exact ⟨i,visits⟩
  have once := Finite.injective_iff_surjective.mpr onto
  obtain ⟨i,visits⟩ := onto ⟨j,bound⟩
  refine ⟨i.val,⟨i.isLt,congrArg Fin.val visits⟩,?_⟩
  rintro i' ⟨inside,same⟩
  have equal : place n key ⟨i',inside⟩ = place n key i := by
    rw [visits]
    exact Fin.ext same
  exact congrArg Fin.val (once equal)

theorem wrapped_key_large (prime : n.Prime) (small : n < 2 ^ 32) (wraps : 2 ^ 64 ≤ lastSum n key) :
    n ≤ key.toNat := by
  have bounds := stride_bounds prime (by omega) key
  have product : (n - 1) * (stride n key).toNat ≤ (2 ^ 32 - 1) * (2 ^ 32 - 1) :=
    Nat.mul_le_mul (by omega) (by omega)
  unfold lastSum at wraps
  omega

theorem path_misses (prime : n.Prime) (odd : n ≠ 2) (small : n < 2 ^ 32)
    (wraps : 2 ^ 64 ≤ lastSum n key) : ∃ j < n, ∀ i < n, probe n key i ≠ j := by
  have bounds := stride_bounds prime (by omega) key
  have coprime : Nat.Coprime n (stride n key).toNat :=
    Nat.coprime_of_lt_prime (Nat.ne_of_gt bounds.1) bounds.2 prime
  have key_small := key.toNat_lt
  have turns : ∃ i, 2 ^ 64 ≤ key.toNat + i * (stride n key).toNat := ⟨n - 1,wraps⟩
  have two := prime.two_le
  have apart : ¬ n ∣ 2 ^ 64 := by
    intro divides
    exact odd ((Nat.prime_dvd_prime_iff_eq prime Nat.prime_two).mp (prime.dvd_of_dvd_pow divides))
  have turned := Nat.find_spec turns
  have first : Nat.find turns ≤ n - 1 := Nat.find_min' turns wraps
  have moved : 0 < Nat.find turns := by
    by_contra still
    rw [Nat.eq_zero_of_not_pos still] at turned
    omega
  apply shifted_progression_misses prime coprime key.toNat moved (by omega) apart (word n key)
  · intro i early
    have below := Nat.find_min turns early
    rw [(word_eq prime small (by omega)).1]
    exact Nat.mod_eq_of_lt (by omega)
  · intro i inside late
    have beyond : Nat.find turns * (stride n key).toNat ≤ i * (stride n key).toNat :=
      Nat.mul_le_mul_right _ late
    rw [(word_eq prime small inside).1]
    have bounded := (@word_eq n key prime small i inside).2
    omega

end Path

/-- The table in which each of the entries listed holds the key that is its own index. -/
def filled (n : Nat) (held : List Nat) : CompleterMap where
  entries_ := (List.range n).map fun s => if s ∈ held then ⟨UInt64.ofNat s,1⟩ else {}
  size_ := UInt64.ofNat held.length

def fill (held : List Nat) : List MapOp := held.map fun s => .insert (UInt64.ofNat s) 1

section Fill
variable {n s : Nat} {held : List Nat}

theorem filled_capacity (n : Nat) (held : List Nat) : (filled n held).capacity = n := by
  simp [filled, capacity]

theorem filled_entry (inside : s < n) (held : List Nat) :
    (filled n held).entries_.getD s {} = if s ∈ held then ⟨UInt64.ofNat s,1⟩ else {} := by
  simp [filled, List.getD, inside]

theorem filled_insert (inside : s < n) (small : n < 2 ^ 64) (fresh : s ∉ held)
    (room : held.length < n) :
    (filled n held).insert (UInt64.ofNat s) 1 = some (filled n (s :: held)) := by
  have index : (UInt64.ofNat s).toNat = s := UInt64.toNat_ofNat_of_lt' (show s < 2 ^ 64 by omega)
  have count : (UInt64.ofNat held.length).toNat = held.length :=
    UInt64.toNat_ofNat_of_lt' (show held.length < 2 ^ 64 by omega)
  have first : probe n (UInt64.ofNat s) 0 = s := by
    simp [probe, index, Nat.mod_eq_of_lt inside]
  have probes : List.range n = 0 :: (List.range (n - 1)).map Nat.succ := by
    rw [← List.range_succ_eq_map]
    congr 1
    omega
  have free : ((filled n held).entryAt (UInt64.ofNat s) 0).value = Empty := by
    rw [entryAt, filled_capacity, first, filled_entry inside, if_neg fresh]
  have smaller : (filled n held).size.toNat < (filled n held).capacity := by
    rw [filled_capacity]
    simpa [filled, size, count] using room
  rw [insert, if_pos smaller, filled_capacity, probes, insertLoop]
  simp only [free, true_or, if_true, filled_capacity, first]
  have entries : (filled n held).entries_.set s ⟨UInt64.ofNat s,1⟩ =
      (filled n (s :: held)).entries_ := by
    apply List.ext_getElem (by simp [filled])
    intro i _ _
    by_cases here : s = i
    · simp [filled, here]
    · simp [filled, List.getElem_set_ne here, Ne.symm here]
  have counted : (filled n held).size_ + 1 = (filled n (s :: held)).size_ := by
    simp [filled]
  rw [entries, counted]

theorem filled_run {more : List Nat} (inside : ∀ s ∈ more, s < n) (small : n < 2 ^ 64)
    (distinct : more.Nodup) (fresh : ∀ s ∈ more, s ∉ held)
    (room : held.length + more.length ≤ n) :
    ∃ results, (filled n held).run (fill more) = some (filled n (more.reverse ++ held), results) := by
  induction more generalizing held with
  | nil => exact ⟨[],rfl⟩
  | cons s more ih =>
    obtain ⟨outside,others⟩ := List.nodup_cons.mp distinct
    rw [List.length_cons] at room
    have placed := filled_insert (inside s List.mem_cons_self) small
      (fresh s List.mem_cons_self) (by omega)
    have apart : ∀ t ∈ more, t ∉ s :: held := by
      intro t member
      rw [List.mem_cons, not_or]
      constructor
      · rintro rfl
        exact outside member
      · exact fresh t (List.mem_cons_of_mem s member)
    obtain ⟨results,ran⟩ := ih (fun t member => inside t (List.mem_cons_of_mem s member)) others
      apart (by rw [List.length_cons]; omega)
    refine ⟨none :: results,?_⟩
    rw [fill] at ran
    simp [fill, run, apply, placed, ran]

theorem fill_disciplined {older : List MapOp} {held : List Nat} (small : ∀ s ∈ held, s < 2 ^ 64)
    (distinct : held.Nodup) (fresh : ∀ s ∈ held, latest (UInt64.ofNat s) older = none) :
    Disciplined older (fill held) := by
  induction held generalizing older with
  | nil => trivial
  | cons s held ih =>
    obtain ⟨outside,others⟩ := List.nodup_cons.mp distinct
    refine ⟨⟨fresh s List.mem_cons_self,by decide,by decide⟩,?_⟩
    apply ih (fun t member => small t (List.mem_cons_of_mem s member)) others
    intro t member
    have apart : UInt64.ofNat s ≠ UInt64.ofNat t := by
      intro same
      have equal := congrArg UInt64.toNat same
      rw [UInt64.toNat_ofNat_of_lt' (small s List.mem_cons_self),
        UInt64.toNat_ofNat_of_lt' (small t (List.mem_cons_of_mem s member))] at equal
      rw [equal] at outside
      exact outside member
    rw [latest, if_neg apart]
    exact fresh t (List.mem_cons_of_mem s member)

theorem insertLoop_full {m : CompleterMap} {key : UInt64} {path : List Nat}
    (full : ∀ i ∈ path, (m.entryAt key i).value = 1) (value : UInt64) :
    m.insertLoop key value path = none := by
  induction path with
  | nil => rfl
  | cons i rest ih =>
    have busy := full i List.mem_cons_self
    rw [insertLoop]
    simp only [busy]
    rw [if_neg (by decide), ih fun j member => full j (List.mem_cons_of_mem i member)]

theorem lookupLoop_foreign {m : CompleterMap} {key : UInt64} {path : List Nat}
    (foreign : ∀ i ∈ path, (m.entryAt key i).key ≠ key) : m.lookupLoop key path = none := by
  induction path with
  | nil => rfl
  | cons i rest ih =>
    have other := foreign i List.mem_cons_self
    have later := ih fun j member => foreign j (List.mem_cons_of_mem i member)
    rw [lookupLoop]
    simp only [other, and_false, if_false, later]
    split <;> rfl

theorem filled_path {key : UInt64} (visited : ∀ i < n, probe n key i ∈ held) {i : Nat}
    (inside : i < n) :
    (filled n held).entryAt key i = ⟨UInt64.ofNat (probe n key i),1⟩ := by
  have entry_inside : probe n key i < n := Nat.mod_lt _ (by omega)
  rw [entryAt, filled_capacity, filled_entry entry_inside, if_pos (visited i inside)]

theorem filled_get {key : UInt64} (visited : ∀ i < n, probe n key i ∈ held) (small : n < 2 ^ 64)
    (large : n ≤ key.toNat) : (filled n held).get key = Empty := by
  have missing : (filled n held).lookup key = none := by
    rw [lookup, filled_capacity]
    apply lookupLoop_foreign
    intro i member
    have inside := List.mem_range.mp member
    have entry_inside : probe n key i < n := Nat.mod_lt _ (by omega)
    rw [filled_path visited inside]
    intro same
    have value := congrArg UInt64.toNat same
    rw [UInt64.toNat_ofNat_of_lt' (show probe n key i < 2 ^ 64 by omega)] at value
    omega
  rw [get, missing]

theorem filled_refuses {key : UInt64} (visited : ∀ i < n, probe n key i ∈ held) (value : UInt64) :
    (filled n held).insert key value = none := by
  have full : (filled n held).insertLoop key value (List.range n) = none := by
    apply insertLoop_full
    intro i member
    rw [filled_path visited (List.mem_range.mp member)]
  rw [insert, filled_capacity, full, ite_self]

end Fill

theorem apply_capacity {m m' : CompleterMap} {op : MapOp} {result : Option UInt64}
    (step : m.apply op = some (m', result)) : m'.capacity = m.capacity := by
  cases op with
  | insert key value =>
    obtain ⟨m₁,inserted,eq⟩ := Option.map_eq_some_iff.mp step
    cases eq
    exact insert_capacity inserted
  | get key =>
    cases step
    rfl
  | remove key =>
    cases step
    exact remove_capacity m key

theorem run_capacity {m m' : CompleterMap} {ops : List MapOp} {results : List (Option UInt64)}
    (ran : m.run ops = some (m', results)) : m'.capacity = m.capacity := by
  induction ops generalizing m results with
  | nil =>
    cases ran
    rfl
  | cons op ops ih =>
    obtain ⟨⟨m₁,result⟩,step,rest⟩ := Option.bind_eq_some_iff.mp ran
    obtain ⟨⟨m₂,tail⟩,more,eq⟩ := Option.map_eq_some_iff.mp rest
    cases eq
    rw [ih more, apply_capacity step]

section Reach
variable {num p key : UInt64}

theorem runFrom_capacity (sized : getNextSize num = some p) {ops : List MapOp}
    {m : CompleterMap} {results : List (Option UInt64)}
    (ran : runFrom num ops = some (m, results)) : m.capacity = p.toNat := by
  rw [runFrom, create, sized, Option.map_some, Option.bind_some] at ran
  rw [run_capacity ran]
  simp [capacity]

/-- All entries but the one that the path leaves out are taken by small keys. -/
theorem wrapped_insert_aborts (sized : getNextSize num = some p)
    (wraps : 2 ^ 64 ≤ lastSum p.toNat key) :
    ∃ ops m results, Disciplined [] ops ∧ runFrom num ops = some (m, results) ∧
      m.get key = Empty ∧ m.size.toNat + 1 = m.capacity ∧ ∀ value, m.insert key value = none := by
  obtain ⟨prime,large,bounded⟩ := getNextSize_prime sized
  obtain ⟨j,inside,missed⟩ := path_misses prime (by omega) (by omega) wraps
  let held := (List.range p.toNat).erase j
  have members : ∀ s, s ∈ held ↔ s ≠ j ∧ s < p.toNat := by
    intro s
    rw [List.nodup_range.mem_erase_iff, List.mem_range]
  have distinct : held.Nodup := List.nodup_range.erase j
  have count : held.length = p.toNat - 1 := by
    rw [List.length_erase_of_mem (List.mem_range.mpr inside), List.length_range]
  have fresh_table : (filled p.toNat []) = { entries_ := List.replicate p.toNat {} } := by
    simp [filled, List.map_const']
  obtain ⟨results,ran⟩ : ∃ results, (filled p.toNat []).run (fill held) =
      some (filled p.toNat (held.reverse ++ []),results) :=
    filled_run (fun s member => ((members s).mp member).2) p.toNat_lt distinct (by simp)
      (by simp [count])
  rw [List.append_nil] at ran
  have visited : ∀ i < p.toNat, probe p.toNat key i ∈ held.reverse := by
    intro i inside_path
    rw [List.mem_reverse, members]
    exact ⟨missed i inside_path,Nat.mod_lt _ (by omega)⟩
  refine ⟨fill held,filled p.toNat held.reverse,results,?_,?_,?_,?_,filled_refuses visited⟩
  · apply fill_disciplined _ distinct (by simp [latest])
    intro s member
    have := ((members s).mp member).2
    omega
  · rw [runFrom, create, sized, Option.map_some, Option.bind_some, ← fresh_table]
    exact ran
  · exact filled_get visited p.toNat_lt (wrapped_key_large prime (by omega) wraps)
  · rw [filled_capacity, size, filled, List.length_reverse, count,
      UInt64.toNat_ofNat_of_lt' (show p.toNat - 1 < 2 ^ 64 by omega)]
    omega

/-- An insertion reaches a free entry of every table that has one exactly when the sum of
its last probe does not wrap. Its path then visits each entry once; else some table with
one free entry makes it abort. -/
theorem insert_reaches_iff (sized : getNextSize num = some p) (key : UInt64) :
    ((∀ ops m results, Disciplined [] ops → runFrom num ops = some (m, results) →
        m.get key = Empty → m.size.toNat < p.toNat → ∀ value, (m.insert key value).isSome) ↔
      key.toNat + (p.toNat - 1) * (hash key % (p - 1) + 1).toNat < 2 ^ 64) ∧
    (key.toNat + (p.toNat - 1) * (hash key % (p - 1) + 1).toNat < 2 ^ 64 →
      ∀ j < p.toNat, ∃! i, i < p.toNat ∧
        (key + UInt64.ofNat i * (hash key % (p - 1) + 1)).toNat % p.toNat = j) ∧
    (2 ^ 64 ≤ key.toNat + (p.toNat - 1) * (hash key % (p - 1) + 1).toNat →
      ∃ ops m results, Disciplined [] ops ∧ runFrom num ops = some (m, results) ∧
        m.get key = Empty ∧ m.size.toNat + 1 = m.capacity ∧
        ∀ value, m.insert key value = none) := by
  obtain ⟨prime,large,bounded⟩ := getNextSize_prime sized
  have own : stride p.toNat key = hash key % (p - 1) + 1 := by
    rw [stride, UInt64.ofNat_toNat]
  rw [← own]
  refine ⟨⟨?_,?_⟩,probes_once prime p.toNat_lt,wrapped_insert_aborts sized⟩
  · intro reaches
    by_contra wraps
    obtain ⟨ops,m,results,disciplined,ran,absent,one_free,aborts⟩ :=
      wrapped_insert_aborts sized (Nat.le_of_not_lt wraps)
    have capacity_eq := runFrom_capacity sized ran
    have inserted := reaches ops m results disciplined ran absent (by omega) 1
    simp [aborts] at inserted
  · intro unwrapped ops m results disciplined ran _ room value
    have rep := (runFrom_represents disciplined ran).2
    have capacity_eq := runFrom_capacity sized ran
    obtain ⟨m',inserted⟩ := insert_succeeds rep (capacity_eq ▸ prime) value
      (capacity_eq ▸ room) (by rw [capacity_eq]; exact unwrapped)
    simp [inserted]

end Reach

theorem largest_key_aborts :
    (∀ ops m results, Disciplined [] ops → runFrom 0 ops = some (m, results) →
      m.get 7 = Empty → m.size.toNat < 53 → ∀ value, (m.insert 7 value).isSome) ∧
    ∃ ops m results, Disciplined [] ops ∧ runFrom 0 ops = some (m, results) ∧
      m.get 0xffffffffffffffff = Empty ∧ m.size.toNat + 1 = m.capacity ∧
      ∀ value, m.insert 0xffffffffffffffff value = none := by
  have sized : getNextSize 0 = some 53 := by decide
  exact ⟨(insert_reaches_iff sized 7).1.mpr (by decide),
    (insert_reaches_iff sized 0xffffffffffffffff).2.2 (by decide)⟩

end CompleterMap
end Aiopp
