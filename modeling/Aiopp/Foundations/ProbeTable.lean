import Mathlib.Data.Fintype.Card
import Mathlib.Data.Set.Card
import Mathlib.Data.Nat.ModEq
import Mathlib.Logic.Function.Basic

/-!
Open addressing with deletion marks, over arbitrary keys, values and slot
indices. A key's probe path is any list of indices: nothing is assumed about
hashing. A table carries the two facts that lookups rest on, so a table whose
lookups miss a stored key cannot be built.
-/
namespace ProbeTable
variable {K V I : Type}

inductive Slot (K V : Type) where
  | empty : Slot K V
  | tombstone : Slot K V
  | live : K → V → Slot K V
  deriving DecidableEq, Repr

def Slot.Free : Slot K V → Prop
  | .live _ _ => False
  | _ => True

instance (s : Slot K V) : Decidable s.Free :=
  match s with
  | .empty => isTrue trivial
  | .tombstone => isTrue trivial
  | .live _ _ => isFalse id

def Slot.value? : Slot K V → Option V
  | .live _ v => some v
  | _ => none

def findFree (slots : I → Slot K V) : List I → Option I
  | [] => none
  | i :: rest => if (slots i).Free then some i else findFree slots rest

/-- A search ends at the first empty slot, but walks over deletion marks. -/
def findKey [DecidableEq K] (slots : I → Slot K V) (k : K) : List I → Option I
  | [] => none
  | i :: rest =>
    match slots i with
    | .empty => none
    | .tombstone => findKey slots k rest
    | .live key _ => if key = k then some i else findKey slots k rest

theorem findFree_splits {slots : I → Slot K V} {path : List I} {i : I}
    (found : findFree slots path = some i) :
    (slots i).Free ∧ ∃ before after, path = before ++ i :: after ∧
      ∀ j ∈ before, ¬ (slots j).Free := by
  induction path with
  | nil => simp [findFree] at found
  | cons j rest ih =>
    simp only [findFree] at found
    split at found
    · rename_i free
      cases found
      exact ⟨free,[],rest,rfl,by simp⟩
    · rename_i busy
      obtain ⟨free,before,after,split,full⟩ := ih found
      refine ⟨free,j :: before,after,by simp [split],?_⟩
      intro m member
      rcases List.mem_cons.mp member with same | later
      · exact same ▸ busy
      · exact full m later

theorem findFree_none_full {slots : I → Slot K V} {path : List I}
    (missed : findFree slots path = none) : ∀ i ∈ path, ¬ (slots i).Free := by
  induction path with
  | nil => simp
  | cons j rest ih =>
    simp only [findFree] at missed
    split at missed
    · simp at missed
    · rename_i busy
      intro i member
      rcases List.mem_cons.mp member with same | later
      · exact same ▸ busy
      · exact ih missed i later

theorem findKey_sound [DecidableEq K] {slots : I → Slot K V} {k : K} {path : List I} {i : I}
    (found : findKey slots k path = some i) : ∃ v, slots i = .live k v := by
  induction path with
  | nil => simp [findKey] at found
  | cons j rest ih =>
    simp only [findKey] at found
    split at found
    · simp at found
    · exact ih found
    · rename_i key v held
      split at found
      · rename_i same
        cases found
        exact ⟨v,same ▸ held⟩
      · exact ih found

/-- Induction over the part of the path before the slot. Meeting the key earlier
   is harmless, because uniqueness makes it the same slot. -/
theorem findKey_finds [DecidableEq K] {slots : I → Slot K V} {k : K} {v : V} {i : I}
    (unique : ∀ j w, slots j = .live k w → j = i) (held : slots i = .live k v)
    (before after : List I) (full : ∀ j ∈ before, slots j ≠ .empty) :
    findKey slots k (before ++ i :: after) = some i := by
  induction before with
  | nil => simp [findKey, held]
  | cons j rest ih =>
    have tail := ih (fun m member => full m (List.mem_cons_of_mem j member))
    have here := full j (by simp)
    simp only [List.cons_append, findKey]
    split
    · contradiction
    · exact tail
    · rename_i key w at_j
      split
      · rename_i same
        rw [unique j w (same ▸ at_j)]
      · exact tail

/-- A table whose keys sit at one place each, behind no empty slot of their path. -/
structure Table (path : K → List I) (V : Type) where
  slots : I → Slot K V
  unique : ∀ {i j k v w}, slots i = .live k v → slots j = .live k w → i = j
  reached : ∀ {i k v}, slots i = .live k v →
    ∃ before after, path k = before ++ i :: after ∧ ∀ j ∈ before, slots j ≠ .empty

namespace Table
variable {path : K → List I}

def fresh (path : K → List I) (V : Type) : Table path V where
  slots := fun _ => .empty
  unique := by simp
  reached := by simp

section Content
variable [DecidableEq K] (t : Table path V)

def find (k : K) : Option I := findKey t.slots k (path k)

def content (k : K) : Option V := (t.find k).bind fun i => (t.slots i).value?

theorem find_of_live {t : Table path V} {i : I} {k : K} {v : V}
    (held : t.slots i = .live k v) : t.find k = some i := by
  obtain ⟨before,after,split,full⟩ := t.reached held
  rw [find, split]
  exact findKey_finds (fun j w same => t.unique same held) held before after full

theorem content_some_iff (k : K) (v : V) :
    t.content k = some v ↔ ∃ i, t.slots i = .live k v := by
  constructor
  · intro holds
    obtain ⟨i,found,value⟩ := Option.bind_eq_some_iff.mp holds
    obtain ⟨w,held⟩ := findKey_sound found
    rw [held] at value
    exact ⟨i,Option.some.inj value ▸ held⟩
  · rintro ⟨i,held⟩
    simp [content, find_of_live held, held, Slot.value?]

theorem content_none_iff (k : K) : t.content k = none ↔ ∀ i v, t.slots i ≠ .live k v := by
  rw [Option.eq_none_iff_forall_ne_some]
  simp only [ne_eq, content_some_iff, not_exists]
  exact forall_comm

theorem find_none_iff (k : K) : t.find k = none ↔ t.content k = none := by
  constructor
  · intro missed; simp [content, missed]
  · intro absent
    by_contra found
    obtain ⟨i,hi⟩ := Option.ne_none_iff_exists'.mp found
    obtain ⟨v,held⟩ := findKey_sound hi
    exact (t.content_none_iff k).mp absent i v held

theorem fresh_content (k : K) : (fresh path V).content k = none := by
  simp [content_none_iff, fresh]

end Content

section Update
variable [DecidableEq K] [DecidableEq I]

/-- Only an empty slot or a deletion mark is overwritten, so every other key's
    path stays as full as it was. -/
def insert (t : Table path V) (k : K) (v : V) (i : I) (absent : t.content k = none)
    (found : findFree t.slots (path k) = some i) : Table path V where
  slots := Function.update t.slots i (.live k v)
  unique := by
    intro a b key x y ha hb
    have none_held := (t.content_none_iff k).mp absent
    simp only [Function.update_apply] at ha hb
    split at ha <;> split at hb
    · rename_i ea eb; exact ea.trans eb.symm
    · obtain ⟨rfl,rfl⟩ := Slot.live.inj ha
      exact absurd hb (none_held b y)
    · obtain ⟨rfl,rfl⟩ := Slot.live.inj hb
      exact absurd ha (none_held a x)
    · exact t.unique ha hb
  reached := by
    intro a key x ha
    have widen : ∀ j, t.slots j ≠ .empty → Function.update t.slots i (.live k v) j ≠ .empty := by
      intro j full
      simp only [Function.update_apply]
      split <;> simp_all
    simp only [Function.update_apply] at ha
    split at ha
    · rename_i same
      obtain ⟨rfl,rfl⟩ := Slot.live.inj ha
      obtain ⟨_,before,after,split,full⟩ := findFree_splits found
      refine ⟨before,after,same ▸ split,fun j member => widen j ?_⟩
      intro none_here
      exact full j member (by simp [none_here, Slot.Free])
    · obtain ⟨before,after,split,full⟩ := t.reached ha
      exact ⟨before,after,split,fun j member => widen j (full j member)⟩

def erase (t : Table path V) (i : I) : Table path V where
  slots := Function.update t.slots i .tombstone
  unique := by
    intro a b key x y ha hb
    simp only [Function.update_apply] at ha hb
    split at ha
    · simp at ha
    · split at hb
      · simp at hb
      · exact t.unique ha hb
  reached := by
    intro a key x ha
    simp only [Function.update_apply] at ha
    split at ha
    · simp at ha
    · obtain ⟨before,after,split,full⟩ := t.reached ha
      refine ⟨before,after,split,fun j member => ?_⟩
      simp only [Function.update_apply]
      split
      · simp
      · exact full j member

theorem insert_slots (t : Table path V) (k : K) (v : V) (i : I) (absent : t.content k = none)
    (found : findFree t.slots (path k) = some i) :
    (t.insert k v i absent found).slots = Function.update t.slots i (.live k v) := rfl

omit [DecidableEq K] in
theorem erase_slots (t : Table path V) (i : I) :
    (t.erase i).slots = Function.update t.slots i .tombstone := rfl

theorem insert_content (t : Table path V) (k : K) (v : V) (i : I) (absent : t.content k = none)
    (found : findFree t.slots (path k) = some i) :
    (t.insert k v i absent found).content = Function.update t.content k (some v) := by
  have free := (findFree_splits found).1
  funext key
  apply Option.ext
  intro w
  rw [content_some_iff, insert_slots]
  by_cases same : key = k
  · subst same
    simp only [Function.update_self, Option.some.injEq]
    constructor
    · rintro ⟨j,held⟩
      simp only [Function.update_apply] at held
      split at held
      · exact (Slot.live.inj held).2
      · exact absurd held ((t.content_none_iff key).mp absent j w)
    · rintro rfl
      exact ⟨i,by simp⟩
  · rw [Function.update_of_ne same, content_some_iff]
    constructor
    · rintro ⟨j,held⟩
      simp only [Function.update_apply] at held
      split at held
      · exact absurd (Slot.live.inj held).1.symm same
      · exact ⟨j,held⟩
    · rintro ⟨j,held⟩
      have apart : j ≠ i := by
        rintro rfl
        simp [held, Slot.Free] at free
      exact ⟨j,by rw [Function.update_of_ne apart]; exact held⟩

theorem erase_content (t : Table path V) {k : K} {v : V} {i : I}
    (held : t.slots i = .live k v) : (t.erase i).content = Function.update t.content k none := by
  funext key
  apply Option.ext
  intro w
  rw [content_some_iff, erase_slots]
  by_cases same : key = k
  · subst same
    simp only [Function.update_self, reduceCtorEq, iff_false, not_exists]
    intro j other
    simp only [Function.update_apply] at other
    split at other
    · simp at other
    · rename_i apart
      exact apart (t.unique other held)
  · rw [Function.update_of_ne same, content_some_iff]
    constructor
    · rintro ⟨j,other⟩
      simp only [Function.update_apply] at other
      split at other
      · simp at other
      · exact ⟨j,other⟩
    · rintro ⟨j,other⟩
      have apart : j ≠ i := by
        rintro rfl
        exact same (Slot.live.inj (other.symm.trans held)).1
      exact ⟨j,by rw [Function.update_of_ne apart]; exact other⟩

end Update

section Count
variable [Fintype I]

def occupied (t : Table path V) : Finset I := Finset.univ.filter fun i => ¬ (t.slots i).Free

def count (t : Table path V) : Nat := t.occupied.card

theorem mem_occupied (t : Table path V) (i : I) : i ∈ t.occupied ↔ ¬ (t.slots i).Free := by
  simp [occupied]

theorem count_fresh : (fresh path V).count = 0 := by
  simp [count, occupied, fresh, Slot.Free]

theorem count_insert [DecidableEq K] [DecidableEq I] (t : Table path V) (k : K) (v : V) (i : I)
    (absent : t.content k = none) (found : findFree t.slots (path k) = some i) :
    (t.insert k v i absent found).count = t.count + 1 := by
  have free := (findFree_splits found).1
  have grown : (t.insert k v i absent found).occupied = Insert.insert i t.occupied := by
    ext j
    simp only [mem_occupied, Finset.mem_insert, insert_slots, Function.update_apply]
    split
    · rename_i same; simp [same, Slot.Free]
    · rename_i apart; simp [apart]
  rw [count, grown, Finset.card_insert_of_notMem (by simp [mem_occupied, free]), count]

theorem count_erase [DecidableEq I] (t : Table path V) {k : K} {v : V} {i : I}
    (held : t.slots i = .live k v) : (t.erase i).count + 1 = t.count := by
  have member : i ∈ t.occupied := by simp [mem_occupied, held, Slot.Free]
  have shrunk : (t.erase i).occupied = t.occupied.erase i := by
    ext j
    simp only [mem_occupied, Finset.mem_erase, erase_slots, Function.update_apply]
    split
    · rename_i same; simp [same, Slot.Free]
    · rename_i apart; simp [apart]
  rw [count, shrunk, count]
  exact Finset.card_erase_add_one member

theorem count_eq_keys [DecidableEq K] (t : Table path V) :
    t.count = {k | (t.content k).isSome}.ncard := by
  have injective : Set.InjOn t.find {k | (t.content k).isSome} := by
    intro k hk j _ same
    obtain ⟨v,holds⟩ := Option.isSome_iff_exists.mp hk
    obtain ⟨i,at_i⟩ := (t.content_some_iff k v).mp holds
    have found := find_of_live at_i
    obtain ⟨w,at_i'⟩ := findKey_sound (same ▸ found)
    exact (Slot.live.inj (at_i.symm.trans at_i')).1
  have image : t.find '' {k | (t.content k).isSome} = some '' (t.occupied : Set I) := by
    ext place
    simp only [Set.mem_image, Finset.mem_coe, Set.mem_ofPred_eq, Option.isSome_iff_exists]
    constructor
    · rintro ⟨k,⟨v,holds⟩,rfl⟩
      obtain ⟨i,at_i⟩ := (t.content_some_iff k v).mp holds
      exact ⟨i,by simp [mem_occupied, at_i, Slot.Free],(find_of_live at_i).symm⟩
    · rintro ⟨i,member,rfl⟩
      rw [mem_occupied] at member
      cases at_i : t.slots i with
      | empty => simp [at_i, Slot.Free] at member
      | tombstone => simp [at_i, Slot.Free] at member
      | live k v => exact ⟨k,⟨v,(t.content_some_iff k v).mpr ⟨i,at_i⟩⟩,find_of_live at_i⟩
  rw [← injective.ncard_image, image,
    Set.ncard_image_of_injective _ (Option.some_injective I), Set.ncard_coe_finset, count]

theorem findFree_of_covering (t : Table path V) {k : K} (covering : ∀ i, i ∈ path k)
    (room : t.count < Fintype.card I) : ∃ i, findFree t.slots (path k) = some i := by
  apply Option.ne_none_iff_exists'.mp
  intro missed
  have full := findFree_none_full missed
  have all : t.occupied = Finset.univ := by
    ext i
    simp [mem_occupied, full i (covering i)]
  rw [count, all, Finset.card_univ] at room
  exact Nat.lt_irrefl _ room

end Count
end Table

/-- Steps of a length coprime to the table size walk through every index. -/
theorem progression_covers {size step : Nat} (coprime : Nat.Coprime size step) (start : Nat)
    {r : Nat} (bound : r < size) : ∃ i, i < size ∧ (start + i * step) % size = r := by
  let visit : Nat → Nat := fun i => (start + i * step) % size
  have maps : Set.MapsTo visit (Finset.range size) (Finset.range size) := by
    intro i _
    simpa [visit] using Nat.mod_lt _ (by omega)
  have injective : Set.InjOn visit (Finset.range size) := by
    intro i hi j hj same
    have hi' : i < size := by simpa using hi
    have hj' : j < size := by simpa using hj
    have congr : i * step ≡ j * step [MOD size] := Nat.ModEq.add_left_cancel' start same
    have reduced : i ≡ j [MOD size] := congr.cancel_right_of_coprime coprime
    exact Nat.ModEq.eq_of_lt_of_lt reduced hi' hj'
  obtain ⟨i,member,eq⟩ :=
    Finset.surjOn_of_injOn_of_card_le visit maps injective (Nat.le_refl _) (by simpa using bound)
  exact ⟨i,by simpa using member,eq⟩

end ProbeTable
