import Aiopp.IoQueue
import Aiopp.SqRing

/-!
The byte counts of send, recv and read, which are narrower in an entry than in the call.
Whoever wants all bytes transferred calls again with the rest, like `sendAll` of the proxy.
-/
namespace Aiopp
namespace IoQueue
open IoURing

def Request.operation : Request → Operation
  | .accept fd addr addrlen => .accept fd addr addrlen 0
  | .connect sockfd addr addrlen => .connect sockfd addr addrlen
  | .send sockfd buf len => .send sockfd buf len 0
  | .recv sockfd buf len => .recv sockfd buf len 0
  | .read fd buf count => .read fd buf count 0
  | .close fd => .close fd
  | .shutdown fd how => .shutdown fd how
  | .poll fd events => .pollAdd fd events 0
  | .recvmsg sockfd msg flags => .recvmsg sockfd msg flags
  | .sendmsg sockfd msg flags => .sendmsg sockfd msg flags
  | .timeout ts flags => .timeout ts 0 flags

inductive Transfer where
  | send | recv | read
  deriving DecidableEq, Repr

def Transfer.request (t : Transfer) (fd : Int32) (buf len : UInt64) : Request :=
  match t with
  | .send => .send fd buf len
  | .recv => .recv fd buf len
  | .read => .read fd buf len

/-- The byte count of the entry that a call queues. -/
def Transfer.count (t : Transfer) (fd : Int32) (buf len : UInt64) : UInt32 :=
  ((t.request fd buf len).prepare emptySqe).len

/-- The kernel transfers at most what it is asked for, and something if it is asked for any. -/
def Answers (kernel : Nat → UInt32 → Int32) : Prop :=
  ∀ i count, 0 ≤ (kernel i count).toInt ∧ (kernel i count).toInt ≤ count.toNat ∧
    (0 < count.toNat → 1 ≤ (kernel i count).toInt)

def Transfer.offset (t : Transfer) (kernel : Nat → UInt32 → Int32) (fd : Int32)
    (buf size : UInt64) : Nat → UInt64
  | 0 => 0
  | n + 1 =>
    let offset := t.offset kernel fd buf size n
    if offset < size then
      offset + (kernel n (t.count fd (buf + offset) (size - offset))).toInt64.toUInt64
    else offset

def Transfer.AsksSome (t : Transfer) (q : IoQueue) (fd : Int32) (buf len : UInt64) (slot : Sqe) :
    Prop :=
  ∃ sqe, (q.issue (t.request fd buf len) slot).2.sq = q.sq ++ [sqe] ∧
    1 ≤ sqe.len.toNat ∧ sqe.len.toNat ≤ len.toNat

def Transfer.Completes (t : Transfer) (fd : Int32) (buf len : UInt64) : Prop :=
  ∀ kernel, Answers kernel → ∃ n, t.offset kernel fd buf len n = len

section Issue
variable {q : IoQueue}

theorem prepare_operation (slot : Sqe) (req : Request) :
    req.prepare slot = req.operation.prepare slot := by
  cases req <;> rfl

theorem issue_queues (req : Request) (slot : Sqe) (room : q.sq.length < q.sqEntries) :
    (q.issue req slot).2.sq =
      q.sq ++ [{ req.prepare slot with user_data := q.getNextOpId.1 }] := by
  unfold issue getSqe
  rw [if_pos room]
  rfl

end Issue

section Count
variable {t : Transfer} {fd : Int32} {buf len size : UInt64} {kernel : Nat → UInt32 → Int32}

theorem prepared_len (slot : Sqe) : ((t.request fd buf len).prepare slot).len = len.toUInt32 := by
  cases t <;> rfl

theorem count_eq (t : Transfer) (fd : Int32) (buf len : UInt64) :
    (t.count fd buf len).toNat = len.toNat % 2 ^ 32 := by
  rw [Transfer.count, prepared_len, UInt64.toNat_toUInt32]

theorem result_widened {result : Int32} (nonneg : 0 ≤ result.toInt) :
    (result.toInt64.toUInt64.toNat : Int) = result.toInt := by
  have wide : 0 ≤ result.toInt64 := by
    rw [Int64.le_iff_toInt_le, Int32.toInt_toInt64]
    exact nonneg
  rw [Int64.toNat_toUInt64_of_le wide, Int64.toNatClampNeg, Int32.toInt_toInt64]
  exact Int.toNat_of_nonneg nonneg

theorem offset_step (answers : Answers kernel) {n : Nat}
    (unfinished : (t.offset kernel fd buf size n).toNat < size.toNat) :
    ∃ r, (t.offset kernel fd buf size (n + 1)).toNat = (t.offset kernel fd buf size n).toNat + r ∧
      r ≤ (size.toNat - (t.offset kernel fd buf size n).toNat) % 2 ^ 32 ∧
      (0 < (size.toNat - (t.offset kernel fd buf size n).toNat) % 2 ^ 32 → 1 ≤ r) := by
  generalize reached : t.offset kernel fd buf size n = offset at unfinished ⊢
  have rest : (size - offset).toNat = size.toNat - offset.toNat :=
    UInt64.toNat_sub_of_le _ _ (UInt64.le_iff_toNat_le.mpr (Nat.le_of_lt unfinished))
  have counted := count_eq t fd (buf + offset) (size - offset)
  rw [rest] at counted
  obtain ⟨nonneg,bounded,some_bytes⟩ := answers n (t.count fd (buf + offset) (size - offset))
  rw [counted] at bounded some_bytes
  have step : t.offset kernel fd buf size (n + 1) =
      offset + (kernel n (t.count fd (buf + offset) (size - offset))).toInt64.toUInt64 := by
    rw [Transfer.offset, reached, if_pos (UInt64.lt_iff_toNat_lt.mpr unfinished)]
  generalize kernel n (t.count fd (buf + offset) (size - offset)) = result
    at nonneg bounded some_bytes step
  have widened := result_widened nonneg
  have within := Nat.mod_le (size.toNat - offset.toNat) (2 ^ 32)
  have below := size.toNat_lt
  refine ⟨result.toInt64.toUInt64.toNat,?_,by omega,by omega⟩
  rw [step, UInt64.toNat_add]
  exact Nat.mod_eq_of_lt (by omega)

theorem offset_finished {n : Nat}
    (finished : ¬ (t.offset kernel fd buf size n).toNat < size.toNat) :
    t.offset kernel fd buf size (n + 1) = t.offset kernel fd buf size n := by
  rw [Transfer.offset]
  exact if_neg fun less => finished (UInt64.lt_iff_toNat_lt.mp less)

theorem offset_bounded (t : Transfer) (fd : Int32) (buf size : UInt64) (answers : Answers kernel)
    (n : Nat) :
    (t.offset kernel fd buf size n).toNat ≤ size.toNat % 2 ^ 32 := by
  induction n with
  | zero => exact Nat.zero_le _
  | succ n ih =>
    by_cases unfinished : (t.offset kernel fd buf size n).toNat < size.toNat
    · obtain ⟨r,step,bounded,_⟩ := offset_step answers unfinished
      omega
    · rw [offset_finished unfinished]
      exact ih

theorem offset_advances (t : Transfer) (fd : Int32) (buf : UInt64) (answers : Answers kernel)
    (narrow : size.toNat < 2 ^ 32) (n : Nat) :
    min n size.toNat ≤ (t.offset kernel fd buf size n).toNat := by
  induction n with
  | zero => omega
  | succ n ih =>
    have bounded := offset_bounded t fd buf size answers (n + 1)
    by_cases unfinished : (t.offset kernel fd buf size n).toNat < size.toNat
    · obtain ⟨r,step,_,some_bytes⟩ := offset_step answers unfinished
      omega
    · rw [offset_finished unfinished]
      omega

theorem transfer_completes (answers : Answers kernel) (narrow : size.toNat < 2 ^ 32) :
    t.offset kernel fd buf size size.toNat = size := by
  apply UInt64.toNat.inj
  have advanced := offset_advances t fd buf answers narrow size.toNat
  have bounded := offset_bounded t fd buf size answers size.toNat
  omega

def bytewise (_ : Nat) (count : UInt32) : Int32 := if count = 0 then 0 else 1

theorem bytewise_answers : Answers bytewise := by
  intro i count
  unfold bytewise
  split
  · rename_i zero
    simp [zero]
  · rename_i nonzero
    have positive : 0 < count.toNat := by
      rw [Nat.pos_iff_ne_zero]
      intro none
      exact nonzero (UInt32.toNat.inj none)
    have one : Int32.toInt 1 = 1 := rfl
    rw [one]
    omega

end Count

theorem asksSome_iff {q : IoQueue} (t : Transfer) (fd : Int32) (buf len : UInt64) (slot : Sqe)
    (room : q.sq.length < q.sqEntries) (nonempty : 0 < len.toNat) :
    t.AsksSome q fd buf len slot ↔ ¬ 2 ^ 32 ∣ len.toNat := by
  have queued := issue_queues (t.request fd buf len) slot room
  have counted : ((t.request fd buf len).prepare slot).len.toNat = len.toNat % 2 ^ 32 := by
    rw [prepared_len, UInt64.toNat_toUInt32]
  constructor
  · rintro ⟨sqe,appended,positive,_⟩
    rw [queued] at appended
    obtain rfl := List.singleton_inj.mp (List.append_cancel_left appended)
    change 1 ≤ ((t.request fd buf len).prepare slot).len.toNat at positive
    omega
  · intro indivisible
    refine ⟨_,queued,?_⟩
    change 1 ≤ ((t.request fd buf len).prepare slot).len.toNat ∧
      ((t.request fd buf len).prepare slot).len.toNat ≤ len.toNat
    omega

theorem completes_iff (t : Transfer) (fd : Int32) (buf len : UInt64) :
    t.Completes fd buf len ↔ len.toNat < 2 ^ 32 := by
  constructor
  · intro completes
    obtain ⟨n,complete⟩ := completes bytewise bytewise_answers
    have bounded := offset_bounded t fd buf len bytewise_answers n
    rw [complete] at bounded
    omega
  · intro narrow kernel answers
    exact ⟨len.toNat,transfer_completes answers narrow⟩

/-- The count is the length modulo 2^32: a multiple asks for no bytes at all, and a longer
buffer comes to such a rest sooner or later. -/
theorem transfer_never_empty_iff {q : IoQueue} (t : Transfer) (fd : Int32) (buf len : UInt64)
    (slot : Sqe) (room : q.sq.length < q.sqEntries) (nonempty : 0 < len.toNat) :
    (t.AsksSome q fd buf len slot ↔ ¬ 2 ^ 32 ∣ len.toNat) ∧
      (t.AsksSome q fd buf len slot ∧ t.Completes fd buf len ↔ len.toNat < 2 ^ 32) := by
  have asked := asksSome_iff t fd buf len slot room nonempty
  refine ⟨asked,?_⟩
  rw [asked, completes_iff t fd buf len]
  omega

def idle : IoQueue := { completers_ := ⟨List.replicate 53 {},0⟩, sqEntries := 64 }

theorem page_transferred :
    Transfer.send.AsksSome idle 3 65536 4096 emptySqe ∧ Transfer.send.Completes 3 65536 4096 :=
  (transfer_never_empty_iff .send 3 65536 4096 emptySqe (by decide) (by decide)).2.mpr (by decide)

/-- send(3, buf, 2^32) -/
theorem wide_transfer_empty :
    ¬ ∀ (q : IoQueue) (t : Transfer) (fd : Int32) (buf len : UInt64) (slot : Sqe),
      q.sq.length < q.sqEntries → 0 < len.toNat →
        t.AsksSome q fd buf len slot ∧ t.Completes fd buf len := by
  intro claim
  have asked := (claim idle .send 3 65536 4294967296 emptySqe (by decide) (by decide)).1
  have indivisible := (asksSome_iff .send 3 65536 4294967296 emptySqe (by decide) (by decide)).mp asked
  exact indivisible (by decide)

end IoQueue
end Aiopp
