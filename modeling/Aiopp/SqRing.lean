import Aiopp.Encoders
import Aiopp.Foundations.ByteLayout

/-!
The entries of the submission ring in memory, 64 bytes each. A slot comes around again with
the bytes that were left in it.
-/
namespace Aiopp
open ByteLayout

def Opcode.code : Opcode → UInt8
  | .nop => 0
  | .readv => 1
  | .writev => 2
  | .fsync => 3
  | .pollAdd => 6
  | .pollRemove => 7
  | .syncFileRange => 8
  | .sendmsg => 9
  | .recvmsg => 10
  | .timeout => 11
  | .timeoutRemove => 12
  | .accept => 13
  | .asyncCancel => 14
  | .linkTimeout => 15
  | .connect => 16
  | .openat => 18
  | .close => 19
  | .statx => 21
  | .read => 22
  | .write => 23
  | .send => 26
  | .recv => 27
  | .openat2 => 28
  | .epollCtl => 29
  | .shutdown => 34
  | .renameat => 35
  | .unlinkat => 36

/- Assignments to the fields of an entry; those of a union share their bytes. -/
namespace Layout

@[simp] def opcode (value : UInt8) : Store := ⟨0,1,value.toNat⟩
@[simp] def flags (value : UInt8) : Store := ⟨1,1,value.toNat⟩
@[simp] def ioprio (value : UInt16) : Store := ⟨2,2,value.toNat⟩
@[simp] def fd (value : Int32) : Store := ⟨4,4,value.toUInt32.toNat⟩
@[simp] def off (value : UInt64) : Store := ⟨8,8,value.toNat⟩
@[simp] def addr (value : UInt64) : Store := ⟨16,8,value.toNat⟩
@[simp] def len (value : UInt32) : Store := ⟨24,4,value.toNat⟩
@[simp] def rw_flags (value : UInt32) : Store := ⟨28,4,value.toNat⟩
@[simp] def poll_events (value : UInt16) : Store := ⟨28,2,value.toNat⟩
@[simp] def user_data (value : UInt64) : Store := ⟨32,8,value.toNat⟩
@[simp] def buf_index (value : UInt16) : Store := ⟨40,2,value.toNat⟩
@[simp] def personality (value : UInt16) : Store := ⟨42,2,value.toNat⟩
@[simp] def splice_fd_in (value : Int32) : Store := ⟨44,4,value.toUInt32.toNat⟩
@[simp] def pad2 (i : Nat) (value : UInt64) : Store := ⟨48 + 8 * i,8,value.toNat⟩

end Layout

/-- The fields of an entry, in the order in which `prepare` assigns them. -/
def Sqe.fields (sqe : Sqe) : List Store :=
  [Layout.opcode sqe.opcode.code, Layout.flags sqe.flags, Layout.ioprio sqe.ioprio,
    Layout.fd sqe.fd, Layout.off sqe.off, Layout.addr sqe.addr, Layout.len sqe.len,
    Layout.rw_flags sqe.rw_flags, Layout.user_data sqe.user_data, Layout.buf_index sqe.buf_index,
    Layout.personality sqe.personality, Layout.splice_fd_in sqe.splice_fd_in,
    Layout.pad2 1 sqe.pad2.2, Layout.pad2 0 sqe.pad2.1]

namespace IoURing

def prepareStores (opcode : UInt8) (fd : Int32) (off addr : UInt64) (len : UInt32) : List Store :=
  [Layout.opcode opcode, Layout.flags 0, Layout.ioprio 0, Layout.fd fd, Layout.off off,
    Layout.addr addr, Layout.len len, Layout.rw_flags 0, Layout.user_data 0, Layout.buf_index 0,
    Layout.personality 0, Layout.splice_fd_in 0, Layout.pad2 1 0, Layout.pad2 0 0]

/-- What the `prepare` function of an operation stores, in its order. -/
def Operation.stores : Operation → List Store
  | .nop => prepareStores Opcode.nop.code (-1) 0 0 0
  | .readv fd iov iovcnt offset =>
    prepareStores Opcode.readv.code fd offset.toUInt64 iov iovcnt.toUInt32
  | .writev fd iov iovcnt offset =>
    prepareStores Opcode.writev.code fd offset.toUInt64 iov iovcnt.toUInt32
  | .fsync fd flags => prepareStores Opcode.fsync.code fd 0 0 0 ++ [Layout.rw_flags flags]
  | .pollAdd fd events flags =>
    prepareStores Opcode.pollAdd.code fd 0 0 flags ++ [Layout.poll_events events.toUInt16]
  | .pollRemove userData => prepareStores Opcode.pollRemove.code (-1) 0 userData 0
  | .syncFileRange fd offset nbytes flags =>
    prepareStores Opcode.syncFileRange.code fd offset.toUInt64 0 nbytes.toUInt64.toUInt32 ++
      [Layout.rw_flags flags]
  | .sendmsg sockfd msg flags =>
    prepareStores Opcode.sendmsg.code sockfd 0 msg 1 ++ [Layout.rw_flags flags.toUInt32]
  | .recvmsg sockfd msg flags =>
    prepareStores Opcode.recvmsg.code sockfd 0 msg 1 ++ [Layout.rw_flags flags.toUInt32]
  | .timeout ts count flags =>
    prepareStores Opcode.timeout.code (-1) count ts 1 ++ [Layout.rw_flags flags]
  | .timeoutRemove userData flags =>
    prepareStores Opcode.timeoutRemove.code (-1) 0 userData 0 ++ [Layout.rw_flags flags]
  | .accept sockfd addr addrlen flags =>
    prepareStores Opcode.accept.code sockfd 0 addr 0 ++ [Layout.off addrlen, Layout.rw_flags flags]
  | .asyncCancel userData => prepareStores Opcode.asyncCancel.code (-1) 0 userData 0
  | .linkTimeout ts flags =>
    prepareStores Opcode.linkTimeout.code (-1) 0 ts 1 ++ [Layout.rw_flags flags]
  | .connect sockfd addr addrlen => prepareStores Opcode.connect.code sockfd addrlen.toUInt64 addr 0
  | .openat dirfd pathname flags mode =>
    prepareStores Opcode.openat.code dirfd 0 pathname mode ++ [Layout.rw_flags flags.toUInt32]
  | .close fd => prepareStores Opcode.close.code fd 0 0 0
  | .statx dirfd pathname flags mask statxbuf =>
    prepareStores Opcode.statx.code dirfd statxbuf pathname mask ++ [Layout.rw_flags flags.toUInt32]
  | .read fd buf count offset =>
    prepareStores Opcode.read.code fd offset.toUInt64 buf count.toUInt32
  | .write fd buf count offset =>
    prepareStores Opcode.write.code fd offset.toUInt64 buf count.toUInt32
  | .send sockfd buf len flags =>
    prepareStores Opcode.send.code sockfd 0 buf len.toUInt32 ++ [Layout.rw_flags flags.toUInt32]
  | .recv sockfd buf len flags =>
    prepareStores Opcode.recv.code sockfd 0 buf len.toUInt32 ++ [Layout.rw_flags flags.toUInt32]
  | .openat2 dirfd pathname how => prepareStores Opcode.openat2.code dirfd how pathname 24
  | .epollCtl epfd op fd event =>
    prepareStores Opcode.epollCtl.code epfd event fd.toInt64.toUInt64 op.toUInt32
  | .shutdown fd how => prepareStores Opcode.shutdown.code fd 0 0 how.toUInt32
  | .renameat olddirfd oldpath newdirfd newpath flags =>
    prepareStores Opcode.renameat.code olddirfd newpath oldpath newdirfd.toUInt32 ++
      [Layout.rw_flags flags.toUInt32]
  | .unlinkat dirfd pathname flags =>
    prepareStores Opcode.unlinkat.code dirfd 0 pathname 0 ++ [Layout.rw_flags flags.toUInt32]

inductive Call where
  | prepare (opcode : UInt8) (fd : Int32) (off addr : UInt64) (len : UInt32)
  | operation (op : Operation)

def Call.stores : Call → List Store
  | .prepare opcode fd off addr len => prepareStores opcode fd off addr len
  | .operation op => op.stores

/-- The ring that the kernel maps: its entries and how far both sides have come, as words of
32 bits that wrap. -/
structure SqRing where
  memory : Memory
  entries : Nat
  head : BitVec 32
  tail : BitVec 32

/-- `io_uring_get_sqe` leaves the slot as it is. The number of entries is a power of two, and
   the mask of the ring takes a position modulo it. -/
def SqRing.getSqe (ring : SqRing) : Option (Nat × SqRing) :=
  if (ring.tail - ring.head).toNat < ring.entries then
    some (ring.tail.toNat % ring.entries, { ring with tail := ring.tail + 1 })
  else none

def SqRing.store (ring : SqRing) (sqe : Nat) (stores : List Store) : SqRing :=
  { ring with memory := writeAll (64 * sqe) ring.memory stores }

/-- `lastSqe_->flags |= IOSQE_IO_LINK` -/
def SqRing.link (ring : SqRing) (lastSqe : Nat) : SqRing :=
  ring.store lastSqe [Layout.flags (ring.memory (64 * lastSqe + 1) ||| IOSQE_IO_LINK)]

def SqRing.queue (ring : SqRing) (call : Call) (userData : UInt64) : Option (Nat × SqRing) :=
  ring.getSqe.map fun found =>
    (found.1, (found.2.store found.1 call.stores).store found.1 [Layout.user_data userData])

section Stores
variable {base : Nat} {m : Memory} {sqe : Sqe}

theorem prepare_fields (slot : Sqe) (opcode : Opcode) (fd : Int32) (off addr : UInt64)
    (len : UInt32) :
    (prepare slot opcode fd off addr len).fields = prepareStores opcode.code fd off addr len := rfl

theorem fields_apart (sqe : Sqe) : sqe.fields.Pairwise Store.Apart := by
  simp [Sqe.fields, Store.Apart]

theorem fields_fit (sqe : Sqe) : ∀ s ∈ sqe.fields, s.Fits := by
  simp only [Sqe.fields, List.forall_mem_cons]
  exact ⟨UInt8.toNat_lt _,UInt8.toNat_lt _,UInt16.toNat_lt _,UInt32.toNat_lt _,UInt64.toNat_lt _,
    UInt64.toNat_lt _,UInt32.toNat_lt _,UInt32.toNat_lt _,UInt64.toNat_lt _,UInt16.toNat_lt _,
    UInt16.toNat_lt _,UInt32.toNat_lt _,UInt64.toNat_lt _,UInt64.toNat_lt _,by simp⟩

theorem prepareStores_reads (slot : Sqe) (opcode : Opcode) (fd : Int32) (off addr : UInt64)
    (len : UInt32) :
    Reads base (writeAll base m (prepareStores opcode.code fd off addr len))
      (prepare slot opcode fd off addr len).fields := by
  rw [← prepare_fields slot]
  exact reads_writeAll (fields_apart _) (fields_fit _)

theorem reads_off (reads : Reads base m sqe.fields) (value : UInt64) :
    Reads base (write base m (Layout.off value)) { sqe with off := value }.fields := by
  refine reads_write reads (UInt64.toNat_lt value) ?_
  simp [Sqe.fields, Store.Apart]

theorem reads_rw_flags (reads : Reads base m sqe.fields) (value : UInt32) :
    Reads base (write base m (Layout.rw_flags value)) { sqe with rw_flags := value }.fields := by
  refine reads_write reads (UInt32.toNat_lt value) ?_
  simp [Sqe.fields, Store.Apart]

theorem reads_user_data (reads : Reads base m sqe.fields) (value : UInt64) :
    Reads base (write base m (Layout.user_data value)) { sqe with user_data := value }.fields := by
  refine reads_write reads (UInt64.toNat_lt value) ?_
  simp [Sqe.fields, Store.Apart]

theorem reads_flags (reads : Reads base m sqe.fields) (value : UInt8) :
    Reads base (write base m (Layout.flags value)) { sqe with flags := value }.fields := by
  refine reads_write reads (UInt8.toNat_lt value) ?_
  simp [Sqe.fields, Store.Apart]

/-- The poll events are the lower half of a union that is zero. -/
theorem reads_poll_events (reads : Reads base m sqe.fields) (zero : sqe.rw_flags = 0)
    (value : UInt16) :
    Reads base (write base m (Layout.poll_events value))
      { sqe with rw_flags := value.toUInt32 }.fields := by
  have fits : (Layout.poll_events value).Fits := UInt16.toNat_lt value
  have union : load m (base + 28) 4 = 0 := by
    have flags := reads (Layout.rw_flags sqe.rw_flags) (by simp [Sqe.fields])
    simpa [zero] using flags
  have events : load (write base m (Layout.poll_events value)) (base + 28) 4 = value.toNat := by
    have halves : load (write base m (Layout.poll_events value)) (base + 28) 4 =
        value.toNat + 256 ^ 2 * (load m (base + 28) 4 / 256 ^ 2) := load_write_low fits 2
    rw [halves, union]
    simp
  have split : ∀ t ∈ { sqe with rw_flags := value.toUInt32 }.fields,
      t = Layout.rw_flags value.toUInt32 ∨
        t ∈ sqe.fields ∧ (Layout.poll_events value).Apart t := by
    simp [Sqe.fields, Store.Apart]
  intro t listed
  cases split t listed with
  | inl flags => simpa [flags] using events
  | inr other => rw [load_write_apart other.2, reads t other.1]

/-- The bytes of an operation are the entry that its encoder makes, whatever was in the slot. -/
theorem stores_read (slot : Sqe) (op : Operation) :
    Reads base (writeAll base m op.stores) (op.prepare slot).fields := by
  cases op with
  | pollAdd fd events flags =>
    rw [Operation.stores, writeAll_append]
    exact reads_poll_events (prepareStores_reads slot _ _ _ _ _) rfl _
  | accept sockfd addr addrlen flags =>
    rw [Operation.stores, writeAll_append]
    exact reads_rw_flags (reads_off (prepareStores_reads slot _ _ _ _ _) _) _
  | fsync | syncFileRange | sendmsg | recvmsg | timeout | timeoutRemove | linkTimeout | openat
  | statx | send | recv | renameat | unlinkat =>
    rw [Operation.stores, writeAll_append]
    exact reads_rw_flags (prepareStores_reads slot _ _ _ _ _) _
  | _ => exact prepareStores_reads slot _ _ _ _ _

theorem prepareStores_cover (opcode : UInt8) (fd : Int32) (off addr : UInt64) (len : UInt32)
    {k : Nat} (inside : k < 64) : ∃ s ∈ prepareStores opcode fd off addr len, s.Touches k := by
  simp [prepareStores, Store.Touches]
  omega

theorem prepareStores_within (opcode : UInt8) (fd : Int32) (off addr : UInt64) (len : UInt32) :
    ∀ s ∈ prepareStores opcode fd off addr len, s.offset + s.width ≤ 64 := by
  simp [prepareStores]

theorem operation_splits (op : Operation) :
    ∃ opcode fd off addr len patches, op.stores = prepareStores opcode fd off addr len ++ patches ∧
      ∀ s ∈ patches, s.offset + s.width ≤ 64 := by
  cases op with
  | fsync | pollAdd | syncFileRange | sendmsg | recvmsg | timeout | timeoutRemove | accept
  | linkTimeout | openat | statx | send | recv | renameat | unlinkat =>
    exact ⟨_,_,_,_,_,_,rfl,by simp⟩
  | _ => exact ⟨_,_,_,_,_,[],(List.append_nil _).symm,by simp⟩

theorem stores_cover (call : Call) {k : Nat} (inside : k < 64) :
    ∃ s ∈ call.stores, s.Touches k := by
  cases call with
  | prepare opcode fd off addr len => exact prepareStores_cover opcode fd off addr len inside
  | operation op =>
    obtain ⟨opcode,fd,off,addr,len,patches,split,_⟩ := operation_splits op
    obtain ⟨s,listed,touches⟩ := prepareStores_cover opcode fd off addr len inside
    rw [Call.stores, split]
    exact ⟨s,List.mem_append_left patches listed,touches⟩

theorem stores_within (call : Call) : ∀ s ∈ call.stores, s.offset + s.width ≤ 64 := by
  cases call with
  | prepare opcode fd off addr len => exact prepareStores_within opcode fd off addr len
  | operation op =>
    obtain ⟨opcode,fd,off,addr,len,patches,split,within⟩ := operation_splits op
    rw [Call.stores, split]
    intro s listed
    cases List.mem_append.mp listed with
    | inl prepared => exact prepareStores_within opcode fd off addr len s prepared
    | inr patched => exact within s patched

end Stores

section Ring
variable {ring ring' after after' : SqRing} {call : Call} {userData : UInt64} {sqe sqe' : Nat}

theorem getSqe_eq {found : Nat × SqRing} (slot : ring.getSqe = some found) :
    (ring.tail - ring.head).toNat < ring.entries ∧
      found = (ring.tail.toNat % ring.entries, { ring with tail := ring.tail + 1 }) := by
  unfold SqRing.getSqe at slot
  split at slot
  · rename_i room
    exact ⟨room,(Option.some.inj slot).symm⟩
  · contradiction

theorem queue_memory (queued : ring.queue call userData = some (sqe,after)) :
    after.memory =
      writeAll (64 * sqe) ring.memory (call.stores ++ [Layout.user_data userData]) := by
  obtain ⟨found,slot,written⟩ := Option.map_eq_some_iff.mp queued
  obtain ⟨_,rfl⟩ := getSqe_eq slot
  cases written
  rw [writeAll_append]
  rfl

theorem queue_reads {op : Operation} (slot : Sqe)
    (queued : ring.queue (.operation op) userData = some (sqe,after)) :
    Reads (64 * sqe) after.memory { op.prepare slot with user_data := userData }.fields := by
  rw [queue_memory queued, writeAll_append]
  exact reads_user_data (stores_read slot op) userData

theorem link_reads {entry : Sqe} (reads : Reads (64 * sqe) ring.memory entry.fields) :
    Reads (64 * sqe) (ring.link sqe).memory
      { entry with flags := entry.flags ||| IOSQE_IO_LINK }.fields := by
  have flags : ring.memory (64 * sqe + 1) = entry.flags := by
    have byte := reads (Layout.flags entry.flags) (by simp [Sqe.fields])
    apply UInt8.toNat.inj
    simpa [load] using byte
  rw [← flags]
  exact reads_flags reads _

/-- An entry is made of the arguments alone, and its slot is all that is written. -/
theorem recycled_entry_determined (queued : ring.queue call userData = some (sqe,after))
    (queued' : ring'.queue call userData = some (sqe',after')) :
    (∀ k < 64, after.memory (64 * sqe + k) = after'.memory (64 * sqe' + k)) ∧
      ∀ slot ≠ sqe, ∀ k < 64, after.memory (64 * slot + k) = ring.memory (64 * slot + k) := by
  rw [queue_memory queued, queue_memory queued']
  constructor
  · intro k inside
    obtain ⟨s,listed,touches⟩ := stores_cover call inside
    exact writeAll_determined (Or.inr ⟨s,List.mem_append_left _ listed,touches⟩)
  · intro slot other k inside
    have within : ∀ s ∈ call.stores ++ [Layout.user_data userData], s.offset + s.width ≤ 64 := by
      intro s listed
      cases List.mem_append.mp listed with
      | inl stored => exact stores_within call s stored
      | inr last => simp_all
    exact writeAll_frame within (by omega)

def unused : SqRing := ⟨fun _ => 0,1,0,0⟩

def linked : SqRing :=
  { (unused.store 0 ((Operation.read 3 4096 512 0).stores ++ [Layout.user_data 7])).link 0 with
    head := 1, tail := 1 }

theorem linked_entry_forgotten :
    linked.memory 1 = IOSQE_IO_LINK ∧
      ∃ after after', linked.queue (.operation (.close 3)) 8 = some (0,after) ∧
        unused.queue (.operation (.close 3)) 8 = some (0,after') ∧
        ∀ k < 64, after.memory (64 * 0 + k) = after'.memory (64 * 0 + k) := by
  have queued : linked.queue (.operation (.close 3)) 8 = some (0,_) := rfl
  have queued' : unused.queue (.operation (.close 3)) 8 = some (0,_) := rfl
  exact ⟨by decide,_,_,queued,queued',(recycled_entry_determined queued queued').1⟩

end Ring
end IoURing
end Aiopp
