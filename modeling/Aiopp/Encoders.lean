import Aiopp.IoURing
import Mathlib.Algebra.Group.Nat.Defs

/-!
The encoders against the kernel's reading of an entry. Every member of `Operation` is a call
of the `prepare` function of its name; `decode` is the convention of the kernel.
-/
namespace Aiopp
namespace IoURing

inductive Operation where
  | nop
  | readv (fd : Int32) (iov : UInt64) (iovcnt : Int32) (offset : Int64)
  | writev (fd : Int32) (iov : UInt64) (iovcnt : Int32) (offset : Int64)
  | fsync (fd : Int32) (flags : UInt32)
  | pollAdd (fd : Int32) (events : Int16) (flags : UInt32)
  | pollRemove (userData : UInt64)
  | syncFileRange (fd : Int32) (offset nbytes : Int64) (flags : UInt32)
  | sendmsg (sockfd : Int32) (msg : UInt64) (flags : Int32)
  | recvmsg (sockfd : Int32) (msg : UInt64) (flags : Int32)
  | timeout (ts count : UInt64) (flags : UInt32)
  | timeoutRemove (userData : UInt64) (flags : UInt32)
  | accept (sockfd : Int32) (addr addrlen : UInt64) (flags : UInt32)
  | asyncCancel (userData : UInt64)
  | linkTimeout (ts : UInt64) (flags : UInt32)
  | connect (sockfd : Int32) (addr : UInt64) (addrlen : UInt32)
  | openat (dirfd : Int32) (pathname : UInt64) (flags : Int32) (mode : UInt32)
  | close (fd : Int32)
  | statx (dirfd : Int32) (pathname : UInt64) (flags : Int32) (mask : UInt32) (statxbuf : UInt64)
  | read (fd : Int32) (buf count : UInt64) (offset : Int64)
  | write (fd : Int32) (buf count : UInt64) (offset : Int64)
  | send (sockfd : Int32) (buf len : UInt64) (flags : Int32)
  | recv (sockfd : Int32) (buf len : UInt64) (flags : Int32)
  | openat2 (dirfd : Int32) (pathname how : UInt64)
  | epollCtl (epfd op fd : Int32) (event : UInt64)
  | shutdown (fd how : Int32)
  | renameat (olddirfd : Int32) (oldpath : UInt64) (newdirfd : Int32) (newpath : UInt64)
      (flags : Int32)
  | unlinkat (dirfd : Int32) (pathname : UInt64) (flags : Int32)
  deriving DecidableEq, Repr

namespace Operation

def prepare (sqe : Sqe) : Operation → Sqe
  | .nop => prepareNop sqe
  | .readv fd iov iovcnt offset => prepareReadv sqe fd iov iovcnt offset
  | .writev fd iov iovcnt offset => prepareWritev sqe fd iov iovcnt offset
  | .fsync fd flags => prepareFsync sqe fd flags
  | .pollAdd fd events flags => preparePollAdd sqe fd events flags
  | .pollRemove userData => preparePollRemove sqe userData
  | .syncFileRange fd offset nbytes flags => prepareSyncFileRange sqe fd offset nbytes flags
  | .sendmsg sockfd msg flags => prepareSendmsg sqe sockfd msg flags
  | .recvmsg sockfd msg flags => prepareRecvmsg sqe sockfd msg flags
  | .timeout ts count flags => prepareTimeout sqe ts count flags
  | .timeoutRemove userData flags => prepareTimeoutRemove sqe userData flags
  | .accept sockfd addr addrlen flags => prepareAccept sqe sockfd addr addrlen flags
  | .asyncCancel userData => prepareAsyncCancel sqe userData
  | .linkTimeout ts flags => prepareLinkTimeout sqe ts flags
  | .connect sockfd addr addrlen => prepareConnect sqe sockfd addr addrlen
  | .openat dirfd pathname flags mode => prepareOpenat sqe dirfd pathname flags mode
  | .close fd => prepareClose sqe fd
  | .statx dirfd pathname flags mask statxbuf =>
    prepareStatx sqe dirfd pathname flags mask statxbuf
  | .read fd buf count offset => prepareRead sqe fd buf count offset.toUInt64
  | .write fd buf count offset => prepareWrite sqe fd buf count offset
  | .send sockfd buf len flags => prepareSend sqe sockfd buf len flags
  | .recv sockfd buf len flags => prepareRecv sqe sockfd buf len flags
  | .openat2 dirfd pathname how => prepareOpenat2 sqe dirfd pathname how
  | .epollCtl epfd op fd event => prepareEpollCtl sqe epfd op fd event
  | .shutdown fd how => prepareShutdown sqe fd how
  | .renameat olddirfd oldpath newdirfd newpath flags =>
    prepareRenameat sqe olddirfd oldpath newdirfd newpath flags
  | .unlinkat dirfd pathname flags => prepareUnlinkat sqe dirfd pathname flags

/-- A byte count has 64 bits in the call and 32 in the entry; all other arguments have a
field of their width. -/
def Fits : Operation → Prop
  | .syncFileRange _ _ nbytes _ => nbytes.toUInt64.toNat < 2 ^ 32
  | .read _ _ count _ => count.toNat < 2 ^ 32
  | .write _ _ count _ => count.toNat < 2 ^ 32
  | .send _ _ len _ => len.toNat < 2 ^ 32
  | .recv _ _ len _ => len.toNat < 2 ^ 32
  | _ => True

/-- The descriptor and the event of an epoll operation may trade places. -/
def Interchangeable : Operation → Prop
  | .epollCtl _ _ fd event => event = fd.toInt64.toUInt64
  | _ => True

end Operation

def decode (sqe : Sqe) : Operation :=
  match sqe.opcode with
  | .nop => .nop
  | .readv => .readv sqe.fd sqe.addr sqe.len.toInt32 sqe.off.toInt64
  | .writev => .writev sqe.fd sqe.addr sqe.len.toInt32 sqe.off.toInt64
  | .fsync => .fsync sqe.fd sqe.rw_flags
  | .pollAdd => .pollAdd sqe.fd sqe.rw_flags.toUInt16.toInt16 sqe.len
  | .pollRemove => .pollRemove sqe.addr
  | .syncFileRange =>
    .syncFileRange sqe.fd sqe.off.toInt64 sqe.len.toUInt64.toInt64 sqe.rw_flags
  | .sendmsg => .sendmsg sqe.fd sqe.addr sqe.rw_flags.toInt32
  | .recvmsg => .recvmsg sqe.fd sqe.addr sqe.rw_flags.toInt32
  | .timeout => .timeout sqe.addr sqe.off sqe.rw_flags
  | .timeoutRemove => .timeoutRemove sqe.addr sqe.rw_flags
  | .accept => .accept sqe.fd sqe.addr sqe.off sqe.rw_flags
  | .asyncCancel => .asyncCancel sqe.addr
  | .linkTimeout => .linkTimeout sqe.addr sqe.rw_flags
  | .connect => .connect sqe.fd sqe.addr sqe.off.toUInt32
  | .openat => .openat sqe.fd sqe.addr sqe.rw_flags.toInt32 sqe.len
  | .close => .close sqe.fd
  | .statx => .statx sqe.fd sqe.addr sqe.rw_flags.toInt32 sqe.len sqe.off
  | .read => .read sqe.fd sqe.addr sqe.len.toUInt64 sqe.off.toInt64
  | .write => .write sqe.fd sqe.addr sqe.len.toUInt64 sqe.off.toInt64
  | .send => .send sqe.fd sqe.addr sqe.len.toUInt64 sqe.rw_flags.toInt32
  | .recv => .recv sqe.fd sqe.addr sqe.len.toUInt64 sqe.rw_flags.toInt32
  | .openat2 => .openat2 sqe.fd sqe.addr sqe.off
  | .epollCtl => .epollCtl sqe.fd sqe.len.toInt32 sqe.off.toUInt32.toInt32 sqe.addr
  | .shutdown => .shutdown sqe.fd sqe.len.toInt32
  | .renameat => .renameat sqe.fd sqe.addr sqe.len.toInt32 sqe.off sqe.rw_flags.toInt32
  | .unlinkat => .unlinkat sqe.fd sqe.addr sqe.rw_flags.toInt32

theorem count_widened {count : UInt64} (fits : count.toNat < 2 ^ 32) :
    count.toUInt32.toUInt64 = count := by
  apply UInt64.toNat.inj
  rw [UInt32.toNat_toUInt64, UInt64.toNat_toUInt32, Nat.mod_eq_of_lt fits]

theorem sign_extended (fd : Int32) : fd.toInt64.toUInt64.toUInt32.toInt32 = fd := by
  apply Int32.toBitVec.inj
  change (fd.toBitVec.signExtend 64).setWidth 32 = fd.toBitVec
  ext i inside
  have wide : i < 64 := by omega
  simp [BitVec.getElem_signExtend, inside, wide]

theorem decode_epollCtl (slot : Sqe) (epfd op fd : Int32) (event : UInt64) :
    decode (prepareEpollCtl slot epfd op fd event) =
      .epollCtl epfd op event.toUInt32.toInt32 fd.toInt64.toUInt64 := by
  simp [decode, prepareEpollCtl, IoURing.prepare]

theorem decode_prepare (slot : Sqe) {op : Operation} (fits : op.Fits)
    (interchangeable : op.Interchangeable) : decode (op.prepare slot) = op := by
  cases op with
  | syncFileRange fd offset nbytes flags =>
    simp [decode, Operation.prepare, prepareSyncFileRange, IoURing.prepare, count_widened fits]
  | read fd buf count offset =>
    simp [decode, Operation.prepare, prepareRead, IoURing.prepare, count_widened fits]
  | write fd buf count offset =>
    simp [decode, Operation.prepare, prepareWrite, IoURing.prepare, count_widened fits]
  | send sockfd buf len flags =>
    simp [decode, Operation.prepare, prepareSend, IoURing.prepare, count_widened fits]
  | recv sockfd buf len flags =>
    simp [decode, Operation.prepare, prepareRecv, IoURing.prepare, count_widened fits]
  | epollCtl epfd op fd event =>
    rw [Operation.prepare, decode_epollCtl]
    change event = fd.toInt64.toUInt64 at interchangeable
    rw [interchangeable, sign_extended]
  | connect sockfd addr addrlen => simp [decode, Operation.prepare, prepareConnect, IoURing.prepare]
  | pollAdd fd events flags => simp [decode, Operation.prepare, preparePollAdd, IoURing.prepare]
  | _ => rfl

theorem epollCtl_of_opcode {slot : Sqe} {op : Operation}
    (code : (op.prepare slot).opcode = .epollCtl) :
    ∃ epfd o fd event, op = .epollCtl epfd o fd event := by
  cases op with
  | epollCtl epfd o fd event => exact ⟨epfd,o,fd,event,rfl⟩
  | _ => cases code

theorem interchangeable_of_opcode {slot : Sqe} {op : Operation}
    (code : (op.prepare slot).opcode ≠ .epollCtl) : op.Interchangeable := by
  cases op with
  | epollCtl epfd o fd event => exact absurd rfl code
  | _ => trivial

theorem prepareEpollCtl_injective {slot slot' : Sqe} {epfd o fd epfd' o' fd' : Int32}
    {event event' : UInt64}
    (same : prepareEpollCtl slot epfd o fd event = prepareEpollCtl slot' epfd' o' fd' event') :
    epfd = epfd' ∧ o = o' ∧ fd = fd' ∧ event = event' := by
  have target : fd.toInt64.toUInt64 = fd'.toInt64.toUInt64 := congrArg Sqe.addr same
  have command : o.toUInt32 = o'.toUInt32 := congrArg Sqe.len same
  refine ⟨congrArg Sqe.fd same,?_,?_,congrArg Sqe.off same⟩
  · rw [← Int32.toInt32_toUInt32 o, command, Int32.toInt32_toUInt32]
  · rw [← sign_extended fd, target, sign_extended]

/-- An entry has one operation behind it, also where the kernel takes it for another. -/
theorem prepare_injective {slot slot' : Sqe} {op op' : Operation} (fits : op.Fits)
    (fits' : op'.Fits) (same : op.prepare slot = op'.prepare slot') : op = op' := by
  by_cases code : (op.prepare slot).opcode = .epollCtl
  · obtain ⟨epfd,o,fd,event,rfl⟩ := epollCtl_of_opcode code
    rw [same] at code
    obtain ⟨epfd',o',fd',event',rfl⟩ := epollCtl_of_opcode code
    obtain ⟨rfl,rfl,rfl,rfl⟩ := prepareEpollCtl_injective same
    rfl
  · have code' : (op'.prepare slot').opcode ≠ .epollCtl := same ▸ code
    calc
      op = decode (op.prepare slot) :=
        (decode_prepare slot fits (interchangeable_of_opcode code)).symm
      _ = decode (op'.prepare slot') := by rw [same]
      _ = op' := decode_prepare slot' fits' (interchangeable_of_opcode code')

/-- The kernel gets the arguments of every call but those of an epoll operation, whose
descriptor and event are in each other's fields. -/
theorem arguments_read_back_iff (slot : Sqe) (op : Operation) (fits : op.Fits) :
    (decode (op.prepare slot) = op ∧ ∀ (slot' : Sqe) (op' : Operation), op'.Fits →
      op'.prepare slot' = op.prepare slot → op' = op) ↔ op.Interchangeable := by
  constructor
  · rintro ⟨decoded,_⟩
    cases op with
    | epollCtl epfd o fd event =>
      rw [Operation.prepare, decode_epollCtl] at decoded
      injection decoded with _ _ _ swapped
      exact swapped.symm
    | _ => trivial
  · intro interchangeable
    exact ⟨decode_prepare slot fits interchangeable,
      fun slot' op' fits' same => prepare_injective fits' fits same⟩

def emptySqe : Sqe := ⟨.nop, 0, 0, 0, 0, 0, 0, 0, 0, 0, 0, 0, (0, 0)⟩

theorem read_arguments_read_back :
    (Operation.read 3 4096 512 0).Fits ∧
      decode ((Operation.read 3 4096 512 0).prepare emptySqe) = .read 3 4096 512 0 := by
  have fits : (Operation.read 3 4096 512 0).Fits := show (512 : UInt64).toNat < 2 ^ 32 by decide
  exact ⟨fits,((arguments_read_back_iff emptySqe _ fits).mpr trivial).1⟩

/-- epoll_ctl(5, EPOLL_CTL_ADD, 7, 4096) -/
theorem epoll_arguments_swapped :
    ¬ ∀ (slot : Sqe) (op : Operation), op.Fits →
      decode (op.prepare slot) = op ∧ ∀ (slot' : Sqe) (op' : Operation), op'.Fits →
        op'.prepare slot' = op.prepare slot → op' = op := by
  intro claim
  have decoded := (claim emptySqe (.epollCtl 5 1 7 4096) trivial).1
  have kernel : decode ((Operation.epollCtl 5 1 7 4096).prepare emptySqe) =
      .epollCtl 5 1 4096 7 := by decide
  rw [kernel] at decoded
  exact absurd decoded (by decide)

end IoURing
end Aiopp
