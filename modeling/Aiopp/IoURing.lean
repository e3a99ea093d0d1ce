import Mathlib.Data.List.Basic

/-!
Submission entries as the queue prepares them. Pointers are 64-bit words. The
slot that `getSqe` returns still holds what an earlier operation left in it,
so every encoder takes that content as an argument.
-/
namespace Aiopp

inductive Opcode where
  | nop | readv | writev | fsync | pollAdd | pollRemove | syncFileRange | sendmsg | recvmsg
  | timeout | timeoutRemove | accept | asyncCancel | linkTimeout | connect | openat | close
  | statx | read | write | send | recv | openat2 | epollCtl | shutdown | renameat | unlinkat
  deriving DecidableEq, Repr

/-- One field stands for each union of the kernel's layout: `off` also for `addr2`,
    `rw_flags` for the flags of all operations and the poll events. -/
structure Sqe where
  opcode : Opcode
  flags : UInt8
  ioprio : UInt16
  fd : Int32
  off : UInt64
  addr : UInt64
  len : UInt32
  rw_flags : UInt32
  user_data : UInt64
  buf_index : UInt16
  personality : UInt16
  splice_fd_in : Int32
  pad2 : UInt64 × UInt64
  deriving DecidableEq, Repr

structure Cqe where
  user_data : UInt64
  res : Int32
  deriving DecidableEq, Repr

namespace IoURing

def IOSQE_IO_LINK : UInt8 := 4

def prepare (sqe : Sqe) (opcode : Opcode) (fd : Int32) (off addr : UInt64) (len : UInt32) : Sqe :=
  { sqe with
    opcode := opcode
    flags := 0
    ioprio := 0
    fd := fd
    off := off
    addr := addr
    len := len
    rw_flags := 0
    user_data := 0
    buf_index := 0
    personality := 0
    splice_fd_in := 0
    pad2 := (0, 0) }

def prepareNop (sqe : Sqe) : Sqe := prepare sqe .nop (-1) 0 0 0

def prepareReadv (sqe : Sqe) (fd : Int32) (iov : UInt64) (iovcnt : Int32) (offset : Int64) : Sqe :=
  prepare sqe .readv fd offset.toUInt64 iov iovcnt.toUInt32

def prepareWritev (sqe : Sqe) (fd : Int32) (iov : UInt64) (iovcnt : Int32) (offset : Int64) : Sqe :=
  prepare sqe .writev fd offset.toUInt64 iov iovcnt.toUInt32

def prepareFsync (sqe : Sqe) (fd : Int32) (flags : UInt32) : Sqe :=
  { prepare sqe .fsync fd 0 0 0 with rw_flags := flags }

def preparePollAdd (sqe : Sqe) (fd : Int32) (events : Int16) (flags : UInt32) : Sqe :=
  { prepare sqe .pollAdd fd 0 0 flags with rw_flags := events.toUInt16.toUInt32 }

def preparePollRemove (sqe : Sqe) (userData : UInt64) : Sqe :=
  prepare sqe .pollRemove (-1) 0 userData 0

def prepareSyncFileRange (sqe : Sqe) (fd : Int32) (offset nbytes : Int64) (flags : UInt32) : Sqe :=
  { prepare sqe .syncFileRange fd offset.toUInt64 0 nbytes.toUInt64.toUInt32 with
    rw_flags := flags }

def prepareSendmsg (sqe : Sqe) (sockfd : Int32) (msg : UInt64) (flags : Int32) : Sqe :=
  { prepare sqe .sendmsg sockfd 0 msg 1 with rw_flags := flags.toUInt32 }

def prepareRecvmsg (sqe : Sqe) (sockfd : Int32) (msg : UInt64) (flags : Int32) : Sqe :=
  { prepare sqe .recvmsg sockfd 0 msg 1 with rw_flags := flags.toUInt32 }

def prepareTimeout (sqe : Sqe) (ts count : UInt64) (flags : UInt32) : Sqe :=
  { prepare sqe .timeout (-1) count ts 1 with rw_flags := flags }

def prepareTimeoutRemove (sqe : Sqe) (userData : UInt64) (flags : UInt32) : Sqe :=
  { prepare sqe .timeoutRemove (-1) 0 userData 0 with rw_flags := flags }

def prepareAccept (sqe : Sqe) (sockfd : Int32) (addr addrlen : UInt64) (flags : UInt32) : Sqe :=
  { prepare sqe .accept sockfd 0 addr 0 with off := addrlen, rw_flags := flags }

def prepareAsyncCancel (sqe : Sqe) (userData : UInt64) : Sqe :=
  prepare sqe .asyncCancel (-1) 0 userData 0

def prepareLinkTimeout (sqe : Sqe) (ts : UInt64) (flags : UInt32) : Sqe :=
  { prepare sqe .linkTimeout (-1) 0 ts 1 with rw_flags := flags }

def prepareConnect (sqe : Sqe) (sockfd : Int32) (addr : UInt64) (addrlen : UInt32) : Sqe :=
  prepare sqe .connect sockfd addrlen.toUInt64 addr 0

def prepareOpenat (sqe : Sqe) (dirfd : Int32) (pathname : UInt64) (flags : Int32)
    (mode : UInt32) : Sqe :=
  { prepare sqe .openat dirfd 0 pathname mode with rw_flags := flags.toUInt32 }

def prepareClose (sqe : Sqe) (fd : Int32) : Sqe := prepare sqe .close fd 0 0 0

def prepareStatx (sqe : Sqe) (dirfd : Int32) (pathname : UInt64) (flags : Int32) (mask : UInt32)
    (statxbuf : UInt64) : Sqe :=
  { prepare sqe .statx dirfd statxbuf pathname mask with rw_flags := flags.toUInt32 }

/-- A byte count is a size_t here and 32 bits wide in the entry. -/
def prepareRead (sqe : Sqe) (fd : Int32) (buf count offset : UInt64) : Sqe :=
  prepare sqe .read fd offset buf count.toUInt32

def prepareWrite (sqe : Sqe) (fd : Int32) (buf count : UInt64) (offset : Int64) : Sqe :=
  prepare sqe .write fd offset.toUInt64 buf count.toUInt32

def prepareSend (sqe : Sqe) (sockfd : Int32) (buf len : UInt64) (flags : Int32) : Sqe :=
  { prepare sqe .send sockfd 0 buf len.toUInt32 with rw_flags := flags.toUInt32 }

def prepareRecv (sqe : Sqe) (sockfd : Int32) (buf len : UInt64) (flags : Int32) : Sqe :=
  { prepare sqe .recv sockfd 0 buf len.toUInt32 with rw_flags := flags.toUInt32 }

/-- `sizeof(open_how)` -/
def prepareOpenat2 (sqe : Sqe) (dirfd : Int32) (pathname how : UInt64) : Sqe :=
  prepare sqe .openat2 dirfd how pathname 24

/-- An int that is cast to a pointer is sign-extended. -/
def prepareEpollCtl (sqe : Sqe) (epfd op fd : Int32) (event : UInt64) : Sqe :=
  prepare sqe .epollCtl epfd event fd.toInt64.toUInt64 op.toUInt32

def prepareShutdown (sqe : Sqe) (fd how : Int32) : Sqe := prepare sqe .shutdown fd 0 0 how.toUInt32

def prepareRenameat (sqe : Sqe) (olddirfd : Int32) (oldpath : UInt64) (newdirfd : Int32)
    (newpath : UInt64) (flags : Int32) : Sqe :=
  { prepare sqe .renameat olddirfd newpath oldpath newdirfd.toUInt32 with
    rw_flags := flags.toUInt32 }

def prepareUnlinkat (sqe : Sqe) (dirfd : Int32) (pathname : UInt64) (flags : Int32) : Sqe :=
  { prepare sqe .unlinkat dirfd 0 pathname 0 with rw_flags := flags.toUInt32 }

end IoURing
end Aiopp
