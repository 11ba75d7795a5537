import Psmq.Lib.CMem
import Psmq.Lib.Prog
import Mathlib.Algebra.GroupWithZero.Nat
import Mathlib.Data.Fin.Basic

/-!
# Messages and system calls

What the broker and the library share: the parameters of a build (`Config`),
the message they exchange, `struct psmq_msg` (`PsmqMsg`), and the calls they
make to the system (`Op`), on POSIX message queues and the heap.

A message goes over a queue as a prefix of the bytes of its struct: the first
`psmq_real_msg_size` ones (`PsmqMsg.realMsgSize`), and it is received over
what was in the struct of the receiver (`PsmqMsg.recvInto`).

The programs (`P`) of the broker and of the library make these calls and
leave their results open: any call may fail, unless something more is said
about the queues (`Psmq.System`).
-/

namespace Psmq

open CMem

/-! ## Builds -/

/-- The parameters of a build. -/
structure Config where
  /-- `PSMQ_MSG_MAX`, the size of `psmq_msg.data`. -/
  msgMax : ℕ
  /-- `PSMQ_MAX_CLIENTS`, the number of slots of the broker. -/
  maxClients : ℕ
  /-- The width of `size_t`. -/
  sizeWidth : ℕ
  /-- The byte order of the machine. -/
  bigEndian : Bool
  six_le_msgMax : 6 ≤ msgMax
  msgMax_le : msgMax ≤ 2147483647
  two_le_maxClients : 2 ≤ maxClients
  maxClients_le : maxClients ≤ 254
  sizeWidth_eq : sizeWidth = 32 ∨ sizeWidth = 64

/-- The smallest build the configuration allows. -/
def smallest : Config := ⟨6, 2, 64, false, by decide, by decide, by decide, by decide, by decide⟩

/-- The slots of the broker. -/
abbrev Slot (cfg : Config) := Fin cfg.maxClients

instance (cfg : Config) : NeZero cfg.maxClients :=
  ⟨Nat.ne_of_gt (Nat.lt_of_lt_of_le Nat.two_pos cfg.two_le_maxClients)⟩

/-- A message queue descriptor; `none` is `(mqd_t)-1`. -/
abbrev Mqd := Option ℕ

/-- Error numbers, those of Linux. -/
abbrev Errno := ℕ

def ENOENT : Errno := 2
def EINTR : Errno := 4
def EBADF : Errno := 9
def ENOMEM : Errno := 12
def EEXIST : Errno := 17
def EINVAL : Errno := 22
def ENOSPC : Errno := 28
def ENAMETOOLONG : Errno := 36
def EBADMSG : Errno := 74
def ENOBUFS : Errno := 105
def ETIMEDOUT : Errno := 110

def ucharMax : ℕ := 255
def ushrtMax : ℕ := 65535

/-! ## The commands -/

def cmdOpen : UInt8 := 111
def cmdClose : UInt8 := 99
def cmdSubscribe : UInt8 := 115
def cmdUnsubscribe : UInt8 := 117
def cmdPublish : UInt8 := 112
def cmdIoctl : UInt8 := 105

/-- A message has one command. -/
theorem cmd_absurd {P : Prop} {cmd a b : UInt8} (ha : cmd = a) (hb : cmd = b)
    (hne : a ≠ b := by decide) : P := absurd (ha.symm.trans hb) hne

def ioctlReplyTimeout : UInt8 := 1

/-- The `/` between the parts of a topic. -/
def slash : UInt8 := 47

/-! ## Messages -/

/-- `struct ctrl`. -/
structure Ctrl where
  cmd : UInt8
  data : UInt8
  deriving DecidableEq

variable {cfg : Config}

/-- `struct psmq_msg`. -/
@[ext] structure PsmqMsg (cfg : Config) where
  ctrl : Ctrl
  paylen : UInt16
  data : Buf cfg.msgMax
  deriving DecidableEq

/-- The size of `ctrl` and `paylen`, before `data`. -/
def headerSize : ℕ := 4

/-- `sizeof(struct psmq_msg)`: it is aligned as `paylen` is. -/
def sizeofMsg (cfg : Config) : ℕ := headerSize + cfg.msgMax + cfg.msgMax % 2

namespace PsmqMsg

/-- The message cleared by `memset`. -/
def zero (cfg : Config) : PsmqMsg cfg := ⟨⟨0, 0⟩, 0, .zero cfg.msgMax⟩

/-- The bytes of the struct, the padding included. -/
def toBytes (m : PsmqMsg cfg) : List UInt8 :=
  m.ctrl.cmd :: m.ctrl.data :: storeU16 cfg.bigEndian m.paylen ++ m.data.bytes ++
    List.replicate (cfg.msgMax % 2) 0

@[simp] theorem length_toBytes (m : PsmqMsg cfg) : m.toBytes.length = sizeofMsg cfg := by
  simp [toBytes, sizeofMsg, headerSize]
  omega

/-- The message in the struct `old` after `bytes` are received over it. -/
def recvInto (old : PsmqMsg cfg) (bytes : List UInt8) : PsmqMsg cfg :=
  let all := bytes ++ old.toBytes.drop bytes.length
  { ctrl := ⟨all.getD 0 0, all.getD 1 0⟩
    paylen := (loadU16 cfg.bigEndian (all.drop 2)).getD 0
    data := ⟨(all.drop headerSize).take cfg.msgMax, by
      have := old.length_toBytes
      simp only [all, List.length_take, List.length_drop, List.length_append, this, sizeofMsg,
        headerSize]
      omega⟩ }

/-- `psmq_real_msg_size`: how many bytes of the struct are sent. The topic is
    measured by `strlen`, but for an ioctl, which carries none. -/
def realMsgSize (m : PsmqMsg cfg) : Option ℕ :=
  if m.ctrl.cmd = cmdIoctl then some (headerSize + m.paylen.toNat)
  else (strlen m.data.bytes).map fun l => headerSize + (l + 1) + m.paylen.toNat

end PsmqMsg

/-! ## System calls -/

/-- How a queue is opened. -/
inductive OpenMode
  | rdonly
  | wronly
  | rdwr
  deriving DecidableEq

/-- The flags of `mq_open`, and the attributes of a queue it creates. -/
structure OpenFlags where
  mode : OpenMode
  creat : Bool
  excl : Bool
  maxmsg : ℤ
  deriving DecidableEq

/-- The system calls. Two arguments are ghosts, which the system does not see:
    the `slot` of `mqTimedsend`, on behalf of which the broker sends the
    message, and the `src` of `mqSend`, the queue the sender receives on. -/
inductive Op (cfg : Config)
  | mqOpen (name : CString) (flags : OpenFlags)
  | mqClose (mq : Mqd)
  | mqUnlink (name : CString)
  | mqSend (src mq : Mqd) (msg : PsmqMsg cfg) (len prio : ℕ)
  | mqTimedsend (slot : Option (Slot cfg)) (mq : Mqd) (msg : PsmqMsg cfg) (len prio : ℕ)
      (timeout : UInt16)
  | mqReceive (mq : Mqd)
  | mqTimedreceive (mq : Mqd) (ms : ℕ)
  | malloc (size : ℕ)

/-- The results of the system calls. Closing and unlinking a queue may leave
    something in `errno`, even when they succeed. -/
abbrev Op.Res : Op cfg → Type
  | .mqOpen _ _ => Except Errno ℕ
  | .mqClose _ => Option Errno
  | .mqUnlink _ => Option Errno
  | .mqSend _ _ _ _ _ => Except Errno Unit
  | .mqTimedsend _ _ _ _ _ _ => Bool
  | .mqReceive _ => Except Errno (List UInt8 × ℕ)
  | .mqTimedreceive _ _ => Except Errno (List UInt8 × ℕ)
  | .malloc _ => Bool

/-- Programs making system calls. -/
abbrev P (cfg : Config) := Prog (Op cfg) Op.Res

/-- System calls, with their results. -/
abbrev Trace (cfg : Config) := List (Prog.Event (Op cfg) Op.Res)

def mqOpen (name : CString) (flags : OpenFlags) : P cfg (Except Errno ℕ) :=
  Prog.perform (Op.mqOpen name flags)

def mqClose (mq : Mqd) : P cfg (Option Errno) := Prog.perform (Op.mqClose mq)

def mqUnlink (name : CString) : P cfg (Option Errno) := Prog.perform (Op.mqUnlink name)

/-- `mq_send` of the first `len` bytes of a message: they must be in its struct. -/
def mqSend (src mq : Mqd) (msg : PsmqMsg cfg) (len prio : ℕ) : P cfg (Except Errno Unit) :=
  if len ≤ sizeofMsg cfg then Prog.perform (Op.mqSend src mq msg len prio) else .fault .bounds

/-- `mq_timedsend` of the first `len` bytes of a message: they must be in its struct. -/
def mqTimedsend (slot : Option (Slot cfg)) (mq : Mqd) (msg : PsmqMsg cfg) (len prio : ℕ)
    (timeout : UInt16) : P cfg Bool :=
  if len ≤ sizeofMsg cfg then Prog.perform (Op.mqTimedsend slot mq msg len prio timeout)
  else .fault .bounds

def mqReceive (mq : Mqd) : P cfg (Except Errno (List UInt8 × ℕ)) := Prog.perform (Op.mqReceive mq)

def mqTimedreceive (mq : Mqd) (ms : ℕ) : P cfg (Except Errno (List UInt8 × ℕ)) :=
  Prog.perform (Op.mqTimedreceive mq ms)

def malloc (size : ℕ) : P cfg Bool := Prog.perform (Op.malloc size)

end Psmq
