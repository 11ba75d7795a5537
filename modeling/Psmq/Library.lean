import Psmq.Broker

/-!
# The library

The client library, `psmq.c`: connecting to the broker (`psmqInitNamed`), the
requests a client sends it, and receiving its messages.

A function returning -1 gives the error number it leaves in `errno`. The
functions that change the object they are given also give the object they
leave. The object is never `NULL` here: the functions only return `EINVAL` if
it is.
-/

namespace Psmq

open CMem

variable {cfg : Config}

/-- `struct psmq`, an object of the library. -/
structure PsmqObj where
  qsub : Mqd
  qpub : Mqd
  fd : UInt8
  deriving DecidableEq

/-- The object cleared by `memset`. -/
def PsmqObj.zero : PsmqObj := ⟨some 0, some 0, 0⟩

/-! ## Sending -/

/-- `psmq_publish_msg` copying the payload, if there is one, after the topic:
    the data, and the length of the payload there. -/
def putPayload {n : ℕ} (data : Buf n) (topiclen : ℕ) (payload : Option Ptr) (paylen : ℕ) :
    Option (Buf n × ℕ) :=
  match payload with
  | none => some (data, 0)
  | some payload =>
    if paylen ≤ payload.length then
      (data.write topiclen (payload.take paylen)).map fun data => (data, paylen)
    else none

/-- The message `psmq_publish_msg` builds. -/
def publishMsg (cfg : Config) (cmd data : UInt8) (topic : Option CString) (payload : Option Ptr)
    (paylen : ℕ) : Option (PsmqMsg cfg) := do
  let pub := { PsmqMsg.zero cfg with ctrl := ⟨cmd, data⟩ }
  let x ← copyTopic pub.data topic
  let y ← putPayload x.1 x.2 payload paylen
  return { pub with data := y.1, paylen := UInt16.ofNat y.2 }

/-- `psmq_publish_msg`. -/
def psmqPublishMsg (psmq : PsmqObj) (cmd data : UInt8) (topic : Option CString)
    (payload : Option Ptr) (paylen prio : ℕ) : P cfg (Except Errno Unit) := do
  if psmq.qpub = none then return .error EBADF
  else if psmq.qsub = psmq.qpub then return .error EBADF
  else
    let pub ← Prog.deref (publishMsg cfg cmd data topic payload paylen)
    let len ← Prog.deref pub.realMsgSize
    mqSend psmq.qsub psmq.qpub pub len prio

/-- A sum of `size_t`. -/
def sizeAdd (cfg : Config) (a b : ℕ) : ℕ := (a + b) % 2 ^ cfg.sizeWidth

/-- `psmq_publish_prio`. -/
def psmqPublishPrio (psmq : PsmqObj) (topic : Option CString) (payload : Option Ptr)
    (paylen prio : ℕ) : P cfg (Except Errno Unit) :=
  match topic with
  | none => return .error EINVAL
  | some topic =>
    if ¬sizeAdd cfg (topic.length + 1) paylen ≤ cfg.msgMax then return .error ENOBUFS
    else if topic.bytes[0]? ≠ some slash then return .error EBADMSG
    else psmqPublishMsg psmq cmdPublish psmq.fd (some topic) payload paylen prio

/-- `psmq_subscribe` and `psmq_unsubscribe`, which only differ by the command they send. -/
def psmqTopicRequest (cmd : UInt8) (psmq : PsmqObj) (topic : Option CString) :
    P cfg (Except Errno Unit) :=
  match topic with
  | none => return .error EINVAL
  | some topic =>
    if topic.bytes = [] then return .error EINVAL
    else if topic.bytes[0]? ≠ some slash then return .error EBADMSG
    else if psmq.qsub = none then return .error EBADF
    else if psmq.qsub = psmq.qpub then return .error EBADF
    else if ¬topic.length + 1 ≤ cfg.msgMax then return .error ENOBUFS
    else psmqPublishMsg psmq cmd psmq.fd (some topic) none 0 0

/-- `psmq_subscribe`. -/
def psmqSubscribe (psmq : PsmqObj) (topic : Option CString) : P cfg (Except Errno Unit) :=
  psmqTopicRequest cmdSubscribe psmq topic

/-- `psmq_unsubscribe`. -/
def psmqUnsubscribe (psmq : PsmqObj) (topic : Option CString) : P cfg (Except Errno Unit) :=
  psmqTopicRequest cmdUnsubscribe psmq topic

/-- `buf` in `psmq_ioctl`, of 32 bytes, with a timeout copied after the request. -/
def timeoutBuf (cfg : Config) (req : UInt8) (timeout : UInt16) : Ptr :=
  req :: storeU16 cfg.bigEndian timeout ++ List.replicate 29 0

/-- `psmq_ioctl`, given the `int` of its variadic arguments. -/
def psmqIoctl (psmq : PsmqObj) (req val : ℤ) : P cfg (Except Errno Unit) :=
  if psmq.qsub = none then return .error EBADF
  else if psmq.qsub = psmq.qpub then return .error EBADF
  else if req = ioctlReplyTimeout.toNat then
    if ¬val ≤ ushrtMax then return .error EINVAL
    else
      psmqPublishMsg psmq cmdIoctl psmq.fd none
        (some (timeoutBuf cfg ioctlReplyTimeout (UInt16.ofInt val))) 3 0
  else return .error EINVAL

/-- `psmq_ioctl_reply_timeout`. -/
def psmqIoctlReplyTimeout (psmq : PsmqObj) (val : UInt16) : P cfg (Except Errno Unit) :=
  psmqIoctl psmq ioctlReplyTimeout.toNat val.toNat

/-! ## Receiving -/

/-- `PSMQ_TOPIC`. -/
def psmqTopic (m : PsmqMsg cfg) : Option CString := str m.data.bytes

/-- `PSMQ_PAYLOAD`. -/
def psmqPayload (m : PsmqMsg cfg) : Option Ptr :=
  if m.ctrl.cmd = cmdIoctl then some m.data.bytes
  else (strlen m.data.bytes).map fun l => m.data.bytes.drop (l + 1)

/-- `psmq_receive_prio`: the message in the struct `msg` of the caller, and its priority. -/
def psmqReceivePrio (psmq : PsmqObj) (msg : PsmqMsg cfg) :
    P cfg (Except Errno (PsmqMsg cfg × ℕ)) := do
  if psmq.qpub = none then return .error EBADF
  else if psmq.qsub = psmq.qpub then return .error EBADF
  else
    match ← mqReceive psmq.qsub with
    | .error e => return .error e
    | .ok (bytes, prio) => return .ok (msg.recvInto bytes, prio)

/-- `psmq_timedreceive_prio_ms`. -/
def psmqTimedreceivePrioMs (psmq : PsmqObj) (msg : PsmqMsg cfg) (ms : ℕ) :
    P cfg (Except Errno (PsmqMsg cfg × ℕ)) := do
  if psmq.qpub = none then return .error EBADF
  else if psmq.qsub = psmq.qpub then return .error EBADF
  else
    match ← mqTimedreceive psmq.qsub ms with
    | .error e => return .error e
    | .ok (bytes, prio) => return .ok (msg.recvInto bytes, prio)

/-! ## Connecting -/

/-- The loop of `psmq_init_wq` waiting for the reply of the broker: the object,
    and `ack`, or the error that makes it -1. The loop is left unbounded by
    the code: `fuel` bounds the number of messages received. -/
def awaitAck : ℕ → PsmqObj → P cfg (PsmqObj × Except Errno ℕ)
  | 0, _ => .fault .fuel
  | fuel + 1, psmq => do
    match ← psmqTimedreceivePrioMs psmq (PsmqMsg.zero cfg) 30000 with
    | .error e => return (psmq, .error e)
    | .ok (msg, _) =>
      -- What the queue had before is not the reply awaited.
      if msg.ctrl.cmd ≠ cmdOpen then awaitAck fuel psmq
      else if msg.paylen = 0 ∧ msg.ctrl.data.toNat = ENOSPC then return (psmq, .ok ENOSPC)
      else if msg.paylen ≠ 1 then return (psmq, .ok EBADMSG)
      else
        let fd ← Prog.deref msg.data.bytes[0]?
        return ({ psmq with fd := fd }, .ok msg.ctrl.data.toNat)

/-- The end of `psmq_init_wq` on an error, `errno` being `e`. -/
def initWqError (psmq : PsmqObj) (mqname : CString) (e : Errno) :
    P cfg (PsmqObj × Except Errno Unit) := do
  let _ ← mqClose psmq.qpub
  let _ ← mqClose psmq.qsub
  let _ ← mqUnlink mqname
  return ({ psmq with qpub := none, qsub := none }, .error e)

/-- `psmq_init_wq`. -/
def psmqInitWq (fuel : ℕ) (psmq : PsmqObj) (brokername mqname : CString) :
    P cfg (PsmqObj × Except Errno Unit) := do
  match ← mqOpen brokername ⟨.wronly, false, false, 0⟩ with
  | .error e =>
    -- Closing the queue may change `errno`.
    let r ← mqClose psmq.qsub
    return ({ psmq with qpub := none, qsub := none }, .error (r.getD e))
  | .ok qpub =>
    let psmq := { psmq with qpub := some qpub }
    match ← psmqPublishMsg psmq cmdOpen 0 (some mqname) none 0 0 with
    | .error e => initWqError psmq mqname e
    | .ok () =>
      let (psmq, ack) ← awaitAck fuel psmq
      match ack with
      | .error e => initWqError psmq mqname e
      | .ok 0 => return (psmq, .ok ())
      | .ok e => initWqError psmq mqname e

/-- `PSMQD_DEFAULT_QNAME`. -/
def psmqdDefaultQname : CString := psmqdCfgInit.brokerName

/-- An `int` holding a `size_t`. -/
def toInt (n : ℕ) : ℤ := (n : ℤ).bmod (2 ^ 32)

/-- A decimal digit. -/
def digit (d : ℕ) : UInt8 := UInt8.ofNat (48 + d % 10)

theorem digit_ne_zero (d : ℕ) : digit d ≠ 0 := fun h => by
  have h' : (digit d).toNat = 0 := by rw [h]; rfl
  rw [digit, UInt8.toNat_ofNat'] at h'
  omega

/-- The name `sprintf` gives for the format `/psmqc%03d`, for an `i` below 1000. -/
def generatedName (i : ℕ) : CString :=
  ⟨[47, 112, 115, 109, 113, 99, digit (i / 100), digit (i / 10), digit i], by
    have := digit_ne_zero (i / 100)
    have := digit_ne_zero (i / 10)
    have := digit_ne_zero i
    simp_all [eq_comm]⟩

/-- The loop of `psmq_init_named` over the generated names left to try. The
    name is printed to `mqn`, an array of 10 bytes. -/
def initGenerated (fuel : ℕ) (psmq : PsmqObj) (brokername : CString) (maxmsg : ℤ) :
    List ℕ → P cfg (PsmqObj × Except Errno Unit)
  | [] => return ({ psmq with qsub := none }, .error ENOSPC)
  | i :: is => do
    let mqn ← Prog.deref ((Buf.zero 10).strcpy (generatedName i))
    let mqname ← Prog.deref (str mqn.bytes)
    match ← mqOpen mqname ⟨.rdonly, true, true, maxmsg⟩ with
    | .ok qsub => psmqInitWq fuel { psmq with qsub := some qsub } brokername mqname
    | .error e =>
      if e = EEXIST then initGenerated fuel psmq brokername maxmsg is
      else return ({ psmq with qsub := none }, .error e)

/-- Printing a generated name, and reading it again. -/
theorem printed_generatedName (i : ℕ) : ∃ mqn, (Buf.zero 10).strcpy (generatedName i) = some mqn ∧
    str mqn.bytes = some (generatedName i) := by
  obtain ⟨mqn, hmqn⟩ := Option.isSome_iff_exists.1
    ((Buf.isSome_strcpy_iff (b := .zero 10)).2 (le_refl ((generatedName i).length + 1)))
  refine ⟨mqn, hmqn, ?_⟩
  rw [(Buf.bytes_of_write hmqn).2]
  simpa using str_append (generatedName i) _

/-- The search for a name goes on with the names that are not taken. -/
theorem initGenerated_cons (fuel : ℕ) (psmq : PsmqObj) (brokername : CString) (maxmsg : ℤ)
    (i : ℕ) (is : List ℕ) : (initGenerated fuel psmq brokername maxmsg (i :: is) : P cfg _) = do
      match ← mqOpen (generatedName i) ⟨.rdonly, true, true, maxmsg⟩ with
      | .ok qsub => psmqInitWq fuel { psmq with qsub := some qsub } brokername (generatedName i)
      | .error e =>
        if e = EEXIST then initGenerated fuel psmq brokername maxmsg is
        else return ({ psmq with qsub := none }, .error e) := by
  obtain ⟨mqn, hmqn, hstr⟩ := printed_generatedName i
  rw [initGenerated, hmqn, Prog.deref_some, Prog.ret_bind, hstr, Prog.deref_some, Prog.ret_bind]

/-- `psmq_init_named`. -/
def psmqInitNamed (fuel : ℕ) (psmq : PsmqObj) (brokername mqname : Option CString) (maxmsg : ℤ) :
    P cfg (PsmqObj × Except Errno Unit) :=
  if ¬0 < maxmsg then return (psmq, .error EINVAL)
  else if ∃ b ∈ brokername, b.bytes[0]? ≠ some slash then return (psmq, .error EINVAL)
  else
    let brokername := brokername.getD psmqdDefaultQname
    match mqname with
    | some mqname =>
      if mqname.bytes[0]? ≠ some slash then return (psmq, .error EINVAL)
      else if ¬toInt mqname.length < cfg.msgMax then return (psmq, .error ENAMETOOLONG)
      else do
        -- A queue left from before would have old messages.
        let _ ← mqUnlink mqname
        match ← mqOpen mqname ⟨.rdonly, true, false, maxmsg⟩ with
        | .error e => return ({ PsmqObj.zero with qsub := none }, .error e)
        | .ok qsub => psmqInitWq fuel { PsmqObj.zero with qsub := some qsub } brokername mqname
    | none => initGenerated fuel PsmqObj.zero brokername maxmsg (List.range cfg.maxClients)

/-- `psmq_cleanup`. -/
def psmqCleanup (psmq : PsmqObj) : P cfg (PsmqObj × Except Errno Unit) := do
  if psmq.qsub = psmq.qpub then return (psmq, .error EBADF)
  else
    -- The queues are closed even if the broker cannot be told.
    let _ ← psmqPublishMsg psmq cmdClose psmq.fd none none 0 0
    let _ ← mqClose psmq.qpub
    let _ ← mqClose psmq.qsub
    return ({ psmq with qpub := none, qsub := none }, .ok ())

end Psmq
