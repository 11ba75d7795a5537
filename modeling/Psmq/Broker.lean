import Psmq.Topic
import Mathlib.Logic.Function.Basic
import Mathlib.Data.List.FinRange

/-!
# The broker

The broker, `broker.c`: its memory (`Broker`), the replies it sends, the
handlers of the requests, its main loop, and how it starts and stops.

A handler takes the memory of the broker and gives the memory it leaves, with
the value it returns. `psmqd_broker_start` is given one round at a time
(`brokerStart`): what it does with a message it has received, starting with
the checks the message must pass (`brokerIntake`).
-/

namespace Psmq

open CMem

variable {cfg : Config}

/-! ## The memory of the broker -/

/-- `struct client`, a slot of the broker; it is free if `mq` is `(mqd_t)-1`. -/
structure Client where
  mq : Mqd
  topics : List CString
  missedPubs : UInt8
  replyTimeout : UInt16
  deriving DecidableEq

/-- The static variables of `broker.c`. -/
structure Broker (cfg : Config) where
  qctrl : Mqd
  clients : Slot cfg → Client

/-- The configuration of the daemon, `g_psmqd_cfg`, as far as the broker uses it. -/
structure PsmqdCfg where
  brokerName : CString
  brokerMaxmsg : ℤ
  removeQueue : Bool

/-- The defaults of `psmqd_cfg_init`: the queue is `/psmqd`, of 10 messages. -/
def psmqdCfgInit : PsmqdCfg := ⟨⟨[47, 112, 115, 109, 113, 100], by decide⟩, 10, false⟩

namespace Broker

/-- The broker with the client `c` in the slot `fd`. -/
def set (s : Broker cfg) (fd : Slot cfg) (c : Client) : Broker cfg :=
  { s with clients := Function.update s.clients fd c }

/-- Changing the client in a slot. -/
def modify (s : Broker cfg) (fd : Slot cfg) (f : Client → Client) : Broker cfg :=
  s.set fd (f (s.clients fd))

/-- The slot `fd` is open. -/
def IsOpen (s : Broker cfg) (fd : Slot cfg) : Prop := (s.clients fd).mq ≠ none

instance (s : Broker cfg) (fd : Slot cfg) : Decidable (s.IsOpen fd) :=
  inferInstanceAs (Decidable (_ ≠ _))

@[simp] theorem set_qctrl (s : Broker cfg) (fd : Slot cfg) (c : Client) :
    (s.set fd c).qctrl = s.qctrl := rfl

@[simp] theorem set_clients_self (s : Broker cfg) (fd : Slot cfg) (c : Client) :
    (s.set fd c).clients fd = c := Function.update_self _ _ _

theorem set_clients_of_ne (s : Broker cfg) {fd k : Slot cfg} (h : k ≠ fd) (c : Client) :
    (s.set fd c).clients k = s.clients k := Function.update_of_ne h _ _

@[simp] theorem set_set (s : Broker cfg) (fd : Slot cfg) (c c' : Client) :
    (s.set fd c).set fd c' = s.set fd c' := by
  simp [set]

theorem set_eq_self (s : Broker cfg) (fd : Slot cfg) {c : Client} (h : s.clients fd = c) :
    s.set fd c = s := by
  rw [← h, set, Function.update_eq_self]

/-- Changing the client in a slot puts the changed client there. -/
@[simp] theorem modify_eq_set (s : Broker cfg) (fd : Slot cfg) (f : Client → Client) :
    s.modify fd f = s.set fd (f (s.clients fd)) := rfl

end Broker

/-- The static memory of a process before `psmqd_broker_init`: all zeros. -/
def staticBroker (cfg : Config) : Broker cfg := ⟨some 0, fun _ => ⟨some 0, [], 0, 0⟩⟩

def maxMissedPubs : UInt8 := 10

/-- The element of `clients` a descriptor names. -/
def slotOf (cfg : Config) (fd : UInt8) : Option (Slot cfg) :=
  if h : fd.toNat < cfg.maxClients then some ⟨fd.toNat, h⟩ else none

/-- The descriptor of a slot. -/
def fdOf (fd : Slot cfg) : UInt8 := UInt8.ofNat fd.val

/-! ## Replies -/

/-- `psmqd_broker_get_free_client`: the first free slot, `UCHAR_MAX` if there is none. -/
def brokerGetFreeClient (s : Broker cfg) : UInt8 :=
  match (List.finRange cfg.maxClients).find? fun fd => (s.clients fd).mq = none with
  | some fd => fdOf fd
  | none => UInt8.ofNat ucharMax

/-- `psmqd_broker_reply_mq` copying the topic to the data of its message: the
    data, and the length of the topic there. -/
def copyTopic {n : ℕ} (data : Buf n) : Option CString → Option (Buf n × ℕ)
  | none => some (data, 0)
  | some topic => (data.strcpy topic).map fun data => (data, topic.length + 1)

/-- `psmqd_broker_reply_mq` copying the payload after the topic. -/
def copyPayload {n : ℕ} (data : Buf n) (topiclen : ℕ) (payload : Option Ptr) (paylen : ℕ) :
    Option (Buf n) :=
  match payload with
  | none => some data
  | some payload =>
    if paylen = 0 then some data
    else if paylen ≤ payload.length then data.write topiclen (payload.take paylen)
    else none

/-- The message `psmqd_broker_reply_mq` builds: the topic, then the payload. -/
def replyMsg (cfg : Config) (cmd data : UInt8) (topic : Option CString) (payload : Option Ptr)
    (paylen : ℕ) : Option (PsmqMsg cfg) := do
  let msg := { PsmqMsg.zero cfg with ctrl := ⟨cmd, data⟩, paylen := UInt16.ofNat paylen }
  let x ← copyTopic msg.data topic
  let buf ← copyPayload x.1 x.2 payload paylen
  return { msg with data := buf }

/-- `psmqd_broker_reply_mq`. -/
def brokerReplyMq (slot : Option (Slot cfg)) (mq : Mqd) (cmd data : UInt8)
    (topic : Option CString) (payload : Option Ptr) (paylen prio : ℕ) (timeout : UInt16) :
    P cfg Bool := do
  let msg ← Prog.deref (replyMsg cfg cmd data topic payload paylen)
  let len ← Prog.deref msg.realMsgSize
  mqTimedsend slot mq msg len prio timeout

/-- `psmqd_broker_reply`. -/
def brokerReply (s : Broker cfg) (fd : Slot cfg) (cmd data : UInt8) (topic : Option CString)
    (payload : Option Ptr) (paylen prio : ℕ) : P cfg (Broker cfg × ℤ) := do
  if ← brokerReplyMq (some fd) (s.clients fd).mq cmd data topic payload paylen prio
      (s.clients fd).replyTimeout then
    return (s.modify fd fun c => { c with missedPubs := 0 }, 0)
  else
    return (s.modify fd fun c => { c with missedPubs := c.missedPubs + 1 }, -1)

/-- `psmqd_broker_reply_ctrl`. -/
def brokerReplyCtrl (s : Broker cfg) (fd : Slot cfg) (cmd data : UInt8)
    (extra : Option CString) : P cfg (Broker cfg × ℤ) :=
  brokerReply s fd cmd data extra none 0 0

/-- An error number in the one byte of a reply. -/
def clampErrno (e : Errno) : UInt8 := UInt8.ofNat (if e < ucharMax then e else ucharMax)

/-! ## Requests -/

/-- `psmqd_broker_open`. -/
def brokerOpen (s : Broker cfg) (msg : PsmqMsg cfg) : P cfg (Broker cfg × ℤ) := do
  let qname ← Prog.deref (str msg.data.bytes)
  match ← mqOpen qname ⟨.rdwr, false, false, 0⟩ with
  -- There is no queue to tell the client by.
  | .error _ => return (s, -1)
  | .ok qc =>
    let fd := brokerGetFreeClient s
    if fd = UInt8.ofNat ucharMax then
      -- All the slots are taken.
      let _ ← brokerReplyMq none (some qc) cmdOpen (UInt8.ofNat ENOSPC) none none 0 0 0
      let _ ← mqClose (some qc)
      return (s, -1)
    else
      let k ← Prog.deref (slotOf cfg fd)
      let s := s.modify k fun c => { c with mq := some qc }
      if ← brokerReplyMq (some k) (some qc) cmdOpen 0 none (some [fd]) 1 0 0 then
        return (s, 0)
      else
        -- The client could not be sent its descriptor.
        let _ ← mqClose (some qc)
        return (s.modify k fun c => { c with mq := none }, -1)

/-- The loop of `psmqd_broker_subscribe`: there are two `/` in a row before the NUL. -/
def hasDoubleSlash : Ptr → Option Bool
  | [] => none
  | c :: p =>
    if c = 0 then some false
    else if c = slash then
      match p with
      | [] => none
      | c' :: _ => if c' = slash then some true else hasDoubleSlash p
    else hasDoubleSlash p

/-- The error `psmqd_broker_subscribe` finds in a request, 0 if there is none. -/
def subscribeErr (msg : PsmqMsg cfg) (stopiclen : ℕ) : Option Errno := do
  if stopiclen < 2 then return EBADMSG
  else if msg.paylen ≠ 0 then return EBADMSG
  else if (← msg.data.bytes[0]?) ≠ slash then return EBADMSG
  else if (← msg.data.bytes[stopiclen - 1]?) = slash then return EBADMSG
  else if ← hasDoubleSlash msg.data.bytes then return EBADMSG
  else return 0

/-- `psmqd_broker_subscribe`. -/
def brokerSubscribe (s : Broker cfg) (msg : PsmqMsg cfg) : P cfg (Broker cfg × ℤ) := do
  let fd ← Prog.deref (slotOf cfg msg.ctrl.data)
  let stopic ← Prog.deref (str msg.data.bytes)
  let err ← Prog.deref (subscribeErr msg stopic.length)
  if err ≠ 0 then
    let (s, _) ← brokerReplyCtrl s fd cmdSubscribe (UInt8.ofNat err) (some stopic)
    return (s, -1)
  else
    match ← tlAdd (s.clients fd).topics stopic with
    | .error errno =>
      let (s, _) ← brokerReplyCtrl s fd cmdSubscribe (clampErrno errno) (some stopic)
      return (s, -1)
    | .ok topics =>
      let s := s.modify fd fun c => { c with topics := topics }
      let (s, _) ← brokerReplyCtrl s fd cmdSubscribe 0 (some stopic)
      return (s, 0)

/-- `psmqd_broker_unsubscribe`. -/
def brokerUnsubscribe (s : Broker cfg) (msg : PsmqMsg cfg) : P cfg (Broker cfg × ℤ) := do
  let fd ← Prog.deref (slotOf cfg msg.ctrl.data)
  let utopic ← Prog.deref (str msg.data.bytes)
  match tlDelete (s.clients fd).topics utopic with
  | .error errno =>
    let (s, _) ← brokerReplyCtrl s fd cmdUnsubscribe (clampErrno errno) (some utopic)
    return (s, -1)
  | .ok topics =>
    let s := s.modify fd fun c => { c with topics := topics }
    let (s, _) ← brokerReplyCtrl s fd cmdUnsubscribe 0 (some utopic)
    return (s, 0)

/-- `psmqd_broker_close`. Destroying the list of topics frees its nodes, which
    nothing else refers to. -/
def brokerClose (s : Broker cfg) (fd : Slot cfg) : P cfg (Broker cfg × ℤ) := do
  let s := s.modify fd fun c => { c with missedPubs := 0 }
  let (s, _) ← brokerReplyCtrl s fd cmdClose 0 none
  let _ ← mqClose (s.clients fd).mq
  return (s.modify fd fun c => { c with mq := none, topics := [] }, 0)

/-- The inner loop of `psmqd_broker_publish`, over the topics of the client in
    the slot `fd`. -/
def publishTopics (topic : CString) (payload : Ptr) (paylen prio : ℕ) (fd : Slot cfg) :
    List CString → Broker cfg → P cfg (Broker cfg)
  | [], s => return s
  | node :: nodes, s => do
    if ← Prog.deref (brokerTopicMatches cfg topic node) then
      let (s, rc) ← brokerReply s fd cmdPublish 0 (some topic) (some payload) paylen prio
      if rc ≠ 0 then
        if maxMissedPubs ≤ (s.clients fd).missedPubs then
          -- The client is assumed dead: make room for the close message.
          let _ ← mqTimedreceive (s.clients fd).mq 0
          let (s, _) ← brokerClose s fd
          return s
        else publishTopics topic payload paylen prio fd nodes s
      else return s
    else publishTopics topic payload paylen prio fd nodes s

/-- The outer loop of `psmqd_broker_publish`, over the slots. -/
def publishClients (topic : CString) (payload : Ptr) (paylen prio : ℕ) :
    List (Slot cfg) → Broker cfg → P cfg (Broker cfg)
  | [], s => return s
  | fd :: fds, s => do
    if (s.clients fd).mq = none then publishClients topic payload paylen prio fds s
    else
      let s ← publishTopics topic payload paylen prio fd (s.clients fd).topics s
      publishClients topic payload paylen prio fds s

/-- `psmqd_broker_publish`. There are fewer slots than values of the index, an
    `unsigned char`: it does not wrap. -/
def brokerPublish (s : Broker cfg) (msg : PsmqMsg cfg) (prio : ℕ) : P cfg (Broker cfg × ℤ) := do
  let topic ← Prog.deref (str msg.data.bytes)
  let payload := msg.data.bytes.drop (topic.length + 1)
  let s ← publishClients topic payload msg.paylen.toNat prio (List.finRange cfg.maxClients) s
  return (s, 0)

/-- `buf` in `psmqd_broker_reply_ioctl`, after `req` and `data` are copied to
    it: the bytes written, the first ones of its 16. -/
def ioctlBuf (req : UInt8) (data : Option Ptr) (datalen : ℕ) : Option Ptr :=
  match data with
  | none => some [req]
  | some data =>
    if 1 + datalen ≤ 16 ∧ datalen ≤ data.length then some (req :: data.take datalen) else none

/-- `psmqd_broker_reply_ioctl`. -/
def brokerReplyIoctl (s : Broker cfg) (fd : Slot cfg) (err req : UInt8) (data : Option Ptr)
    (datalen : ℕ) : P cfg (Broker cfg) := do
  let buf ← Prog.deref (ioctlBuf req data datalen)
  let (s, _) ← brokerReply s fd cmdIoctl err none (some buf) (1 + datalen) 0
  return s

/-- `psmqd_broker_ioctl`. -/
def brokerIoctl (s : Broker cfg) (msg : PsmqMsg cfg) : P cfg (Broker cfg × ℤ) := do
  let fd ← Prog.deref (slotOf cfg msg.ctrl.data)
  let req ← Prog.deref msg.data.bytes[0]?
  if msg.paylen < 1 then
    let s ← brokerReplyIoctl s fd (UInt8.ofNat EINVAL) 0 none 0
    return (s, -1)
  else
    let dlen := (msg.paylen - 1).toNat
    let data := msg.data.bytes.drop 1
    if req = ioctlReplyTimeout then
      if dlen ≠ 2 then
        let s ← brokerReplyIoctl s fd (UInt8.ofNat EINVAL) req (some data) dlen
        return (s, -1)
      else
        let timeout ← Prog.deref (loadU16 cfg.bigEndian data)
        let s := s.modify fd fun c => { c with replyTimeout := timeout }
        let s ← brokerReplyIoctl s fd 0 req
          (some (storeU16 cfg.bigEndian (s.clients fd).replyTimeout)) dlen
        return (s, 0)
    else
      let s ← brokerReplyIoctl s fd (UInt8.ofNat EINVAL) req none 0
      return (s, -1)

/-! ## The main loop -/

/-- The checks of `psmqd_broker_start` on a received message: the message, if
    it is to be handled. The sum does not overflow, as `PSMQ_MSG_MAX` is at
    most 2147483647. -/
def brokerIntake (cfg : Config) (bytes : List UInt8) : P cfg (Option (PsmqMsg cfg)) := do
  let msg := (PsmqMsg.zero cfg).recvInto bytes
  let topiclen ← Prog.deref (strlen msg.data.bytes)
  -- The topic is to be a string, and the payload to fit after it.
  if cfg.msgMax ≤ topiclen then return none
  else if cfg.msgMax < topiclen + 1 + msg.paylen.toNat then return none
  -- Only a client that asks for a descriptor has none.
  else if msg.ctrl.cmd ≠ cmdOpen ∧ cfg.maxClients ≤ msg.ctrl.data.toNat then return none
  else return some msg

/-- The handler of a request, by its command. -/
def brokerDispatch (s : Broker cfg) (msg : PsmqMsg cfg) (prio : ℕ) : P cfg (Broker cfg × ℤ) :=
  if msg.ctrl.cmd = cmdOpen then brokerOpen s msg
  else if msg.ctrl.cmd = cmdClose then do
    let fd ← Prog.deref (slotOf cfg msg.ctrl.data)
    brokerClose s fd
  else if msg.ctrl.cmd = cmdSubscribe then brokerSubscribe s msg
  else if msg.ctrl.cmd = cmdUnsubscribe then brokerUnsubscribe s msg
  else if msg.ctrl.cmd = cmdPublish then brokerPublish s msg prio
  else if msg.ctrl.cmd = cmdIoctl then brokerIoctl s msg
  else return (s, 0)

/-- A round of the loop of `psmqd_broker_start`, with the `bytes` received at
    the priority `prio`. -/
def brokerStart (s : Broker cfg) (bytes : List UInt8) (prio : ℕ) : P cfg (Broker cfg) := do
  match ← brokerIntake cfg bytes with
  | none => return s
  | some msg =>
    let (s, _) ← brokerDispatch s msg prio
    return s

/-! ## Starting and stopping -/

/-- The loop of `psmqd_broker_init` opening the control queue: a few tries. -/
def brokerOpenCtrl (pc : PsmqdCfg) : ℕ → P cfg Mqd
  | 0 => return none
  | tries + 1 => do
    match ← mqOpen pc.brokerName ⟨.rdwr, true, true, pc.brokerMaxmsg⟩ with
    | .ok mq => return some mq
    | .error _ => brokerOpenCtrl pc tries

/-- `psmqd_broker_init`. -/
def brokerInit (pc : PsmqdCfg) (s : Broker cfg) : P cfg (Broker cfg × ℤ) := do
  let s := { s with clients := fun fd => { s.clients fd with mq := none } }
  if pc.removeQueue then
    let _ ← mqUnlink pc.brokerName
  let qctrl ← brokerOpenCtrl pc 10
  if qctrl = none then return ({ s with qctrl := qctrl }, -1)
  else return ({ s with qctrl := qctrl }, 0)

/-- The loop of `psmqd_broker_cleanup`, over the slots. -/
def cleanupClients : List (Slot cfg) → Broker cfg → P cfg (Broker cfg)
  | [], s => return s
  | fd :: fds, s => do
    if (s.clients fd).mq = none then cleanupClients fds s
    else
      let (s, _) ← brokerClose s fd
      cleanupClients fds s

/-- `psmqd_broker_cleanup`. -/
def brokerCleanup (pc : PsmqdCfg) (s : Broker cfg) : P cfg (Broker cfg × ℤ) := do
  let s ← cleanupClients (List.finRange cfg.maxClients) s
  let _ ← mqClose s.qctrl
  let _ ← mqUnlink pc.brokerName
  return (s, 0)

end Psmq
