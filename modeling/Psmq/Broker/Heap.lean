import Psmq.Lib.Lockstep
import Psmq.Topic.Frames
import Psmq.Broker.Run

/-!
# The broker and its heap

The broker once more, with its memory as it is: the list of the topics of a
client is a pointer to its first node, and the nodes of all the clients are on
one heap (`NodeBroker`). The functions of `broker.c` are given with the calls
they make to `topic-list.c`, on this heap; those that have nothing to do with
it are the ones of `Psmq.Broker`, on this memory.

`malloc` may fail. If it does not, it returns a `block` that is not in use: a
request is handled with the block it is given if it asks for one, and it never
asks for two.
-/

namespace Psmq

open CMem LinkedList

variable {cfg : Config}

/-! ## The memory of the broker -/

/-- `struct client`, with the pointer to the first node of its list of topics. -/
structure NodeClient where
  mq : Mqd
  topics : Option Addr
  missedPubs : UInt8
  replyTimeout : UInt16

/-- The static variables of `broker.c`, and the heap. -/
structure NodeBroker (cfg : Config) where
  qctrl : Mqd
  clients : Slot cfg → NodeClient
  heap : Heap CString
  /-- The number of nodes allocated so far. A loop along more nodes than that
      goes round in circles. -/
  allocs : ℕ

namespace NodeBroker

/-- The broker with the client `c` in the slot `fd`. -/
def set (s : NodeBroker cfg) (fd : Slot cfg) (c : NodeClient) : NodeBroker cfg :=
  { s with clients := Function.update s.clients fd c }

/-- Changing the client in a slot. -/
def modify (s : NodeBroker cfg) (fd : Slot cfg) (f : NodeClient → NodeClient) : NodeBroker cfg :=
  s.set fd (f (s.clients fd))

/-- The list of the topics of a client, as `topic-list.c` is given it. -/
def topicList (s : NodeBroker cfg) (fd : Slot cfg) : TopicList := ⟨(s.clients fd).topics, s.heap⟩

/-- The broker once this list is `l`. -/
def setTopicList (s : NodeBroker cfg) (fd : Slot cfg) (l : TopicList) : NodeBroker cfg :=
  { s.modify fd fun c => { c with topics := l.head } with heap := l.heap }

@[simp] theorem set_qctrl (s : NodeBroker cfg) (fd : Slot cfg) (c : NodeClient) :
    (s.set fd c).qctrl = s.qctrl := rfl

@[simp] theorem set_clients_self (s : NodeBroker cfg) (fd : Slot cfg) (c : NodeClient) :
    (s.set fd c).clients fd = c := Function.update_self _ _ _

theorem set_clients_of_ne (s : NodeBroker cfg) {fd k : Slot cfg} (h : k ≠ fd) (c : NodeClient) :
    (s.set fd c).clients k = s.clients k := Function.update_of_ne h _ _

@[simp] theorem modify_eq_set (s : NodeBroker cfg) (fd : Slot cfg) (f : NodeClient → NodeClient) :
    s.modify fd f = s.set fd (f (s.clients fd)) := rfl

theorem setTopicList_self (s : NodeBroker cfg) (fd : Slot cfg) :
    s.setTopicList fd (s.topicList fd) = s := by
  simp [setTopicList, topicList, set]

end NodeBroker

/-- The memory of a process before `psmqd_broker_init`. -/
def staticNodes (cfg : Config) : NodeBroker cfg :=
  ⟨some 0, fun _ => ⟨some 0, none, 0, 0⟩, .empty, 0⟩

namespace Nodes

/-! ## Replies -/

/-- `psmqd_broker_get_free_client`. -/
def brokerGetFreeClient (s : NodeBroker cfg) : UInt8 :=
  match (List.finRange cfg.maxClients).find? fun fd => (s.clients fd).mq = none with
  | some fd => fdOf fd
  | none => UInt8.ofNat ucharMax

/-- `psmqd_broker_reply`. -/
def brokerReply (s : NodeBroker cfg) (fd : Slot cfg) (cmd data : UInt8) (topic : Option CString)
    (payload : Option Ptr) (paylen prio : ℕ) : P cfg (NodeBroker cfg × ℤ) := do
  if ← brokerReplyMq (some fd) (s.clients fd).mq cmd data topic payload paylen prio
      (s.clients fd).replyTimeout then
    return (s.modify fd fun c => { c with missedPubs := 0 }, 0)
  else
    return (s.modify fd fun c => { c with missedPubs := c.missedPubs + 1 }, -1)

/-- `psmqd_broker_reply_ctrl`. -/
def brokerReplyCtrl (s : NodeBroker cfg) (fd : Slot cfg) (cmd data : UInt8)
    (extra : Option CString) : P cfg (NodeBroker cfg × ℤ) :=
  brokerReply s fd cmd data extra none 0 0

/-! ## Requests -/

/-- `psmqd_broker_open`. -/
def brokerOpen (s : NodeBroker cfg) (msg : PsmqMsg cfg) : P cfg (NodeBroker cfg × ℤ) := do
  let qname ← Prog.deref (str msg.data.bytes)
  match ← mqOpen qname ⟨.rdwr, false, false, 0⟩ with
  | .error _ => return (s, -1)
  | .ok qc =>
    let fd := brokerGetFreeClient s
    if fd = UInt8.ofNat ucharMax then
      let _ ← brokerReplyMq none (some qc) cmdOpen (UInt8.ofNat ENOSPC) none none 0 0 0
      let _ ← mqClose (some qc)
      return (s, -1)
    else
      let k ← Prog.deref (slotOf cfg fd)
      let s := s.modify k fun c => { c with mq := some qc }
      if ← brokerReplyMq (some k) (some qc) cmdOpen 0 none (some [fd]) 1 0 0 then
        return (s, 0)
      else
        let _ ← mqClose (some qc)
        return (s.modify k fun c => { c with mq := none }, -1)

/-- `psmqd_tl_add`, on the list of a client. -/
def tlAdd (block : Addr) (s : NodeBroker cfg) (fd : Slot cfg) (topic : CString) :
    P cfg (NodeBroker cfg × Except Errno Unit) := do
  let ok ← malloc (2 * (cfg.sizeWidth / 8) + topic.length + 1)
  let (rc, l) ← Prog.ofExcept
    (psmqdTlAdd (s.topicList fd) (some topic) (if ok then some block else none))
  return ({ s.setTopicList fd l with allocs := s.allocs + ok.toNat }, rc)

/-- `psmqd_broker_subscribe`. -/
def brokerSubscribe (block : Addr) (s : NodeBroker cfg) (msg : PsmqMsg cfg) :
    P cfg (NodeBroker cfg × ℤ) := do
  let fd ← Prog.deref (slotOf cfg msg.ctrl.data)
  let stopic ← Prog.deref (str msg.data.bytes)
  let err ← Prog.deref (subscribeErr msg stopic.length)
  if err ≠ 0 then
    let (s, _) ← brokerReplyCtrl s fd cmdSubscribe (UInt8.ofNat err) (some stopic)
    return (s, -1)
  else
    let (s, rc) ← tlAdd block s fd stopic
    match rc with
    | .error errno =>
      let (s, _) ← brokerReplyCtrl s fd cmdSubscribe (clampErrno errno) (some stopic)
      return (s, -1)
    | .ok () =>
      let (s, _) ← brokerReplyCtrl s fd cmdSubscribe 0 (some stopic)
      return (s, 0)

/-- `psmqd_broker_unsubscribe`. -/
def brokerUnsubscribe (s : NodeBroker cfg) (msg : PsmqMsg cfg) : P cfg (NodeBroker cfg × ℤ) := do
  let fd ← Prog.deref (slotOf cfg msg.ctrl.data)
  let utopic ← Prog.deref (str msg.data.bytes)
  let (rc, l) ← Prog.ofExcept (psmqdTlDelete (s.allocs + 1) (s.topicList fd) (some utopic))
  let s := s.setTopicList fd l
  match rc with
  | .error errno =>
    let (s, _) ← brokerReplyCtrl s fd cmdUnsubscribe (clampErrno errno) (some utopic)
    return (s, -1)
  | .ok () =>
    let (s, _) ← brokerReplyCtrl s fd cmdUnsubscribe 0 (some utopic)
    return (s, 0)

/-- `psmqd_broker_close`. -/
def brokerClose (s : NodeBroker cfg) (fd : Slot cfg) : P cfg (NodeBroker cfg × ℤ) := do
  let s := s.modify fd fun c => { c with missedPubs := 0 }
  let (s, _) ← brokerReplyCtrl s fd cmdClose 0 none
  let (_, heap) ← Prog.ofExcept (psmqdTlDestroy (s.allocs + 1) (s.topicList fd))
  let s := { s with heap := heap }
  let _ ← mqClose (s.clients fd).mq
  return (s.modify fd fun c => { c with mq := none, topics := none }, 0)

/-- The inner loop of `psmqd_broker_publish`, from the `node` on. Going on to
    the next node reads the node again, after what was done for it. -/
def publishTopics (topic : CString) (payload : Ptr) (paylen prio : ℕ) (fd : Slot cfg) :
    ℕ → Option Addr → NodeBroker cfg → P cfg (NodeBroker cfg)
  | 0, _, _ => .fault .fuel
  | _ + 1, none, s => return s
  | fuel + 1, some a, s => do
    let node ← Prog.ofExcept (s.heap.load (some a))
    if ← Prog.deref (brokerTopicMatches cfg topic node.val) then
      let (s, rc) ← brokerReply s fd cmdPublish 0 (some topic) (some payload) paylen prio
      if rc ≠ 0 then
        if maxMissedPubs ≤ (s.clients fd).missedPubs then
          let _ ← mqTimedreceive (s.clients fd).mq 0
          let (s, _) ← brokerClose s fd
          -- The list has been freed: its nodes are not read any more.
          return s
        else
          let node ← Prog.ofExcept (s.heap.load (some a))
          publishTopics topic payload paylen prio fd fuel node.next s
      else return s
    else
      let node ← Prog.ofExcept (s.heap.load (some a))
      publishTopics topic payload paylen prio fd fuel node.next s

/-- The outer loop of `psmqd_broker_publish`, over the slots. -/
def publishClients (topic : CString) (payload : Ptr) (paylen prio : ℕ) :
    List (Slot cfg) → NodeBroker cfg → P cfg (NodeBroker cfg)
  | [], s => return s
  | fd :: fds, s => do
    if (s.clients fd).mq = none then publishClients topic payload paylen prio fds s
    else
      let s ← publishTopics topic payload paylen prio fd (s.allocs + 1) (s.clients fd).topics s
      publishClients topic payload paylen prio fds s

/-- `psmqd_broker_publish`. -/
def brokerPublish (s : NodeBroker cfg) (msg : PsmqMsg cfg) (prio : ℕ) :
    P cfg (NodeBroker cfg × ℤ) := do
  let topic ← Prog.deref (str msg.data.bytes)
  let payload := msg.data.bytes.drop (topic.length + 1)
  let s ← publishClients topic payload msg.paylen.toNat prio (List.finRange cfg.maxClients) s
  return (s, 0)

/-- `psmqd_broker_reply_ioctl`. -/
def brokerReplyIoctl (s : NodeBroker cfg) (fd : Slot cfg) (err req : UInt8) (data : Option Ptr)
    (datalen : ℕ) : P cfg (NodeBroker cfg) := do
  let buf ← Prog.deref (ioctlBuf req data datalen)
  let (s, _) ← brokerReply s fd cmdIoctl err none (some buf) (1 + datalen) 0
  return s

/-- `psmqd_broker_ioctl`. -/
def brokerIoctl (s : NodeBroker cfg) (msg : PsmqMsg cfg) : P cfg (NodeBroker cfg × ℤ) := do
  let fd ← Prog.deref (slotOf cfg msg.ctrl.data)
  let req ← Prog.deref msg.data.bytes[0]?
  if msg.paylen < 1 then
    let s ← brokerReplyIoctl s fd (UInt8.ofNat EINVAL) 0 none 0
    return (s, -1)
  else
    let dlen := (msg.paylen - 1).toNat
    let data := msg.data.bytes.drop 1
    if req = ioctlReplyTimeout then
      if dlen ≠ 2 then
        let s ← brokerReplyIoctl s fd (UInt8.ofNat EINVAL) req (some data) dlen
        return (s, -1)
      else
        let timeout ← Prog.deref (loadU16 cfg.bigEndian data)
        let s := s.modify fd fun c => { c with replyTimeout := timeout }
        let s ← brokerReplyIoctl s fd 0 req
          (some (storeU16 cfg.bigEndian (s.clients fd).replyTimeout)) dlen
        return (s, 0)
    else
      let s ← brokerReplyIoctl s fd (UInt8.ofNat EINVAL) req none 0
      return (s, -1)

/-! ## The main loop, starting and stopping -/

/-- The handler of a request, by its command. -/
def brokerDispatch (block : Addr) (s : NodeBroker cfg) (msg : PsmqMsg cfg) (prio : ℕ) :
    P cfg (NodeBroker cfg × ℤ) :=
  if msg.ctrl.cmd = cmdOpen then brokerOpen s msg
  else if msg.ctrl.cmd = cmdClose then do
    let fd ← Prog.deref (slotOf cfg msg.ctrl.data)
    brokerClose s fd
  else if msg.ctrl.cmd = cmdSubscribe then brokerSubscribe block s msg
  else if msg.ctrl.cmd = cmdUnsubscribe then brokerUnsubscribe s msg
  else if msg.ctrl.cmd = cmdPublish then brokerPublish s msg prio
  else if msg.ctrl.cmd = cmdIoctl then brokerIoctl s msg
  else return (s, 0)

/-- A round of the loop of `psmqd_broker_start`. -/
def brokerStart (block : Addr) (s : NodeBroker cfg) (bytes : List UInt8) (prio : ℕ) :
    P cfg (NodeBroker cfg) := do
  match ← brokerIntake cfg bytes with
  | none => return s
  | some msg =>
    let (s, _) ← brokerDispatch block s msg prio
    return s

/-- `psmqd_broker_init`. The lists of topics are left as they are. -/
def brokerInit (pc : PsmqdCfg) (s : NodeBroker cfg) : P cfg (NodeBroker cfg × ℤ) := do
  let s := { s with clients := fun fd => { s.clients fd with mq := none } }
  if pc.removeQueue then
    let _ ← mqUnlink pc.brokerName
  let qctrl ← brokerOpenCtrl pc 10
  if qctrl = none then return ({ s with qctrl := qctrl }, -1)
  else return ({ s with qctrl := qctrl }, 0)

/-- The loop of `psmqd_broker_cleanup`, over the slots. -/
def cleanupClients : List (Slot cfg) → NodeBroker cfg → P cfg (NodeBroker cfg)
  | [], s => return s
  | fd :: fds, s => do
    if (s.clients fd).mq = none then cleanupClients fds s
    else
      let (s, _) ← brokerClose s fd
      cleanupClients fds s

/-- `psmqd_broker_cleanup`. -/
def brokerCleanup (pc : PsmqdCfg) (s : NodeBroker cfg) : P cfg (NodeBroker cfg × ℤ) := do
  let s ← cleanupClients (List.finRange cfg.maxClients) s
  let _ ← mqClose s.qctrl
  let _ ← mqUnlink pc.brokerName
  return (s, 0)

end Nodes

/-! ## The transition system -/

/-- The steps of the broker, as `BrokerStep`. The block a request may be given
    is any one that is not in use. -/
inductive NodeStep (pc : PsmqdCfg) (s : NodeBroker cfg) :
    BrokerLabel cfg → NodeBroker cfg → Prop
  | request {bytes : List UInt8} {prio : ℕ} {tr : Trace cfg} {block : Addr} {s' : NodeBroker cfg} :
      s.qctrl ≠ none → bytes.length ≤ sizeofMsg cfg → s.heap.cells block = none →
      Prog.Exec (Nodes.brokerStart block s bytes prio) tr s' →
      NodeStep pc s (.request bytes prio tr) s'
  | restart {tr₁ tr₂ : Trace cfg} {x y : NodeBroker cfg × ℤ} :
      Prog.Exec (Nodes.brokerCleanup pc s) tr₁ x → Prog.Exec (Nodes.brokerInit pc x.1) tr₂ y →
      NodeStep pc s (.restart (tr₁ ++ tr₂)) y.1

/-- The broker and its heap: it starts with `psmqd_broker_init`, in a new process. -/
def nodeLts (cfg : Config) (pc : PsmqdCfg) : Lts (NodeBroker cfg) (BrokerLabel cfg) where
  init s := ∃ tr x, Prog.Exec (Nodes.brokerInit pc (staticNodes cfg)) tr x ∧ x.1 = s
  step := NodeStep pc

end Psmq
