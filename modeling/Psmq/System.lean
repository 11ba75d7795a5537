import Psmq.Lib.PrioQueue
import Psmq.Library
import Psmq.Broker.Run

/-!
# The system

The broker and its clients, on a system with message queues (`sysLts`). Every
process makes its calls one at a time, and their calls interleave in any way;
between two calls of the library, a client does nothing.

The state of the operating system (`Os`) is that of its queues. A queue is
created by a process, under a name; a process uses it through descriptors, of
its own. A message is put on a queue after those with at least its priority,
and the first one is received (`PrioQueue.enqueue`): nothing is lost or
duplicated. Any call may fail, and then it changes nothing (`OsStep`).

A client is a process making calls to the library (`Call`), as many as it
likes and in any order, about one `struct psmq`. The names of their queues are
their own (`QueueNames`). The broker starts, handles the messages on its
control queue, and stops, once.
-/

namespace Psmq

open CMem Prog

variable {cfg : Config}

/-! ## The operating system -/

/-- The processes. -/
inductive Pid
  | broker
  | client (i : ℕ)
  deriving DecidableEq

/-- A queue. -/
abbrev Qid := ℕ

/-- A message on a queue: its bytes and its priority. The sender, and the queue
    it receives on itself, are not known to the receiver. -/
structure Item where
  bytes : List UInt8
  prio : ℕ
  sender : Pid
  via : Option Qid
  deriving DecidableEq

/-- The operating system. -/
structure Os where
  /-- The queues open in each process, by descriptor. -/
  fds : Pid → ℕ → Option Qid
  names : CString → Option Qid
  items : Qid → List Item
  /-- How many messages a queue holds. -/
  room : Qid → ℕ
  /-- Who created a queue; `none` for the queues not created yet. -/
  creator : Qid → Option Pid

namespace Os

/-- No queue has been created yet. -/
def init : Os := ⟨fun _ _ => none, fun _ => none, fun _ => [], fun _ => 0, fun _ => none⟩

/-- The queue open in the process `p` with a descriptor. -/
def fd (os : Os) (p : Pid) (mq : Mqd) : Option Qid := mq.bind (os.fds p)

/-- Giving a descriptor of the process `p` to a queue, or to none. -/
def setFd (os : Os) (p : Pid) (d : ℕ) (q : Option Qid) : Os :=
  { os with fds := Function.update os.fds p (Function.update (os.fds p) d q) }

/-- Creating a queue. -/
def create (os : Os) (p : Pid) (name : CString) (q : Qid) (room : ℕ) : Os :=
  { os with
    names := Function.update os.names name (some q)
    items := Function.update os.items q []
    room := Function.update os.room q room
    creator := Function.update os.creator q (some p) }

/-- Removing a name. -/
def unlink (os : Os) (name : CString) : Os :=
  { os with names := Function.update os.names name none }

/-- Changing the messages on a queue. -/
def setItems (os : Os) (q : Qid) (l : List Item) : Os :=
  { os with items := Function.update os.items q l }

/-- Putting a message on a queue. -/
def put (os : Os) (q : Qid) (x : Item) : Os :=
  os.setItems q (PrioQueue.enqueue Item.prio x (os.items q))

end Os

/-- What a call of the process `p` may do, with its result. The descriptor 0,
    that of a cleared `struct psmq`, is open in every process, but not for a
    queue. -/
inductive OsStep (p : Pid) (os : Os) : (o : Op cfg) → Op.Res o → Os → Prop
  | openFail {name : CString} {flags : OpenFlags} {e : Errno} :
      OsStep p os (.mqOpen name flags) (.error e) os
  | opened {name : CString} {flags : OpenFlags} {d : ℕ} {q : Qid} : os.names name = some q →
      ¬(flags.creat = true ∧ flags.excl = true) → 0 < d → os.fds p d = none →
      OsStep p os (.mqOpen name flags) (.ok d) (os.setFd p d (some q))
  | created {name : CString} {flags : OpenFlags} {d : ℕ} {q : Qid} : os.names name = none →
      flags.creat = true → os.creator q = none → 0 < d → os.fds p d = none →
      OsStep p os (.mqOpen name flags) (.ok d)
        ((os.create p name q flags.maxmsg.toNat).setFd p d (some q))
  | closed {mq : Mqd} {r : Option Errno} :
      OsStep p os (.mqClose mq) r (mq.elim os fun d => os.setFd p d none)
  | unlinkFail {name : CString} {e : Errno} : OsStep p os (.mqUnlink name) (some e) os
  | unlinked {name : CString} {r : Option Errno} : OsStep p os (.mqUnlink name) r (os.unlink name)
  | sendFail {src mq : Mqd} {msg : PsmqMsg cfg} {len prio : ℕ} {e : Errno} :
      OsStep p os (.mqSend src mq msg len prio) (.error e) os
  | sent {src mq : Mqd} {msg : PsmqMsg cfg} {len prio : ℕ} {q : Qid} : os.fd p mq = some q →
      (os.items q).length < os.room q →
      OsStep p os (.mqSend src mq msg len prio) (.ok ())
        (os.put q ⟨msg.toBytes.take len, prio, p, os.fd p src⟩)
  | timedsendFail {slot : Option (Slot cfg)} {mq : Mqd} {msg : PsmqMsg cfg} {len prio : ℕ}
      {timeout : UInt16} : OsStep p os (.mqTimedsend slot mq msg len prio timeout) false os
  | timedsent {slot : Option (Slot cfg)} {mq : Mqd} {msg : PsmqMsg cfg} {len prio : ℕ}
      {timeout : UInt16} {q : Qid} : os.fd p mq = some q → (os.items q).length < os.room q →
      OsStep p os (.mqTimedsend slot mq msg len prio timeout) true
        (os.put q ⟨msg.toBytes.take len, prio, p, none⟩)
  | receiveFail {mq : Mqd} {e : Errno} : OsStep p os (.mqReceive mq) (.error e) os
  | received {mq : Mqd} {q : Qid} {x : Item} {l : List Item} : os.fd p mq = some q →
      os.items q = x :: l →
      OsStep p os (.mqReceive mq) (.ok (x.bytes, x.prio)) (os.setItems q l)
  | timedreceiveFail {mq : Mqd} {ms : ℕ} {e : Errno} :
      OsStep p os (.mqTimedreceive mq ms) (.error e) os
  | timedreceived {mq : Mqd} {ms : ℕ} {q : Qid} {x : Item} {l : List Item} :
      os.fd p mq = some q → os.items q = x :: l →
      OsStep p os (.mqTimedreceive mq ms) (.ok (x.bytes, x.prio)) (os.setItems q l)
  | malloc {size : ℕ} {ok : Bool} : OsStep p os (.malloc size) ok os

/-! ## Clients -/

/-- The `struct psmq` is that of a connection: it has two queues. -/
def PsmqObj.Open (psmq : PsmqObj) : Prop :=
  psmq.qpub ≠ none ∧ psmq.qpub ≠ some 0 ∧ psmq.qsub ≠ psmq.qpub

/-- A call of a client to the library. The messages received are put in a
    struct of the client, that holds `msg` before. -/
inductive Call (cfg : Config)
  | init (fuel : ℕ) (brokername : Option CString) (mqname : CString) (maxmsg : ℤ)
  | subscribe (topic : Option CString)
  | unsubscribe (topic : Option CString)
  | publish (topic : Option CString) (payload : Option Ptr) (paylen prio : ℕ)
  | ioctl (val : UInt16)
  | receive (msg : PsmqMsg cfg)
  | timedreceive (msg : PsmqMsg cfg) (ms : ℕ)
  | cleanup

/-- What a call does, with the `struct psmq` it leaves. -/
def Call.prog (psmq : PsmqObj) : Call cfg → P cfg PsmqObj
  | init fuel brokername mqname maxmsg => do
    return (← psmqInitNamed fuel psmq brokername (some mqname) maxmsg).1
  | subscribe topic => do
    let _ ← psmqSubscribe psmq topic
    return psmq
  | unsubscribe topic => do
    let _ ← psmqUnsubscribe psmq topic
    return psmq
  | publish topic payload paylen prio => do
    let _ ← psmqPublishPrio psmq topic payload paylen prio
    return psmq
  | ioctl val => do
    let _ ← psmqIoctlReplyTimeout psmq val
    return psmq
  | receive msg => do
    let _ ← psmqReceivePrio psmq msg
    return psmq
  | timedreceive msg ms => do
    let _ ← psmqTimedreceivePrioMs psmq msg ms
    return psmq
  | cleanup => do
    return (← psmqCleanup psmq).1

/-- A client connects to the broker, with a queue name of its own. -/
def Call.Allowed (pc : PsmqdCfg) (owner : CString → Option ℕ) (i : ℕ) : Call cfg → Prop
  | init _ brokername mqname _ =>
    brokername.getD psmqdDefaultQname = pc.brokerName ∧ owner mqname = some i
  | _ => True

/-- The calls that neither connect nor disconnect a client. -/
def Call.Steady : Call cfg → Prop
  | init _ _ _ _ => False
  | cleanup => False
  | _ => True

/-- What a client is doing: nothing, with a `struct psmq`; or a call, with the
    struct as it was before, the system calls made, and the rest of the call. -/
inductive ClientProc (cfg : Config)
  | idle (psmq : PsmqObj)
  | busy (call : Call cfg) (psmq : PsmqObj) (tr : Trace cfg) (p : P cfg PsmqObj)

/-- The client is connected, with the descriptor `fd`: it has the `struct psmq`
    of a connection, and has not begun to disconnect, or to connect again. -/
def ClientProc.Connected (fd : UInt8) : ClientProc cfg → Prop
  | idle psmq => psmq.Open ∧ psmq.fd = fd
  | busy c psmq tr _ => psmq.Open ∧ psmq.fd = fd ∧ (c.Steady ∨ tr = [])

/-! ## The broker -/

/-- What the broker is doing: starting, handling a message in the memory `s`,
    or stopping. -/
inductive Job (cfg : Config)
  | start
  | handle (s : Broker cfg) (x : Item)
  | stop

/-- What a job does, with the memory it leaves. -/
def Job.prog (pc : PsmqdCfg) (s : Broker cfg) : Job cfg → P cfg (Broker cfg)
  | start => do return (← brokerInit pc s).1
  | handle _ x => brokerStart s x.bytes x.prio
  | stop => do return (← brokerCleanup pc s).1

/-- The process of the broker: it waits for a message, it does a job, with the
    system calls made and the rest of the job, or it has stopped. -/
inductive BrokerProc (cfg : Config)
  | idle (s : Broker cfg)
  | busy (job : Job cfg) (tr : Trace cfg) (p : P cfg (Broker cfg))
  | off

/-- The broker after a job, in the memory `s`. -/
def Job.done (s : Broker cfg) : Job cfg → BrokerProc cfg
  | stop => .off
  | _ => .idle s

/-! ## Runs of the system -/

/-- A state of the system. -/
structure Sys (cfg : Config) where
  os : Os
  broker : BrokerProc cfg
  clients : ℕ → ClientProc cfg

/-- The system with the client `i` doing `c`. -/
def Sys.setClient (S : Sys cfg) (i : ℕ) (c : ClientProc cfg) : Sys cfg :=
  { S with clients := Function.update S.clients i c }

theorem Sys.setClient_self {S : Sys cfg} {i : ℕ} {c : ClientProc cfg} :
    (S.setClient i c).clients i = c := Function.update_self ..

theorem Sys.setClient_of_ne {S : Sys cfg} {i j : ℕ} {c : ClientProc cfg} (h : j ≠ i) :
    (S.setClient i c).clients j = S.clients j := Function.update_of_ne h ..

/-- The steps of the system. -/
inductive SysLabel (cfg : Config)
  | call (i : ℕ) (call : Call cfg)
  | clientOp (i : ℕ) (e : Event (Op cfg) Op.Res)
  | return (i : ℕ)
  | take (x : Item)
  | stop
  | brokerOp (e : Event (Op cfg) Op.Res)
  | finish

/-- The names of the queues. No two clients use the same one, and none uses that
    of the broker. -/
structure QueueNames (pc : PsmqdCfg) where
  /-- The client a name belongs to. -/
  owner : CString → Option ℕ
  owner_brokerName : owner pc.brokerName = none

/-- The steps of the system. The broker waiting for a message takes the first
    one on its control queue, or is told to stop. -/
inductive SysStep (pc : PsmqdCfg) (names : QueueNames pc) (S : Sys cfg) :
    SysLabel cfg → Sys cfg → Prop
  | call {i : ℕ} {call : Call cfg} {psmq : PsmqObj} : S.clients i = .idle psmq →
      call.Allowed pc names.owner i →
      SysStep pc names S (.call i call) (S.setClient i (.busy call psmq [] (call.prog psmq)))
  | clientOp {i : ℕ} {call : Call cfg} {psmq : PsmqObj} {tr : Trace cfg} {o : Op cfg}
      {k : Op.Res o → P cfg PsmqObj} {r : Op.Res o} {os' : Os} :
      S.clients i = .busy call psmq tr (.call o k) → OsStep (.client i) S.os o r os' →
      SysStep pc names S (.clientOp i ⟨o, r⟩)
        { S.setClient i (.busy call psmq (tr ++ [⟨o, r⟩]) (k r)) with os := os' }
  | return {i : ℕ} {call : Call cfg} {psmq psmq' : PsmqObj} {tr : Trace cfg} :
      S.clients i = .busy call psmq tr (.ret psmq') →
      SysStep pc names S (.return i) (S.setClient i (.idle psmq'))
  | take {s : Broker cfg} {q : Qid} {x : Item} {l : List Item} : S.broker = .idle s →
      S.os.fd .broker s.qctrl = some q → S.os.items q = x :: l →
      SysStep pc names S (.take x)
        { S with os := S.os.setItems q l
                 broker := .busy (.handle s x) [] ((Job.handle s x).prog pc s) }
  | stop {s : Broker cfg} : S.broker = .idle s →
      SysStep pc names S .stop { S with broker := .busy .stop [] (Job.stop.prog pc s) }
  | brokerOp {job : Job cfg} {tr : Trace cfg} {o : Op cfg} {k : Op.Res o → P cfg (Broker cfg)}
      {r : Op.Res o} {os' : Os} : S.broker = .busy job tr (.call o k) →
      OsStep .broker S.os o r os' →
      SysStep pc names S (.brokerOp ⟨o, r⟩)
        { S with os := os', broker := .busy job (tr ++ [⟨o, r⟩]) (k r) }
  | finish {job : Job cfg} {tr : Trace cfg} {s : Broker cfg} :
      S.broker = .busy job tr (.ret s) →
      SysStep pc names S .finish { S with broker := job.done s }

/-- At the start there are no queues, the broker starts in a new process, and no
    client has called anything. -/
def Sys.start (cfg : Config) (pc : PsmqdCfg) : Sys cfg :=
  ⟨.init, .busy .start [] (Job.start.prog pc (staticBroker cfg)), fun _ => .idle .zero⟩

/-- The system. -/
def sysLts (cfg : Config) (pc : PsmqdCfg) (names : QueueNames pc) :
    Lts (Sys cfg) (SysLabel cfg) where
  init S := S = .start cfg pc
  step := SysStep pc names

variable {pc : PsmqdCfg} {names : QueueNames pc} {S S' : Sys cfg}

/-! ## Requests handled -/

/-- The command of a request. -/
abbrev Item.cmd (cfg : Config) (x : Item) : UInt8 := (received cfg x.bytes).ctrl.cmd

/-- The descriptor carried by a request. -/
abbrev Item.data (cfg : Config) (x : Item) : UInt8 := (received cfg x.bytes).ctrl.data

/-- The slot `k` holds a queue of the client `i`. -/
def Sys.Holds (S : Sys cfg) (s : Broker cfg) (k : Slot cfg) (i : ℕ) : Prop :=
  (S.os.fd .broker (s.clients k).mq).bind S.os.creator = some (.client i)

instance (S : Sys cfg) (s : Broker cfg) (k : Slot cfg) (i : ℕ) : Decidable (S.Holds s k i) :=
  inferInstanceAs (Decidable (_ = _))

/-- The broker handling a message is in the middle of an execution of
    `psmqd_broker_start`. -/
def BrokerProc.Executes : BrokerProc cfg → Prop
  | busy (.handle s x) tr p =>
    ∀ tr' s', Exec p tr' s' → Exec (brokerStart s x.bytes x.prio) (tr ++ tr') s'
  | _ => True

/-- A call of the broker continues the execution. -/
theorem BrokerProc.Executes.call {job : Job cfg} {tr : Trace cfg} {o : Op cfg}
    {k : Op.Res o → P cfg (Broker cfg)} (h : Executes (busy job tr (.call o k))) (r : Op.Res o) :
    Executes (busy job (tr ++ [⟨o, r⟩]) (k r)) := by
  cases job with
  | handle s x =>
    intro tr' s' hk
    rw [List.append_assoc]
    exact h _ _ (.call hk)
  | _ => trivial

theorem SysStep.executes {l : SysLabel cfg} (h : S.broker.Executes)
    (hst : SysStep pc names S l S') : S'.broker.Executes := by
  cases hst with
  | call => exact h
  | clientOp => exact h
  | «return» => exact h
  | take => exact fun _ _ h => h
  | stop => trivial
  | brokerOp hb =>
    rw [hb] at h
    exact h.call _
  | @finish job => cases job <;> trivial

/-- The broker takes the message `x` in the state `S`, with the memory `s`, and has
    handled it in `S'`, with the calls `tr`, and `s'` in memory. -/
structure Handled (pc : PsmqdCfg) (names : QueueNames pc) (S : Sys cfg) (s : Broker cfg) (x : Item)
    (tr : Trace cfg) (s' : Broker cfg) (S' : Sys cfg) : Prop where
  idle : S.broker = .idle s
  run : ∃ S₁ ls, (sysLts cfg pc names).step S (.take x) S₁ ∧ (sysLts cfg pc names).Run S₁ ls S' ∧
    .finish ∉ ls
  busy : S'.broker = .busy (.handle s x) tr (.ret s')

variable {s s' : Broker cfg} {x : Item} {tr : Trace cfg}

theorem Handled.exec (h : Handled pc names S s x tr s' S') :
    Exec (brokerStart s x.bytes x.prio) tr s' := by
  obtain ⟨S₁, ls, hst, hrun, -⟩ := h.run
  have hS₁ : S₁.broker.Executes := by
    cases hst with
    | take => exact fun _ _ h => h
  have hS' : S'.broker.Executes :=
    hrun.invariant (P := fun S => S.broker.Executes) (fun _ _ _ h hst => SysStep.executes h hst) hS₁
  rw [h.busy] at hS'
  simpa using hS' [] s' (.ret s')

end Psmq
