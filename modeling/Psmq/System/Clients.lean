import Psmq.Lib.Protocol
import Psmq.System
import Psmq.Wire

/-!
# What clients do

What a client of the library does to be connected, and while it is, as a
protocol (`clientProtocol`): it creates its queue, opens the control queue of
the broker, asks to be let in, and is connected once it reads an offer, the
reply of the broker giving it a descriptor (`offerOf`). From then on, all it
sends carries this descriptor, up to a close, that is sent at the lowest
priority and comes last.

All the calls of the library follow this protocol (`Call.follows`).
-/

namespace Psmq

open CMem Prog

variable {cfg : Config}

/-! ## The protocol -/

/-- The descriptor offered to a client by a message, if it is the reply to an
    open request that has succeeded. -/
def offerOf (cfg : Config) (bytes : List UInt8) : Option UInt8 :=
  if (received cfg bytes).ctrl = ⟨cmdOpen, 0⟩ ∧ (received cfg bytes).paylen = 1 then
    (received cfg bytes).data.bytes[0]?
  else none

/-- The error a reply to an open request tells: a refusal is told by its one
    byte of data, and a reply without a descriptor is no reply, unless there is
    no slot left. -/
def refusal (msg : PsmqMsg cfg) : Option Errno :=
  if msg.ctrl.cmd ≠ cmdOpen then none
  else if msg.paylen = 0 ∧ msg.ctrl.data.toNat = ENOSPC then some ENOSPC
  else if msg.paylen ≠ 1 then some EBADMSG
  else if msg.ctrl.data = 0 then none
  else some msg.ctrl.data.toNat

theorem offerOf_of_ne_open {bytes : List UInt8} (h : (received cfg bytes).ctrl.cmd ≠ cmdOpen) :
    offerOf cfg bytes = none :=
  if_neg fun hoffer => h (congrArg Ctrl.cmd hoffer.1)

/-- A refusal is a reply to an open request, that offers nothing. -/
theorem refusal_eq_some {bytes : List UInt8} {e : Errno}
    (h : refusal (received cfg bytes) = some e) :
    (received cfg bytes).ctrl.cmd = cmdOpen ∧ offerOf cfg bytes = none ∧ e ≠ 0 := by
  rw [refusal] at h
  split_ifs at h with hcmd hfull hlen hdata
  · obtain rfl := Option.some.inj h
    refine ⟨not_not.1 hcmd, if_neg fun hoffer => ?_, by decide⟩
    rw [hfull.1] at hoffer
    exact absurd hoffer.2 (by decide)
  · obtain rfl := Option.some.inj h
    exact ⟨not_not.1 hcmd, if_neg fun hoffer => hlen hoffer.2, by decide⟩
  · obtain rfl := Option.some.inj h
    exact ⟨not_not.1 hcmd, if_neg fun hoffer => hdata (congrArg Ctrl.data hoffer.1),
      fun h0 => hdata (UInt8.toNat_inj.1 h0)⟩

/-- How far a client is from being connected, with its descriptors. -/
inductive ClientPhase
  | out
  /-- The client has created its queue. -/
  | opened (qsub : ℕ)
  /-- The client has opened the control queue. -/
  | opening (qsub qpub : ℕ)
  /-- The client has read an offer. -/
  | connected (qsub qpub : ℕ) (fd : UInt8)

namespace ClientPhase

/-- The queue the client receives on. -/
def qsub : ClientPhase → Mqd
  | out => none
  | opened qsub => some qsub
  | opening qsub _ => some qsub
  | connected qsub _ _ => some qsub

/-- The client is not connected. -/
def Disconnected : ClientPhase → Prop
  | connected _ _ _ => False
  | _ => True

/-- Opening a queue: its own one if it is created. -/
def onOpen (creat : Bool) (d : ℕ) : ClientPhase → ClientPhase
  | opened qsub => if creat then opened d else opening qsub d
  | φ => if creat then opened d else φ

/-- Sending a command. -/
def onSend (cmd : UInt8) : ClientPhase → ClientPhase
  | connected qsub qpub fd => if cmd = cmdClose then out else connected qsub qpub fd
  | φ => φ

/-- Receiving an offer, or something else. -/
def onReceive (offer : Option UInt8) : ClientPhase → ClientPhase
  | opening qsub qpub => offer.elim (opening qsub qpub) (connected qsub qpub)
  | φ => φ

end ClientPhase

variable (pc : PsmqdCfg) (owner : CString → Option ℕ) (i : ℕ)

/-- What a client sends: an open request, naming its queue, or a request
    carrying its descriptor. -/
def ClientPhase.MaySend (src mq : Mqd) (m : PsmqMsg cfg) (prio : ℕ) : ClientPhase → Prop
  | opening _ qpub => mq = some qpub ∧ m.ctrl.cmd = cmdOpen ∧
      ∃ name, str m.data.bytes = some name ∧ owner name = some i
  | connected qsub qpub fd => mq = some qpub ∧ src = some qsub ∧ m.ctrl.cmd ≠ cmdOpen ∧
      m.ctrl.data = fd ∧ (m.ctrl.cmd = cmdClose → prio = 0)
  | _ => False

/-- The calls of a client. One that is not connected may try to use the
    descriptor 0, that is not open for a queue. -/
def clientPre (φ : ClientPhase) : Op cfg → Prop
  | .mqOpen name flags => (name = pc.brokerName ∧ flags.creat = false) ∨
      (owner name = some i ∧ flags.creat = true)
  | .mqUnlink name => owner name = some i
  | .mqClose _ => φ.Disconnected
  | .mqSend src mq msg len prio => mq = some 0 ∨
      φ.MaySend owner i src mq (received cfg (msg.toBytes.take len)) prio
  | .mqReceive mq => mq = none ∨ mq = some 0 ∨ mq = φ.qsub
  | .mqTimedreceive mq _ => mq = none ∨ mq = some 0 ∨ mq = φ.qsub
  | _ => False

/-- The calls that neither connect nor disconnect a client. -/
def Steady : Op cfg → Prop
  | .mqSend _ _ msg len _ => (received cfg (msg.toBytes.take len)).ctrl.cmd ≠ cmdClose
  | .mqReceive _ => True
  | .mqTimedreceive _ _ => True
  | _ => False

/-- A queue is open with a descriptor that is not in use. -/
def clientMay (φ : ClientPhase) : (o : Op cfg) → Op.Res o → Prop
  | .mqOpen _ _, .ok d => 0 < d ∧ φ.qsub ≠ some d
  | _, _ => True

def clientNext (φ : ClientPhase) : (o : Op cfg) → Op.Res o → ClientPhase
  | .mqOpen _ flags, .ok d => φ.onOpen flags.creat d
  | .mqUnlink _, _ => .out
  | .mqClose _, _ => .out
  | .mqSend _ _ msg len _, _ => φ.onSend (received cfg (msg.toBytes.take len)).ctrl.cmd
  | .mqTimedreceive _ _, .ok x => φ.onReceive (offerOf cfg x.1)
  | _, _ => φ

/-- The protocol of the client `i`, and of one that is to keep its connection,
    or its lack of one, if `steady` holds. -/
def clientProtocol (steady : Prop) : Protocol (Op cfg) Op.Res ClientPhase :=
  ⟨fun φ o => clientPre pc owner i φ o ∧ (steady → Steady o), clientMay, clientNext⟩

/-- The `struct psmq` of a client between two calls. -/
def PsmqObj.At (psmq : PsmqObj) : ClientPhase → Prop
  | .out => psmq.qsub = psmq.qpub ∨ (psmq.qsub = none ∧ psmq.qpub = some 0)
  | .connected qsub qpub fd => psmq = ⟨some qsub, some qpub, fd⟩ ∧ qpub ≠ 0 ∧ qsub ≠ qpub
  | _ => False

variable {pc owner i} {φ : ClientPhase} {psmq : PsmqObj} {steady : Prop}

/-! ## Requests -/

theorem follows_mqSend {src mq : Mqd} {msg : PsmqMsg cfg} {len prio : ℕ}
    {Q : Except Errno Unit → ClientPhase → Prop}
    (hpre : mq = some 0 ∨ φ.MaySend owner i src mq (received cfg (msg.toBytes.take len)) prio)
    (hsteady : steady → (received cfg (msg.toBytes.take len)).ctrl.cmd ≠ cmdClose)
    (hQ : ∀ r, Q r (φ.onSend (received cfg (msg.toBytes.take len)).ctrl.cmd)) :
    Follows (clientProtocol pc owner i steady) Q φ (mqSend src mq msg len prio) := by
  rw [mqSend]
  split
  · exact follows_perform_iff.2 ⟨⟨hpre, hsteady⟩, fun r _ => hQ r⟩
  · trivial

/-- A message is sent as it is built, if it is sent at all. -/
theorem follows_psmqPublishMsg {cmd data : UInt8} {topic : Option CString} {payload : Option Ptr}
    {paylen prio : ℕ} {Q : Except Errno Unit → ClientPhase → Prop}
    (herr : psmq.qpub = none ∨ psmq.qsub = psmq.qpub → ∀ e, Q (.error e) φ)
    (hpre : ∀ pub len, publishMsg cfg cmd data topic payload paylen = some pub →
      pub.realMsgSize = some len → psmq.qpub ≠ none → psmq.qsub ≠ psmq.qpub →
      psmq.qpub = some 0 ∨
        φ.MaySend owner i psmq.qsub psmq.qpub (received cfg (pub.toBytes.take len)) prio)
    (hsteady : steady → cmd ≠ cmdClose) (hQ : ∀ r, Q r (φ.onSend cmd)) :
    Follows (clientProtocol pc owner i steady) Q φ
      (psmqPublishMsg psmq cmd data topic payload paylen prio : P cfg _) := by
  rw [psmqPublishMsg]
  split
  · next hpub => exact herr (.inl hpub) _
  split
  · next hq => exact herr (.inr hq) _
  next hpub hq =>
  refine follows_deref_bind fun pub hmsg => follows_deref_bind fun len hlen => ?_
  have hctrl : (received cfg (pub.toBytes.take len)).ctrl.cmd = cmd := by
    rw [received, recvInto_ctrl _ _ hlen, (publishMsg_eq_some hmsg).1]
  exact follows_mqSend (hpre pub len hmsg hlen hpub hq) (hctrl ▸ hsteady) (hctrl ▸ hQ)

/-- A request of a client between two calls carries its descriptor. -/
theorem PsmqObj.At.maySend (h : psmq.At φ) {cmd : UInt8} {topic : Option CString}
    {payload : Option Ptr} {paylen prio : ℕ} (hcmd : cmd ≠ cmdOpen)
    (hprio : cmd = cmdClose → prio = 0) {pub : PsmqMsg cfg} {len : ℕ}
    (hmsg : publishMsg cfg cmd psmq.fd topic payload paylen = some pub)
    (hlen : pub.realMsgSize = some len) (hq : psmq.qsub ≠ psmq.qpub) :
    psmq.qpub = some 0 ∨
      φ.MaySend owner i psmq.qsub psmq.qpub (received cfg (pub.toBytes.take len)) prio := by
  have hctrl := (recvInto_ctrl (.zero cfg) _ hlen).trans (publishMsg_eq_some hmsg).1
  cases φ with
  | out => exact .inl ((h.resolve_left hq).2)
  | opened => exact h.elim
  | opening => exact h.elim
  | connected qsub qpub fd =>
    obtain ⟨rfl, -⟩ := h
    refine .inr ⟨rfl, rfl, ?_, congrArg Ctrl.data hctrl, fun hc => ?_⟩
    · rwa [received, hctrl]
    · rw [received, hctrl] at hc
      exact hprio hc

/-- A request of a client leaves it as it was. -/
theorem PsmqObj.At.follows_request (h : psmq.At φ) {cmd : UInt8} {topic : Option CString}
    {payload : Option Ptr} {paylen prio : ℕ} (hcmd : cmd ≠ cmdOpen := by decide)
    (hclose : cmd ≠ cmdClose := by decide) :
    Follows (clientProtocol pc owner i steady) (fun _ => psmq.At) φ
      (psmqPublishMsg psmq cmd psmq.fd topic payload paylen prio : P cfg _) := by
  refine follows_psmqPublishMsg (fun _ _ => h) (fun pub len hmsg hlen _ hq =>
    h.maySend hcmd (fun hc => absurd hc hclose) hmsg hlen hq) (fun _ => hclose) fun r => ?_
  cases φ with
  | connected => rwa [ClientPhase.onSend, if_neg hclose]
  | _ => exact h

theorem follows_psmqTopicRequest (h : psmq.At φ) {cmd : UInt8} (hcmd : cmd ≠ cmdOpen)
    (hclose : cmd ≠ cmdClose) (topic : Option CString) :
    Follows (clientProtocol pc owner i steady) (fun _ => psmq.At) φ
      (psmqTopicRequest cmd psmq topic : P cfg _) := by
  cases topic with
  | none => exact h
  | some topic =>
    rw [psmqTopicRequest]
    split_ifs
    all_goals first
      | exact h
      | exact h.follows_request hcmd hclose

theorem follows_psmqPublishPrio (h : psmq.At φ) (topic : Option CString) (payload : Option Ptr)
    (paylen prio : ℕ) : Follows (clientProtocol pc owner i steady) (fun _ => psmq.At) φ
      (psmqPublishPrio psmq topic payload paylen prio : P cfg _) := by
  cases topic with
  | none => exact h
  | some topic =>
    rw [psmqPublishPrio]
    split_ifs
    · exact h
    · exact h.follows_request
    · exact h

theorem follows_psmqIoctl (h : psmq.At φ) (req val : ℤ) :
    Follows (clientProtocol pc owner i steady) (fun _ => psmq.At) φ
      (psmqIoctl psmq req val : P cfg _) := by
  rw [psmqIoctl]
  split_ifs
  · exact h
  · exact h
  · exact h.follows_request
  · exact h
  · exact h

/-! ## Receiving -/

/-- A client between two calls only receives on its queue. -/
theorem PsmqObj.At.qsub_eq (h : psmq.At φ) (hq : psmq.qsub ≠ psmq.qpub) :
    psmq.qsub = none ∨ psmq.qsub = some 0 ∨ psmq.qsub = φ.qsub := by
  cases φ with
  | out => exact .inl (h.resolve_left hq).1
  | opened => exact h.elim
  | opening => exact h.elim
  | connected =>
    obtain ⟨rfl, -⟩ := h
    exact .inr (.inr rfl)

theorem follows_psmqReceivePrio (h : psmq.At φ) (msg : PsmqMsg cfg) :
    Follows (clientProtocol pc owner i steady) (fun _ => psmq.At) φ (psmqReceivePrio psmq msg) := by
  rw [psmqReceivePrio]
  split_ifs with hpub hq
  · exact h
  · exact h
  · refine follows_perform_bind ⟨h.qsub_eq hq, fun _ => trivial⟩ fun r _ => ?_
    cases r <;> exact h

theorem follows_psmqTimedreceivePrioMs (h : psmq.At φ) (msg : PsmqMsg cfg) (ms : ℕ) :
    Follows (clientProtocol pc owner i steady) (fun _ => psmq.At) φ
      (psmqTimedreceivePrioMs psmq msg ms) := by
  rw [psmqTimedreceivePrioMs]
  split_ifs with hpub hq
  · exact h
  · exact h
  · refine follows_perform_bind ⟨h.qsub_eq hq, fun _ => trivial⟩ fun r _ => ?_
    cases r with
    | error e => exact h
    | ok x =>
      cases φ with
      | opening => exact h.elim
      | _ => exact h

/-! ## Connecting -/

/-- What the loop waiting for the reply of the broker makes of a message it
    receives: it skips it, or ends with a refusal, or with an offer. -/
inductive AckOf (psmq : PsmqObj) (bytes : List UInt8) (again : P cfg (PsmqObj × Except Errno ℕ)) :
    P cfg (PsmqObj × Except Errno ℕ) → Prop
  | skipped : (received cfg bytes).ctrl.cmd ≠ cmdOpen → AckOf psmq bytes again again
  | refused {e : Errno} {fd : UInt8} : refusal (received cfg bytes) = some e →
      AckOf psmq bytes again (.ret ({ psmq with fd := fd }, .ok e))
  | offered {fd : UInt8} : offerOf cfg bytes = some fd →
      AckOf psmq bytes again (.ret ({ psmq with fd := fd }, .ok 0))

/-- One round of the loop, for an object with two queues. -/
theorem awaitAck_succ {psmq : PsmqObj} (hpub : psmq.qpub ≠ none) (hq : psmq.qsub ≠ psmq.qpub)
    (fuel : ℕ) : ∃ k : Except Errno (List UInt8 × ℕ) → P cfg (PsmqObj × Except Errno ℕ),
      awaitAck (fuel + 1) psmq = mqTimedreceive psmq.qsub 30000 >>= k ∧
      (∀ e, k (.error e) = .ret (psmq, .error e)) ∧
      ∀ bytes prio, AckOf psmq bytes (awaitAck fuel psmq) (k (.ok (bytes, prio))) := by
  rw [awaitAck, psmqTimedreceivePrioMs, if_neg hpub, if_neg hq, Prog.bind_assoc]
  refine ⟨_, rfl, fun e => rfl, fun bytes prio => ?_⟩
  simp only [pure_eq, ret_bind]
  change AckOf psmq bytes _ (if (received cfg bytes).ctrl.cmd ≠ cmdOpen then _ else _)
  split_ifs with hcmd hfull hlen
  · exact .skipped hcmd
  · exact .refused (by rw [refusal, if_neg hcmd, if_pos hfull])
  · exact .refused (by rw [refusal, if_neg hcmd, if_neg hfull, if_pos hlen])
  · have hpos : 0 < (received cfg bytes).data.bytes.length := by
      have hmax := cfg.six_le_msgMax
      rw [Buf.length_eq]
      omega
    have hfd := List.getElem?_eq_getElem hpos
    change AckOf psmq bytes _ (deref (received cfg bytes).data.bytes[0]? >>= fun fd =>
      .ret ({ psmq with fd := fd }, .ok (received cfg bytes).ctrl.data.toNat))
    rw [hfd, deref_some, ret_bind]
    by_cases hdata : (received cfg bytes).ctrl.data = 0
    · have hoffer : offerOf cfg bytes = some (received cfg bytes).data.bytes[0] := by
        rw [offerOf, ← not_not.1 hcmd, ← hdata, if_pos ⟨rfl, not_not.1 hlen⟩, hfd]
      rw [hdata]
      exact .offered hoffer
    · exact .refused (by rw [refusal, if_neg hcmd, if_neg hfull, if_neg hlen, if_neg hdata])

/-- Waiting for the reply of the broker: the client is connected if it reads an
    offer, and nothing else makes the call succeed. -/
theorem follows_awaitAck {qsub qpub : ℕ} (hq : qsub ≠ qpub) (fuel : ℕ) (fd : UInt8) :
    Follows (clientProtocol pc owner i False) (fun x φ =>
        (∃ fd, x = (⟨some qsub, some qpub, fd⟩, .ok 0) ∧ φ = .connected qsub qpub fd) ∨
          (x.2 ≠ .ok 0 ∧ φ = .opening qsub qpub))
      (.opening qsub qpub) (awaitAck fuel ⟨some qsub, some qpub, fd⟩ : P cfg _) := by
  induction fuel with
  | zero => trivial
  | succ fuel ih =>
    obtain ⟨k, heq, herror, hack⟩ := @awaitAck_succ cfg ⟨some qsub, some qpub, fd⟩ (by simp)
      (by simpa using hq) fuel
    rw [heq]
    refine follows_perform_bind ⟨.inr (.inr rfl), False.elim⟩ fun r _ => ?_
    cases r with
    | error e =>
      rw [herror]
      exact .inr ⟨by simp, rfl⟩
    | ok x =>
      obtain ⟨bytes, prio⟩ := x
      -- The client is connected just by an offer.
      have hnext : (clientProtocol pc owner i False).next (.opening qsub qpub)
          (.mqTimedreceive (some qsub) 30000 : Op cfg) (.ok (bytes, prio)) =
          (offerOf cfg bytes).elim (.opening qsub qpub) (.connected qsub qpub) := rfl
      rw [hnext]
      have hround := hack bytes prio
      generalize k (.ok (bytes, prio)) = p at hround
      cases hround with
      | skipped hcmd =>
        rw [offerOf_of_ne_open hcmd]
        exact ih
      | refused hrefusal =>
        obtain ⟨-, hno, hne⟩ := refusal_eq_some hrefusal
        rw [hno]
        exact .inr ⟨fun h => hne (Except.ok.inj h), rfl⟩
      | @offered fd' hoffer =>
        rw [hoffer]
        exact .inl ⟨fd', rfl, rfl⟩

/-- The end of a failed connection leaves the client out. -/
theorem follows_initWqError {mqname : CString} (hname : owner mqname = some i)
    (hφ : φ.Disconnected) (e : Errno) :
    Follows (clientProtocol pc owner i False) (fun x => x.1.At) φ
      (initWqError psmq mqname e : P cfg _) := by
  refine follows_perform_bind ⟨hφ, False.elim⟩ fun r₁ _ => ?_
  refine follows_perform_bind ⟨trivial, False.elim⟩ fun r₂ _ => ?_
  exact follows_perform_bind ⟨hname, False.elim⟩ fun r₃ _ => .inl rfl

theorem follows_psmqInitWq {fuel qsub : ℕ} {fd : UInt8} {mqname : CString}
    (hname : owner mqname = some i) :
    Follows (clientProtocol pc owner i False) (fun x => x.1.At) (.opened qsub)
      (psmqInitWq fuel ⟨some qsub, some 0, fd⟩ pc.brokerName mqname : P cfg _) := by
  refine follows_perform_bind ⟨.inl ⟨rfl, rfl⟩, False.elim⟩ fun r hr => ?_
  cases r with
  | error e => exact follows_perform_bind ⟨trivial, False.elim⟩ fun r _ => .inl rfl
  | ok qpub =>
    obtain ⟨hpos, hq⟩ : 0 < qpub ∧ some qsub ≠ some qpub := hr
    have hq' : qsub ≠ qpub := fun h => hq (congrArg some h)
    -- From here on a failure leaves both queues to close.
    have hdisc : (ClientPhase.opening qsub qpub).Disconnected := trivial
    refine (follows_psmqPublishMsg (Q := fun _ φ => φ = .opening qsub qpub) (fun _ _ => rfl)
      (fun pub len hmsg hlen _ _ => ?_) False.elim fun _ => rfl).bind fun r φ hφ => ?_
    · -- The open request names the queue of the client.
      obtain ⟨hrecv, hctrl, hcarry⟩ := received_openRequest hmsg hlen
      rw [hrecv]
      exact .inr ⟨rfl, congrArg Ctrl.cmd hctrl, mqname, hcarry.str_eq, hname⟩
    · -- The client is out unless it reads an offer in time.
      subst hφ
      cases r with
      | error e => exact follows_initWqError hname hdisc e
      | ok _ =>
        refine (follows_awaitAck hq' fuel fd).bind ?_
        rintro ⟨psmq, ack⟩ φ (⟨fd, hx, rfl⟩ | ⟨hack, rfl⟩)
        · -- The descriptor of the offer is that of the client from now on.
          obtain ⟨rfl, rfl⟩ := Prod.mk.inj hx
          exact ⟨rfl, hpos.ne', hq'⟩
        · cases ack with
          | error e => exact follows_initWqError hname hdisc e
          | ok e =>
            cases e with
            | zero => exact absurd rfl hack
            | succ e => exact follows_initWqError hname hdisc (e + 1)

theorem follows_psmqInitNamed (h : psmq.At φ) {fuel : ℕ} {brokername : Option CString}
    {mqname : CString} {maxmsg : ℤ} (hbroker : brokername.getD psmqdDefaultQname = pc.brokerName)
    (hname : owner mqname = some i) : Follows (clientProtocol pc owner i False) (fun x => x.1.At) φ
      (psmqInitNamed fuel psmq brokername (some mqname) maxmsg : P cfg _) := by
  rw [psmqInitNamed]
  split
  · exact h
  split
  · exact h
  simp only [hbroker]
  split
  · exact h
  generalize toInt mqname.length = len
  split
  · exact h
  -- What a dead client of this name left is removed first.
  refine follows_perform_bind ⟨hname, False.elim⟩ fun r _ => ?_
  refine follows_perform_bind ⟨.inr ⟨hname, rfl⟩, False.elim⟩ fun r hr => ?_
  cases r with
  | error e => exact .inr ⟨rfl, rfl⟩
  | ok qsub => exact follows_psmqInitWq hname

/-- The object is overwritten, unless the arguments are refused. -/
theorem psmqInitNamed_congr {fuel : ℕ} {brokername mqname : Option CString} {maxmsg : ℤ}
    (h : InitArgs cfg brokername mqname maxmsg) (psmq psmq' : PsmqObj) :
    (psmqInitNamed fuel psmq brokername mqname maxmsg : P cfg _) =
      psmqInitNamed fuel psmq' brokername mqname maxmsg := by
  rw [psmqInitNamed_of_args h, psmqInitNamed_of_args h]

/-- An object that fails to be connected is not, if it was not before. -/
theorem not_live_of_error {fuel : ℕ} {psmq psmq' : PsmqObj} {brokername mqname : Option CString}
    {maxmsg : ℤ} {tr : Trace cfg} {e : Errno} (hdead : ¬psmq.Live)
    (h : Exec (psmqInitNamed fuel psmq brokername mqname maxmsg) tr (psmq', .error e)) :
    ¬psmq'.Live := by
  rcases exec_psmqInitNamed h with ⟨-, rfl, -⟩ | ⟨-, ⟨-, ⟨he, -⟩ | ⟨-, hq, -⟩⟩ | ⟨-, -, rfl⟩⟩
  · exact hdead
  · exact nomatch he
  · exact fun hl => hl.qsub_ne hq
  · exact fun hl => hl.qsub_ne rfl

/-- A program connecting for the first time: its object is connected if this
    succeeds, whatever was in it. -/
theorem follows_connecting {brokername mqname : CString} (hbroker : brokername = pc.brokerName)
    (hname : owner mqname = some i) (fuel : ℕ) (psmq : PsmqObj) (maxmsg : ℤ) :
    Follows (clientProtocol pc owner i False) (fun x φ =>
        (x.2 = .ok () ∧ x.1.Live ∧ x.1.At φ) ∨ ((∃ e, x.2 = .error e) ∧ φ.Disconnected))
      .out (psmqInitNamed fuel psmq (some brokername) (some mqname) maxmsg : P cfg _) := by
  by_cases hargs : InitArgs cfg (some brokername) (some mqname) maxmsg
  · have hzero : ¬PsmqObj.zero.Live := fun h => h.ne rfl
    have hat : PsmqObj.zero.At .out := .inl rfl
    have hinit := @follows_psmqInitNamed cfg pc owner i .out .zero hat fuel (some brokername)
      mqname maxmsg hbroker hname
    rw [psmqInitNamed_congr hargs psmq .zero]
    refine (hinit.and_exec
      (E := fun x => (x.2 = .ok () ∧ x.1.Live) ∨ ((∃ e, x.2 = .error e) ∧ ¬x.1.Live)) ?_).mono ?_
    · rintro tr ⟨psmq', r⟩ h
      cases r with
      | ok u => exact .inl ⟨rfl, live_of_psmqInitNamed h⟩
      | error e => exact .inr ⟨⟨e, rfl⟩, not_live_of_error hzero h⟩
    · rintro ⟨psmq', r⟩ φ ⟨hat, ⟨hr, hlive⟩ | ⟨hr, hdead⟩⟩
      · exact .inl ⟨hr, hlive, hat⟩
      · refine .inr ⟨hr, ?_⟩
        cases φ with
        | connected qsub qpub fd =>
          obtain ⟨rfl, -, hne⟩ := hat
          exact absurd ⟨by simp, by simp, by simpa using hne⟩ hdead
        | _ => trivial
  · obtain ⟨e, he⟩ := psmqInitNamed_of_not_args fuel psmq hargs
    rw [he]
    exact .inr ⟨⟨e, rfl⟩, trivial⟩

/-- The protocol of the first client, of the queue with this name. -/
def firstClient (cfg : Config) (name : List UInt8) : Protocol (Op cfg) Op.Res ClientPhase :=
  clientProtocol psmqdCfgInit (fun n => if n.bytes = name then some 0 else none) 0 False

/-- What is sent by some calls of a client: the commands, and the descriptors. -/
def sentCtrls (tr : Trace cfg) : List (UInt8 × UInt8) :=
  tr.filterMap fun
    | ⟨.mqSend _ _ msg _ _, _⟩ => some (msg.ctrl.cmd, msg.ctrl.data)
    | _ => none

/-! ## All the calls -/

/-- Disconnecting leaves the client out. -/
theorem follows_psmqCleanup (h : psmq.At φ) :
    Follows (clientProtocol pc owner i False) (fun x => x.1.At) φ (psmqCleanup psmq : P cfg _) := by
  rw [psmqCleanup]
  split_ifs with hq
  · exact h
  · refine (follows_psmqPublishMsg (Q := fun _ => ClientPhase.Disconnected) (fun hq' _ => ?_)
      (fun pub len hmsg hlen _ hq => h.maySend (by decide) (fun _ => rfl) hmsg hlen hq)
      False.elim fun r => ?_).bind fun r φ' hφ' => ?_
    · cases φ with
      | connected =>
        obtain ⟨rfl, -⟩ := h
        exact hq (hq'.resolve_left (by simp))
      | _ => trivial
    · cases φ <;> trivial
    · refine follows_perform_bind ⟨hφ', False.elim⟩ fun r₁ _ => ?_
      exact follows_perform_bind ⟨trivial, False.elim⟩ fun r₂ _ => .inl rfl

/-- A call of a client follows its protocol, and leaves a `struct psmq` that
    tells whether the client is connected. -/
theorem Call.follows (h : psmq.At φ) {call : Call cfg} (hc : call.Allowed pc owner i) :
    Follows (clientProtocol pc owner i call.Steady) PsmqObj.At φ (call.prog psmq) := by
  cases call with
  | init fuel brokername mqname maxmsg =>
    exact (follows_psmqInitNamed h hc.1 hc.2).bind fun _ _ h => h
  | subscribe topic =>
    exact (follows_psmqTopicRequest h (by decide) (by decide) topic).bind fun _ _ h => h
  | unsubscribe topic =>
    exact (follows_psmqTopicRequest h (by decide) (by decide) topic).bind fun _ _ h => h
  | publish topic payload paylen prio =>
    exact (follows_psmqPublishPrio h topic payload paylen prio).bind fun _ _ h => h
  | ioctl val => exact (follows_psmqIoctl h _ _).bind fun _ _ h => h
  | receive msg => exact (follows_psmqReceivePrio h msg).bind fun _ _ h => h
  | timedreceive msg ms => exact (follows_psmqTimedreceivePrioMs h msg ms).bind fun _ _ h => h
  | cleanup => exact (follows_psmqCleanup h).bind fun _ _ h => h

/-! ## What the calls send -/

/-- The call sends a message with the command `cmd`. -/
def Op.sends (cmd : UInt8) : Op cfg → Bool
  | mqSend _ _ msg len _ => (received cfg (msg.toBytes.take len)).ctrl.cmd = cmd
  | _ => false

/-- The command of the request a call sends, if it sends one. -/
def Call.cmd : Call cfg → Option UInt8
  | init _ _ _ _ => some cmdOpen
  | subscribe _ => some cmdSubscribe
  | unsubscribe _ => some cmdUnsubscribe
  | publish _ _ _ _ => some cmdPublish
  | ioctl _ => some cmdIoctl
  | receive _ => none
  | timedreceive _ _ => none
  | cleanup => some cmdClose

/-- A request sends no message with another command. -/
theorem only_not_sending {α : Type} {p : P cfg α} {c cmd : UInt8} (h : p.Only (Op.ofRequest c))
    (hc : c ≠ cmd) : p.Only (·.sends cmd = false) :=
  h.mono fun o ho => by
    cases o with
    | mqSend src mq msg len prio =>
      rw [Op.sends, received, recvInto_ctrl _ _ ho.2, ho.1]
      exact decide_eq_false hc
    | _ => rfl

/-- A call sends nothing but its request. -/
theorem Call.only_not_sending {psmq : PsmqObj} {c : Call cfg} {cmd : UInt8}
    (hc : c.cmd ≠ some cmd) : (c.prog psmq).Only (·.sends cmd = false) := by
  have hrequest {α : Type} {p : P cfg α} {f : α → PsmqObj} {c' : UInt8}
      (hp : p.Only (Op.ofRequest c')) (hne : some c' ≠ some cmd) :
      (p >>= fun x => ret (f x)).Only (·.sends cmd = false) :=
    (Psmq.only_not_sending hp fun h => hne (congrArg some h)).bind fun _ => trivial
  cases c with
  | init => exact hrequest only_psmqInitNamed hc
  | subscribe | unsubscribe => exact hrequest only_psmqTopicRequest hc
  | publish => exact hrequest only_psmqPublishPrio hc
  | ioctl => exact hrequest only_psmqIoctl hc
  | cleanup => exact hrequest only_psmqCleanup hc
  | receive msg =>
    refine Only.bind (.ite trivial <| .ite trivial <| only_perform_bind rfl fun r => ?_)
      fun _ => trivial
    cases r <;> trivial
  | timedreceive msg ms =>
    refine Only.bind (.ite trivial <| .ite trivial <| only_perform_bind rfl fun r => ?_)
      fun _ => trivial
    cases r <;> trivial

end Psmq
