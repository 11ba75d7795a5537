import Psmq.Daemon
import Psmq.System.Clients

/-!
# What messages publish

A message publishes its topic and its payload if its command is that of
`psmq_publish_prio` (`publication`), wherever it is found: it is told from the
bytes sent.

* `psmq_publish_prio` sends its topic and its payload, once, or it fails
  (`sendsOnce_psmqPublishPrio`);
* the broker only publishes copies of the message it handles (`only_copies`).
-/

namespace Psmq

open CMem Prog

variable {cfg : Config}

/-- What is published: a topic, and a payload. -/
structure Content where
  topic : Option CString
  payload : List UInt8
  deriving DecidableEq

/-- What the bytes of a message publish, if they do. -/
def publication (cfg : Config) (bytes : List UInt8) : Option Content :=
  if (received cfg bytes).ctrl.cmd = cmdPublish then
    some ⟨psmqTopic (received cfg bytes),
      ((psmqPayload (received cfg bytes)).getD []).take (received cfg bytes).paylen.toNat⟩
  else none

theorem publication_eq_none {bytes : List UInt8} (h : (received cfg bytes).ctrl.cmd ≠ cmdPublish) :
    publication cfg bytes = none := if_neg h

/-- A message publishes what it carries. -/
theorem Carries.publication_eq {bytes : List UInt8} {topic : CString} {body : List UInt8}
    (h : Carries (received cfg bytes) (some topic) body)
    (hcmd : (received cfg bytes).ctrl.cmd = cmdPublish) :
    publication cfg bytes = some ⟨some topic, body⟩ := by
  have hi : (received cfg bytes).ctrl.cmd ≠ cmdIoctl := by
    rw [hcmd]
    decide
  have hpayload : psmqPayload (received cfg bytes) =
      some (payloadOf (received cfg bytes) topic) := by
    rw [psmqPayload, if_neg hi, strlen, h.str_eq]
    rfl
  rw [publication, if_pos hcmd, psmqTopic, h.str_eq, hpayload, Option.getD_some, h.paylen_eq,
    h.payload_eq]

/-- A message sent to its end publishes what it carries. -/
theorem Carries.publication_sent {m : PsmqMsg cfg} {topic : CString} {body : List UInt8}
    (h : Carries m (some topic) body) (hcmd : m.ctrl.cmd = cmdPublish) {len : ℕ}
    (hlen : m.realMsgSize = some len) :
    publication cfg (m.toBytes.take len) = some ⟨some topic, body⟩ := by
  obtain ⟨hctrl, hrecv⟩ := h.recvInto_sent (.zero cfg) (hcmd ▸ by decide) hlen
  exact hrecv.publication_eq ((congrArg Ctrl.cmd hctrl).trans hcmd)

/-! ## Publishing -/

/-- What a call of `psmq_publish_prio` publishes: the payload as far as the
    `unsigned short` of the message counts its bytes, the whole of it if it is
    short enough (`ofCall_of_lt`). -/
def Content.ofCall (topic : Option CString) (payload : Option Ptr) (paylen : ℕ) : Content :=
  ⟨topic, (payloadBytes payload paylen).take ((payloadBytes payload paylen).length % 2 ^ 16)⟩

/-- A short payload is published to its end. -/
theorem Content.ofCall_of_lt {topic : Option CString} {payload : Option Ptr} {paylen : ℕ}
    (h : paylen < 2 ^ 16) :
    Content.ofCall topic payload paylen = ⟨topic, payloadBytes payload paylen⟩ := by
  have := length_payloadBytes_le payload paylen
  rw [ofCall, Nat.mod_eq_of_lt (by omega), List.take_length]

/-- The program fails at once, or it only sends a message publishing `c`, and
    returns what comes of it. -/
def SendsOnce (psmq : PsmqObj) (prio : ℕ) (c : Content) (p : P cfg (Except Errno Unit)) : Prop :=
  (∃ e, p = .ret (.error e)) ∨ (∃ f, p = .fault f) ∨
    ∃ pub len, p = .call (.mqSend psmq.qsub psmq.qpub pub len prio) .ret ∧
      publication cfg (pub.toBytes.take len) = some c

theorem sendsOnce_psmqPublishMsg {psmq : PsmqObj} {data : UInt8} {topic : CString}
    {payload : Option Ptr} {paylen prio : ℕ} :
    SendsOnce psmq prio (.ofCall (some topic) payload paylen)
      (psmqPublishMsg psmq cmdPublish data (some topic) payload paylen prio : P cfg _) := by
  rw [psmqPublishMsg]
  split_ifs
  · exact .inl ⟨_, rfl⟩
  · exact .inl ⟨_, rfl⟩
  · cases hpub : publishMsg cfg cmdPublish data (some topic) payload paylen with
    | none => exact .inr (.inl ⟨_, rfl⟩)
    | some pub =>
      rw [deref_some, ret_bind]
      cases hlen : pub.realMsgSize with
      | none => exact .inr (.inl ⟨_, rfl⟩)
      | some len =>
        rw [deref_some, ret_bind, mqSend]
        split
        · obtain ⟨hctrl, hcarry⟩ := carries_take_of_publishMsg hpub
          exact .inr (.inr ⟨pub, len, rfl, hcarry.publication_sent (by rw [hctrl]) hlen⟩)
        · exact .inr (.inl ⟨_, rfl⟩)

/-- `psmq_publish_prio` publishes what it is given. -/
theorem sendsOnce_psmqPublishPrio {psmq : PsmqObj} {topic : Option CString} {payload : Option Ptr}
    {paylen prio : ℕ} : SendsOnce psmq prio (.ofCall topic payload paylen)
      (psmqPublishPrio psmq topic payload paylen prio : P cfg _) := by
  cases topic with
  | none => exact .inl ⟨_, rfl⟩
  | some topic =>
    rw [psmqPublishPrio]
    split_ifs
    · exact .inl ⟨_, rfl⟩
    · exact sendsOnce_psmqPublishMsg
    · exact .inl ⟨_, rfl⟩

/-- A call that does not send the command of a publication publishes nothing. -/
theorem publication_of_not_sends {src mq : Mqd} {msg : PsmqMsg cfg} {len prio : ℕ}
    (h : (Op.mqSend src mq msg len prio).sends cmdPublish = false) :
    publication cfg (msg.toBytes.take len) = none :=
  publication_eq_none (of_decide_eq_false h)

/-! ## Relaying -/

/-- The message, sent to its end, publishes what `bytes` do. -/
def IsCopy (bytes : List UInt8) (m : PsmqMsg cfg) : Prop :=
  ∀ len, m.realMsgSize = some len → publication cfg (m.toBytes.take len) = publication cfg bytes

/-- The broker publishes copies of the message it handles. -/
theorem only_copies {s : Broker cfg} {bytes : List UInt8} {prio : ℕ} :
    (brokerStart s bytes prio).Only (Op.ofHandler (IsCopy bytes)) :=
  only_brokerStart fun topic m ha hcmd ht hm len hlen => by
    have hcarry := carries_of_accepted ha ht
    obtain ⟨hctrl, hcopy⟩ :=
      carries_of_replyMsg hm hcarry.le_length_payloadOf (UInt16.toNat_lt _)
    have hsent := hcopy.publication_sent (by rw [hctrl]) hlen
    exact hsent.trans (hcarry.publication_eq hcmd).symm

end Psmq
