import Psmq.Library.Handles
import Psmq.Broker.Publish
import Psmq.Broker.Requests

/-!
# Messages on the wire

What a message holds once it has gone over a queue. Only its first bytes are
sent (`PsmqMsg.realMsgSize`), and they are received over what was in the
struct of the receiver; what a message carries — a topic and a body, at the
start of its data (`Carries`) — is there all the same (`Carries.recvInto`).

* `publish_round_trip`: a message published goes from a client to the broker,
  and from the broker to the subscribers, unchanged;
* `ioctl_gets_through_iff`: an ioctl setting a reply timeout does what it asks
  for, and is answered, unless the broker drops it: it takes the bytes of the
  timeout for a topic, and there are too many of them in the smallest build.
-/

namespace Psmq

open CMem Prog

variable {cfg : Config}

/-! ## What a message carries -/

/-- The message has the topic, if there is one, then the bytes `body`, at the
    start of its data, and `body` is its payload. -/
structure Carries (m : PsmqMsg cfg) (topic : Option CString) (body : List UInt8) : Prop where
  take_eq : m.data.bytes.take (topicBytes topic ++ body).length = topicBytes topic ++ body
  paylen_eq : m.paylen.toNat = body.length

namespace Carries

variable {m : PsmqMsg cfg} {topic : Option CString} {body : List UInt8}

/-- What a message carries is within its data. -/
theorem length_le (h : Carries m topic body) :
    (topicBytes topic).length + body.length ≤ cfg.msgMax := by
  have := congrArg List.length h.take_eq
  rw [List.length_take, Buf.length_eq, List.length_append] at this
  omega

theorem of_bytes_eq {rest : List UInt8} (h : m.data.bytes = topicBytes topic ++ body ++ rest)
    (hlen : m.paylen.toNat = body.length) : Carries m topic body :=
  ⟨by rw [h, List.take_left], hlen⟩

/-- The data are those carried, then some others. -/
theorem bytes_eq (h : Carries m topic body) :
    m.data.bytes = topicBytes topic ++ body ++
      m.data.bytes.drop (topicBytes topic ++ body).length := by
  conv_lhs => rw [← List.take_append_drop (topicBytes topic ++ body).length m.data.bytes, h.take_eq]

theorem str_eq {topic : CString} (h : Carries m (some topic) body) :
    str m.data.bytes = some topic := by
  rw [h.bytes_eq, topicBytes, List.append_assoc, List.append_assoc, List.singleton_append,
    str_append]

theorem length_topicBytes_some (topic : CString) :
    (topicBytes (some topic)).length = topic.length + 1 := by
  simp [topicBytes, CString.length]

/-- The payload follows the topic. -/
theorem payload_eq {topic : CString} (h : Carries m (some topic) body) :
    (m.data.bytes.drop (topic.length + 1)).take body.length = body := by
  rw [h.bytes_eq, List.append_assoc, ← length_topicBytes_some, List.drop_left, List.take_left]

/-- The payload is within the data. -/
theorem le_length_payloadOf {topic : CString} (h : Carries m (some topic) body) :
    m.paylen.toNat ≤ (payloadOf m topic).length := by
  have := h.length_le
  rw [length_topicBytes_some, ← h.paylen_eq] at this
  rw [List.length_drop, Buf.length_eq]
  omega

/-- All that is carried is among the bytes sent. -/
theorem le_realMsgSize (h : Carries m topic body) {len : ℕ}
    (hcmd : m.ctrl.cmd = cmdIoctl → topic = none) (hlen : m.realMsgSize = some len) :
    headerSize + (topicBytes topic ++ body).length ≤ len := by
  have hpay := h.paylen_eq
  rw [PsmqMsg.realMsgSize] at hlen
  rw [List.length_append]
  split at hlen
  · next hc =>
    obtain rfl := Option.some.inj hlen
    rw [hcmd hc, topicBytes, List.length_nil]
    omega
  · obtain ⟨l, hl, rfl⟩ := Option.map_eq_some_iff.1 hlen
    cases topic with
    | none =>
      rw [topicBytes, List.length_nil]
      omega
    | some t =>
      rw [strlen, h.str_eq] at hl
      obtain rfl := Option.some.inj hl
      rw [length_topicBytes_some]
      omega

/-- The length of a message with a topic. -/
theorem realMsgSize_eq {topic : CString} (h : Carries m (some topic) body)
    (hcmd : m.ctrl.cmd ≠ cmdIoctl) :
    m.realMsgSize = some (headerSize + (topic.length + 1) + body.length) := by
  rw [PsmqMsg.realMsgSize, if_neg hcmd, strlen, h.str_eq, h.paylen_eq]
  rfl

theorem realMsgSize_le {topic : CString} (h : Carries m (some topic) body)
    (hcmd : m.ctrl.cmd ≠ cmdIoctl) {len : ℕ} (hlen : m.realMsgSize = some len) :
    len ≤ headerSize + cfg.msgMax := by
  obtain rfl := Option.some.inj (hlen.symm.trans (h.realMsgSize_eq hcmd))
  have := h.length_le
  rw [length_topicBytes_some] at this
  omega

end Carries

/-- Receiving the first bytes of a message gives them, then what was there before. -/
theorem recvInto_take (old m : PsmqMsg cfg) {n : ℕ} (hn : n ≤ cfg.msgMax) :
    (old.recvInto (m.toBytes.take (headerSize + n))).ctrl = m.ctrl ∧
    (old.recvInto (m.toBytes.take (headerSize + n))).paylen = m.paylen ∧
    (old.recvInto (m.toBytes.take (headerSize + n))).data.bytes =
      m.data.bytes.take n ++ old.data.bytes.drop n := by
  -- The header takes four bytes, whatever the byte order.
  obtain ⟨b₀, b₁, hb⟩ : ∃ b₀ b₁, storeU16 cfg.bigEndian m.paylen = [b₀, b₁] := by
    cases cfg.bigEndian <;> exact ⟨_, _, rfl⟩
  have hload : loadU16 cfg.bigEndian [b₀, b₁] = some m.paylen := by
    rw [← hb, ← loadU16_storeU16 cfg.bigEndian m.paylen [], List.append_nil]
  obtain ⟨c₀, c₁, hc⟩ : ∃ c₀ c₁, storeU16 cfg.bigEndian old.paylen = [c₀, c₁] := by
    cases cfg.bigEndian <;> exact ⟨_, _, rfl⟩
  have htake : m.toBytes.take (headerSize + n) =
      m.ctrl.cmd :: m.ctrl.data :: b₀ :: b₁ :: m.data.bytes.take n := by
    rw [PsmqMsg.toBytes, hb, List.append_assoc, Nat.add_comm]
    exact congrArg (fun l => m.ctrl.cmd :: m.ctrl.data :: b₀ :: b₁ :: l)
      (List.take_append_of_le_length (m.data.length_eq ▸ hn))
  -- The bytes received are followed by what the old struct has there.
  have hdrop : old.toBytes.drop (n + 4) =
      old.data.bytes.drop n ++ List.replicate (cfg.msgMax % 2) 0 := by
    rw [PsmqMsg.toBytes, hc, List.append_assoc]
    exact List.drop_append_of_le_length (old.data.length_eq ▸ hn)
  have hall : m.toBytes.take (headerSize + n) ++
      old.toBytes.drop (m.toBytes.take (headerSize + n)).length =
      m.ctrl.cmd :: m.ctrl.data :: b₀ :: b₁ ::
        (m.data.bytes.take n ++ old.data.bytes.drop n ++ List.replicate (cfg.msgMax % 2) 0) := by
    rw [htake, List.append_assoc, ← hdrop]
    simp only [List.length_cons, List.length_take, Buf.length_eq, min_eq_left hn, List.cons_append]
  simp only [PsmqMsg.recvInto, hall]
  refine ⟨rfl, ?_, ?_⟩
  · simp only [List.drop_succ_cons, List.drop_zero, loadU16] at hload ⊢
    rw [hload, Option.getD_some]
  · simp only [headerSize, List.drop_succ_cons, List.drop_zero]
    refine List.take_left' ?_
    simp only [List.length_append, List.length_take, List.length_drop, Buf.length_eq]
    omega

/-- The control part of a message is always received. -/
theorem recvInto_ctrl (old m : PsmqMsg cfg) {len : ℕ} (hlen : m.realMsgSize = some len) :
    (old.recvInto (m.toBytes.take len)).ctrl = m.ctrl := by
  have h2 : 2 ≤ len := by
    rw [PsmqMsg.realMsgSize] at hlen
    split at hlen
    · obtain rfl := Option.some.inj hlen
      simp only [headerSize]
      omega
    · obtain ⟨l, -, rfl⟩ := Option.map_eq_some_iff.1 hlen
      simp only [headerSize]
      omega
  obtain ⟨n, rfl⟩ := Nat.exists_eq_add_of_le' h2
  rfl

/-- What a message carries is received, if all of it is sent. -/
theorem Carries.recvInto {m : PsmqMsg cfg} {topic : Option CString} {body : List UInt8}
    (h : Carries m topic body) (old : PsmqMsg cfg) {len : ℕ}
    (hlen : headerSize + (topicBytes topic ++ body).length ≤ len)
    (hle : len ≤ headerSize + cfg.msgMax) :
    (old.recvInto (m.toBytes.take len)).ctrl = m.ctrl ∧
      Carries (old.recvInto (m.toBytes.take len)) topic body := by
  obtain ⟨n, rfl⟩ := Nat.exists_eq_add_of_le ((Nat.le_add_right _ _).trans hlen)
  obtain ⟨hctrl, hpay, hdata⟩ := recvInto_take old m (Nat.le_of_add_le_add_left hle)
  refine ⟨hctrl, ?_, hpay ▸ h.paylen_eq⟩
  rw [hdata, List.take_append_of_le_length, List.take_take, min_eq_left (by omega), h.take_eq]
  rw [List.length_take, Buf.length_eq]
  omega

/-- What a message with a topic carries is received, if it is sent to its end. -/
theorem Carries.recvInto_sent {m : PsmqMsg cfg} {topic : CString} {body : List UInt8}
    (h : Carries m (some topic) body) (old : PsmqMsg cfg) (hcmd : m.ctrl.cmd ≠ cmdIoctl) {len : ℕ}
    (hlen : m.realMsgSize = some len) :
    (old.recvInto (m.toBytes.take len)).ctrl = m.ctrl ∧
      Carries (old.recvInto (m.toBytes.take len)) (some topic) body :=
  h.recvInto old (h.le_realMsgSize (fun h => absurd h hcmd) hlen) (h.realMsgSize_le hcmd hlen)

/-- The broker, that clears its struct first, receives a message of which only
    zeros are not sent as it is. -/
theorem received_take {m : PsmqMsg cfg} {body : List UInt8} {len : ℕ}
    (hm : m.data.bytes = body ++ List.replicate (cfg.msgMax - body.length) 0)
    (hlen : headerSize + body.length ≤ len) (hle : len ≤ headerSize + cfg.msgMax) :
    received cfg (m.toBytes.take len) = m := by
  obtain ⟨n, rfl⟩ := Nat.exists_eq_add_of_le ((Nat.le_add_right _ _).trans hlen)
  obtain ⟨hctrl, hpay, hdata⟩ := recvInto_take (.zero cfg) m (Nat.le_of_add_le_add_left hle)
  refine PsmqMsg.ext hctrl hpay (Buf.ext ?_)
  rw [hdata, hm, List.take_append, List.take_of_length_le (by omega), List.take_replicate,
    PsmqMsg.zero, Buf.zero, List.drop_replicate, List.append_assoc, List.replicate_append_replicate]
  congr 2
  omega

/-- A message carrying a topic passes the checks of the broker, if it is sent
    by a client of the broker. -/
theorem Carries.accepted {m : PsmqMsg cfg} {topic : CString} {body : List UInt8}
    (h : Carries m (some topic) body)
    (hfd : m.ctrl.cmd = cmdOpen ∨ m.ctrl.data.toNat < cfg.maxClients) : Accepted m := by
  refine ⟨topic, h.str_eq, ?_, hfd⟩
  have := h.length_le
  rwa [length_topicBytes_some, ← h.paylen_eq] at this

/-- A message accepted carries its topic and its payload. -/
theorem carries_of_accepted {m : PsmqMsg cfg} {topic : CString} (ha : Accepted m)
    (ht : str m.data.bytes = some topic) :
    Carries m (some topic) ((payloadOf m topic).take m.paylen.toNat) := by
  obtain ⟨topic', ht', hfit, -⟩ := ha
  obtain rfl := Option.mem_unique ht ht'
  obtain ⟨rest, hrest⟩ := str_eq_some_iff.1 ht
  have hlen : (payloadOf m topic).length = cfg.msgMax - (topic.length + 1) := by
    rw [List.length_drop, Buf.length_eq]
  have hpay : payloadOf m topic = rest := by
    rw [payloadOf, hrest, CString.length, List.drop_append, Nat.add_sub_cancel_left]
    simp
  have hbytes : m.data.bytes = topicBytes (some topic) ++ rest.take m.paylen.toNat ++
      rest.drop m.paylen.toNat := by
    rw [hrest, topicBytes, List.append_assoc, List.append_assoc, List.take_append_drop]
    rfl
  refine .of_bytes_eq (hpay ▸ hbytes) ?_
  · rw [List.length_take, hlen, Nat.min_eq_left]
    omega

/-! ## The messages built -/

theorem length_payloadBytes {payload : Option Ptr} {paylen : ℕ}
    (hp : ∀ p, payload = some p → paylen ≤ p.length) :
    (payloadBytes payload paylen).length = payload.elim 0 fun _ => paylen := by
  cases payload with
  | none => rfl
  | some p => simp [payloadBytes, hp p rfl]

/-- The message of a reply carries its topic and payload. -/
theorem carries_of_replyMsg {cmd data : UInt8} {topic : Option CString} {payload : Ptr}
    {paylen : ℕ} {m : PsmqMsg cfg}
    (h : replyMsg cfg cmd data topic (some payload) paylen = some m)
    (hp : paylen ≤ payload.length) (hlt : paylen < 65536) :
    m.ctrl = ⟨cmd, data⟩ ∧ Carries m topic (payload.take paylen) := by
  obtain ⟨hctrl, hpay, hb⟩ := replyMsg_eq_some h
  refine ⟨hctrl, .of_bytes_eq hb ?_⟩
  rw [hpay, UInt16.toNat_ofNat', Nat.mod_eq_of_lt hlt, List.length_take, min_eq_left hp]

theorem putPayload_eq_some {n paylen len : ℕ} {payload : Option Ptr} {body : List UInt8}
    {b b' : Buf n} (hb : b.bytes = body ++ List.replicate (n - body.length) 0)
    (h : putPayload b body.length payload paylen = some (b', len)) :
    len = (payloadBytes payload paylen).length ∧ b'.bytes = body ++ payloadBytes payload paylen ++
      List.replicate (n - (body ++ payloadBytes payload paylen).length) 0 := by
  cases payload with
  | none =>
    obtain ⟨rfl, rfl⟩ := Prod.mk.inj (Option.some.inj h)
    rw [payloadBytes, List.append_nil]
    exact ⟨rfl, hb⟩
  | some p =>
    rw [putPayload] at h
    split at h
    · next hp =>
      obtain ⟨b'', hw, he⟩ := Option.map_eq_some_iff.1 h
      obtain ⟨rfl, rfl⟩ := Prod.mk.inj he
      exact ⟨by simp [payloadBytes, hp], write_zero hb hw⟩
    · exact absurd h (by simp)

/-- The message of a request: its data are the topic, then the payload, then zeros. -/
theorem publishMsg_eq_some {cmd data : UInt8} {topic : Option CString} {payload : Option Ptr}
    {paylen : ℕ} {m : PsmqMsg cfg} (h : publishMsg cfg cmd data topic payload paylen = some m) :
    m.ctrl = ⟨cmd, data⟩ ∧ m.paylen = UInt16.ofNat (payloadBytes payload paylen).length ∧
      m.data.bytes = topicBytes topic ++ payloadBytes payload paylen ++
        List.replicate
          (cfg.msgMax - (topicBytes topic ++ payloadBytes payload paylen).length) 0 := by
  simp only [publishMsg, PsmqMsg.zero, Option.bind_eq_bind, Option.bind_eq_some_iff,
    Option.pure_def, Option.some.injEq] at h
  obtain ⟨⟨b, topiclen⟩, ht, ⟨b', len⟩, hp, rfl⟩ := h
  obtain ⟨rfl, hb⟩ := copyTopic_zero ht
  obtain ⟨rfl, hb'⟩ := putPayload_eq_some hb hp
  exact ⟨rfl, rfl, hb'⟩

/-- The message of a request carries its topic and its payload, as far as the
    length it gives. -/
theorem carries_take_of_publishMsg {cmd data : UInt8} {topic : Option CString}
    {payload : Option Ptr} {paylen : ℕ} {m : PsmqMsg cfg}
    (h : publishMsg cfg cmd data topic payload paylen = some m) :
    m.ctrl = ⟨cmd, data⟩ ∧ Carries m topic
      ((payloadBytes payload paylen).take ((payloadBytes payload paylen).length % 2 ^ 16)) := by
  obtain ⟨hctrl, hpay, hb⟩ := publishMsg_eq_some h
  rw [← List.take_append_drop ((payloadBytes payload paylen).length % 2 ^ 16)
    (payloadBytes payload paylen), ← List.append_assoc, List.append_assoc] at hb
  refine ⟨hctrl, .of_bytes_eq hb ?_⟩
  rw [hpay, UInt16.toNat_ofNat', List.length_take, min_eq_left (Nat.mod_le _ _)]

/-- The message of a request carries its topic and payload. -/
theorem carries_of_publishMsg {cmd data : UInt8} {topic : Option CString} {payload : Option Ptr}
    {paylen : ℕ} {m : PsmqMsg cfg} (h : publishMsg cfg cmd data topic payload paylen = some m)
    (hlt : paylen < 65536) :
    m.ctrl = ⟨cmd, data⟩ ∧ Carries m topic (payloadBytes payload paylen) := by
  have hle := length_payloadBytes_le payload paylen
  have hcarry := carries_take_of_publishMsg h
  rwa [Nat.mod_eq_of_lt (by omega), List.take_length] at hcarry

theorem isSome_publishMsg {cmd data : UInt8} {topic : Option CString} {payload : Option Ptr}
    {paylen : ℕ} (hp : ∀ p, payload = some p → paylen ≤ p.length)
    (hfit : (topicBytes topic).length + paylen ≤ cfg.msgMax) :
    ∃ m, publishMsg cfg cmd data topic payload paylen = some m := by
  have htopic : (topicBytes topic).length ≤ cfg.msgMax := by omega
  obtain ⟨b, hb⟩ := isSome_copyTopic (b := .zero cfg.msgMax) htopic
  obtain ⟨x, hx⟩ : ∃ x, putPayload b (topicBytes topic).length payload paylen = some x := by
    cases payload with
    | none => exact ⟨_, rfl⟩
    | some p =>
      rw [putPayload, if_pos (hp p rfl)]
      have hw : (b.write (topicBytes topic).length (p.take paylen)).isSome :=
        Buf.isSome_write_iff.2 (by rw [List.length_take]; omega)
      obtain ⟨b', hb'⟩ := Option.isSome_iff_exists.1 hw
      exact ⟨(b', paylen), by rw [hb']; rfl⟩
  refine ⟨{ ctrl := ⟨cmd, data⟩, paylen := UInt16.ofNat x.2, data := x.1 }, ?_⟩
  simp only [publishMsg, PsmqMsg.zero, hb, hx, Option.bind_eq_bind, Option.bind_some,
    Option.pure_def]

/-- An open request is received by the broker as it was built. -/
theorem received_openRequest {name : CString} {pub : PsmqMsg cfg} {len : ℕ}
    (h : publishMsg cfg cmdOpen 0 (some name) none 0 = some pub)
    (hlen : pub.realMsgSize = some len) :
    received cfg (pub.toBytes.take len) = pub ∧ pub.ctrl = ⟨cmdOpen, 0⟩ ∧
      Carries pub (some name) [] := by
  obtain ⟨hctrl, hcarry⟩ := carries_of_publishMsg h (by decide)
  have hcmd : pub.ctrl.cmd ≠ cmdIoctl := by
    rw [hctrl]
    decide
  exact ⟨received_take (publishMsg_eq_some h).2.2
    (hcarry.le_realMsgSize (fun h => absurd h hcmd) hlen) (hcarry.realMsgSize_le hcmd hlen),
    hctrl, hcarry⟩

/-- A message that can be built, whose bytes are in its struct, is sent. -/
theorem psmqPublishMsg_eq {psmq : PsmqObj} {cmd data : UInt8} {topic : Option CString}
    {payload : Option Ptr} {paylen prio len : ℕ} {pub : PsmqMsg cfg} (hpub : psmq.qpub ≠ none)
    (hq : psmq.qsub ≠ psmq.qpub) (h : publishMsg cfg cmd data topic payload paylen = some pub)
    (hlen : pub.realMsgSize = some len) (hle : len ≤ sizeofMsg cfg) :
    psmqPublishMsg psmq cmd data topic payload paylen prio =
      perform (Op.mqSend psmq.qsub psmq.qpub pub len prio) := by
  rw [psmqPublishMsg, if_neg hpub, if_neg hq, h, deref_some, ret_bind, hlen, deref_some, ret_bind,
    mqSend, if_pos hle]

/-! ## The requests sent -/

/-- The calls made for a request with the command `cmd`: it is sent to its end,
    and its reply is waited for with a timeout. -/
def Op.ofRequest (cmd : UInt8) : Op cfg → Prop
  | mqSend _ _ msg len _ => msg.ctrl.cmd = cmd ∧ msg.realMsgSize = some len
  | mqReceive _ => False
  | _ => True

section Only

variable {psmq : PsmqObj} {cmd data : UInt8} {topic : Option CString} {payload : Option Ptr}
  {paylen prio fuel : ℕ}

theorem only_psmqPublishMsg :
    (psmqPublishMsg psmq cmd data topic payload paylen prio : P cfg _).Only (Op.ofRequest cmd) := by
  refine .ite trivial <| .ite trivial <| only_deref_bind fun pub hpub =>
    only_deref_bind fun len hlen => .ite (only_perform ?_) trivial
  exact ⟨congrArg Ctrl.cmd (publishMsg_eq_some hpub).1, hlen⟩

theorem only_psmqPublishPrio :
    (psmqPublishPrio psmq topic payload paylen prio : P cfg _).Only (Op.ofRequest cmdPublish) := by
  cases topic with
  | none => trivial
  | some topic => exact .ite trivial <| .ite trivial only_psmqPublishMsg

theorem only_psmqTopicRequest :
    (psmqTopicRequest cmd psmq topic : P cfg _).Only (Op.ofRequest cmd) := by
  cases topic with
  | none => trivial
  | some topic =>
    exact .ite trivial <| .ite trivial <| .ite trivial <| .ite trivial <| .ite trivial
      only_psmqPublishMsg

theorem only_psmqIoctl {req val : ℤ} :
    (psmqIoctl psmq req val : P cfg _).Only (Op.ofRequest cmdIoctl) :=
  .ite trivial <| .ite trivial <| .ite (.ite trivial only_psmqPublishMsg) trivial

theorem only_psmqCleanup : (psmqCleanup psmq : P cfg _).Only (Op.ofRequest cmdClose) :=
  .ite trivial <| only_psmqPublishMsg.bind fun _ => only_perform_bind trivial fun _ =>
    only_perform_bind trivial fun _ => trivial

theorem only_psmqInitWq {brokername mqname : CString} :
    (psmqInitWq fuel psmq brokername mqname : P cfg _).Only (Op.ofRequest cmdOpen) := by
  have herror (psmq : PsmqObj) (e : Errno) :
      (initWqError psmq mqname e : P cfg _).Only (Op.ofRequest cmdOpen) :=
    (initWqError_only psmq mqname e).mono <| by
      rintro _ (⟨_, rfl⟩ | ⟨_, rfl⟩) <;> trivial
  refine only_perform_bind trivial fun r => ?_
  cases r with
  | error e => exact only_perform_bind trivial fun _ => trivial
  | ok qpub =>
    refine only_psmqPublishMsg.bind fun r => ?_
    cases r with
    | error e => exact herror _ e
    | ok u =>
      refine Only.bind ((awaitAck_only fuel _).mono ?_) fun x => ?_
      · rintro _ ⟨_, _, rfl⟩
        trivial
      · obtain ⟨psmq', ack⟩ := x
        match ack with
        | .error e => exact herror _ e
        | .ok 0 => trivial
        | .ok (e + 1) => exact herror _ _

/-- Connecting only sends its open request. -/
theorem only_psmqInitNamed {brokername mqname : Option CString} {maxmsg : ℤ} :
    (psmqInitNamed fuel psmq brokername mqname maxmsg : P cfg _).Only (Op.ofRequest cmdOpen) := by
  by_cases hargs : InitArgs cfg brokername mqname maxmsg
  · rw [psmqInitNamed_of_args hargs]
    cases mqname with
    | some mqname =>
      refine only_perform_bind trivial fun _ => only_perform_bind trivial fun r => ?_
      cases r with
      | error e => trivial
      | ok qsub => exact only_psmqInitWq
    | none =>
      simp only
      generalize List.range cfg.maxClients = is
      induction is with
      | nil => trivial
      | cons i is ih =>
        rw [initGenerated_cons]
        refine only_perform_bind trivial fun r => ?_
        cases r with
        | error e => exact .ite ih trivial
        | ok qsub => exact only_psmqInitWq
  · obtain ⟨e, he⟩ := psmqInitNamed_of_not_args fuel psmq hargs
    rw [he]
    trivial

end Only

/-! ## Publishing, from end to end -/

/-- What is sent, by the attempt `e`, is a publish of the topic and the payload,
    for any client receiving it: over any message, within its struct, and with
    the same priority. -/
def Delivers (topic : CString) (payload : Option Ptr) (paylen prio : ℕ) (e : Sent cfg) : Prop :=
  e.len ≤ sizeofMsg cfg ∧
  ∀ (psmq : PsmqObj) (old : PsmqMsg cfg), psmq.qpub ≠ none → psmq.qsub ≠ psmq.qpub →
    ∃ m p, Exec (psmqReceivePrio psmq old)
        [⟨.mqReceive psmq.qsub, .ok (e.msg.toBytes.take e.len, e.prio)⟩] (.ok (m, prio)) ∧
      m.ctrl.cmd = cmdPublish ∧ psmqTopic m = some topic ∧
      m.paylen.toNat = (payload.elim 0 fun _ => paylen) ∧ psmqPayload m = some p ∧
      m.paylen.toNat ≤ p.length ∧ p.take m.paylen.toNat = payloadBytes payload paylen

theorem exec_psmqReceivePrio {psmq : PsmqObj} {old : PsmqMsg cfg} (hpub : psmq.qpub ≠ none)
    (hq : psmq.qsub ≠ psmq.qpub) (bytes : List UInt8) (prio : ℕ) :
    Exec (psmqReceivePrio psmq old) [⟨.mqReceive psmq.qsub, .ok (bytes, prio)⟩]
      (.ok (old.recvInto bytes, prio)) := by
  rw [psmqReceivePrio, if_neg hpub, if_neg hq]
  exact .call (.ret _)

/-- The broker sends a message it has received as it was published. -/
theorem Carries.delivers {m : PsmqMsg cfg} {topic : CString} {payload : Option Ptr}
    {paylen prio : ℕ} (hm : Carries m (some topic) (payloadBytes payload paylen))
    (hp : ∀ p, payload = some p → paylen ≤ p.length) {slot : Option (Slot cfg)} {mq : Mqd}
    {timeout : UInt16} {e : Sent cfg} (he : IsReplyMq slot mq cmdPublish 0 (some topic)
      (some (payloadOf m topic)) m.paylen.toNat prio timeout e) :
    Delivers topic payload paylen prio e := by
  refine ⟨he.len_le, fun psmq old hpub hq => ?_⟩
  obtain ⟨hctrl, hcarry⟩ :=
    carries_of_replyMsg he.msg_eq hm.le_length_payloadOf (UInt16.toNat_lt _)
  rw [hm.paylen_eq, payloadOf, hm.payload_eq] at hcarry
  have hcmd : e.msg.ctrl.cmd ≠ cmdIoctl := by
    rw [hctrl]
    decide
  have hlen := hcarry.le_realMsgSize (fun h => absurd h hcmd) he.len_eq
  obtain ⟨hctrl', hrecv⟩ := hcarry.recvInto old hlen (hcarry.realMsgSize_le hcmd he.len_eq)
  rw [hctrl] at hctrl'
  have hstr := hrecv.str_eq
  refine ⟨_, _, he.prio_eq ▸ exec_psmqReceivePrio hpub hq _ _, congrArg Ctrl.cmd hctrl', hstr,
    hrecv.paylen_eq.trans (length_payloadBytes hp), ?_, hrecv.le_length_payloadOf, ?_⟩
  · rw [psmqPayload, if_neg (by rw [hctrl']; decide), strlen, hstr]
    rfl
  · rw [hrecv.paylen_eq]
    exact hrecv.payload_eq

/-- A message published by a client of the broker is sent, passes the checks
    of the broker, and is sent by the broker as it was published, to every
    client it serves. -/
theorem publish_round_trip (hmax : cfg.msgMax ≤ ushrtMax) {psmq : PsmqObj}
    (hpub : psmq.qpub ≠ none) (hq : psmq.qsub ≠ psmq.qpub) (hfd : psmq.fd.toNat < cfg.maxClients)
    {topic : CString} (htopic : topic.bytes[0]? = some slash) {payload : Option Ptr} {paylen : ℕ}
    (hp : ∀ p, payload = some p → paylen ≤ p.length)
    (hfit : topic.length + 1 + paylen ≤ cfg.msgMax) (prio : ℕ) :
    ∃ (pub : PsmqMsg cfg) (len : ℕ), psmqPublishPrio psmq (some topic) payload paylen prio =
        perform (Op.mqSend psmq.qsub psmq.qpub pub len prio) ∧ len ≤ sizeofMsg cfg ∧
      Accepted (received cfg (pub.toBytes.take len)) ∧
      (received cfg (pub.toBytes.take len)).ctrl.cmd = cmdPublish ∧
      (∀ (slot : Option (Slot cfg)) mq timeout,
        let reply := brokerReplyMq slot mq cmdPublish 0 (some topic)
          (some (payloadOf (received cfg (pub.toBytes.take len)) topic))
          (received cfg (pub.toBytes.take len)).paylen.toNat prio timeout
        reply.Safe ∧ ∀ tr ok, Exec reply tr ok →
          ∃ e, tr = [e.event] ∧ Delivers topic payload paylen prio e) ∧
      ∀ (s : Broker cfg) tr s', Exec (brokerStart s (pub.toBytes.take len) prio) tr s' →
        ∀ e ∈ sends tr, e.msg.ctrl.cmd = cmdPublish → Delivers topic payload paylen prio e := by
  have hlt : paylen < 65536 := by
    simp only [ushrtMax] at hmax
    omega
  obtain ⟨pub, hmsg⟩ := @isSome_publishMsg cfg cmdPublish psmq.fd (some topic) payload paylen hp (by
    rwa [Carries.length_topicBytes_some])
  obtain ⟨hctrl, hcarry⟩ := carries_of_publishMsg hmsg hlt
  have hcmd : pub.ctrl.cmd ≠ cmdIoctl := by
    rw [hctrl]
    exact (by decide : cmdPublish ≠ cmdIoctl)
  have hsize := hcarry.realMsgSize_eq hcmd
  have hlen := hcarry.realMsgSize_le hcmd hsize
  have hle := hlen.trans (Nat.le_add_right _ (cfg.msgMax % 2))
  have hrecv := received_take (publishMsg_eq_some hmsg).2.2
    (hcarry.le_realMsgSize (fun h => absurd h hcmd) hsize) hlen
  refine ⟨pub, _, ?_, hle, ?_⟩
  -- The length does not wrap, as both parts are small.
  · have hadd : sizeAdd cfg (topic.length + 1) paylen = topic.length + 1 + paylen := by
      refine Nat.mod_eq_of_lt
        (lt_of_lt_of_le (b := 2 ^ 32) ?_ (Nat.pow_le_pow_right Nat.two_pos ?_))
      · simp only [ushrtMax] at hmax
        omega
      · have := cfg.sizeWidth_eq
        omega
    rw [psmqPublishPrio, hadd, if_neg (not_not.2 hfit), if_neg (not_not.2 htopic)]
    exact psmqPublishMsg_eq hpub hq hmsg hsize hle
  -- The broker reads the message as it was built.
  rw [hrecv]
  refine ⟨hcarry.accepted (.inr (by rwa [hctrl])), congrArg Ctrl.cmd hctrl,
    fun slot mq timeout => ⟨?_, fun tr ok h => ?_⟩, fun s tr s' h e he hpublish => ?_⟩
  · have hlen' := hcarry.length_le
    rw [← hcarry.paylen_eq] at hlen'
    refine safe_brokerReplyMq (fun p hp' => ?_) hlen' (.inr (.inl (Option.some_ne_none _)))
    obtain rfl := Option.some.inj hp'
    exact hcarry.le_length_payloadOf
  · obtain ⟨e, he, rfl, -⟩ := exec_brokerReplyMq h
    exact ⟨e, rfl, hcarry.delivers hp he⟩
  · cases exec_brokerStart h with
    | dropped => exact absurd he List.not_mem_nil
    | handled _ h =>
      rw [hrecv] at h
      obtain ⟨topic', ht, h⟩ := h.of_cmd.2.2.2.2.1 (congrArg Ctrl.cmd hctrl)
      obtain rfl := Option.mem_unique hcarry.str_eq ht
      obtain ⟨fd, c, tr', c', hc, he⟩ := h.exists_of_mem he
      exact hcarry.delivers hp (hc.isReply he hpublish)

/-- A message as large as the smallest build lets it be, with zeros in its payload. -/
theorem publish_round_trip_full :
    let psmq : PsmqObj := ⟨some 2, some 3, 1⟩
    let topic : CString := ⟨[47, 97], by decide⟩
    ∃ (pub : PsmqMsg smallest) (len : ℕ), psmqPublishPrio psmq (some topic) (some [0, 7, 0]) 3 5 =
        perform (Op.mqSend (some 2) (some 3) pub len 5) ∧
      Accepted (received smallest (pub.toBytes.take len)) ∧
      ∀ (s : Broker smallest) tr s', Exec (brokerStart s (pub.toBytes.take len) 5) tr s' →
        ∀ e ∈ sends tr, e.msg.ctrl.cmd = cmdPublish → Delivers topic (some [0, 7, 0]) 3 5 e := by
  intro psmq topic
  obtain ⟨pub, len, h, -, ha, -, -, hd⟩ := @publish_round_trip smallest (by decide) psmq
    (by decide) (by decide) (by decide) topic rfl (some [0, 7, 0]) 3
    (fun p hp => by cases hp; decide) (by decide) 5
  exact ⟨pub, len, h, ha, hd⟩

/-! ## Setting the reply timeout -/

/-- The ioctl sending `bytes` gets through: the broker accepts it, sets the
    reply timeout of the client in the slot `k`, and of no other, and answers
    by one message, from which the client reads the request and the timeout. -/
def GetsThrough (s : Broker cfg) (k : Slot cfg) (val : UInt16) (bytes : List UInt8) : Prop :=
  Accepted (received cfg bytes) ∧ (brokerStart s bytes 0).Safe ∧
  ∀ tr s', Exec (brokerStart s bytes 0) tr s' →
    (s'.clients k).replyTimeout = val ∧
    (∀ j, j ≠ k → (s'.clients j).replyTimeout = (s.clients j).replyTimeout) ∧
    ∃ e, Answers k (s.clients k) cmdIoctl tr e ∧ e.len ≤ sizeofMsg cfg ∧
      ∀ old : PsmqMsg cfg, ∃ m p, m = old.recvInto (e.msg.toBytes.take e.len) ∧
        m.ctrl = ⟨cmdIoctl, 0⟩ ∧ m.paylen = 3 ∧ psmqPayload m = some p ∧
        p[0]? = some ioctlReplyTimeout ∧ loadU16 cfg.bigEndian (p.drop 1) = some val

/-- What is carried by the ioctl, and by its reply. -/
theorem take_timeoutBuf (cfg : Config) (req : UInt8) (val : UInt16) :
    (timeoutBuf cfg req val).take 3 = req :: storeU16 cfg.bigEndian val := by
  rw [timeoutBuf]
  cases cfg.bigEndian <;> rfl

/-- Read as a topic, an ioctl ends at the first zero byte of its timeout, or after it. -/
theorem length_str_timeout (be : Bool) (val : UInt16) {rest : List UInt8} {t : CString}
    (ht : str (ioctlReplyTimeout :: storeU16 be val ++ 0 :: rest) = some t) :
    t.length ≤ 3 ∧ (t.length ≤ 2 ↔ hiByte val = 0 ∨ loByte val = 0) := by
  have key : ∀ {b₀ b₁ : UInt8}, str (ioctlReplyTimeout :: b₀ :: b₁ :: 0 :: rest) = some t →
      t.length ≤ 3 ∧ (t.length ≤ 2 ↔ b₀ = 0 ∨ b₁ = 0) := by
    intro b₀ b₁ h
    by_cases h₀ : b₀ = 0
    -- The string ends at the low byte.
    · have := length_le_of_str (p := [ioctlReplyTimeout]) (h₀ ▸ h)
      simp only [List.length_cons, List.length_nil] at this
      exact ⟨by omega, iff_of_true (by omega) (.inl h₀)⟩
    by_cases h₁ : b₁ = 0
    · have := length_le_of_str (p := [ioctlReplyTimeout, b₀]) (h₁ ▸ h)
      simp only [List.length_cons, List.length_nil] at this
      exact ⟨by omega, iff_of_true (by omega) (.inr h₁)⟩
    · have ht := str_append ⟨[ioctlReplyTimeout, b₀, b₁], by
        simpa [ioctlReplyTimeout, eq_comm] using ⟨h₀, h₁⟩⟩ rest
      obtain rfl := Option.mem_unique h ht
      exact ⟨le_refl 3, iff_of_false (by decide : ¬3 ≤ 2) (by simp [h₀, h₁])⟩
  cases be with
  | true => exact key ht
  | false =>
    rw [or_comm]
    exact key ht

/-- The message of a reply-timeout ioctl, with the timeout as it is narrowed. -/
theorem psmqIoctl_eq {psmq : PsmqObj} (hlive : psmq.Live) {val : ℤ} (hval : val ≤ ushrtMax) :
    ∃ pub : PsmqMsg cfg, psmqIoctl psmq ioctlReplyTimeout.toNat val =
        perform (Op.mqSend psmq.qsub psmq.qpub pub (headerSize + 3) 0) ∧
      received cfg (pub.toBytes.take (headerSize + 3)) = pub ∧ pub.ctrl = ⟨cmdIoctl, psmq.fd⟩ ∧
      pub.paylen.toNat = 3 ∧
      pub.data.bytes = ioctlReplyTimeout :: storeU16 cfg.bigEndian (UInt16.ofInt val) ++
        List.replicate (cfg.msgMax - 3) 0 := by
  have hmax := cfg.six_le_msgMax
  obtain ⟨pub, hmsg⟩ := @isSome_publishMsg cfg cmdIoctl psmq.fd none
    (some (timeoutBuf cfg ioctlReplyTimeout (UInt16.ofInt val))) 3
    (fun p hp => by obtain rfl := Option.some.inj hp; simp [timeoutBuf])
    (by simp only [topicBytes, List.length_nil]; omega)
  obtain ⟨hctrl, hpay, hdata⟩ := publishMsg_eq_some hmsg
  simp only [payloadBytes, take_timeoutBuf, topicBytes, List.nil_append, List.length_cons,
    length_storeU16] at hpay hdata
  have hpay' : pub.paylen.toNat = 3 := by rw [hpay]; rfl
  have hsize : pub.realMsgSize = some (headerSize + 3) := by
    rw [PsmqMsg.realMsgSize, hctrl, if_pos rfl, hpay']
  refine ⟨pub, ?_, @received_take _ _ (ioctlReplyTimeout :: storeU16 cfg.bigEndian _) _
    (by simpa using hdata) (by simp) (by omega), hctrl, hpay', hdata⟩
  rw [psmqIoctl, if_neg hlive.qsub_ne, if_neg hlive.ne, if_pos rfl, if_neg (not_not.2 hval)]
  refine psmqPublishMsg_eq hlive.qpub_ne hlive.ne hmsg hsize ?_
  simp only [sizeofMsg]
  omega

/-- The message of a reply-timeout ioctl. -/
theorem psmqIoctlReplyTimeout_eq {psmq : PsmqObj} (hlive : psmq.Live) (val : UInt16) :
    ∃ pub : PsmqMsg cfg, psmqIoctlReplyTimeout psmq val =
        perform (Op.mqSend psmq.qsub psmq.qpub pub (headerSize + 3) 0) ∧
      received cfg (pub.toBytes.take (headerSize + 3)) = pub ∧ pub.ctrl = ⟨cmdIoctl, psmq.fd⟩ ∧
      pub.paylen.toNat = 3 ∧ pub.data.bytes = ioctlReplyTimeout :: storeU16 cfg.bigEndian val ++
        List.replicate (cfg.msgMax - 3) 0 := by
  -- The value goes through an `int`, and is not changed.
  have hlt := val.toNat_lt
  have hle : (val.toNat : ℤ) ≤ ushrtMax := by
    simp only [ushrtMax]
    omega
  have hval : UInt16.ofInt val.toNat = val := by
    apply UInt16.toNat_inj.1
    rw [UInt16.ofInt, UInt16.toNat_ofNat']
    omega
  obtain ⟨pub, h⟩ := @psmqIoctl_eq cfg _ hlive _ hle
  rw [hval] at h
  exact ⟨pub, h⟩

/-- The ioctl is accepted unless its timeout fills the data, with no zero byte. -/
theorem accepted_timeout_iff {m : PsmqMsg cfg} {val : UInt16}
    (hdata : m.data.bytes = ioctlReplyTimeout :: storeU16 cfg.bigEndian val ++
      List.replicate (cfg.msgMax - 3) 0) (hpay : m.paylen.toNat = 3)
    (hfd : m.ctrl.data.toNat < cfg.maxClients) :
    Accepted m ↔ 7 ≤ cfg.msgMax ∨ hiByte val = 0 ∨ loByte val = 0 := by
  have hmax := cfg.six_le_msgMax
  rw [show cfg.msgMax - 3 = cfg.msgMax - 4 + 1 by omega, List.replicate_succ] at hdata
  obtain ⟨t, ht⟩ := Option.isSome_iff_exists.1
    (isSome_str_iff (p := m.data.bytes).2 (by simp [hdata]))
  obtain ⟨h3, h2⟩ := length_str_timeout cfg.bigEndian val (hdata ▸ ht)
  rw [← h2]
  constructor
  · rintro ⟨t', ht', hfit, -⟩
    obtain rfl := Option.mem_unique ht ht'
    omega
  · exact fun h => ⟨t, ht, by omega, .inr hfd⟩

/-- The reply to the ioctl gives the request and the timeout back. -/
theorem decodes_timeout {e : Sent cfg} {slot : Option (Slot cfg)} {mq : Mqd} {val timeout : UInt16}
    (he : IsReplyMq slot mq cmdIoctl 0 none
      (some (ioctlReplyTimeout :: storeU16 cfg.bigEndian val)) 3 0 timeout e) (old : PsmqMsg cfg) :
    ∃ m p, m = old.recvInto (e.msg.toBytes.take e.len) ∧ m.ctrl = ⟨cmdIoctl, 0⟩ ∧ m.paylen = 3 ∧
      psmqPayload m = some p ∧ p[0]? = some ioctlReplyTimeout ∧
      loadU16 cfg.bigEndian (p.drop 1) = some val := by
  obtain ⟨hctrl, hcarry⟩ := carries_of_replyMsg he.msg_eq (by simp) (by decide)
  rw [List.take_of_length_le (by simp)] at hcarry
  have hpay := hcarry.paylen_eq
  have hlen := he.len_eq
  rw [PsmqMsg.realMsgSize, hctrl, if_pos rfl, hpay] at hlen
  obtain ⟨hctrl', hrecv⟩ := hcarry.recvInto old
    (hcarry.le_realMsgSize (fun _ => rfl) he.len_eq) (by
      have := cfg.six_le_msgMax
      rw [← Option.some.inj hlen]
      simp only [List.length_cons, length_storeU16]
      omega)
  rw [hctrl] at hctrl'
  have hpayload : psmqPayload (old.recvInto (e.msg.toBytes.take e.len)) = some _ :=
    if_pos (congrArg Ctrl.cmd hctrl')
  refine ⟨_, _, rfl, hctrl', UInt16.toNat_inj.1 (by rw [hrecv.paylen_eq]; simp), hpayload, ?_, ?_⟩
  · rw [hrecv.bytes_eq]
    rfl
  · rw [hrecv.bytes_eq]
    exact loadU16_storeU16 _ _ _

/-- The reply-timeout ioctl of a client of the broker gets through, whatever
    the broker is doing, exactly if a message is larger than the smallest one,
    or a byte of the timeout is zero. -/
theorem ioctl_gets_through_iff {psmq : PsmqObj} (hsub : psmq.qsub ≠ none) (hpub : psmq.qpub ≠ none)
    (hq : psmq.qsub ≠ psmq.qpub) {k : Slot cfg} (hk : psmq.fd = fdOf k) (val : UInt16) :
    ∃ (pub : PsmqMsg cfg) (len : ℕ), psmqIoctlReplyTimeout psmq val =
        perform (Op.mqSend psmq.qsub psmq.qpub pub len 0) ∧
      ∀ s : Broker cfg, GetsThrough s k val (pub.toBytes.take len) ↔
        7 ≤ cfg.msgMax ∨ hiByte val = 0 ∨ loByte val = 0 := by
  obtain ⟨pub, h, hrecv, hctrl, hpay, hdata⟩ := @psmqIoctlReplyTimeout_eq cfg _ ⟨hsub, hpub, hq⟩ val
  have hfd : slotOf cfg pub.ctrl.data = some k := by rw [hctrl, hk, slotOf_fdOf]
  have hcmd : pub.ctrl.cmd = cmdIoctl := congrArg Ctrl.cmd hctrl
  have hacc := accepted_timeout_iff hdata hpay (slotOf_eq_some_iff.1 hfd ▸ k.isLt)
  refine ⟨pub, _, h, fun s => ?_⟩
  rw [GetsThrough, hrecv, hacc]
  -- Only the checks of the main loop can stop the ioctl.
  refine and_iff_left_of_imp fun hok => ?_
  have ha := hacc.2 hok
  have hstart := @brokerStart_of_accepted cfg s _ 0 (hrecv.symm ▸ ha)
  rw [hrecv] at hstart
  refine ⟨?_, fun tr s' hex => ?_⟩
  · have := cfg.six_le_msgMax
    rw [hstart, brokerDispatch, hcmd]
    exact .bind (safe_brokerIoctl hfd (by omega) fun _ => by omega) fun _ _ _ => safe_ret _
  · have hhandle := exec_brokerStart hex
    cases hhandle with
    | dropped hna => exact absurd (hrecv.symm ▸ ha) hna
    | handled _ hh =>
      rw [hrecv] at hh
      obtain ⟨fd, req, c, hfd', hreq, hh, rfl⟩ := hh.of_cmd.2.2.2.2.2 hcmd
      obtain rfl := Option.mem_unique hfd hfd'
      obtain rfl : ioctlReplyTimeout = req := Option.some.inj (by rw [← hreq, hdata]; rfl)
      cases hh with
      | noRequest h0 => omega
      | badData _ _ h3 => exact absurd hpay h3
      | badRequest hne => exact absurd rfl hne
      | set _ _ ht he =>
        rw [hdata] at ht
        obtain rfl := Option.some.inj (ht.symm.trans (loadU16_storeU16 _ _ _))
        rw [Broker.set_clients_self]
        exact ⟨rfl, fun j hj => by rw [Broker.set_clients_of_ne _ hj], _,
          ⟨rfl, he.slot_eq, he.mq_eq, congrArg Ctrl.cmd he.cmd_eq⟩, he.len_le, decodes_timeout he⟩

/-- A client of the smallest build asking for the timeout 255. -/
theorem ioctl_gets_through_255 : ∃ (pub : PsmqMsg smallest) (len : ℕ),
    psmqIoctlReplyTimeout ⟨some 2, some 3, 1⟩ 255 =
        perform (Op.mqSend (some 2) (some 3) pub len 0) ∧
      ∀ s : Broker smallest, GetsThrough s 1 255 (pub.toBytes.take len) := by
  obtain ⟨pub, len, h, hiff⟩ := @ioctl_gets_through_iff smallest ⟨some 2, some 3, 1⟩ (by decide)
    (by decide) (by decide) 1 rfl 255
  exact ⟨pub, len, h, fun s => (hiff s).2 (by decide)⟩

/-- The broker of the smallest build drops the ioctl of a client asking for the
    timeout 257, of which no byte is zero. -/
theorem ioctl_dropped : ∃ (s : Broker smallest) (pub : PsmqMsg smallest) (len : ℕ),
    (brokerLts smallest psmqdCfgInit).Reachable s ∧ s.IsOpen 0 ∧
      psmqIoctlReplyTimeout ⟨some 2, some 3, 0⟩ 257 =
        perform (Op.mqSend (some 2) (some 3) pub len 0) ∧
      brokerStart s (pub.toBytes.take len) 0 = ret s ∧
      ¬GetsThrough s 0 257 (pub.toBytes.take len) := by
  obtain ⟨s, hs, ho⟩ : ∃ s, feed (answers smallest true) [([111, 0, 0, 0, 47, 99, 0], 0)]
      (started smallest) = some s ∧ s.IsOpen 0 := ⟨_, rfl, by decide⟩
  obtain ⟨pub, h, hrecv, hctrl, hpay, hdata⟩ := @psmqIoctlReplyTimeout_eq smallest
    ⟨some 2, some 3, 0⟩ ⟨by decide, by decide, by decide⟩ 257
  have hna : ¬Accepted (received smallest (pub.toBytes.take (headerSize + 3))) := by
    rw [hrecv, accepted_timeout_iff hdata hpay (by rw [hctrl]; decide)]
    decide
  refine ⟨s, pub, _, (reachable_of_feed hs (reachable_started _) (by decide)).1, ho, h,
    @brokerStart_of_not_accepted _ _ _ _ ⟨[1, 1, 1], by decide⟩ ?_ hna, fun h => hna h.1⟩
  rw [hrecv, hdata]
  rfl

end Psmq
