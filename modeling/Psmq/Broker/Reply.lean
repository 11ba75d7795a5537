import Psmq.Broker

/-!
# The replies of the broker

What the broker sends: the message of a reply (`replyMsg`), and the attempt to
deliver it (`Sent`), read off the calls of an execution (`sends`). A reply is
one attempt, whether it succeeds or not, and changes nothing but the counter of
missed messages of the client (`exec_brokerReply`).
-/

namespace Psmq

open CMem Prog

variable {cfg : Config}

/-! ## The message of a reply -/

/-- The bytes of a topic in a message, with its NUL. -/
def topicBytes : Option CString → List UInt8
  | none => []
  | some topic => topic.bytes ++ [0]

/-- The bytes of a payload in a message. -/
def payloadBytes (payload : Option Ptr) (paylen : ℕ) : List UInt8 :=
  match payload with
  | none => []
  | some payload => payload.take paylen

theorem length_payloadBytes_le (payload : Option Ptr) (paylen : ℕ) :
    (payloadBytes payload paylen).length ≤ paylen := by
  cases payload <;> simp [payloadBytes]

/-- The bytes written to a cleared buffer are followed by zeros. -/
theorem write_zero {n : ℕ} {body src : List UInt8} {b b' : Buf n}
    (hb : b.bytes = body ++ List.replicate (n - body.length) 0)
    (h : b.write body.length src = some b') :
    b'.bytes = body ++ src ++ List.replicate (n - (body ++ src).length) 0 := by
  rw [(Buf.bytes_of_write h).2, hb, List.take_left, List.drop_append, List.drop_replicate,
    List.drop_eq_nil_of_le (by omega), List.nil_append, List.length_append]
  congr 2
  omega

theorem copyTopic_zero {n topiclen : ℕ} {topic : Option CString} {b : Buf n}
    (h : copyTopic (.zero n) topic = some (b, topiclen)) :
    topiclen = (topicBytes topic).length ∧ b.bytes = topicBytes topic ++
      List.replicate (n - (topicBytes topic).length) 0 := by
  cases topic with
  | none =>
    obtain ⟨rfl, rfl⟩ := Prod.mk.inj (Option.some.inj h)
    exact ⟨rfl, rfl⟩
  | some topic =>
    obtain ⟨b', hb, he⟩ := Option.map_eq_some_iff.1 h
    obtain ⟨rfl, rfl⟩ := Prod.mk.inj he
    exact ⟨by simp [topicBytes, CString.length], @write_zero n [] _ (.zero n) _ rfl hb⟩

theorem copyPayload_zero {n paylen : ℕ} {payload : Option Ptr} {body : List UInt8} {b b' : Buf n}
    (hb : b.bytes = body ++ List.replicate (n - body.length) 0)
    (h : copyPayload b body.length payload paylen = some b') :
    b'.bytes = body ++ payloadBytes payload paylen ++
      List.replicate (n - (body ++ payloadBytes payload paylen).length) 0 := by
  cases payload with
  | none =>
    obtain rfl := Option.some.inj h
    rw [payloadBytes, List.append_nil]
    exact hb
  | some payload =>
    rw [copyPayload] at h
    split at h
    · next h0 =>
      obtain rfl := Option.some.inj h
      rw [payloadBytes, h0, List.take_zero, List.append_nil]
      exact hb
    · split at h
      · exact write_zero hb h
      · exact absurd h (by simp)

/-- The message of a reply: its data are the topic, then the payload, then zeros. -/
theorem replyMsg_eq_some {cmd data : UInt8} {topic : Option CString} {payload : Option Ptr}
    {paylen : ℕ} {msg : PsmqMsg cfg} (h : replyMsg cfg cmd data topic payload paylen = some msg) :
    msg.ctrl = ⟨cmd, data⟩ ∧ msg.paylen = UInt16.ofNat paylen ∧
      msg.data.bytes = topicBytes topic ++ payloadBytes payload paylen ++
        List.replicate
          (cfg.msgMax - (topicBytes topic ++ payloadBytes payload paylen).length) 0 := by
  simp only [replyMsg, PsmqMsg.zero, Option.bind_eq_bind, Option.bind_eq_some_iff,
    Option.pure_def, Option.some.injEq] at h
  obtain ⟨⟨b, topiclen⟩, ht, b', hp, rfl⟩ := h
  obtain ⟨rfl, hb⟩ := copyTopic_zero ht
  exact ⟨rfl, rfl, copyPayload_zero hb hp⟩

theorem isSome_copyTopic {n : ℕ} {topic : Option CString} {b : Buf n}
    (h : (topicBytes topic).length ≤ n) :
    ∃ b', copyTopic b topic = some (b', (topicBytes topic).length) := by
  cases topic with
  | none => exact ⟨b, rfl⟩
  | some topic =>
    rw [topicBytes, List.length_append] at h ⊢
    obtain ⟨b', hb⟩ := Option.isSome_iff_exists.1 (Buf.isSome_strcpy_iff (b := b).2 h)
    exact ⟨b', by rw [copyTopic, hb]; rfl⟩

theorem isSome_copyPayload {n topiclen paylen : ℕ} {payload : Option Ptr} {b : Buf n}
    (hp : ∀ p, payload = some p → paylen ≤ p.length) (h : topiclen + paylen ≤ n) :
    (copyPayload b topiclen payload paylen).isSome := by
  cases payload with
  | none => rfl
  | some p =>
    rw [copyPayload]
    split
    · rfl
    · rw [if_pos (hp p rfl), Buf.isSome_write_iff, List.length_take]
      omega

/-- A reply is built as soon as the payload is readable, and it fits with the topic. -/
theorem isSome_replyMsg {cmd data : UInt8} {topic : Option CString} {payload : Option Ptr}
    {paylen : ℕ} (hp : ∀ p, payload = some p → paylen ≤ p.length)
    (hfit : (topicBytes topic).length + paylen ≤ cfg.msgMax) :
    (replyMsg cfg cmd data topic payload paylen).isSome := by
  have htopic : (topicBytes topic).length ≤ cfg.msgMax := by omega
  obtain ⟨b, hb⟩ := isSome_copyTopic (b := .zero cfg.msgMax) htopic
  obtain ⟨b', hb'⟩ := Option.isSome_iff_exists.1 (isSome_copyPayload (b := b) hp hfit)
  simp [replyMsg, PsmqMsg.zero, hb, hb']

/-! ## Attempts to send -/

/-- An attempt of the broker to send a message. -/
structure Sent (cfg : Config) where
  /-- The slot on behalf of which it is sent. -/
  slot : Option (Slot cfg)
  mq : Mqd
  msg : PsmqMsg cfg
  len : ℕ
  prio : ℕ
  timeout : UInt16
  /-- The message was put on the queue. -/
  ok : Bool
  deriving DecidableEq

/-- The call an attempt is. -/
def Sent.event (e : Sent cfg) : Event (Op cfg) Op.Res :=
  ⟨.mqTimedsend e.slot e.mq e.msg e.len e.prio e.timeout, e.ok⟩

/-- The attempt a call is, if it is one. -/
def sentOf : Event (Op cfg) Op.Res → Option (Sent cfg)
  | ⟨.mqTimedsend slot mq msg len prio timeout, ok⟩ => some ⟨slot, mq, msg, len, prio, timeout, ok⟩
  | _ => none

/-- The attempts of an execution. -/
def sends (tr : Trace cfg) : List (Sent cfg) := tr.filterMap sentOf

/-- The attempts of an execution to send to the client in a slot. -/
def sendsTo (fd : Slot cfg) (tr : Trace cfg) : List (Sent cfg) :=
  (sends tr).filter fun e => e.slot = some fd

@[simp] theorem sends_nil : sends ([] : Trace cfg) = [] := rfl

@[simp] theorem sends_append (tr₁ tr₂ : Trace cfg) :
    sends (tr₁ ++ tr₂) = sends tr₁ ++ sends tr₂ := List.filterMap_append

@[simp] theorem sends_event (e : Sent cfg) (tr : Trace cfg) :
    sends (e.event :: tr) = e :: sends tr := rfl

@[simp] theorem sends_mqOpen (name : CString) (flags : OpenFlags)
    (r : Op.Res (.mqOpen name flags : Op cfg)) (tr : Trace cfg) :
    sends (⟨.mqOpen name flags, r⟩ :: tr) = sends tr := rfl

@[simp] theorem sends_mqClose (mq : Mqd) (r : Op.Res (.mqClose mq : Op cfg))
    (tr : Trace cfg) : sends (⟨.mqClose mq, r⟩ :: tr) = sends tr := rfl

@[simp] theorem sends_mqUnlink (name : CString) (r : Op.Res (.mqUnlink name : Op cfg))
    (tr : Trace cfg) : sends (⟨.mqUnlink name, r⟩ :: tr) = sends tr := rfl

@[simp] theorem sends_mqTimedreceive (mq : Mqd) (ms : ℕ)
    (r : Op.Res (.mqTimedreceive mq ms : Op cfg)) (tr : Trace cfg) :
    sends (⟨.mqTimedreceive mq ms, r⟩ :: tr) = sends tr := rfl

@[simp] theorem sends_malloc (size : ℕ) (r : Op.Res (.malloc size : Op cfg))
    (tr : Trace cfg) : sends (⟨.malloc size, r⟩ :: tr) = sends tr := rfl

@[simp] theorem sendsTo_append (fd : Slot cfg) (tr₁ tr₂ : Trace cfg) :
    sendsTo fd (tr₁ ++ tr₂) = sendsTo fd tr₁ ++ sendsTo fd tr₂ := by
  simp [sendsTo, List.filter_append]

/-- The client after an attempt to send it a message. -/
def Client.sent (c : Client) (ok : Bool) : Client :=
  { c with missedPubs := if ok then 0 else c.missedPubs + 1 }

@[simp] theorem Client.sent_mq (c : Client) (ok : Bool) : (c.sent ok).mq = c.mq := rfl

/-- The attempt `e` is the reply `psmqd_broker_reply_mq` makes with these arguments. -/
structure IsReplyMq (slot : Option (Slot cfg)) (mq : Mqd) (cmd data : UInt8)
    (topic : Option CString) (payload : Option Ptr) (paylen prio : ℕ) (timeout : UInt16)
    (e : Sent cfg) : Prop where
  slot_eq : e.slot = slot
  mq_eq : e.mq = mq
  msg_eq : replyMsg cfg cmd data topic payload paylen = some e.msg
  len_eq : e.msg.realMsgSize = some e.len
  len_le : e.len ≤ sizeofMsg cfg
  prio_eq : e.prio = prio
  timeout_eq : e.timeout = timeout

/-- The attempt `e` is a reply to the client `c`, in the slot `fd`. -/
abbrev IsReply (fd : Slot cfg) (c : Client) (cmd data : UInt8) (topic : Option CString)
    (payload : Option Ptr) (paylen prio : ℕ) (e : Sent cfg) : Prop :=
  IsReplyMq (some fd) c.mq cmd data topic payload paylen prio c.replyTimeout e

theorem IsReplyMq.cmd_eq {slot : Option (Slot cfg)} {mq : Mqd} {cmd data : UInt8}
    {topic : Option CString} {payload : Option Ptr} {paylen prio : ℕ} {timeout : UInt16}
    {e : Sent cfg} (h : IsReplyMq slot mq cmd data topic payload paylen prio timeout e) :
    e.msg.ctrl = ⟨cmd, data⟩ := (replyMsg_eq_some h.msg_eq).1

theorem exec_mqTimedsend {slot : Option (Slot cfg)} {mq : Mqd} {msg : PsmqMsg cfg}
    {len prio : ℕ} {timeout : UInt16} {tr : Trace cfg} {ok : Bool}
    (h : Exec (mqTimedsend slot mq msg len prio timeout) tr ok) :
    len ≤ sizeofMsg cfg ∧ tr = [⟨.mqTimedsend slot mq msg len prio timeout, ok⟩] := by
  rw [mqTimedsend] at h
  split at h
  · exact ⟨‹_›, exec_perform_iff.1 h⟩
  · exact absurd h (by simp)

/-- A reply is one attempt to send its message, within the struct. -/
theorem exec_brokerReplyMq {slot : Option (Slot cfg)} {mq : Mqd} {cmd data : UInt8}
    {topic : Option CString} {payload : Option Ptr} {paylen prio : ℕ} {timeout : UInt16}
    {tr : Trace cfg} {ok : Bool}
    (h : Exec (brokerReplyMq slot mq cmd data topic payload paylen prio timeout) tr ok) :
    ∃ e, IsReplyMq slot mq cmd data topic payload paylen prio timeout e ∧ tr = [e.event] ∧
      ok = e.ok := by
  obtain ⟨msg, hmsg, h₁⟩ := exec_deref_bind_iff.1 h
  obtain ⟨len, hlen, h₂⟩ := exec_deref_bind_iff.1 h₁
  obtain ⟨hle, rfl⟩ := exec_mqTimedsend h₂
  exact ⟨⟨slot, mq, msg, len, prio, timeout, ok⟩, ⟨rfl, rfl, hmsg, hlen, hle, rfl, rfl⟩, rfl, rfl⟩

/-- A reply to the client in a slot is one attempt to send its message, counted
    by the client. -/
theorem exec_brokerReply {s s' : Broker cfg} {fd : Slot cfg} {cmd data : UInt8}
    {topic : Option CString} {payload : Option Ptr} {paylen prio : ℕ} {tr : Trace cfg} {rc : ℤ}
    (h : Exec (brokerReply s fd cmd data topic payload paylen prio) tr (s', rc)) :
    ∃ e, IsReply fd (s.clients fd) cmd data topic payload paylen prio e ∧ tr = [e.event] ∧
      s' = s.set fd ((s.clients fd).sent e.ok) ∧ rc = if e.ok then 0 else -1 := by
  obtain ⟨_, ok, _, h₁, h₂, rfl⟩ := exec_bind_iff.1 h
  obtain ⟨e, he, rfl, rfl⟩ := exec_brokerReplyMq h₁
  refine ⟨e, he, ?_⟩
  cases hok : e.ok <;>
  · rw [hok] at h₂
    obtain ⟨rfl, h₃⟩ := exec_ret_iff.1 h₂
    obtain ⟨rfl, rfl⟩ := Prod.mk.inj h₃
    exact ⟨rfl, rfl, rfl⟩

/-! ## Safety -/

/-- The bytes of a message to send are in its struct, if its topic and payload
    are in its data. -/
theorem realMsgSize_le {msg : PsmqMsg cfg} {len : ℕ} (h : msg.realMsgSize = some len)
    (hfit : ∀ t, str msg.data.bytes = some t → t.length + 1 + msg.paylen.toNat ≤ cfg.msgMax)
    (hpay : msg.paylen.toNat ≤ cfg.msgMax) : len ≤ sizeofMsg cfg := by
  rw [PsmqMsg.realMsgSize] at h
  split at h
  · obtain rfl := Option.some.inj h
    simp only [sizeofMsg]
    omega
  · simp only [strlen, Option.map_map, Option.map_eq_some_iff] at h
    obtain ⟨t, ht, rfl⟩ := h
    have := hfit t ht
    simp only [sizeofMsg, Function.comp_apply]
    omega

end Psmq
