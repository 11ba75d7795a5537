import Psmq.Wire

/-!
# Numbers going through the library

The length of a payload goes from a `size_t` through a sum to an
`unsigned short`, and the timeout of an ioctl from an `int` to an
`unsigned short`.

* `psmq_publish_prio` sends the length it is given, or refuses a message that
  does not fit, exactly when the sum does not wrap, and the length fits in the
  message (`LengthKept`);
* `psmq_ioctl` sends the timeout it is given, or refuses it, exactly when it is
  not negative.
-/

namespace Psmq

open CMem Prog

variable {cfg : Config}

/-- The messages handed to `mq_send` among some calls. -/
def handed (tr : Trace cfg) : List (PsmqMsg cfg) :=
  tr.filterMap fun
    | ⟨.mqSend _ _ msg _ _, _⟩ => some msg
    | _ => none

/-- What a request hands to `mq_send` is its message. -/
theorem exec_psmqPublishMsg_handed {psmq : PsmqObj} {cmd data : UInt8} {topic : Option CString}
    {payload : Option Ptr} {paylen prio : ℕ} {tr : Trace cfg} {r : Except Errno Unit}
    (h : Exec (psmqPublishMsg psmq cmd data topic payload paylen prio) tr r) :
    ∀ msg ∈ handed tr, publishMsg cfg cmd data topic payload paylen = some msg := by
  rcases exec_psmqPublishMsg h with ⟨-, -, rfl⟩ | ⟨-, -, pub, len, hpub, -, -, rfl⟩
  · exact fun msg hmsg => absurd hmsg List.not_mem_nil
  · intro msg hmsg
    rwa [List.mem_singleton.1 hmsg]

/-- Through a live object, a request does not return before its call. -/
theorem psmqPublishMsg_ne_ret {psmq : PsmqObj} (hlive : psmq.Live) {cmd data : UInt8}
    {topic : Option CString} {payload : Option Ptr} {paylen prio : ℕ} (r : Except Errno Unit) :
    psmqPublishMsg psmq cmd data topic payload paylen prio ≠ (ret r : P cfg _) := fun h => by
  obtain ⟨_, _, -, htr⟩ := exec_psmqPublishMsg_of_live hlive (h ▸ Exec.ret r)
  simp at htr

/-! ## The length of a payload -/

/-- `psmq_publish_prio` sends the length of the payload as it is given, with a
    message that fits, or refuses the message before it copies anything. -/
def SendsLength (cfg : Config) (psmq : PsmqObj) (topic : CString) (payload : Ptr)
    (paylen prio : ℕ) : Prop :=
  (∀ tr r, Exec (psmqPublishPrio psmq (some topic) (some payload) paylen prio : P cfg _) tr r →
    ∀ msg ∈ handed tr, topic.length + 1 + paylen ≤ cfg.msgMax ∧ msg.paylen.toNat = paylen) ∧
  (cfg.msgMax < topic.length + 1 + paylen →
    psmqPublishPrio psmq (some topic) (some payload) paylen prio =
      (ret (.error ENOBUFS) : P cfg _))

/-- The sum of the lengths does not wrap to one that fits, and the length of a
    payload that fits is an `unsigned short`. -/
def LengthKept (cfg : Config) (topic : CString) (paylen : ℕ) : Prop :=
  (sizeAdd cfg (topic.length + 1) paylen ≤ cfg.msgMax → topic.length + 1 + paylen ≤ cfg.msgMax) ∧
    (topic.length + 1 + paylen ≤ cfg.msgMax → paylen ≤ ushrtMax)

/-- The payload copied in a message is readable. -/
theorem le_of_publishMsg {cmd data : UInt8} {topic : Option CString} {payload : Ptr} {paylen : ℕ}
    {m : PsmqMsg cfg} (h : publishMsg cfg cmd data topic (some payload) paylen = some m) :
    paylen ≤ payload.length := by
  simp only [publishMsg, Option.bind_eq_bind, Option.bind_eq_some_iff] at h
  obtain ⟨_, -, _, hput, -⟩ := h
  rw [putPayload] at hput
  split at hput
  · assumption
  · exact absurd hput (by simp)

/-- The length of a payload is sent modulo that of an `unsigned short`. -/
theorem paylen_of_publishMsg {cmd data : UInt8} {topic : Option CString} {payload : Ptr}
    {paylen : ℕ} {m : PsmqMsg cfg}
    (h : publishMsg cfg cmd data topic (some payload) paylen = some m) :
    m.paylen.toNat = paylen % 65536 := by
  have hlen : (payloadBytes (some payload) paylen).length = paylen :=
    length_payloadBytes fun p hp => Option.some.inj hp ▸ le_of_publishMsg h
  rw [(publishMsg_eq_some h).2.1, hlen, UInt16.toNat_ofNat']

/-- A message that fits is sent through a live object. -/
theorem exists_exec_psmqPublishPrio {psmq : PsmqObj} (hlive : psmq.Live) {topic : CString}
    (hslash : topic.bytes[0]? = some slash) {payload : Ptr} {paylen prio : ℕ}
    (hp : paylen ≤ payload.length) (hfit : topic.length + 1 + paylen ≤ cfg.msgMax) :
    ∃ pub len, publishMsg cfg cmdPublish psmq.fd (some topic) (some payload) paylen = some pub ∧
      pub.realMsgSize = some len ∧
      psmqPublishPrio psmq (some topic) (some payload) paylen prio =
        perform (Op.mqSend psmq.qsub psmq.qpub pub len prio) := by
  obtain ⟨pub, hpub⟩ := @isSome_publishMsg cfg cmdPublish psmq.fd (some topic) (some payload) paylen
    (fun p h => Option.some.inj h ▸ hp) (by simpa [topicBytes, CString.length] using hfit)
  obtain ⟨hctrl, -, hdata⟩ := publishMsg_eq_some hpub
  have hstr : str pub.data.bytes = some topic := by
    rw [hdata, topicBytes, List.append_assoc, List.append_assoc, List.singleton_append, str_append]
  have hle : pub.paylen.toNat ≤ paylen := by
    rw [paylen_of_publishMsg hpub]
    exact Nat.mod_le _ _
  have hsize : pub.realMsgSize = some (headerSize + (topic.length + 1) + pub.paylen.toNat) := by
    rw [PsmqMsg.realMsgSize, hctrl, if_neg (show cmdPublish ≠ cmdIoctl by decide), strlen, hstr]
    rfl
  refine ⟨pub, headerSize + (topic.length + 1) + pub.paylen.toNat, hpub, hsize, ?_⟩
  have hsum : sizeAdd cfg (topic.length + 1) paylen ≤ cfg.msgMax := (Nat.mod_le _ _).trans hfit
  simp only [psmqPublishPrio, if_neg (not_not.2 hsum), if_neg (not_not.2 hslash)]
  refine psmqPublishMsg_eq hlive.qpub_ne hlive.ne hpub hsize ?_
  simp only [sizeofMsg]
  omega

/-- A message too large is built, when the sum wraps to one that fits. -/
theorem not_sendsLength_of_wrap {psmq : PsmqObj} (hlive : psmq.Live) {topic : CString}
    (hslash : topic.bytes[0]? = some slash) {paylen : ℕ}
    (hsum : sizeAdd cfg (topic.length + 1) paylen ≤ cfg.msgMax)
    (hbig : cfg.msgMax < topic.length + 1 + paylen) (payload : Ptr) (prio : ℕ) :
    ¬SendsLength cfg psmq topic payload paylen prio := fun h => by
  have hret := h.2 hbig
  simp only [psmqPublishPrio, if_neg (not_not.2 hsum), if_neg (not_not.2 hslash)] at hret
  exact psmqPublishMsg_ne_ret hlive _ hret

/-- The length of a payload is sent as it is given exactly when it is kept, by
    the sum and by the message. -/
theorem sendsLength_iff {topic : CString} (hslash : topic.bytes[0]? = some slash) (paylen : ℕ) :
    (∀ psmq payload prio, SendsLength cfg psmq topic payload paylen prio) ↔
      LengthKept cfg topic paylen := by
  constructor
  · intro h
    have hlive : PsmqObj.Live ⟨some 2, some 3, 0⟩ := ⟨by decide, by decide, by decide⟩
    refine ⟨fun hsum => ?_, fun hfit => ?_⟩
    · by_contra hbig
      exact not_sendsLength_of_wrap hlive hslash hsum (not_le.1 hbig) [] 0 (h _ _ _)
    · obtain ⟨pub, len, hpub, -, heq⟩ := @exists_exec_psmqPublishPrio cfg _ hlive _ hslash
        (List.replicate paylen 0) paylen 0 (by simp) hfit
      have hsent := ((h _ _ _).1 _ (.ok ()) (heq ▸ exec_perform_iff.2 rfl) pub
        List.mem_cons_self).2
      have hlt := pub.paylen.toNat_lt
      simp only [ushrtMax]
      omega
  · rintro ⟨hsum, hshort⟩ psmq payload prio
    by_cases hle : sizeAdd cfg (topic.length + 1) paylen ≤ cfg.msgMax
    · have hfit := hsum hle
      refine ⟨fun tr r hx msg hmsg => ⟨hfit, ?_⟩, fun hbig => absurd hfit (by omega)⟩
      simp only [psmqPublishPrio, if_neg (not_not.2 hle), if_neg (not_not.2 hslash)] at hx
      have hpub := exec_psmqPublishMsg_handed hx msg hmsg
      have hshort := hshort hfit
      simp only [ushrtMax] at hshort
      rw [paylen_of_publishMsg hpub, Nat.mod_eq_of_lt (by omega)]
    · have heq : psmqPublishPrio psmq (some topic) (some payload) paylen prio =
          (ret (.error ENOBUFS) : P cfg _) := by
        simp only [psmqPublishPrio, if_pos hle]
        rfl
      refine ⟨fun tr r hx msg hmsg => ?_, fun _ => heq⟩
      rw [heq] at hx
      obtain ⟨rfl, -⟩ := exec_ret_iff.1 hx
      exact absurd hmsg List.not_mem_nil

/-! ## The timeout of an ioctl -/

/-- `psmq_ioctl` refuses the timeout and sends nothing, or sends it as it is given. -/
def SendsTimeout (cfg : Config) (psmq : PsmqObj) (val : ℤ) : Prop :=
  ∀ tr r, Exec (psmqIoctl psmq ioctlReplyTimeout.toNat val : P cfg _) tr r →
    (r = .error EINVAL ∧ tr = []) ∨
      ∀ msg ∈ handed tr, ∃ timeout, loadU16 cfg.bigEndian (msg.data.bytes.drop 1) = some timeout ∧
        (timeout.toNat : ℤ) = val

/-- A negative timeout is sent, as a positive one. -/
theorem not_sendsTimeout_of_neg {psmq : PsmqObj} (hlive : psmq.Live) {val : ℤ} (hneg : val < 0) :
    ¬SendsTimeout cfg psmq val := fun h => by
  obtain ⟨pub, heq, -⟩ := @psmqIoctl_eq cfg _ hlive val (by simp only [ushrtMax]; omega)
  rcases h _ (.ok ()) (heq ▸ exec_perform_iff.2 rfl) with ⟨-, htr⟩ | hsent
  · simp at htr
  · obtain ⟨timeout, -, heq⟩ := hsent pub List.mem_cons_self
    omega

/-- A timeout is sent as it is given exactly when it is not negative. -/
theorem sendsTimeout_iff (val : ℤ) : (∀ psmq, SendsTimeout cfg psmq val) ↔ 0 ≤ val := by
  constructor
  · intro h
    by_contra hneg
    have hlive : PsmqObj.Live ⟨some 2, some 3, 0⟩ := ⟨by decide, by decide, by decide⟩
    exact not_sendsTimeout_of_neg hlive (not_le.1 hneg) (h _)
  · intro hpos psmq tr r hx
    rw [psmqIoctl] at hx
    split_ifs at hx with h₁ h₂ h₃ hval
    · obtain ⟨rfl, -⟩ := exec_ret_iff.1 hx
      exact .inr fun msg hmsg => absurd hmsg List.not_mem_nil
    · obtain ⟨rfl, -⟩ := exec_ret_iff.1 hx
      exact .inr fun msg hmsg => absurd hmsg List.not_mem_nil
    · refine .inr fun msg hmsg => ⟨UInt16.ofInt val, ?_, ?_⟩
      · have hpub := exec_psmqPublishMsg_handed hx msg hmsg
        rw [(publishMsg_eq_some hpub).2.2, payloadBytes, take_timeoutBuf, topicBytes,
          List.nil_append, List.cons_append, List.drop_one, List.tail_cons]
        exact loadU16_storeU16 _ _ _
      · simp only [ushrtMax] at hval
        rw [UInt16.ofInt, UInt16.toNat_ofNat']
        omega
    · exact .inl (exec_ret_iff.1 hx).symm
    · exact .inl (exec_ret_iff.1 hx).symm

/-- Numbers are not narrowed exactly when they are kept: the length of a payload
    by the sum and by the message, and a timeout because it is not negative. -/
theorem numbers_kept_iff : (∀ topic paylen, topic.bytes[0]? = some slash →
      ((∀ psmq payload prio, SendsLength cfg psmq topic payload paylen prio) ↔
        LengthKept cfg topic paylen)) ∧
    ∀ val, (∀ psmq, SendsTimeout cfg psmq val) ↔ 0 ≤ val :=
  ⟨fun _ paylen hslash => sendsLength_iff hslash paylen, sendsTimeout_iff⟩

/-- On `/a`, the smallest build sends three bytes, and the timeout 255. -/
theorem numbers_kept_iff_smallest :
    (∀ psmq payload prio, SendsLength smallest psmq ⟨[47, 97], by decide⟩ payload 3 prio) ∧
      ∀ psmq, SendsTimeout smallest psmq 255 :=
  ⟨(numbers_kept_iff.1 ⟨[47, 97], by decide⟩ 3 rfl).2 ⟨by decide, by decide⟩,
    (numbers_kept_iff.2 255).2 (by decide)⟩

/-- A payload of `SIZE_MAX` bytes is not refused, and a timeout of -1 is sent. -/
theorem numbers_narrowed :
    (∀ payload prio, ¬SendsLength smallest ⟨some 2, some 3, 0⟩ ⟨[47, 97], by decide⟩ payload
      (2 ^ 64 - 1) prio) ∧
    ¬SendsTimeout smallest ⟨some 2, some 3, 0⟩ (-1) := by
  have hlive : PsmqObj.Live ⟨some 2, some 3, 0⟩ := ⟨by decide, by decide, by decide⟩
  exact ⟨not_sendsLength_of_wrap hlive rfl (by decide) (by decide),
    not_sendsTimeout_of_neg hlive (by decide)⟩

end Psmq
