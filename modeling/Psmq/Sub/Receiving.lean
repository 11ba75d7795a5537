import Psmq.Sub.Startup
import Psmq.Wire

/-!
# Messages printed by psmq-sub

What `psmq-sub` makes of the messages it receives from the broker, once it is
in its loop.

* `PrintedAs`: a payload is printed as a text if it is one, with its NUL, and
  as bytes otherwise; `is_payload_binary` tells which (`Carries.printed`);
* `step_sent`: no message of the broker makes `on_receive` read out of the
  message, and a copy of a publication carries its topic and payload
  (`CopyOf.printed`); of another message, `Tells` says what is printed;
* `exec_loop`: the loop prints the messages received, each once and in order.

Together they are `received_printed`: what is printed of a message is read off
the bytes received (`Shows`).
-/

namespace Psmq

open CMem Prog

variable {cfg : Config}

/-! ## Texts and bytes -/

/-- The payload is a text with its NUL. -/
structure TextOf (body : List UInt8) (t : CString) : Prop where
  ne_nil : t.bytes ≠ []
  printable : ∀ c ∈ t.bytes, isText c = true
  eq : body = t.bytes ++ [0]

/-- What is printed of a message published with some priority and topic. -/
inductive PrintedAs (prio : ℕ) (topic : CString) (body : List UInt8) : Report → Prop
  | text {t : CString} : TextOf body t → PrintedAs prio topic body (.text prio t.length topic t)
  | binary : (∀ t, ¬TextOf body t) →
      PrintedAs prio topic body (.binary prio body.length topic body)

theorem TextOf.unique {body : List UInt8} {t u : CString} (ht : TextOf body t)
    (hu : TextOf body u) : t = u :=
  CString.ext (List.append_cancel_right (ht.eq.symm.trans hu.eq))

/-- A payload is printed in one way. -/
theorem PrintedAs.unique {prio : ℕ} {topic : CString} {body : List UInt8} {r r' : Report}
    (h : PrintedAs prio topic body r) (h' : PrintedAs prio topic body r') : r = r' := by
  cases h with
  | text ht =>
    cases h' with
    | text hu => rw [ht.unique hu]
    | binary hno => exact absurd ht (hno _)
  | binary hno =>
    cases h' with
    | text hu => exact absurd hu (hno _)
    | binary => rfl

/-- The loop finds a byte that is not printed, or looks at the last byte. -/
theorem binaryLoop_eq {n : ℕ} {payload : Ptr} (hn : n < payload.length) :
    binaryLoop n payload =
      some (decide ¬((payload.take n).all isText = true ∧ payload[n]? = some 0)) := by
  induction n generalizing payload with
  | zero =>
    cases payload with
    | nil => exact absurd hn (Nat.not_lt_zero 0)
    | cons c payload => simp [binaryLoop]
  | succ n ih =>
    cases payload with
    | nil => exact absurd hn (Nat.not_lt_zero _)
    | cons c payload =>
      rw [binaryLoop]
      split
      · next hc => simp [hc]
      · next hc =>
        rw [ih (Nat.lt_of_succ_lt_succ hn)]
        simp [not_not.1 hc]

/-- A payload is binary unless it is a text. -/
theorem isPayloadBinary_eq {body rest : List UInt8} :
    ∃ b, isPayloadBinary (body ++ rest) body.length = some b ∧
      (b = false ↔ ∃ t, TextOf body t) := by
  rw [isPayloadBinary]
  split
  · next hshort =>
    refine ⟨true, rfl, iff_of_false Bool.noConfusion ?_⟩
    rintro ⟨t, hne, -, rfl⟩
    have := List.length_pos_iff.2 hne
    simp only [List.length_append, List.length_singleton] at hshort
    omega
  · next hlong =>
    obtain ⟨hzero, hone⟩ := not_or.1 hlong
    have hlt : body.length - 1 < (body ++ rest).length := by
      rw [List.length_append]
      omega
    refine ⟨_, binaryLoop_eq hlt, ?_⟩
    rw [decide_eq_false_iff_not, not_not]
    -- The bytes looked at are those of the payload, the last one apart.
    obtain ⟨init, c, rfl⟩ : ∃ init c, body = init ++ [c] :=
      ⟨_, _, (List.dropLast_append_getLast (List.length_pos_iff.1 (by omega))).symm⟩
    have hinit : init ≠ [] := by
      rintro rfl
      exact hone rfl
    have hlen : (init ++ [c]).length - 1 = init.length := by simp
    rw [hlen, List.append_assoc, List.take_left, List.getElem?_append_right (le_refl _),
      Nat.sub_self, List.all_eq_true]
    constructor
    · rintro ⟨hall, hc⟩
      obtain rfl : c = 0 := by simpa using hc
      refine ⟨⟨init, fun h0 => ?_⟩, hinit, hall, rfl⟩
      exact absurd (hall 0 h0) (by decide)
    · rintro ⟨t, -, hall, heq⟩
      obtain ⟨rfl, hc⟩ := List.append_inj' heq rfl
      exact ⟨hall, by simpa using hc⟩

/-- A message published is printed as its payload is, and the program goes on. -/
theorem Carries.printed {m : PsmqMsg cfg} {topic : CString} {body : List UInt8}
    (h : Carries m (some topic) body) (hcmd : m.ctrl.cmd = cmdPublish) (prio : ℕ) :
    ∃ r, onReceive m prio = some (r, true) ∧ PrintedAs prio topic body r := by
  have hc : cmdPublish ≠ cmdClose := by decide
  have hi : cmdPublish ≠ cmdIoctl := by decide
  have hpayload : psmqPayload m = some (payloadOf m topic) := by
    rw [psmqPayload, if_neg (by rw [hcmd]; exact hi), strlen, h.str_eq]
    rfl
  obtain ⟨rest, hrest⟩ : ∃ rest, payloadOf m topic = body ++ rest :=
    ⟨_, by rw [← h.payload_eq, List.take_append_drop]⟩
  obtain ⟨b, hb, hiff⟩ := @isPayloadBinary_eq body rest
  simp only [onReceive, hpayload, hcmd, if_neg hc, if_neg hi, if_true, psmqTopic, h.str_eq,
    h.paylen_eq, hrest, hb, Option.bind_eq_bind, Option.bind_some, Option.pure_def]
  cases b with
  | true =>
    refine ⟨_, ?_, .binary fun t ht => Bool.noConfusion (hiff.2 ⟨t, ht⟩)⟩
    rw [if_pos rfl, if_pos (by simp), List.take_left]
  | false =>
    obtain ⟨t, ht⟩ := hiff.1 rfl
    have hstr : str (body ++ rest) = some t := by
      rw [ht.eq, List.append_assoc, List.singleton_append, str_append]
    refine ⟨_, ?_, .text ht⟩
    simp only [Bool.false_eq_true, if_false, hstr, Option.bind_some]
    rw [ht.eq]
    simp [CString.length]

/-! ## The messages of the broker -/

/-- What is printed of a message that is not published, from its bytes, and
    whether the program goes on. The timeout is read after the byte of the
    ioctl, as far as these bytes were sent. -/
inductive Tells (cfg : Config) (bytes : List UInt8) : Report → Bool → Prop
  | closed : bytes[0]? = some cmdClose → Tells cfg bytes .closed false
  | timeoutSet {t : UInt16} : bytes[0]? = some cmdIoctl →
      (∀ u, loadU16 cfg.bigEndian (bytes.drop (headerSize + 1)) = some u → t = u) →
      Tells cfg bytes (.timeoutSet t) true
  | unknownCmd {cmd : UInt8} : bytes[0]? = some cmd → cmd ∉ [cmdPublish, cmdClose, cmdIoctl] →
      Tells cfg bytes (.unknownCmd cmd) false

/-- A message, of which `len` bytes are sent, is read in its data once it is
    received, and what is told is read off these bytes. -/
def Legible (m : PsmqMsg cfg) (len : ℕ) : Prop :=
  ∀ (stack : PsmqMsg cfg) prio, ∃ r goOn,
    onReceive (stack.recvInto (m.toBytes.take len)) prio = some (r, goOn) ∧
      Tells cfg (m.toBytes.take len) r goOn

theorem loadU16_take_append {be : Bool} {p q : Ptr} {n : ℕ} {u : UInt16} (h : loadU16 be p = some u)
    (hn : 2 ≤ n) : loadU16 be ((p ++ q).take n) = some u := by
  obtain ⟨n, rfl⟩ := Nat.exists_eq_add_of_le hn
  match p with
  | [] | [_] => simp [loadU16] at h
  | b₀ :: b₁ :: p => simpa [loadU16, Nat.add_comm 2 n] using h

/-- What is not published is read up to its first NUL only, or in its first bytes. -/
theorem exists_onReceive {stack : PsmqMsg cfg} {bytes : List UInt8} {cmd : UInt8}
    (hbytes : bytes[0]? = some cmd) (hcmd : cmd ≠ cmdPublish)
    (h : cmd ≠ cmdIoctl → 0 ∈ (stack.recvInto bytes).data.bytes) (prio : ℕ) :
    ∃ r goOn, onReceive (stack.recvInto bytes) prio = some (r, goOn) ∧ Tells cfg bytes r goOn := by
  have hctrl : (stack.recvInto bytes).ctrl.cmd = cmd := recvInto_cmd hbytes
  have hmax := cfg.six_le_msgMax
  by_cases hi : cmd = cmdIoctl
  · subst hi
    have hc : cmdIoctl ≠ cmdClose := by decide
    obtain ⟨b₀, b₁, b₂, bs, hb⟩ : ∃ b₀ b₁ b₂ bs,
        (stack.recvInto bytes).data.bytes = b₀ :: b₁ :: b₂ :: bs := by
      have hlen := (stack.recvInto bytes).data.length_eq
      match hm : (stack.recvInto bytes).data.bytes with
      | [] | [_] | [_, _] =>
        rw [hm] at hlen
        simp only [List.length_nil, List.length_cons] at hlen
        omega
      | b₀ :: b₁ :: b₂ :: bs => exact ⟨b₀, b₁, b₂, bs, rfl⟩
    obtain ⟨t, ht⟩ : ∃ t, loadU16 cfg.bigEndian (stack.recvInto bytes).data.bytes.tail = some t :=
      ⟨_, by rw [hb]; rfl⟩
    refine ⟨.timeoutSet t, true, by simp [onReceive, psmqPayload, hctrl, hc, ht],
      .timeoutSet hbytes fun u hu => ?_⟩
    -- The data start with the bytes received after the header.
    have hdata : (stack.recvInto bytes).data.bytes.tail = ((bytes.drop (headerSize + 1) ++
        (stack.toBytes.drop bytes.length).drop (headerSize + 1 - bytes.length)).take
          (cfg.msgMax - 1)) := by
      rw [PsmqMsg.recvInto, ← List.drop_one, List.drop_take, List.drop_drop, List.drop_append]
    rw [hdata, loadU16_take_append hu (by omega)] at ht
    exact (Option.some.inj ht).symm
  · obtain ⟨s, hs⟩ := Option.isSome_iff_exists.1 (isSome_str_iff.2 (h hi))
    obtain ⟨p, hp⟩ : ∃ p, psmqPayload (stack.recvInto bytes) = some p :=
      ⟨_, by rw [psmqPayload, if_neg (by rwa [hctrl]), strlen, hs]; rfl⟩
    by_cases hc : cmd = cmdClose
    · subst hc
      exact ⟨.closed, false, by simp [onReceive, hp, hctrl], .closed hbytes⟩
    · exact ⟨.unknownCmd cmd, false, by simp [onReceive, hp, hctrl, hc, hi, hcmd],
        .unknownCmd hbytes (by simp [hcmd, hc, hi])⟩

/-- A message that is not published is legible, if it is sent with its first NUL. -/
theorem legible_of_realMsgSize {m : PsmqMsg cfg} {len : ℕ} (hcmd : m.ctrl.cmd ≠ cmdPublish)
    (hlen : m.realMsgSize = some len)
    (hle : m.ctrl.cmd ≠ cmdIoctl → len ≤ headerSize + cfg.msgMax) : Legible m len := by
  intro stack prio
  have hpos : 0 < len := by
    rw [PsmqMsg.realMsgSize] at hlen
    split at hlen
    · obtain rfl := Option.some.inj hlen
      simp only [headerSize]
      omega
    · obtain ⟨l, -, rfl⟩ := Option.map_eq_some_iff.1 hlen
      simp only [headerSize]
      omega
  have hbytes : (m.toBytes.take len)[0]? = some m.ctrl.cmd := by
    rw [List.getElem?_take_of_lt hpos]
    rfl
  refine exists_onReceive hbytes hcmd (fun hi => ?_) prio
  have hle := hle hi
  rw [PsmqMsg.realMsgSize, if_neg hi] at hlen
  obtain ⟨l, hl, rfl⟩ := Option.map_eq_some_iff.1 hlen
  obtain ⟨s, hs, rfl⟩ := Option.map_eq_some_iff.1 hl
  obtain ⟨rest, hrest⟩ := str_eq_some_iff.1 hs
  rw [Nat.add_assoc] at hle ⊢
  rw [(recvInto_take stack m (Nat.le_of_add_le_add_left hle)).2.2]
  refine List.mem_append_left _ (List.mem_of_getElem? (i := s.length) ?_)
  rw [List.getElem?_take_of_lt (by omega), hrest, CString.length,
    List.getElem?_append_right (le_refl _), Nat.sub_self]
  rfl

/-- The replies that carry a topic, or a byte, are legible. -/
theorem IsReplyMq.legible {slot : Option (Slot cfg)} {mq : Mqd} {cmd data : UInt8}
    {topic : Option CString} {payload : Option Ptr} {paylen prio : ℕ} {timeout : UInt16}
    {e : Sent cfg} (h : IsReplyMq slot mq cmd data topic payload paylen prio timeout e)
    (hcmd : cmd ≠ cmdPublish) (hpay : cmd ≠ cmdIoctl → paylen = 0 ∨ topic = none ∧ paylen = 1) :
    Legible e.msg e.len := by
  have hctrl := h.cmd_eq
  obtain ⟨-, hpaylen, hbytes⟩ := replyMsg_eq_some h.msg_eq
  refine legible_of_realMsgSize (by rwa [hctrl]) h.len_eq fun hi => ?_
  have hlen := h.len_eq
  rw [PsmqMsg.realMsgSize, if_neg hi] at hlen
  obtain ⟨l, hl, hlen⟩ := Option.map_eq_some_iff.1 hlen
  obtain ⟨s, hs, rfl⟩ := Option.map_eq_some_iff.1 hl
  rw [← hlen, hpaylen]
  rw [hctrl] at hi
  have hmax := cfg.six_le_msgMax
  rcases hpay hi with rfl | ⟨rfl, rfl⟩
  · have := length_lt_of_str hs
    rw [Buf.length_eq] at this
    simp only [UInt16.toNat_ofNat', Nat.zero_mod]
    omega
  · -- The byte is followed by zeros: the string is this byte at most.
    have hone := length_payloadBytes_le payload 1
    obtain ⟨n, hn⟩ := Nat.exists_eq_add_of_lt
      (show (payloadBytes payload 1).length < cfg.msgMax by omega)
    rw [hbytes, topicBytes, List.nil_append, hn,
      show (payloadBytes payload 1).length + n + 1 - (payloadBytes payload 1).length = n + 1 by
        omega, List.replicate_succ] at hs
    have := length_le_of_str hs
    have hpow : (UInt16.ofNat 1).toNat = 1 := rfl
    rw [hpow]
    omega

theorem Close.legible {fd : Slot cfg} {c c' : Client} {tr : Trace cfg} (h : Close fd c tr c')
    {e : Sent cfg} (he : e ∈ sends tr) :
    e.msg.ctrl.cmd ≠ cmdPublish ∧ Legible e.msg e.len := by
  obtain ⟨e', he', hs, -⟩ := h.spec
  obtain rfl := List.mem_singleton.1 (hs ▸ he)
  exact ⟨by rw [he'.cmd_eq]; decide, he'.legible (by decide) fun _ => .inl rfl⟩

theorem Serve.legible {topic : CString} {payload : Ptr} {paylen prio : ℕ} {fd : Slot cfg}
    {nodes : List CString} {c c' : Client} {tr : Trace cfg}
    (h : Serve topic payload paylen prio fd nodes c tr c') {e : Sent cfg} (he : e ∈ sends tr)
    (hcmd : e.msg.ctrl.cmd ≠ cmdPublish) : Legible e.msg e.len := by
  induction h with
  | done => exact absurd he List.not_mem_nil
  | skip _ _ ih => exact ih he
  | sent _ hr =>
    obtain rfl := List.mem_singleton.1 he
    exact absurd (congrArg Ctrl.cmd hr.cmd_eq) hcmd
  | missed _ hr _ _ _ ih =>
    rcases List.mem_cons.1 he with rfl | he
    · exact absurd (congrArg Ctrl.cmd hr.cmd_eq) hcmd
    · exact ih he
  | evicted _ hr _ _ hc =>
    rcases List.mem_cons.1 he with rfl | he
    · exact absurd (congrArg Ctrl.cmd hr.cmd_eq) hcmd
    · exact (hc.legible he).2

/-- A message with this priority, topic and payload is published in the steps. -/
def PublishedIn (ls : List (BrokerLabel cfg)) (prio : ℕ) (topic : CString) (body : List UInt8) :
    Prop :=
  ∃ bytes tr, .request bytes prio tr ∈ ls ∧ Accepted (received cfg bytes) ∧
    (received cfg bytes).ctrl.cmd = cmdPublish ∧ Carries (received cfg bytes) (some topic) body

/-- A copy of a message, with its topic and payload, of which all is sent. -/
def CopyOf (topic : CString) (body : List UInt8) (e : Sent cfg) : Prop :=
  e.msg.ctrl.cmd = cmdPublish ∧ Carries e.msg (some topic) body ∧ e.msg.realMsgSize = some e.len

/-- A message carries one topic and one payload. -/
theorem Carries.unique {m : PsmqMsg cfg} {topic topic' : CString} {body body' : List UInt8}
    (h : Carries m (some topic) body) (h' : Carries m (some topic') body') :
    topic = topic' ∧ body = body' := by
  obtain rfl := Option.mem_unique h.str_eq h'.str_eq
  have hlen := h.paylen_eq.symm.trans h'.paylen_eq
  exact ⟨rfl, by rw [← h.payload_eq, ← h'.payload_eq, hlen]⟩

/-- What a step sends to a slot is the copy of a message published in this
    step, or something else that is legible. -/
theorem step_sent {pc : PsmqdCfg} {s s' : Broker cfg} {l : BrokerLabel cfg}
    (h : BrokerStep pc s l s') {k : Slot cfg} {e : Sent cfg} (he : e ∈ sendsTo k l.trace) :
    (e.msg.ctrl.cmd ≠ cmdPublish ∧ Legible e.msg e.len) ∨
      ∃ topic body, PublishedIn [l] e.prio topic body ∧ CopyOf topic body e := by
  cases l with
  | restart tr =>
    rcases step_restart_slot h k with ⟨-, e', he', hs, -⟩ | ⟨-, hs, -⟩
    · obtain rfl := List.mem_singleton.1 (hs ▸ he)
      exact .inl ⟨by rw [he'.cmd_eq]; decide, he'.legible (by decide) fun _ => .inl rfl⟩
    · exact absurd (hs ▸ he) List.not_mem_nil
  | request bytes prio tr =>
    obtain ⟨ha, -⟩ := (step_request h).resolve_left fun hd => by
      obtain ⟨-, rfl, -⟩ := hd
      exact absurd he List.not_mem_nil
    have hslot := step_request_slot h k
    change e ∈ sendsTo k tr at he
    generalize s'.clients k = c at hslot
    -- The other handlers make one attempt, with a topic or a byte.
    have hone : ∀ {slot : Option (Slot cfg)} {mq : Mqd} {cmd data : UInt8}
        {topic : Option CString} {payload : Option Ptr} {paylen prio : ℕ} {timeout : UInt16}
        {e' : Sent cfg}, IsReplyMq slot mq cmd data topic payload paylen prio timeout e' →
        cmd ≠ cmdPublish → (cmd ≠ cmdIoctl → paylen = 0 ∨ topic = none ∧ paylen = 1) →
        e = e' → e.msg.ctrl.cmd ≠ cmdPublish ∧ Legible e.msg e.len := by
      rintro _ _ _ _ _ _ _ _ _ e' he' hcmd hpay rfl
      exact ⟨by rwa [he'.cmd_eq], he'.legible hcmd hpay⟩
    have hmem : e ∈ sends tr := (List.mem_filter.1 he).1
    cases hslot with
    | idle hs => exact absurd (hs ▸ he) List.not_mem_nil
    | opened _ _ he' _ hs | noReply _ _ he' _ hs =>
      exact .inl (hone he' (by decide) (fun _ => .inr ⟨rfl, rfl⟩) (List.mem_singleton.1 (hs ▸ he)))
    | closed _ _ hc => exact .inl (hc.legible hmem)
    | subscribed _ _ _ hc =>
      refine .inl ?_
      rcases hc with ⟨_, _, he'⟩ | ⟨_, he'⟩ | ⟨_, he'⟩ <;>
        exact hone he' (by decide) (fun _ => .inl rfl) (List.mem_singleton.1 hmem)
    | unsubscribed _ _ _ hc =>
      refine .inl ?_
      rcases hc with ⟨_, he'⟩ | ⟨_, he'⟩ <;>
        exact hone he' (by decide) (fun _ => .inl rfl) (List.mem_singleton.1 hmem)
    | ioctl _ _ _ hc =>
      refine .inl ?_
      rcases hc with ⟨_, he'⟩ | ⟨_, _, _, _, he'⟩ | ⟨_, _, _, he'⟩ | ⟨_, _, he'⟩ <;>
        exact hone he' (by decide) (fun hi => absurd rfl hi) (List.mem_singleton.1 hmem)
    | @served _ topic tr' hcmd ht _ hs hc =>
      rw [hs] at he
      by_cases hpub : e.msg.ctrl.cmd = cmdPublish
      · have hr := hc.isReply he hpub
        have hcarry := carries_of_accepted ha ht
        obtain ⟨-, hcopy⟩ :=
          carries_of_replyMsg hr.msg_eq hcarry.le_length_payloadOf (UInt16.toNat_lt _)
        refine .inr ⟨topic, _, ⟨bytes, tr, ?_, ha, hcmd, hcarry⟩, hpub, hcopy, hr.len_eq⟩
        rw [hr.prio_eq]
        exact List.mem_singleton_self _
      · exact .inl ⟨hpub, hc.legible he hpub⟩

/-- A copy of a message is received over anything with its topic and payload. -/
theorem CopyOf.recvInto {topic : CString} {body : List UInt8} {e : Sent cfg}
    (h : CopyOf topic body e) (stack : PsmqMsg cfg) :
    (stack.recvInto (e.msg.toBytes.take e.len)).ctrl.cmd = cmdPublish ∧
      Carries (stack.recvInto (e.msg.toBytes.take e.len)) (some topic) body := by
  obtain ⟨hcmd, hcarry, hlen⟩ := h
  obtain ⟨hctrl, hrecv⟩ := hcarry.recvInto_sent stack (hcmd ▸ by decide) hlen
  exact ⟨(congrArg Ctrl.cmd hctrl).trans hcmd, hrecv⟩

/-- What a copy of a message is received as, over anything, is printed as the message is. -/
theorem CopyOf.printed {topic : CString} {body : List UInt8} {e : Sent cfg}
    (h : CopyOf topic body e) (stack : PsmqMsg cfg) :
    ∃ r, onReceive (stack.recvInto (e.msg.toBytes.take e.len)) e.prio = some (r, true) ∧
      PrintedAs e.prio topic body r := by
  obtain ⟨hcmd, hrecv⟩ := h.recvInto stack
  exact hrecv.printed hcmd e.prio

/-! ## The loop -/

/-- What the loop prints for the messages it receives, with `shows` telling what
    is printed of one, and whether the program goes on. -/
inductive Prints (shows : List UInt8 × ℕ → Report → Bool → Prop) :
    List (List UInt8 × ℕ) → List Report → Prop
  /-- The program is told to stop. -/
  | stopped : Prints shows [] []
  | interrupted : Prints shows [] [.interrupted]
  | failed (e : Errno) : Prints shows [] [.receiveFailed e]
  /-- The program stops at a message. -/
  | last {x : List UInt8 × ℕ} {r : Report} : shows x r false → Prints shows [x] [r]
  | next {x : List UInt8 × ℕ} {r : Report} {xs : List (List UInt8 × ℕ)} {rs : List Report} :
      shows x r true → Prints shows xs rs → Prints shows (x :: xs) (r :: rs)

theorem Prints.mono {R R' : List UInt8 × ℕ → Report → Bool → Prop}
    {xs : List (List UInt8 × ℕ)} {rs : List Report} (h : Prints R xs rs)
    (hR : ∀ x ∈ xs, ∀ r goOn, R x r goOn → R' x r goOn) : Prints R' xs rs := by
  induction h with
  | stopped => exact .stopped
  | interrupted => exact .interrupted
  | failed e => exact .failed e
  | last hx => exact .last (hR _ List.mem_cons_self _ _ hx)
  | next hx _ ih =>
    rw [List.forall_mem_cons] at hR
    exact .next (hR.1 _ _ hx) (ih hR.2)

/-- Receiving gives the one message received, if there is one. -/
theorem receivedIn_of_exec {psmq : PsmqObj} {old : PsmqMsg cfg} {tr : Trace cfg}
    {x : Except Errno (PsmqMsg cfg × ℕ)} (h : Exec (psmqReceivePrio psmq old) tr x) :
    (∃ e, x = .error e ∧ receivedIn tr = []) ∨
      ∃ bytes prio, x = .ok (old.recvInto bytes, prio) ∧ receivedIn tr = [(bytes, prio)] := by
  rw [psmqReceivePrio] at h
  split_ifs at h
  · obtain ⟨rfl, rfl⟩ := exec_ret_iff.1 h
    exact .inl ⟨_, rfl, rfl⟩
  · obtain ⟨rfl, rfl⟩ := exec_ret_iff.1 h
    exact .inl ⟨_, rfl, rfl⟩
  · obtain ⟨r, _, rfl, h₁⟩ := exec_perform_bind_iff.1 h
    cases r with
    | error e =>
      obtain ⟨rfl, rfl⟩ := exec_ret_iff.1 h₁
      exact .inl ⟨_, rfl, rfl⟩
    | ok y =>
      obtain ⟨rfl, rfl⟩ := exec_ret_iff.1 h₁
      exact .inr ⟨y.1, y.2, rfl, rfl⟩

/-- The loop prints what `on_receive` tells of the messages received. -/
theorem exec_loop {stack : PsmqMsg cfg} {rounds : List (Bool × Bool)} {p p' : Sub}
    {tr : Trace cfg} (h : Exec (p.loop stack rounds) tr p') :
    ∃ rs, p'.out = p.out ++ rs ∧
      Prints (fun x r goOn => onReceive (stack.recvInto x.1) x.2 = some (r, goOn))
        (receivedIn tr) rs := by
  induction rounds generalizing p tr with
  | nil => exact absurd h (by simp [Sub.loop])
  | cons round rounds ih =>
    obtain ⟨run, flush⟩ := round
    rw [Sub.loop] at h
    split at h
    · obtain ⟨rfl, rfl⟩ := exec_ret_iff.1 h
      exact ⟨[], by simp, .stopped⟩
    · obtain ⟨tr₁, x, tr₂, h₁, h₂, rfl⟩ := exec_bind_iff.1 h
      rw [receivedIn_append]
      rcases receivedIn_of_exec h₁ with ⟨e, rfl, hrec⟩ | ⟨bytes, prio, rfl, hrec⟩ <;> rw [hrec]
      · simp only at h₂
        split_ifs at h₂
        · exact ih h₂
        · obtain ⟨rfl, rfl⟩ := exec_ret_iff.1 h₂
          exact ⟨[.interrupted], rfl, .interrupted⟩
        · obtain ⟨rfl, rfl⟩ := exec_ret_iff.1 h₂
          exact ⟨[.receiveFailed e], rfl, .failed e⟩
      · obtain ⟨⟨r, goOn⟩, hr, h₃⟩ := exec_deref_bind_iff.1 h₂
        cases goOn with
        | true =>
          obtain ⟨rs, hout, hrs⟩ := ih h₃
          exact ⟨r :: rs, by rw [hout, Sub.print, List.append_assoc]; rfl, .next hr hrs⟩
        | false =>
          obtain ⟨rfl, rfl⟩ := exec_ret_iff.1 h₃
          exact ⟨[r], rfl, .last hr⟩

/-! ## What is printed -/

/-- A message from the broker is printed as it is received: the copy of a
    publication with the topic and the payload it carries, which were published
    with its priority, and the program goes on; another one as `Tells` says. -/
inductive Shows (ls : List (BrokerLabel cfg)) (x : List UInt8 × ℕ) : Report → Bool → Prop
  | published {topic : CString} {body : List UInt8} {r : Report} :
      (received cfg x.1).ctrl.cmd = cmdPublish → Carries (received cfg x.1) (some topic) body →
      PublishedIn ls x.2 topic body → PrintedAs x.2 topic body r → Shows ls x r true
  | other {r : Report} {goOn : Bool} : Tells cfg x.1 r goOn → Shows ls x r goOn

theorem PublishedIn.mono {ls ls' : List (BrokerLabel cfg)} {prio : ℕ} {topic : CString}
    {body : List UInt8} (h : PublishedIn ls prio topic body) (hls : ls ⊆ ls') :
    PublishedIn ls' prio topic body := by
  obtain ⟨bytes, tr, hmem, h⟩ := h
  exact ⟨bytes, tr, hls hmem, h⟩

/-- What the broker has put on the queue of a slot is printed as it is. -/
theorem putOn_shows {pc : PsmqdCfg} {s s' : Broker cfg} {ls : List (BrokerLabel cfg)}
    (hrun : (brokerLts cfg pc).Run s ls s') {k : Slot cfg} {x : List UInt8 × ℕ}
    (hx : x ∈ putOn k ls) (stack : PsmqMsg cfg) :
    ∃ r goOn, onReceive (stack.recvInto x.1) x.2 = some (r, goOn) ∧ Shows ls x r goOn := by
  obtain ⟨e, he, rfl⟩ := List.mem_map.1 hx
  obtain ⟨l, hl, he⟩ := List.mem_flatMap.1 (List.mem_filter.1 he).1
  -- The step that has sent it is one of the run.
  obtain ⟨s₁, s₂, hst⟩ := hrun.exists_step hl
  rcases step_sent hst he with ⟨-, hlegible⟩ | ⟨topic, body, hpub, hcopy⟩
  · obtain ⟨r, goOn, hr, htells⟩ := hlegible stack e.prio
    exact ⟨r, goOn, hr, .other htells⟩
  · obtain ⟨r, hr, hprinted⟩ := hcopy.printed stack
    obtain ⟨hcmd, hrecv⟩ := hcopy.recvInto (PsmqMsg.zero cfg)
    exact ⟨r, true, hr, .published hcmd hrecv (hpub.mono (by simpa using hl)) hprinted⟩

/-- What `psmq-sub` receives in its loop is what the broker has put on its queue.
    Whatever was in its struct, it reads no message out of its bounds, and it
    prints every message received, once and in order: a publication with the
    topic, payload and priority received, which are those published, as a text
    if the payload is one and in bytes otherwise. It only stops at a message
    that is not published. -/
theorem received_printed {pc : PsmqdCfg} {s s' : Broker cfg} {ls : List (BrokerLabel cfg)}
    (hrun : (brokerLts cfg pc).Run s ls s') (k : Slot cfg) (stack : PsmqMsg cfg) :
    (∀ x ∈ putOn k ls, ∃ r goOn, onReceive (stack.recvInto x.1) x.2 = some (r, goOn)) ∧
    ∀ (p p' : Sub) rounds tr, Exec (p.loop stack rounds) tr p' →
      (∀ x ∈ receivedIn tr, x ∈ putOn k ls) →
      ∃ rs, p'.out = p.out ++ rs ∧ Prints (Shows ls) (receivedIn tr) rs := by
  refine ⟨fun x hx => ?_, fun p p' rounds tr h hfrom => ?_⟩
  · obtain ⟨r, goOn, hr, -⟩ := putOn_shows hrun hx stack
    exact ⟨r, goOn, hr⟩
  · obtain ⟨rs, hout, hrs⟩ := exec_loop h
    refine ⟨rs, hout, hrs.mono fun x hx r goOn hr => ?_⟩
    obtain ⟨r', goOn', hr', hshows⟩ := putOn_shows hrun (hfrom x hx) stack
    obtain ⟨rfl, rfl⟩ := Prod.mk.inj (Option.some.inj (hr.symm.trans hr'))
    exact hshows

/-- A text, then a byte are published on `/a`: they are printed as such. -/
theorem received_printed_two : ∃ (s : Broker smallest) (ls : List (BrokerLabel smallest))
    (tr : Trace smallest) (p p' : Sub) (text : CString), text.bytes = [120] ∧
    (brokerLts smallest psmqdCfgInit).Run (started smallest) ls s ∧
    Exec (p.loop (.zero smallest) [(true, false), (true, false), (false, false)]) tr p' ∧
    p'.out = [.text 0 1 topicA text, .binary 0 1 topicA [9]] ∧
    ∃ rs, p'.out = p.out ++ rs ∧ Prints (Shows ls) (receivedIn tr) rs := by
  obtain ⟨ls, s, hf, hput⟩ : ∃ ls s,
      feedRun (answers smallest true) [([111, 0, 0, 0, 47, 115, 0], 0),
        ([115, 0, 0, 0, 47, 97, 0], 0), ([112, 0, 2, 0, 47, 97, 0, 120, 0], 0),
        ([112, 0, 1, 0, 47, 97, 0, 9], 0)] (started smallest) = some (ls, s) ∧
      putOn 0 ls = [([111, 0, 1, 0, 0, 0], 0), ([115, 0, 0, 0, 47, 97, 0], 0),
        ([112, 0, 2, 0, 47, 97, 0, 120, 0], 0), ([112, 0, 1, 0, 47, 97, 0, 9], 0)] :=
    ⟨_, _, rfl, by decide⟩
  let p : Sub := { Sub.init with psmq := ⟨some 2, some 3, 0⟩ }
  obtain ⟨tr, p', text, htext, h, hrec, hout⟩ : ∃ tr p' text, CString.bytes text = [120] ∧
      eval (subAnswers ([], 0) [([112, 0, 2, 0, 47, 97, 0, 120, 0], 0),
        ([112, 0, 1, 0, 47, 97, 0, 9], 0)]) []
        (p.loop (.zero smallest) [(true, false), (true, false), (false, false)]) =
          some (tr, p') ∧
      receivedIn tr = [([112, 0, 2, 0, 47, 97, 0, 120, 0], 0), ([112, 0, 1, 0, 47, 97, 0, 9], 0)] ∧
      p'.out = [.text 0 1 topicA text, .binary 0 1 topicA [9]] :=
    ⟨_, _, ⟨[120], by decide⟩, rfl, rfl, rfl, rfl⟩
  have hrun : (brokerLts smallest psmqdCfgInit).Run _ _ _ := (run_of_feedRun hf (by decide)).1
  refine ⟨s, ls, tr, p, p', text, htext, hrun, exec_of_eval h, hout,
    (received_printed hrun 0 (.zero smallest)).2 _ _ _ _ (exec_of_eval h) fun x hx => ?_⟩
  rw [hrec] at hx
  rw [hput]
  exact List.mem_cons_of_mem _ (List.mem_cons_of_mem _ hx)

end Psmq
