import Psmq.Pub.Program
import Psmq.Sub.Receiving

/-!
# From psmq-pub to psmq-sub

What becomes of the message of `psmq-pub -m`: it is published once, or the
program tells why it is not; and a `psmq-sub` the broker sends a copy of it to
prints it, as a text if it is one (`message_printed`).
-/

namespace Psmq

open CMem Prog

variable {cfg : Config}

/-! ## What is published -/

/-- The messages published among some calls, with the lengths and the priorities
    they are sent with. -/
def publishedBy (tr : Trace cfg) : List (PsmqMsg cfg × ℕ × ℕ) :=
  tr.filterMap fun
    | ⟨.mqSend _ _ msg len prio, .ok ()⟩ =>
      if msg.ctrl.cmd = cmdPublish then some (msg, len, prio) else none
    | _ => none

theorem publishedBy_append (tr₁ tr₂ : Trace cfg) :
    publishedBy (tr₁ ++ tr₂) = publishedBy tr₁ ++ publishedBy tr₂ := List.filterMap_append ..

/-- A request but that of `psmq_publish_prio` publishes nothing. -/
theorem publishedBy_eq_nil {α : Type} {p : P cfg α} {cmd : UInt8} (hp : p.Only (Op.ofRequest cmd))
    (hcmd : cmd ≠ cmdPublish) {tr : Trace cfg} {a : α} (h : Exec p tr a) : publishedBy tr = [] := by
  rw [publishedBy, List.filterMap_eq_nil_iff]
  rintro ⟨o, r⟩ he
  have ho := hp.exec h _ he
  cases o with
  | mqSend src mq msg len prio =>
    obtain ⟨rfl, -⟩ := ho
    cases r with
    | error e => rfl
    | ok u => exact if_neg hcmd
  | _ => rfl

/-- The program could not connect, tells why and returns 1; or it returns 0, and what
    it publishes is sent while it is connected. -/
theorem exec_psmqPubMain {abi : Abi} {fuel : ℕ} {psmq : PsmqObj} {buf : Buf cfg.msgMax}
    {opts : List PubOpt} {stdin : PubInput} {a : PubArgs} {topic : CString}
    (hopts : pubArgs abi opts = .ok (a, topic)) {tr : Trace cfg} {out : Option PubOutput} {code : ℤ}
    (h : Exec (psmqPubMain abi fuel psmq buf opts stdin) tr (out, code)) :
    (out ≠ none ∧ code = 1 ∧ publishedBy tr = []) ∨ (code = 0 ∧ ∃ psmq' tr', psmq'.Live ∧
      Exec (a.send fuel buf stdin psmq' topic) tr' out ∧ publishedBy tr = publishedBy tr') := by
  rw [psmqPubMain, hopts] at h
  obtain ⟨tr₁, ⟨psmq', r⟩, _, h₁, h₂, rfl⟩ := exec_bind_iff.1 h
  cases r with
  | error e =>
    obtain ⟨rfl, hout⟩ := exec_ret_iff.1 h₂
    obtain ⟨rfl, rfl⟩ := Prod.mk.inj hout
    refine .inl ⟨Option.some_ne_none _, rfl, ?_⟩
    rw [List.append_nil]
    exact publishedBy_eq_nil only_psmqInitNamed (by decide) h₁
  | ok u =>
    obtain ⟨tr₂, out', _, h₃, h₄, rfl⟩ := exec_bind_iff.1 h₂
    obtain ⟨tr₃, x, _, h₅, h₆, rfl⟩ := exec_bind_iff.1 h₄
    obtain ⟨r, _, rfl, h₇⟩ := exec_perform_bind_iff.1 h₆
    obtain ⟨rfl, hout⟩ := exec_ret_iff.1 h₇
    obtain ⟨rfl, rfl⟩ := Prod.mk.inj hout
    refine .inr ⟨rfl, psmq', tr₂, live_of_psmqInitNamed h₁, h₃, ?_⟩
    simp only [publishedBy_append, publishedBy_eq_nil only_psmqInitNamed (by decide) h₁,
      publishedBy_eq_nil only_psmqCleanup (by decide) h₅, List.nil_append]
    exact List.append_nil _

/-- A message is published, or something is printed. -/
theorem exec_publish {psmq : PsmqObj} (hlive : psmq.Live) {topic : CString} {payload : Option Ptr}
    {paylen prio : ℕ} {tr : Trace cfg} {r : Option PubReport}
    (h : Exec (publish psmq topic payload paylen prio) tr r) :
    (r = none ∧ sizeAdd cfg (topic.length + 1) paylen ≤ cfg.msgMax ∧ ∃ msg len,
      publishMsg cfg cmdPublish psmq.fd (some topic) payload paylen = some msg ∧
      msg.realMsgSize = some len ∧ publishedBy tr = [(msg, len, prio)]) ∨
    (r ≠ none ∧ publishedBy tr = []) := by
  obtain ⟨tr₁, res, tr₂, h₁, h₂, rfl⟩ := exec_bind_iff.1 h
  rw [psmqPublishPrio] at h₁
  -- On an error nothing more is called, and something is printed.
  have herror : ∀ {e : Errno}, res = .error e → tr₂ = [] ∧ r ≠ none := by
    rintro e rfl
    simp only at h₂
    split_ifs at h₂ <;>
    · obtain ⟨rfl, rfl⟩ := exec_ret_iff.1 h₂
      exact ⟨rfl, Option.some_ne_none _⟩
  split_ifs at h₁ with hfit hslash
  · obtain ⟨rfl, rfl⟩ := exec_ret_iff.1 h₁
    obtain ⟨rfl, hr⟩ := herror rfl
    exact .inr ⟨hr, rfl⟩
  · rcases exec_psmqPublishMsg h₁ with ⟨hdead, -⟩ | ⟨-, -, msg, len, hmsg, hlen, -, rfl⟩
    · exact absurd hdead (not_or.2 ⟨hlive.qpub_ne, hlive.ne⟩)
    · cases res with
      | error e =>
        obtain ⟨rfl, hr⟩ := herror rfl
        exact .inr ⟨hr, rfl⟩
      | ok u =>
        obtain ⟨rfl, rfl⟩ := exec_ret_iff.1 h₂
        refine .inl ⟨rfl, hfit, msg, len, hmsg, hlen, ?_⟩
        have hcmd : msg.ctrl.cmd = cmdPublish := congrArg Ctrl.cmd (publishMsg_eq_some hmsg).1
        simp [publishedBy, hcmd]
  · obtain ⟨rfl, rfl⟩ := exec_ret_iff.1 h₁
    obtain ⟨rfl, hr⟩ := herror rfl
    exact .inr ⟨hr, rfl⟩

/-- With `-m`, neither `-e` nor `-B` is accepted. -/
theorem sends_message {abi : Abi} {opts : List PubOpt} {a : PubArgs} {topic message : CString}
    (hopts : pubArgs abi opts = .ok (a, topic)) (hmessage : a.message = some message) :
    a.sendEmpty = false ∧ a.sendBinary = false := by
  rw [pubArgs] at hopts
  cases hread : pubOptions abi opts .init with
  | error x => simp [hread, Except.bind] at hopts
  | ok b =>
    simp only [hread, Except.bind] at hopts
    cases ht : b.topic with
    | none => simp [ht] at hopts
    | some t =>
      simp only [ht] at hopts
      split_ifs at hopts with hmodes
      obtain ⟨rfl, -⟩ := Prod.mk.inj (Except.ok.inj hopts)
      rw [PubArgs.modes, hmessage] at hmodes
      cases hempty : b.sendEmpty <;> cases hbinary : b.sendBinary <;> simp_all

/-! ## What is printed -/

/-- What is printed of a message of the command line: a text if it is one that
    is not empty, and its bytes, with the NUL, otherwise. -/
def messageReport (prio : ℕ) (topic message : CString) : Report :=
  if message.bytes ≠ [] ∧ message.bytes.all isText = true then
    .text prio message.length topic message
  else .binary prio (message.length + 1) topic (message.bytes ++ [0])

/-- A message with its NUL is printed as the text it is, or in bytes. -/
theorem PrintedAs.eq_messageReport {prio : ℕ} {topic message : CString} {r : Report}
    (h : PrintedAs prio topic (message.bytes ++ [0]) r) : r = messageReport prio topic message := by
  refine h.unique ?_
  rw [messageReport]
  split
  · next htext => exact .text ⟨htext.1, List.all_eq_true.1 htext.2, rfl⟩
  · next htext =>
    have hlen : message.length + 1 = (message.bytes ++ [0]).length := by simp [CString.length]
    rw [hlen]
    refine .binary fun t ht => htext ?_
    obtain rfl : message = t := CString.ext (List.append_cancel_right ht.eq)
    exact ⟨ht.ne_nil, List.all_eq_true.2 ht.printable⟩

/-- The copies of a message published, sent by the broker, are printed as it is. -/
theorem copy_printed {pc : PsmqdCfg} {s s' : Broker cfg} {msg : PsmqMsg cfg} {len prio : ℕ}
    {tr : Trace cfg} {topic message : CString}
    (hst : BrokerStep pc s (.request (msg.toBytes.take len) prio tr) s')
    (hrecv : received cfg (msg.toBytes.take len) = msg)
    (hcarry : Carries msg (some topic) (message.bytes ++ [0])) {k : Slot cfg} {e : Sent cfg}
    (he : e ∈ sendsTo k tr) (hcmd : e.msg.ctrl.cmd = cmdPublish) (stack : PsmqMsg cfg) :
    onReceive (stack.recvInto (e.msg.toBytes.take e.len)) e.prio =
      some (messageReport prio topic message, true) := by
  rcases step_sent hst he with ⟨hno, -⟩ | ⟨topic', body, ⟨bytes, tr', hmem, -, -, hc⟩, hcopy⟩
  · exact absurd hcmd hno
  · injection List.mem_singleton.1 hmem with hbytes hprio
    rw [hbytes, hrecv] at hc
    obtain ⟨rfl, rfl⟩ := hcarry.unique hc
    obtain ⟨r, hr, hprinted⟩ := hcopy.printed stack
    rw [hr, hprinted.eq_messageReport, hprio]

/-- `psmq-pub -m` publishes its message once and returns 0, or prints why it does
    not, whatever it returns; and whatever the state of the broker that receives
    it, every `psmq-sub` the broker sends a copy of it to prints this message, with
    its topic and priority: as a text, if it is one, and in bytes otherwise. The
    length of the message is to be a number of two bytes, unless no message is
    longer in this build, and the sizes of its parts are to have a sum. -/
theorem message_printed {abi : Abi} {opts : List PubOpt}
    {a : PubArgs} {topic message : CString} (hopts : pubArgs abi opts = .ok (a, topic))
    (hmessage : a.message = some message)
    (hmax : message.length + 1 ≤ ushrtMax ∨ cfg.msgMax ≤ ushrtMax)
    (hsize : topic.length + 1 + (message.length + 1) < 2 ^ cfg.sizeWidth) {fuel : ℕ}
    {psmq : PsmqObj} {buf : Buf cfg.msgMax} {stdin : PubInput} {tr : Trace cfg}
    {out : Option PubOutput} {code : ℤ}
    (h : Exec (psmqPubMain abi fuel psmq buf opts stdin) tr (out, code)) :
    (out ≠ none ∧ publishedBy tr = []) ∨
    (out = none ∧ code = 0 ∧ ∃ msg len, publishedBy tr = [(msg, len, a.prio)] ∧
      ∀ (pc : PsmqdCfg) (s s' : Broker cfg) tr',
        BrokerStep pc s (.request (msg.toBytes.take len) a.prio tr') s' →
        ∀ (k : Slot cfg), ∀ e ∈ sendsTo k tr', e.msg.ctrl.cmd = cmdPublish →
        ∀ stack : PsmqMsg cfg, onReceive (stack.recvInto (e.msg.toBytes.take e.len)) e.prio =
          some (messageReport a.prio topic message, true)) := by
  rcases exec_psmqPubMain hopts h with ⟨hout, -, hnone⟩ | ⟨rfl, psmq', tr₁, hlive, hsend, hpub⟩
  · exact .inl ⟨hout, hnone⟩
  obtain ⟨hempty, hbinary⟩ := sends_message hopts hmessage
  rw [PubArgs.send, if_neg (by simp [hempty]), if_neg (by simp [hbinary]), hmessage] at hsend
  obtain ⟨tr₂, r, _, h₁, h₂, rfl⟩ := exec_bind_iff.1 hsend
  obtain ⟨rfl, rfl⟩ := exec_ret_iff.1 h₂
  rw [hpub, List.append_nil]
  rcases exec_publish hlive h₁ with ⟨rfl, hfit, msg, len, hmsg, hlen, hone⟩ | ⟨hr, hnone⟩
  · refine .inr ⟨rfl, rfl, msg, len, hone, fun pc s s' tr' hst k e he hcmd stack => ?_⟩
    rw [sizeAdd, Nat.mod_eq_of_lt hsize] at hfit
    have hushrt : ushrtMax = 65535 := rfl
    obtain ⟨hctrl, hcarry⟩ := carries_of_publishMsg hmsg (by rcases hmax with h | h <;> omega)
    have hcmd' : msg.ctrl.cmd ≠ cmdIoctl := by
      rw [hctrl]
      exact (by decide : cmdPublish ≠ cmdIoctl)
    have htake : payloadBytes (some (message.bytes ++ [0])) (message.length + 1) =
        message.bytes ++ [0] := List.take_of_length_le (by simp [CString.length])
    have hrecv := received_take (publishMsg_eq_some hmsg).2.2
      (hcarry.le_realMsgSize (fun h => absurd h hcmd') hlen) (hcarry.realMsgSize_le hcmd' hlen)
    exact copy_printed hst hrecv (htake ▸ hcarry) he hcmd stack
  · exact .inl ⟨by simpa using hr, hnone⟩

/-- The message `x` is published on `/a`, to which the client of the slot 0 has
    subscribed: it is printed as a text. -/
theorem message_printed_x : ∃ (tr : Trace smallest) (msg : PsmqMsg smallest)
    (len : ℕ) (message : CString) (s s' : Broker smallest) (tr' : Trace smallest),
    ∃ e ∈ sendsTo 0 tr', message.bytes = [120] ∧
    Exec (psmqPubMain narrowAbi 1 .zero (.zero smallest.msgMax) xOpts ⟨[], false, fun _ => .ok 0⟩)
      tr (none, 0) ∧
    publishedBy tr = [(msg, len, 0)] ∧
    BrokerStep psmqdCfgInit s (.request (msg.toBytes.take len) 0 tr') s' ∧
    e.msg.ctrl.cmd = cmdPublish ∧
    onReceive ((PsmqMsg.zero smallest).recvInto (e.msg.toBytes.take e.len)) e.prio =
      some (.text 0 1 topicA message, true) := by
  obtain ⟨tr, msg, len, h, hpub, hbytes⟩ : ∃ (tr : Trace smallest) (msg : PsmqMsg smallest)
      (len : ℕ),
      eval (libAnswers smallest (.ok 3)) [] (psmqPubMain narrowAbi 1 .zero (.zero smallest.msgMax)
        xOpts ⟨[], false, fun _ => .ok 0⟩) = some (tr, (none, 0)) ∧
      publishedBy tr = [(msg, len, 0)] ∧
      msg.toBytes.take len = [112, 0, 2, 0, 47, 97, 0, 120, 0] := ⟨_, _, _, rfl, rfl, rfl⟩
  obtain ⟨ls, s, tr', s', hrun, hstep, hq, e, he, hcmd⟩ : ∃ ls s tr' s',
      feedRun (answers smallest true) [([111, 0, 0, 0, 47, 115, 0], 0),
        ([115, 0, 0, 0, 47, 97, 0], 0)] (started smallest) = some (ls, s) ∧
      eval (answers smallest true) [] (brokerStart s [112, 0, 2, 0, 47, 97, 0, 120, 0] 0) =
        some (tr', s') ∧
      s.qctrl ≠ none ∧ ∃ e ∈ sendsTo 0 tr', e.msg.ctrl.cmd = cmdPublish :=
    ⟨_, _, _, _, rfl, rfl, by decide, by decide⟩
  have hst : BrokerStep psmqdCfgInit s (.request (msg.toBytes.take len) 0 tr') s' := by
    rw [hbytes]
    exact .request hq (by decide) (exec_of_eval hstep)
  refine ⟨tr, msg, len, ⟨[120], zero_notMem_x⟩, s, s', tr', e, he, rfl, exec_of_eval h, hpub, hst,
    hcmd, ?_⟩
  have hopts : pubArgs narrowAbi xOpts = .ok _ := rfl
  rcases message_printed hopts rfl (.inr (by decide)) (by decide) (exec_of_eval h) with
    ⟨hno, -⟩ | ⟨-, -, msg', len', hpub', hprinted⟩
  · exact absurd rfl hno
  · obtain ⟨hmsg, hlen, -⟩ := by simpa using hpub.symm.trans hpub'
    rw [hmsg, hlen] at hst
    exact hprinted _ _ _ _ hst 0 e he hcmd (.zero smallest)

end Psmq
