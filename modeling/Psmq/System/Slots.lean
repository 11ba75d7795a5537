import Psmq.System.Clients

/-!
# What the broker does

What the broker does with its slots, as a protocol (`brokerProtocol`), as long
as all it sends is delivered: no client is evicted then, and a client is only
closed by a close request, or when the broker stops.

The ghost state is the table of the descriptors the broker holds (`Table`): those of
the slots, and a spare one, on its way to a slot or out of one. All the jobs
of the broker follow the protocol, and the slots in its memory are those of
the table between two jobs (`Broker.At`).
-/

namespace Psmq

open CMem Prog

variable {cfg : Config}

/-! ## The protocol -/

/-- The descriptors the broker holds. -/
structure Table (cfg : Config) where
  qctrl : ℕ
  slots : Slot cfg → Mqd
  /-- A descriptor that is in no slot: of a queue just opened, or of a client
      just closed. -/
  spare : Mqd
  /-- The descriptor carried by the close request being handled. -/
  closing : Option UInt8

/-- The broker before it has a control queue, while it has one, and when it stops. -/
inductive BrokerPhase (cfg : Config)
  | booting
  | serving (t : Table cfg)
  | stopping

namespace Table

/-- What the broker sends while it handles requests: the bytes `bytes`, with the
    command `cmd`. -/
inductive MaySend (t : Table cfg) : Option (Slot cfg) → Mqd → List UInt8 → Prop
  /-- A free slot is offered to a client. -/
  | offer {k : Slot cfg} {bytes : List UInt8} : (received cfg bytes).ctrl.cmd = cmdOpen →
      offerOf cfg bytes = some (fdOf k) → t.slots k = none → MaySend t (some k) t.spare bytes
  /-- The client that asks for it is told it is closed. -/
  | close {k : Slot cfg} {bytes : List UInt8} : (received cfg bytes).ctrl.cmd = cmdClose →
      t.closing = some (fdOf k) → t.spare = none → MaySend t (some k) (t.slots k) bytes
  /-- A request is refused to a client that has no slot. -/
  | refuse {bytes : List UInt8} : offerOf cfg bytes = none → MaySend t none t.spare bytes
  /-- A client is sent something else. -/
  | reply {k : Slot cfg} {bytes : List UInt8} : (received cfg bytes).ctrl.cmd ≠ cmdOpen →
      (received cfg bytes).ctrl.cmd ≠ cmdClose → MaySend t (some k) (t.slots k) bytes

/-- Sending a command to the client in a slot. -/
def onSend (t : Table cfg) (cmd : UInt8) : Option (Slot cfg) → Table cfg
  | none => t
  | some k =>
    if cmd = cmdOpen then { t with slots := Function.update t.slots k t.spare, spare := none }
    else if cmd = cmdClose then
      { t with slots := Function.update t.slots k none, spare := t.slots k, closing := none }
    else t

end Table

variable (pc : PsmqdCfg) (owner : CString → Option ℕ)

/-- The calls of the broker. -/
def brokerPre : BrokerPhase cfg → Op cfg → Prop
  | .booting, .mqUnlink name => name = pc.brokerName
  | .booting, .mqOpen name flags =>
    name = pc.brokerName ∧ flags.creat = true ∧ flags.excl = true
  | .serving t, .mqOpen name flags => t.spare = none ∧ flags.creat = false ∧ owner name ≠ none
  | .serving t, .mqClose mq => mq = none ∨ mq = t.spare
  | .serving t, .mqTimedsend slot mq msg len _ _ => t.MaySend slot mq (msg.toBytes.take len)
  | .serving _, .malloc _ => True
  | .stopping, .mqTimedsend _ _ msg len _ _ => offerOf cfg (msg.toBytes.take len) = none
  | .stopping, .mqClose _ => True
  | .stopping, .mqUnlink name => name = pc.brokerName
  | _, _ => False

/-- All that is sent is delivered. -/
def brokerMay : (o : Op cfg) → Op.Res o → Prop
  | .mqTimedsend _ _ _ _ _ _, ok => ok = true
  | _, _ => True

def brokerNext : BrokerPhase cfg → (o : Op cfg) → Op.Res o → BrokerPhase cfg
  | .booting, .mqOpen _ _, .ok d => .serving ⟨d, fun _ => none, none, none⟩
  | .serving t, .mqOpen _ _, .ok d => .serving { t with spare := some d }
  | .serving t, .mqClose _, _ => .serving { t with spare := none }
  | .serving t, .mqTimedsend slot _ msg len _ _, _ =>
    .serving (t.onSend (received cfg (msg.toBytes.take len)).ctrl.cmd slot)
  | γ, _, _ => γ

/-- The protocol of the broker. -/
def brokerProtocol : Protocol (Op cfg) Op.Res (BrokerPhase cfg) :=
  ⟨brokerPre pc owner, fun _ => brokerMay, brokerNext⟩

/-- The slots in the memory of the broker are those of the table. -/
def Broker.Matches (s : Broker cfg) (t : Table cfg) : Prop :=
  s.qctrl = some t.qctrl ∧ ∀ k, (s.clients k).mq = t.slots k

/-- The memory of the broker between two jobs. -/
def Broker.At (s : Broker cfg) : BrokerPhase cfg → Prop
  | .booting => s.qctrl = none
  | .serving t => s.Matches t ∧ t.spare = none
  | .stopping => False

/-- What a job leaves. -/
def Job.Post : Job cfg → Broker cfg → BrokerPhase cfg → Prop
  | stop => fun _ _ => True
  | _ => Broker.At

variable {pc owner} {s : Broker cfg} {t : Table cfg}

/-- Changing something else in a slot than its queue leaves the table as it is. -/
theorem Broker.Matches.set (h : s.Matches t) {k : Slot cfg} {c : Client}
    (hc : c.mq = (s.clients k).mq) : (s.set k c).Matches t := by
  refine ⟨h.1, fun j => ?_⟩
  by_cases hj : j = k
  · subst hj
    rw [Broker.set_clients_self, hc, h.2]
  · rw [Broker.set_clients_of_ne _ hj, h.2]

theorem Broker.Matches.modify (h : s.Matches t) {k : Slot cfg} {f : Client → Client}
    (hf : ∀ c, (f c).mq = c.mq) : (s.modify k f).Matches t :=
  h.set (hf _)

/-- Changing the queue in a slot changes it in the table. -/
theorem Broker.Matches.update (h : s.Matches t) {k : Slot cfg} {c : Client} {mq spare : Mqd}
    {closing : Option UInt8} (hc : c.mq = mq) :
    (s.set k c).Matches ⟨t.qctrl, Function.update t.slots k mq, spare, closing⟩ := by
  refine ⟨h.1, fun j => ?_⟩
  by_cases hj : j = k
  · subst hj
    rw [Broker.set_clients_self, hc]
    exact (Function.update_self j mq t.slots).symm
  · rw [Broker.set_clients_of_ne _ hj, h.2]
    exact (Function.update_of_ne hj mq t.slots).symm

/-! ## Replies -/

theorem fdOf_of_slotOf {d : UInt8} {k : Slot cfg} (h : slotOf cfg d = some k) : fdOf k = d :=
  UInt8.toNat_inj.1 ((toNat_fdOf k).trans (slotOf_eq_some_iff.1 h).symm)

/-- A reply is sent as it is built, if it is sent at all. -/
theorem follows_replyMq {G : Type} {π : Protocol (Op cfg) Op.Res G} {γ : G}
    {slot : Option (Slot cfg)} {mq : Mqd} {cmd data : UInt8} {topic : Option CString}
    {payload : Option Ptr} {paylen prio : ℕ} {timeout : UInt16} {Q : Bool → G → Prop}
    (h : ∀ msg len, replyMsg cfg cmd data topic payload paylen = some msg →
      msg.realMsgSize = some len →
      (received cfg (msg.toBytes.take len)).ctrl = ⟨cmd, data⟩ →
      π.pre γ (.mqTimedsend slot mq msg len prio timeout) ∧
        ∀ ok, π.may γ (.mqTimedsend slot mq msg len prio timeout) ok →
          Q ok (π.next γ (.mqTimedsend slot mq msg len prio timeout) ok)) :
    Follows π Q γ (brokerReplyMq slot mq cmd data topic payload paylen prio timeout) := by
  refine follows_deref_bind fun msg hmsg => follows_deref_bind fun len hlen => ?_
  rw [mqTimedsend]
  split
  · exact follows_perform_iff.2 (h msg len hmsg hlen
      ((recvInto_ctrl _ _ hlen).trans (replyMsg_eq_some hmsg).1))
  · trivial

/-- A reply is delivered, and nothing is counted as missed. -/
theorem follows_brokerReplyMq {γ : BrokerPhase cfg} {slot : Option (Slot cfg)} {mq : Mqd}
    {cmd data : UInt8} {topic : Option CString} {payload : Option Ptr} {paylen prio : ℕ}
    {timeout : UInt16} {Q : Bool → BrokerPhase cfg → Prop}
    (h : ∀ msg len, replyMsg cfg cmd data topic payload paylen = some msg →
      msg.realMsgSize = some len →
      (received cfg (msg.toBytes.take len)).ctrl = ⟨cmd, data⟩ →
      brokerPre pc owner γ (.mqTimedsend slot mq msg len prio timeout) ∧
        Q true (brokerNext γ (.mqTimedsend slot mq msg len prio timeout) true)) :
    Follows (brokerProtocol pc owner) Q γ
      (brokerReplyMq slot mq cmd data topic payload paylen prio timeout) := by
  refine follows_replyMq fun msg len hmsg hlen hctrl => ?_
  obtain ⟨hpre, hQ⟩ := h msg len hmsg hlen hctrl
  refine ⟨hpre, fun ok hok => ?_⟩
  obtain rfl : ok = true := hok
  exact hQ

theorem offerOf_eq_none {bytes : List UInt8} (h : (received cfg bytes).ctrl ≠ ⟨cmdOpen, 0⟩) :
    offerOf cfg bytes = none :=
  if_neg fun ho => h ho.1

/-- The reply giving a slot to a client offers it. -/
theorem offerOf_open {k : Slot cfg} {m : PsmqMsg cfg} {len : ℕ}
    (hm : replyMsg cfg cmdOpen 0 none (some [fdOf k]) 1 = some m)
    (hlen : m.realMsgSize = some len) :
    offerOf cfg (m.toBytes.take len) = some (fdOf k) := by
  obtain ⟨hctrl, hpay, hdata⟩ := replyMsg_eq_some hm
  have hdata' : m.data.bytes = [fdOf k] ++ List.replicate (cfg.msgMax - 1) 0 := hdata
  have hmax := cfg.six_le_msgMax
  have hcmd : m.ctrl.cmd ≠ cmdIoctl := by
    rw [hctrl]
    exact (by decide : cmdOpen ≠ cmdIoctl)
  -- The descriptor is followed by a zero, as the buffer is of 6 bytes at least.
  have hle : len ≤ headerSize + cfg.msgMax := by
    rw [PsmqMsg.realMsgSize, if_neg hcmd] at hlen
    obtain ⟨l, hl, rfl⟩ := Option.map_eq_some_iff.1 hlen
    obtain ⟨name, hname, rfl⟩ := Option.map_eq_some_iff.1 hl
    rw [hdata', show cfg.msgMax - 1 = cfg.msgMax - 2 + 1 by omega, List.replicate_succ] at hname
    have h1 := length_le_of_str hname
    have h2 : m.paylen.toNat = 1 := by rw [hpay]; rfl
    rw [List.length_singleton] at h1
    omega
  have hcarry := (carries_of_replyMsg hm (le_refl 1) (by decide)).2
  have hrecv := received_take hdata'
    (hcarry.le_realMsgSize (fun h => absurd h hcmd) hlen) hle
  rw [offerOf, hrecv, if_pos ⟨hctrl, hpay⟩, hdata']
  rfl

/-- A reply to a client that neither opens nor closes it is delivered, and
    leaves the table as it is. -/
theorem follows_brokerReply (hs : s.Matches t) {fd : Slot cfg} {cmd data : UInt8}
    {topic : Option CString} {payload : Option Ptr} {paylen prio : ℕ}
    (hopen : cmd ≠ cmdOpen := by decide) (hclose : cmd ≠ cmdClose := by decide) :
    Follows (brokerProtocol pc owner) (fun x γ => x.1.Matches t ∧ x.2 = 0 ∧ γ = .serving t)
      (.serving t) (brokerReply s fd cmd data topic payload paylen prio) := by
  refine Follows.bind (Q := fun ok γ => ok = true ∧ γ = .serving t)
    (follows_brokerReplyMq fun msg len _ _ hctrl => ?_) ?_
  · have hcmd : (received cfg (msg.toBytes.take len)).ctrl.cmd = cmd := congrArg Ctrl.cmd hctrl
    refine ⟨?_, rfl, ?_⟩
    · rw [hs.2 fd]
      exact .reply (hcmd ▸ hopen) (hcmd ▸ hclose)
    · rw [brokerNext, Table.onSend, hcmd, if_neg hopen, if_neg hclose]
  · rintro ok γ ⟨rfl, rfl⟩
    exact ⟨hs.set rfl, rfl, rfl⟩

/-! ## Requests -/

/-- Opening a connection puts the queue of the client in a free slot, or leaves
    the slots as they were. -/
theorem follows_brokerOpen (hs : s.Matches t) (hspare : t.spare = none) {msg : PsmqMsg cfg}
    (hname : ∀ name, str msg.data.bytes = some name → owner name ≠ none) :
    Follows (brokerProtocol pc owner) (fun x => x.1.At) (.serving t) (brokerOpen s msg) := by
  refine follows_deref_bind fun qname hq => ?_
  refine follows_perform_bind ⟨hspare, rfl, hname qname hq⟩ fun r _ => ?_
  cases r with
  | error e => exact ⟨hs, hspare⟩
  | ok qc =>
    have hnext : (brokerProtocol pc owner).next (.serving t)
        (.mqOpen qname ⟨.rdwr, false, false, 0⟩ : Op cfg) (.ok qc) =
        .serving { t with spare := some qc } := rfl
    rw [hnext]
    dsimp only
    rcases brokerGetFreeClient_spec s with ⟨hfree, -⟩ | ⟨k, hfree, hk, -⟩
    · -- No slot is free: the client is told so, and its queue closed.
      rw [if_pos hfree]
      refine Follows.bind (Q := fun _ γ => γ = .serving { t with spare := some qc })
        (follows_brokerReplyMq fun m len _ _ hctrl => ⟨?_, rfl⟩) ?_
      · refine .refuse (offerOf_eq_none ?_)
        rw [hctrl]
        decide
      · rintro ok γ rfl
        exact follows_perform_bind (.inr rfl) fun r _ => ⟨hs, rfl⟩
    · -- The queue is put in the free slot found, once the offer is sent.
      rw [hfree, if_neg (fdOf_ne_ucharMax k), slotOf_fdOf, deref_some, ret_bind]
      have hfree : t.slots k = none := (hs.2 k).symm.trans (not_not.1 hk)
      refine Follows.bind (Q := fun ok γ => ok = true ∧ γ = .serving ⟨t.qctrl,
        Function.update t.slots k (some qc), none, t.closing⟩)
        (follows_brokerReplyMq fun m len hm hlen hctrl => ⟨?_, rfl, ?_⟩) ?_
      · refine @Table.MaySend.offer _ { t with spare := some qc } k _ ?_ ?_ hfree
        · rw [hctrl]
        · exact offerOf_open hm hlen
      · rw [brokerNext, Table.onSend, hctrl, if_pos rfl]
      · rintro ok γ ⟨rfl, rfl⟩
        exact ⟨hs.update rfl, rfl⟩

/-- Closing a client, as it has asked for, empties its slot. -/
theorem follows_brokerClose (hs : s.Matches t) (hspare : t.spare = none) {fd : Slot cfg}
    (hclosing : t.closing = some (fdOf fd)) :
    Follows (brokerProtocol pc owner) (fun x => x.1.At) (.serving t) (brokerClose s fd) := by
  have hs₁ : (s.set fd { s.clients fd with missedPubs := 0 }).Matches t := hs.set rfl
  rw [brokerClose, Broker.modify_eq_set, brokerReplyCtrl, brokerReply, Prog.bind_assoc]
  refine Follows.bind (Q := fun ok γ => ok = true ∧ γ = .serving ⟨t.qctrl,
    Function.update t.slots fd none, t.slots fd, none⟩)
    (follows_brokerReplyMq fun m len _ _ hctrl => ⟨?_, rfl, ?_⟩) ?_
  · rw [hs₁.2 fd]
    exact .close (by rw [hctrl]) hclosing hspare
  · rw [brokerNext, Table.onSend, hctrl, if_neg (by decide), if_pos rfl]
  · rintro ok γ ⟨rfl, rfl⟩
    refine follows_perform_bind (.inr ?_) fun r _ => ?_
    · -- The queue closed is the one the slot had.
      simp only [Broker.modify_eq_set, Broker.set_set, Broker.set_clients_self]
      exact hs.2 fd
    · simp only [Broker.modify_eq_set, Broker.set_set, Broker.set_clients_self]
      exact ⟨hs.update rfl, rfl⟩

/-- A reply, the last thing done for a request, leaves the slots as they were. -/
theorem follows_brokerReply_last (hs : s.Matches t) (hspare : t.spare = none) {fd : Slot cfg}
    {cmd data : UInt8} {topic : Option CString} {payload : Option Ptr} {paylen prio : ℕ}
    (hopen : cmd ≠ cmdOpen := by decide) (hclose : cmd ≠ cmdClose := by decide) :
    Follows (brokerProtocol pc owner) (fun x => x.1.At) (.serving t)
      (brokerReply s fd cmd data topic payload paylen prio) :=
  (follows_brokerReply hs hopen hclose).mono fun x γ h => by
    obtain ⟨hx, -, rfl⟩ := h
    exact ⟨hx, hspare⟩

/-- A protocol lets the broker reply to a request in the ghost state `g`, from a
    state with `I` to one with `R`: it allows the reply, and an allocation before
    it; and `I` holds whatever changes in a client, but its queue. -/
structure Replies {G : Type} (π : Protocol (Op cfg) Op.Res G) (I : Broker cfg → Prop)
    (R : Broker cfg → G → Prop) (g : G) : Prop where
  reply : ∀ {s fd cmd data topic payload paylen}, I s → cmd ∉ [cmdOpen, cmdClose, cmdPublish] →
    Follows π (fun x => R x.1) g (brokerReply s fd cmd data topic payload paylen 0)
  modify : ∀ {s : Broker cfg} {k f}, I s → (∀ c, (f c).mq = c.mq) → I (s.modify k f)
  malloc : ∀ n, π.pre g (.malloc n)
  next_malloc : ∀ n r, π.next g (.malloc n) r = g

namespace Replies

variable {G : Type} {π : Protocol (Op cfg) Op.Res G} {I : Broker cfg → Prop}
  {R : Broker cfg → G → Prop} {g : G}

theorem follows_replyCtrl (hr : Replies π I R g) {s : Broker cfg} (hs : I s) {fd : Slot cfg}
    {cmd data : UInt8} {extra : Option CString}
    (hcmd : cmd ∉ [cmdOpen, cmdClose, cmdPublish] := by decide) :
    Follows π (fun x => R x.1) g (brokerReplyCtrl s fd cmd data extra) :=
  hr.reply hs hcmd

/-- Subscribing follows the protocol. -/
theorem follows_subscribe (hr : Replies π I R g) (hs : I s) (msg : PsmqMsg cfg) :
    Follows π (fun x => R x.1) g (brokerSubscribe s msg) := by
  refine follows_deref_bind fun fd _ => follows_deref_bind fun stopic _ =>
    follows_deref_bind fun err _ => ?_
  split
  · refine Follows.bind (Q := fun x : Broker cfg × ℤ => R x.1) ?_ fun _ _ h => h
    exact hr.follows_replyCtrl hs
  · rw [tlAdd, Prog.bind_assoc]
    refine follows_perform_bind (hr.malloc _) fun ok _ => ?_
    rw [hr.next_malloc]
    cases ok with
    | false =>
      rw [if_neg Bool.false_ne_true, pure_eq, ret_bind]
      refine Follows.bind (Q := fun x : Broker cfg × ℤ => R x.1) ?_ fun _ _ h => h
      exact hr.follows_replyCtrl hs
    | true =>
      rw [if_pos rfl, pure_eq, ret_bind]
      have hs' := @hr.modify _ fd
        (fun c => { c with topics := tlInsert (s.clients fd).topics stopic }) hs fun _ => rfl
      refine Follows.bind (Q := fun x : Broker cfg × ℤ => R x.1) ?_ fun _ _ h => h
      exact hr.follows_replyCtrl hs'

/-- Unsubscribing follows the protocol. -/
theorem follows_unsubscribe (hr : Replies π I R g) (hs : I s) (msg : PsmqMsg cfg) :
    Follows π (fun x => R x.1) g (brokerUnsubscribe s msg) := by
  refine follows_deref_bind fun fd _ => follows_deref_bind fun utopic _ => ?_
  split
  · refine Follows.bind (Q := fun x : Broker cfg × ℤ => R x.1) ?_ fun _ _ h => h
    exact hr.follows_replyCtrl hs
  · next topics _ =>
    have hs' := @hr.modify _ fd (fun c => { c with topics := topics }) hs fun _ => rfl
    refine Follows.bind (Q := fun x : Broker cfg × ℤ => R x.1) ?_ fun _ _ h => h
    exact hr.follows_replyCtrl hs'

theorem follows_replyIoctl (hr : Replies π I R g) {s : Broker cfg} (hs : I s) {fd : Slot cfg}
    {err req : UInt8} {data : Option Ptr} {datalen : ℕ} :
    Follows π R g (brokerReplyIoctl s fd err req data datalen) :=
  follows_deref_bind fun _ _ =>
    Follows.bind (Q := fun x : Broker cfg × ℤ => R x.1) (hr.reply hs (by decide)) fun _ _ h => h

/-- An ioctl follows the protocol. -/
theorem follows_ioctl (hr : Replies π I R g) (hs : I s) (msg : PsmqMsg cfg) :
    Follows π (fun x => R x.1) g (brokerIoctl s msg) := by
  refine follows_deref_bind fun fd _ => follows_deref_bind fun req _ => ?_
  by_cases hlen : msg.paylen < 1
  · rw [if_pos hlen]
    exact Follows.bind (hr.follows_replyIoctl hs) fun _ _ h => h
  rw [if_neg hlen]
  by_cases hreq : req = ioctlReplyTimeout
  · rw [if_pos hreq]
    by_cases hdlen : (msg.paylen - 1).toNat ≠ 2
    · rw [if_pos hdlen]
      exact Follows.bind (hr.follows_replyIoctl hs) fun _ _ h => h
    · rw [if_neg hdlen]
      refine follows_deref_bind fun timeout _ => ?_
      have hs' := @hr.modify _ fd (fun c => { c with replyTimeout := timeout }) hs fun _ => rfl
      exact Follows.bind (hr.follows_replyIoctl hs') fun _ _ h => h
  · rw [if_neg hreq]
    exact Follows.bind (hr.follows_replyIoctl hs) fun _ _ h => h

end Replies

/-- A reply leaves the slots as they were. -/
theorem replies_serving (hspare : t.spare = none) : Replies (brokerProtocol pc owner)
    (fun s => s.Matches t) Broker.At (.serving t) where
  reply hs hcmd := by
    simp only [List.mem_cons, not_or] at hcmd
    exact follows_brokerReply_last hs hspare hcmd.1 hcmd.2.1
  modify hs hf := hs.modify hf
  malloc _ := trivial
  next_malloc _ _ := rfl

section Publish

variable {topic : CString} {payload : Ptr} {paylen prio : ℕ}

/-- Serving a client sends it the message once at most, as that is delivered. -/
theorem follows_publishTopics {fd : Slot cfg} (nodes : List CString) (hs : s.Matches t) :
    Follows (brokerProtocol pc owner) (fun s' γ => s'.Matches t ∧ γ = .serving t) (.serving t)
      (publishTopics topic payload paylen prio fd nodes s) := by
  induction nodes with
  | nil => exact ⟨hs, rfl⟩
  | cons node nodes ih =>
    refine follows_deref_bind fun m _ => ?_
    cases m with
    | false => exact ih
    | true =>
      refine (follows_brokerReply hs).bind ?_
      rintro ⟨s', rc⟩ γ ⟨hs', rfl, rfl⟩
      exact ⟨hs', rfl⟩

theorem follows_publishClients (fds : List (Slot cfg)) (hs : s.Matches t) :
    Follows (brokerProtocol pc owner) (fun s' γ => s'.Matches t ∧ γ = .serving t) (.serving t)
      (publishClients topic payload paylen prio fds s) := by
  induction fds generalizing s with
  | nil => exact ⟨hs, rfl⟩
  | cons fd fds ih =>
    rw [publishClients]
    split
    · exact ih hs
    · refine (follows_publishTopics _ hs).bind ?_
      rintro s' γ ⟨hs', rfl⟩
      exact ih hs'

end Publish

theorem follows_brokerPublish (hs : s.Matches t) (hspare : t.spare = none) (msg : PsmqMsg cfg)
    (prio : ℕ) : Follows (brokerProtocol pc owner) (fun x => x.1.At) (.serving t)
      (brokerPublish s msg prio) := by
  refine follows_deref_bind fun topic _ => (follows_publishClients _ hs).bind ?_
  rintro s' γ ⟨hs', rfl⟩
  exact ⟨hs', hspare⟩

/-! ## All the jobs -/

/-- A request of a client: an open request names a queue of a client, and a
    close request is the one the table tells of. -/
def Table.Expects (t : Table cfg) (owner : CString → Option ℕ) (m : PsmqMsg cfg) : Prop :=
  (m.ctrl.cmd = cmdOpen → ∀ name, str m.data.bytes = some name → owner name ≠ none) ∧
    (m.ctrl.cmd = cmdClose → t.closing = some m.ctrl.data)

theorem follows_brokerDispatch (hs : s.Matches t) (hspare : t.spare = none) {msg : PsmqMsg cfg}
    (hm : t.Expects owner msg) (prio : ℕ) :
    Follows (brokerProtocol pc owner) (fun x => x.1.At) (.serving t)
      (brokerDispatch s msg prio) := by
  rw [brokerDispatch]
  split_ifs with h₁ h₂
  · exact follows_brokerOpen hs hspare (hm.1 h₁)
  · refine follows_deref_bind fun fd hfd => follows_brokerClose hs hspare ?_
    rw [fdOf_of_slotOf hfd]
    exact hm.2 h₂
  · exact (replies_serving hspare).follows_subscribe hs msg
  · exact (replies_serving hspare).follows_unsubscribe hs msg
  · exact follows_brokerPublish hs hspare msg prio
  · exact (replies_serving hspare).follows_ioctl hs msg
  · exact ⟨hs, hspare⟩

theorem follows_brokerStart (hs : s.Matches t) (hspare : t.spare = none) {bytes : List UInt8}
    (hm : t.Expects owner (received cfg bytes)) (prio : ℕ) :
    Follows (brokerProtocol pc owner) Broker.At (.serving t) (brokerStart s bytes prio) := by
  by_cases ha : Accepted (received cfg bytes)
  · rw [brokerStart_of_accepted ha]
    exact (follows_brokerDispatch hs hspare hm prio).bind fun _ _ h => h
  · cases ht : str (received cfg bytes).data.bytes with
    | none =>
      -- The topic is read out of the message.
      rw [brokerStart, brokerIntake, strlen, ht]
      trivial
    | some topic =>
      rw [brokerStart_of_not_accepted ht ha]
      exact ⟨hs, hspare⟩

theorem follows_brokerOpenCtrl (tries : ℕ) :
    Follows (brokerProtocol pc owner) (fun mq γ => (mq = none ∧ γ = .booting) ∨
        ∃ d, mq = some d ∧ γ = .serving ⟨d, fun _ => none, none, none⟩)
      .booting (brokerOpenCtrl pc tries : P cfg Mqd) := by
  induction tries with
  | zero => exact .inl ⟨rfl, rfl⟩
  | succ tries ih =>
    refine follows_perform_bind ⟨rfl, rfl, rfl⟩ fun r _ => ?_
    cases r with
    | error e => exact ih
    | ok d => exact .inr ⟨d, rfl, rfl⟩

/-- Starting follows a protocol when opening the control queue does, and when
    removing an older one is allowed, and changes nothing. -/
theorem follows_brokerInit_of {G : Type} {π : Protocol (Op cfg) Op.Res G} {g : G}
    {Q : Mqd → G → Prop} {R : Broker cfg × ℤ → G → Prop} {s : Broker cfg}
    (hunlink : π.pre g (.mqUnlink pc.brokerName))
    (hnext : ∀ r, π.next g (.mqUnlink pc.brokerName) r = g)
    (hopen : Follows π Q g (brokerOpenCtrl pc 10))
    (hR : ∀ mq g', Q mq g' →
      ∀ code, R (⟨mq, fun fd => { s.clients fd with mq := none }⟩, code) g') :
    Follows π R g (brokerInit pc s) := by
  rw [brokerInit]
  split
  · refine follows_perform_bind hunlink fun r _ => ?_
    rw [hnext]
    refine hopen.bind fun mq g' hQ => ?_
    split <;> exact hR mq g' hQ _
  · refine hopen.bind fun mq g' hQ => ?_
    split <;> exact hR mq g' hQ _

/-- Starting frees all the slots. -/
theorem follows_brokerInit (s : Broker cfg) :
    Follows (brokerProtocol pc owner) (fun x => x.1.At) .booting (brokerInit pc s) := by
  refine follows_brokerInit_of rfl (fun _ => rfl) (follows_brokerOpenCtrl 10) ?_
  rintro mq γ (⟨rfl, rfl⟩ | ⟨d, rfl, rfl⟩) -
  · exact rfl
  · exact ⟨⟨rfl, fun k => rfl⟩, rfl⟩

/-- Stopping sends no offer. -/
theorem follows_cleanupClients (fds : List (Slot cfg)) (s : Broker cfg) :
    Follows (brokerProtocol pc owner) (fun _ γ => γ = .stopping) .stopping
      (cleanupClients fds s) := by
  induction fds generalizing s with
  | nil => exact rfl
  | cons fd fds ih =>
    rw [cleanupClients]
    split
    · exact ih s
    · rw [brokerClose, brokerReplyCtrl, brokerReply]
      simp only [Prog.bind_assoc]
      refine Follows.bind (Q := fun ok γ => ok = true ∧ γ = .stopping)
        (follows_brokerReplyMq fun m len _ _ hctrl => ⟨?_, rfl, rfl⟩) ?_
      · refine offerOf_eq_none ?_
        rw [hctrl]
        exact fun h => absurd (congrArg Ctrl.cmd h) (by decide)
      · rintro ok γ ⟨rfl, rfl⟩
        exact follows_perform_bind trivial fun r _ => ih _

theorem follows_brokerCleanup (s : Broker cfg) :
    Follows (brokerProtocol pc owner) (fun _ _ => True) .stopping (brokerCleanup pc s) := by
  refine (follows_cleanupClients _ s).bind ?_
  rintro s' γ rfl
  refine follows_perform_bind trivial fun r _ => ?_
  exact follows_perform_bind rfl fun r _ => trivial

end Psmq
