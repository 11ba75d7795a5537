import Psmq.Broker.Bounds

/-!
# Subscribe, unsubscribe and ioctl requests

A request for an ioctl is handled within bounds exactly when the data it wants
back fit in the buffer of the reply (`safe_ioctl_iff`).

These requests are each answered once, to the client of the slot they carry,
and the code of the answer agrees with what was done: it is 0 when the change
requested is made (`ChangeMade`), and otherwise the slot is left as it was but
for its counter of missed messages (`request_replied`). An answer that cannot
be delivered is an answer all the same: the change is not undone.
-/

namespace Psmq

open CMem Prog

variable {cfg : Config}

/-! ## The answers -/

/-- The attempt `e` answers the request `cmd` of the client `c` in the slot `k`. -/
structure Answers (k : Slot cfg) (c : Client) (cmd : UInt8) (tr : Trace cfg) (e : Sent cfg) :
    Prop where
  sends_eq : sends tr = [e]
  slot_eq : e.slot = some k
  mq_eq : e.mq = c.mq
  cmd_eq : e.msg.ctrl.cmd = cmd

theorem IsReplyMq.answers {k : Slot cfg} {c : Client} {cmd data : UInt8} {topic : Option CString}
    {payload : Option Ptr} {paylen prio : ℕ} {timeout : UInt16} {e : Sent cfg} {tr : Trace cfg}
    (h : IsReplyMq (some k) c.mq cmd data topic payload paylen prio timeout e)
    (htr : sends tr = [e]) : Answers k c cmd tr e :=
  ⟨htr, h.slot_eq, h.mq_eq, by rw [h.cmd_eq]⟩

theorem IsReplyMq.data_eq {slot : Option (Slot cfg)} {mq : Mqd} {cmd data : UInt8}
    {topic : Option CString} {payload : Option Ptr} {paylen prio : ℕ} {timeout : UInt16}
    {e : Sent cfg} (h : IsReplyMq slot mq cmd data topic payload paylen prio timeout e) :
    e.msg.ctrl.data = data := by
  rw [h.cmd_eq]

/-- The only error a subscription is refused with is `EBADMSG`. -/
theorem subscribeErr_eq {msg : PsmqMsg cfg} {stopiclen : ℕ} {err : Errno}
    (h : subscribeErr msg stopiclen = some err) : err = 0 ∨ err = EBADMSG := by
  simp only [subscribeErr, Option.pure_def, Option.bind_eq_bind] at h
  split_ifs at h
  · exact .inr (Option.some.inj h).symm
  · exact .inr (Option.some.inj h).symm
  obtain ⟨c₀, -, h⟩ := Option.bind_eq_some_iff.1 h
  split_ifs at h
  · exact .inr (Option.some.inj h).symm
  obtain ⟨c₁, -, h⟩ := Option.bind_eq_some_iff.1 h
  split_ifs at h
  · exact .inr (Option.some.inj h).symm
  obtain ⟨d, -, h⟩ := Option.bind_eq_some_iff.1 h
  split_ifs at h
  · exact .inr (Option.some.inj h).symm
  · exact .inl (Option.some.inj h).symm

/-- A subscription is answered 0 when the topic is added, and not otherwise. -/
theorem Subscribe.answered {msg : PsmqMsg cfg} {stopic : CString} {k : Slot cfg} {c c' : Client}
    {tr : Trace cfg} (h : Subscribe msg stopic k c tr c') :
    ∃ e, Answers k c cmdSubscribe tr e ∧ ((e.msg.ctrl.data = 0 ∧
      c' = { c with topics := tlInsert c.topics stopic, missedPubs := c'.missedPubs }) ∨
      (e.msg.ctrl.data ≠ 0 ∧ c' = { c with missedPubs := c'.missedPubs })) := by
  rcases h with ⟨herr, hne, he⟩ | ⟨_, he⟩ | ⟨_, he⟩
  · -- The error is not zero in one byte either.
    refine ⟨_, he.answers rfl, .inr ⟨?_, rfl⟩⟩
    rw [he.data_eq, (subscribeErr_eq herr).resolve_left hne]
    decide
  · exact ⟨_, he.answers rfl, .inr ⟨by rw [he.data_eq]; decide, rfl⟩⟩
  · exact ⟨_, he.answers rfl, .inl ⟨he.data_eq, rfl⟩⟩

/-- An unsubscription is answered 0 when the topic is removed, and not otherwise. -/
theorem Unsubscribe.answered {utopic : CString} {k : Slot cfg} {c c' : Client} {tr : Trace cfg}
    (h : Unsubscribe utopic k c tr c') :
    ∃ e, Answers k c cmdUnsubscribe tr e ∧ ((e.msg.ctrl.data = 0 ∧ utopic ∈ c.topics ∧
      c' = { c with topics := c.topics.erase utopic, missedPubs := c'.missedPubs }) ∨
      (e.msg.ctrl.data ≠ 0 ∧ c' = { c with missedPubs := c'.missedPubs })) := by
  rcases h with ⟨_, he⟩ | ⟨hmem, he⟩
  · exact ⟨_, he.answers rfl, .inr ⟨by rw [he.data_eq]; decide, rfl⟩⟩
  · exact ⟨_, he.answers rfl, .inl ⟨he.data_eq, hmem, rfl⟩⟩

/-- An ioctl asking for a reply timeout, and the timeout. -/
def AsksTimeout (msg : PsmqMsg cfg) (timeout : UInt16) : Prop :=
  msg.data.bytes[0]? = some ioctlReplyTimeout ∧ msg.paylen.toNat = 3 ∧
    loadU16 cfg.bigEndian (msg.data.bytes.drop 1) = some timeout

/-- An ioctl is answered 0 when it asks for a reply timeout, which is set, and
    not otherwise. -/
theorem Ioctl.answered {msg : PsmqMsg cfg} {req : UInt8} {k : Slot cfg} {c c' : Client}
    {tr : Trace cfg} (hreq : msg.data.bytes[0]? = some req) (h : Ioctl msg req k c tr c') :
    ∃ e, Answers k c cmdIoctl tr e ∧ ((e.msg.ctrl.data = 0 ∧ ∃ timeout, AsksTimeout msg timeout ∧
      c' = { c with replyTimeout := timeout, missedPubs := c'.missedPubs }) ∨
      (e.msg.ctrl.data ≠ 0 ∧ (∀ timeout, ¬AsksTimeout msg timeout) ∧
        c' = { c with missedPubs := c'.missedPubs })) := by
  rcases h with ⟨hlen, he⟩ | ⟨_, _, hlen, _, he⟩ | ⟨rfl, hlen, ht, he⟩ | ⟨hr, _, he⟩
  · exact ⟨_, he.answers rfl, .inr ⟨by rw [he.data_eq]; decide, fun _ h => by
      have := h.2.1; omega, rfl⟩⟩
  · exact ⟨_, he.answers rfl, .inr ⟨by rw [he.data_eq]; decide, fun _ h => hlen h.2.1, rfl⟩⟩
  · exact ⟨_, ⟨rfl, he.slot_eq, he.mq_eq, by rw [he.cmd_eq]⟩,
      .inl ⟨he.data_eq, _, ⟨hreq, hlen, ht⟩, rfl⟩⟩
  · exact ⟨_, he.answers rfl, .inr ⟨by rw [he.data_eq]; decide, fun _ h =>
      hr (Option.mem_unique hreq h.1), rfl⟩⟩

/-! ## Answers and changes -/

/-- The change requested by a message is made to a client: its topic is
    inserted once in the list of topics, one occurrence of it is removed from
    the list, or the reply timeout is the one asked for. -/
def ChangeMade (msg : PsmqMsg cfg) (c c' : Client) : Prop :=
  (msg.ctrl.cmd = cmdSubscribe ∧ ∃ stopic, str msg.data.bytes = some stopic ∧
    c'.topics.Perm (stopic :: c.topics)) ∨
  (msg.ctrl.cmd = cmdUnsubscribe ∧ ∃ utopic, str msg.data.bytes = some utopic ∧
    c.topics.Perm (utopic :: c'.topics)) ∨
  (msg.ctrl.cmd = cmdIoctl ∧ AsksTimeout msg c'.replyTimeout)

/-- The request is answered, and the answer agrees with the change of the client. -/
def Replied (msg : PsmqMsg cfg) (k : Slot cfg) (c c' : Client) (tr : Trace cfg) : Prop :=
  ∃ e, Answers k c msg.ctrl.cmd tr e ∧ (e.msg.ctrl.data = 0 ↔ ChangeMade msg c c') ∧
    (e.msg.ctrl.data ≠ 0 → c'.topics = c.topics ∧ c'.replyTimeout = c.replyTimeout) ∧
    c'.mq = c.mq

theorem not_perm_cons_self {α : Type} (a : α) (l : List α) : ¬l.Perm (a :: l) := fun h => by
  simpa using h.length_eq

theorem Subscribe.replied {msg : PsmqMsg cfg} {stopic : CString} {k : Slot cfg} {c c' : Client}
    {tr : Trace cfg} (hcmd : msg.ctrl.cmd = cmdSubscribe) (ht : str msg.data.bytes = some stopic)
    (h : Subscribe msg stopic k c tr c') : Replied msg k c c' tr := by
  obtain ⟨e, he, ⟨hdata, hc⟩ | ⟨hdata, hc⟩⟩ := h.answered <;> rw [hc]
  · exact ⟨e, hcmd ▸ he, iff_of_true hdata (.inl ⟨hcmd, stopic, ht, tlInsert_perm _ _⟩),
      fun h => absurd hdata h, rfl⟩
  · refine ⟨e, hcmd ▸ he, iff_of_false hdata ?_, fun _ => ⟨rfl, rfl⟩, rfl⟩
    rintro (⟨-, _, -, hp⟩ | ⟨h, -⟩ | ⟨h, -⟩)
    · exact not_perm_cons_self _ _ hp
    · exact cmd_absurd hcmd h
    · exact cmd_absurd hcmd h

theorem Unsubscribe.replied {msg : PsmqMsg cfg} {utopic : CString} {k : Slot cfg} {c c' : Client}
    {tr : Trace cfg} (hcmd : msg.ctrl.cmd = cmdUnsubscribe) (ht : str msg.data.bytes = some utopic)
    (h : Unsubscribe utopic k c tr c') : Replied msg k c c' tr := by
  obtain ⟨e, he, ⟨hdata, hmem, hc⟩ | ⟨hdata, hc⟩⟩ := h.answered <;> rw [hc]
  · exact ⟨e, hcmd ▸ he,
      iff_of_true hdata (.inr (.inl ⟨hcmd, utopic, ht, List.perm_cons_erase hmem⟩)),
      fun h => absurd hdata h, rfl⟩
  · refine ⟨e, hcmd ▸ he, iff_of_false hdata ?_, fun _ => ⟨rfl, rfl⟩, rfl⟩
    rintro (⟨h, -⟩ | ⟨-, _, -, hp⟩ | ⟨h, -⟩)
    · exact cmd_absurd hcmd h
    · exact not_perm_cons_self _ _ hp
    · exact cmd_absurd hcmd h

theorem Ioctl.replied {msg : PsmqMsg cfg} {req : UInt8} {k : Slot cfg} {c c' : Client}
    {tr : Trace cfg} (hcmd : msg.ctrl.cmd = cmdIoctl) (hreq : msg.data.bytes[0]? = some req)
    (h : Ioctl msg req k c tr c') : Replied msg k c c' tr := by
  obtain ⟨e, he, ⟨hdata, timeout, ht, hc⟩ | ⟨hdata, hno, hc⟩⟩ := h.answered hreq <;> rw [hc]
  · exact ⟨e, hcmd ▸ he, iff_of_true hdata (.inr (.inr ⟨hcmd, ht⟩)), fun h => absurd hdata h, rfl⟩
  · refine ⟨e, hcmd ▸ he, iff_of_false hdata ?_, fun _ => ⟨rfl, rfl⟩, rfl⟩
    rintro (⟨h, -⟩ | ⟨h, -⟩ | ⟨-, ht⟩)
    · exact cmd_absurd hcmd h
    · exact cmd_absurd hcmd h
    · exact hno _ ht

theorem dispatch_ioctl {s : Broker cfg} {msg : PsmqMsg cfg} (hcmd : msg.ctrl.cmd = cmdIoctl)
    (prio : ℕ) : brokerDispatch s msg prio = brokerIoctl s msg := by
  rw [brokerDispatch, hcmd, if_neg (by decide), if_neg (by decide), if_neg (by decide),
    if_neg (by decide), if_neg (by decide), if_pos rfl]

/-- A subscribe, unsubscribe or ioctl request is handled to its end, whatever
    becomes of its calls. It is answered once, to the client of the slot it
    carries, and the answer agrees with the change; the queue of the client
    and the other slots are left alone. -/
theorem request_replied {s : Broker cfg} {msg : PsmqMsg cfg} {k : Slot cfg} (ha : Accepted msg)
    (hcmd : msg.ctrl.cmd ∈ [cmdSubscribe, cmdUnsubscribe, cmdIoctl])
    (hlen : msg.ctrl.cmd = cmdIoctl → msg.paylen.toNat ≤ 16)
    (hk : slotOf cfg msg.ctrl.data = some k) (prio : ℕ) :
    (brokerDispatch s msg prio).Safe ∧
    ∀ tr x, Exec (brokerDispatch s msg prio) tr x →
      Replied msg k (s.clients k) (x.1.clients k) tr ∧
        ∀ j, j ≠ k → x.1.clients j = s.clients j := by
  obtain ⟨topic, ht, hfit, -⟩ := ha
  have hmax : msg.paylen.toNat ≤ cfg.msgMax := by omega
  -- Every handler finds the slot by itself: it is the one named.
  have hset : ∀ {s' : Broker cfg} {c : Client} {tr : Trace cfg} {fd : Slot cfg},
      slotOf cfg msg.ctrl.data = some fd → s' = s.set fd c → Replied msg fd (s.clients fd) c tr →
      Replied msg k (s.clients k) (s'.clients k) tr ∧ ∀ j, j ≠ k → s'.clients j = s.clients j := by
    intro s' c tr fd hfd hs' hr
    obtain rfl := Option.mem_unique hk hfd
    rw [hs', Broker.set_clients_self]
    exact ⟨hr, fun j hj => Broker.set_clients_of_ne _ hj _⟩
  simp only [List.mem_cons, List.not_mem_nil, or_false] at hcmd
  rcases hcmd with hcmd | hcmd | hcmd
  · refine ⟨?_, fun tr x h => ?_⟩
    · rw [brokerDispatch, hcmd, if_neg (by decide), if_neg (by decide), if_pos rfl]
      exact safe_brokerSubscribe hk ht
    · obtain ⟨fd, stopic, c, hfd, ht, h, hx⟩ := (exec_brokerDispatch h).of_cmd.2.2.1 hcmd
      exact hset hfd hx (h.replied hcmd ht)
  · refine ⟨?_, fun tr x h => ?_⟩
    · rw [brokerDispatch, hcmd, if_neg (by decide), if_neg (by decide), if_neg (by decide),
        if_pos rfl]
      exact safe_brokerUnsubscribe hk ht
    · obtain ⟨fd, utopic, c, hfd, ht, h, hx⟩ := (exec_brokerDispatch h).of_cmd.2.2.2.1 hcmd
      exact hset hfd hx (h.replied hcmd ht)
  · refine ⟨?_, fun tr x h => ?_⟩
    · rw [dispatch_ioctl hcmd]
      exact safe_brokerIoctl hk hmax fun _ => hlen hcmd
    · obtain ⟨fd, req, c, hfd, hreq, h, hx⟩ := (exec_brokerDispatch h).of_cmd.2.2.2.2.2 hcmd
      exact hset hfd hx (h.replied hcmd hreq)

/-- A client asking for the timeout 255, the largest one the smallest build
    lets through, by an ioctl that cannot be answered. -/
theorem request_replied_ioctl : ∃ (s : Broker smallest) (tr : Trace smallest)
    (x : Broker smallest × ℤ), s.IsOpen 0 ∧
    Exec (brokerDispatch s (received smallest [105, 0, 3, 0, 1, 255, 0]) 0) tr x ∧
    Replied (received smallest [105, 0, 3, 0, 1, 255, 0]) 0 (s.clients 0) (x.1.clients 0) tr ∧
    (x.1.clients 0).replyTimeout = 255 := by
  obtain ⟨s, tr, x, hs, hx, ho, ht⟩ : ∃ s tr x,
      feed (answers smallest true) [([111, 0, 0, 0, 47, 99, 0], 0)] (started smallest) = some s ∧
      eval (answers smallest false) [] (brokerDispatch s
        (received smallest [105, 0, 3, 0, 1, 255, 0]) 0) = some (tr, x) ∧ s.IsOpen 0 ∧
      (x.1.clients 0).replyTimeout = 255 := ⟨_, _, _, rfl, rfl, by decide, by decide⟩
  exact ⟨s, tr, x, ho, exec_of_eval hx, ((request_replied
    ⟨⟨[1, 255], by decide⟩, by decide, by decide, by decide⟩ (by decide) (by decide) (by decide)
    0).2 tr x (exec_of_eval hx)).1, ht⟩

/-! ## The buffer of the ioctl replies -/

/-- A timeout of more than the buffer holds is copied past its end. -/
theorem brokerIoctl_eq_fault {s : Broker cfg} {msg : PsmqMsg cfg} {k : Slot cfg}
    (hk : slotOf cfg msg.ctrl.data = some k)
    (hreq : msg.data.bytes[0]? = some ioctlReplyTimeout) (hlen : 16 < msg.paylen.toNat) :
    brokerIoctl s msg = fault .bounds := by
  have h1 : (1 : UInt16).toNat = 1 := rfl
  have hlt : ¬msg.paylen < 1 := by
    rw [UInt16.lt_iff_toNat_lt, h1]
    omega
  have hsub : (msg.paylen - 1).toNat = msg.paylen.toNat - 1 :=
    UInt16.toNat_sub_of_le _ _ (UInt16.le_iff_toNat_le.2 (by omega))
  have hbuf : ioctlBuf ioctlReplyTimeout (some (msg.data.bytes.drop 1)) (msg.paylen.toNat - 1) =
      none := if_neg fun h => by omega
  rw [brokerIoctl, hk, hreq]
  simp only [deref_some, ret_bind, if_neg hlt, hsub, if_true]
  rw [if_pos (by omega), brokerReplyIoctl, hbuf]
  rfl

/-- An accepted ioctl is handled within bounds, its reply in the 16 bytes of
    its buffer and made of what is written there, exactly when it does not ask
    for a timeout with more than 16 bytes of payload. -/
theorem safe_ioctl_iff {s : Broker cfg} {msg : PsmqMsg cfg} (ha : Accepted msg)
    (hcmd : msg.ctrl.cmd = cmdIoctl) (prio : ℕ) : (brokerDispatch s msg prio).Safe ↔
      ¬(msg.data.bytes[0]? = some ioctlReplyTimeout ∧ 16 < msg.paylen.toNat) := by
  obtain ⟨topic, -, hfit, hfd⟩ := ha
  obtain ⟨k, hk⟩ : ∃ k, slotOf cfg msg.ctrl.data = some k :=
    ⟨⟨_, hfd.resolve_left (by rw [hcmd]; decide)⟩, slotOf_eq_some_iff.2 rfl⟩
  rw [dispatch_ioctl hcmd]
  constructor
  · rintro hsafe ⟨hreq, hlen⟩
    rw [brokerIoctl_eq_fault hk hreq hlen] at hsafe
    exact not_safe_fault _ hsafe
  · intro h
    exact safe_brokerIoctl hk (by omega) fun hreq => not_lt.1 fun hlen => h ⟨hreq, hlen⟩

/-- The smallest build in which an ioctl can have 17 bytes of payload. -/
def ioctlBuild : Config := { smallest with
  msgMax := 19
  six_le_msgMax := by decide
  msgMax_le := by decide }

/-- There, a client sets its timeout to 100, then asks for one of 15 bytes,
    which the broker copies back to it up to the end of the buffer, and for
    one of 16 bytes. -/
theorem safe_ioctl_iff_timeout : ∃ (s : Broker ioctlBuild) (tr : Trace ioctlBuild)
    (x : Broker ioctlBuild × ℤ), (brokerLts ioctlBuild psmqdCfgInit).Reachable s ∧ s.IsOpen 0 ∧
    (s.clients 0).replyTimeout = 100 ∧
    (brokerDispatch s (received ioctlBuild [105, 0, 16, 0, 1, 0, 7]) 0).Safe ∧
    Exec (brokerDispatch s (received ioctlBuild [105, 0, 16, 0, 1, 0, 7]) 0) tr x ∧
    (∀ e ∈ sends tr, e.msg.paylen = 16 ∧ e.msg.data.bytes.take 3 = [1, 0, 7]) ∧
    ¬(brokerDispatch s (received ioctlBuild [105, 0, 17, 0, 1, 0, 7]) 0).Safe := by
  obtain ⟨s, tr, x, hs, hx, ho, ht, hreply⟩ : ∃ s tr x, feed (answers ioctlBuild true)
        [([111, 0, 0, 0, 47, 99, 0], 0), ([105, 0, 3, 0, 1, 100, 0], 0)] (started ioctlBuild) =
          some s ∧
      eval (answers ioctlBuild true) [] (brokerDispatch s
        (received ioctlBuild [105, 0, 16, 0, 1, 0, 7]) 0) = some (tr, x) ∧ s.IsOpen 0 ∧
      (s.clients 0).replyTimeout = 100 ∧
      ∀ e ∈ sends tr, e.msg.paylen = 16 ∧ e.msg.data.bytes.take 3 = [1, 0, 7] :=
    ⟨_, _, _, rfl, rfl, by decide, by decide, by decide⟩
  exact ⟨s, tr, x, (reachable_of_feed hs (reachable_started psmqdCfgInit) (by decide)).1, ho, ht,
    (safe_ioctl_iff ⟨⟨[1], by decide⟩, by decide, by decide, by decide⟩ (by decide) 0).2
      (by decide), exec_of_eval hx, hreply,
    mt (safe_ioctl_iff ⟨⟨[1], by decide⟩, by decide, by decide, by decide⟩ (by decide) 0).1
      (by decide)⟩

/-- There, a client asks for a timeout of 16 bytes; the reply is written past its buffer. -/
theorem ioctl_overflow : ∃ s : Broker ioctlBuild, (brokerLts ioctlBuild psmqdCfgInit).Reachable s ∧
    s.IsOpen 0 ∧ Accepted (received ioctlBuild [105, 0, 17, 0, 1, 0]) ∧
    ¬(brokerDispatch s (received ioctlBuild [105, 0, 17, 0, 1, 0]) 0).Safe := by
  obtain ⟨s, hs, ho⟩ : ∃ s, feed (answers ioctlBuild true) [([111, 0, 0, 0, 47, 99, 0], 0)]
      (started ioctlBuild) = some s ∧ s.IsOpen 0 := ⟨_, rfl, by decide⟩
  refine ⟨s, (reachable_of_feed hs (reachable_started psmqdCfgInit) (by decide)).1, ho,
    ⟨⟨[1], by decide⟩, by decide, by decide, by decide⟩, ?_⟩
  rw [dispatch_ioctl (by decide), brokerIoctl_eq_fault (k := 0) (by decide) (by decide) (by decide)]
  exact not_safe_fault _

end Psmq
