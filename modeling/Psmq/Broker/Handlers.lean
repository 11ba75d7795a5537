import Psmq.Broker.Reply

/-!
# What the handlers do

For every handler of the broker, all it may do: the calls of its executions,
and the memory it leaves (`exec_brokerOpen`, `exec_brokerSubscribe`, ...). The
cases of a handler are those of an inductive relation, on the calls and the
memory; everything proved about the broker starts from these, and looks no
further into the handlers.

A publish serves the clients one after the other; `Serve` is what it does for
one of them, along the list of its topics.
-/

namespace Psmq

open CMem Prog

variable {cfg : Config}

/-! ## Opening -/

/-- The flags a client's queue is opened with. -/
abbrev clientFlags : OpenFlags := ⟨.rdwr, false, false, 0⟩

theorem slotOf_eq_some_iff {d : UInt8} {fd : Slot cfg} :
    slotOf cfg d = some fd ↔ d.toNat = fd.val := by
  rw [slotOf]
  split
  · rw [Option.some.injEq, Fin.ext_iff]
  · have := fd.isLt
    exact ⟨fun h => absurd h (by simp), fun h => by omega⟩

theorem toNat_fdOf (fd : Slot cfg) : (fdOf fd).toNat = fd.val := by
  have := fd.isLt
  have := cfg.maxClients_le
  rw [fdOf, UInt8.toNat_ofNat']
  omega

@[simp] theorem slotOf_fdOf (fd : Slot cfg) : slotOf cfg (fdOf fd) = some fd :=
  slotOf_eq_some_iff.2 (toNat_fdOf fd)

theorem fdOf_ne_ucharMax (fd : Slot cfg) : fdOf fd ≠ UInt8.ofNat ucharMax := fun h => by
  have hfd := toNat_fdOf fd
  have hlt := fd.isLt
  have hle := cfg.maxClients_le
  have h255 : (UInt8.ofNat ucharMax).toNat = 255 := rfl
  rw [h, h255] at hfd
  omega

/-- The free slot found is free, and the first one; if none is found, all are used. -/
theorem brokerGetFreeClient_spec (s : Broker cfg) :
    (brokerGetFreeClient s = UInt8.ofNat ucharMax ∧ ∀ fd, s.IsOpen fd) ∨
      ∃ fd, brokerGetFreeClient s = fdOf fd ∧ ¬s.IsOpen fd ∧ ∀ k < fd, s.IsOpen k := by
  rw [brokerGetFreeClient]
  cases hf : (List.finRange cfg.maxClients).find? fun fd => (s.clients fd).mq = none with
  | none =>
    exact .inl ⟨rfl, fun fd => by simpa [Broker.IsOpen] using List.find?_eq_none.1 hf fd (by simp)⟩
  | some fd =>
    refine .inr ⟨fd, rfl, ?_, fun k hk => ?_⟩
    · simpa [Broker.IsOpen] using List.find?_some hf
    · obtain ⟨-, as, bs, hl, has⟩ := List.find?_eq_some_iff_append.1 hf
      -- The slots before the one found are those that `find?` has passed.
      have hmem : k ∈ as := by
        have hsorted := List.pairwise_lt_finRange cfg.maxClients
        rw [hl, List.pairwise_append, List.pairwise_cons] at hsorted
        have hk' : k ∈ as ++ fd :: bs := hl ▸ List.mem_finRange k
        rcases List.mem_append.1 hk' with h | h
        · exact h
        · rcases List.mem_cons.1 h with rfl | h
          · exact absurd hk (lt_irrefl _)
          · exact absurd (hsorted.2.1.1 k h) (not_lt.2 hk.le)
      simpa [Broker.IsOpen] using has k hmem

/-- What opening a connection may do. -/
inductive Open (s : Broker cfg) (msg : PsmqMsg cfg) : Trace cfg → Broker cfg → Prop
  /-- The queue of the client cannot be opened. -/
  | noQueue {qname : CString} {err : Errno} : str msg.data.bytes = some qname →
      Open s msg [⟨.mqOpen qname clientFlags, .error err⟩] s
  /-- There is no free slot. -/
  | noSlot {qname : CString} {qc : ℕ} {e : Sent cfg} {r : Option Errno} :
      str msg.data.bytes = some qname → (∀ fd, s.IsOpen fd) →
      IsReplyMq none (some qc) cmdOpen (UInt8.ofNat ENOSPC) none none 0 0 0 e →
      Open s msg [⟨.mqOpen qname clientFlags, .ok qc⟩, e.event, ⟨.mqClose (some qc), r⟩] s
  /-- The client gets the first free slot, and is told its descriptor. -/
  | opened {qname : CString} {qc : ℕ} {fd : Slot cfg} {e : Sent cfg} :
      str msg.data.bytes = some qname → ¬s.IsOpen fd → (∀ k < fd, s.IsOpen k) →
      IsReplyMq (some fd) (some qc) cmdOpen 0 none (some [fdOf fd]) 1 0 0 e → e.ok = true →
      Open s msg [⟨.mqOpen qname clientFlags, .ok qc⟩, e.event]
        (s.set fd { s.clients fd with mq := some qc })
  /-- The client cannot be told its descriptor: everything is left as it was. -/
  | noReply {qname : CString} {qc : ℕ} {fd : Slot cfg} {e : Sent cfg} {r : Option Errno} :
      str msg.data.bytes = some qname → ¬s.IsOpen fd → (∀ k < fd, s.IsOpen k) →
      IsReplyMq (some fd) (some qc) cmdOpen 0 none (some [fdOf fd]) 1 0 0 e → e.ok = false →
      Open s msg [⟨.mqOpen qname clientFlags, .ok qc⟩, e.event, ⟨.mqClose (some qc), r⟩] s

theorem exec_brokerOpen {s : Broker cfg} {msg : PsmqMsg cfg} {tr : Trace cfg}
    {x : Broker cfg × ℤ} (h : Exec (brokerOpen s msg) tr x) : Open s msg tr x.1 := by
  obtain ⟨qname, hq, h₁⟩ := exec_deref_bind_iff.1 h
  obtain ⟨r, tr₁, rfl, h₂⟩ := exec_perform_bind_iff.1 h₁
  cases r with
  | error err =>
    obtain ⟨rfl, rfl⟩ := exec_ret_iff.1 h₂
    exact .noQueue hq
  | ok qc =>
    simp only at h₂
    rcases brokerGetFreeClient_spec s with ⟨hfree, hall⟩ | ⟨fd, hfree, hfd, hlt⟩
    · rw [if_pos hfree] at h₂
      obtain ⟨_, ok, _, h₃, h₄, rfl⟩ := exec_bind_iff.1 h₂
      obtain ⟨e, he, rfl, -⟩ := exec_brokerReplyMq h₃
      obtain ⟨r, tr₂, rfl, h₅⟩ := exec_perform_bind_iff.1 h₄
      obtain ⟨rfl, rfl⟩ := exec_ret_iff.1 h₅
      exact .noSlot hq hall he
    · rw [hfree, if_neg (fdOf_ne_ucharMax fd), slotOf_fdOf, deref_some, ret_bind] at h₂
      obtain ⟨_, ok, _, h₃, h₄, rfl⟩ := exec_bind_iff.1 h₂
      obtain ⟨e, he, rfl, rfl⟩ := exec_brokerReplyMq h₃
      cases hok : e.ok with
      | true =>
        rw [hok] at h₄
        obtain ⟨rfl, rfl⟩ := exec_ret_iff.1 h₄
        exact .opened hq hfd hlt he hok
      | false =>
        rw [hok] at h₄
        obtain ⟨r, tr₂, rfl, h₅⟩ := exec_perform_bind_iff.1 h₄
        obtain ⟨rfl, rfl⟩ := exec_ret_iff.1 h₅
        -- The slot was free: freeing it again changes nothing.
        have hmq : s.clients fd = { s.clients fd with mq := none } := by
          rw [← not_not.1 hfd]
        simp only [Broker.modify_eq_set, Broker.set_set, Broker.set_clients_self,
          Broker.set_eq_self s fd hmq]
        exact .noReply hq hfd hlt he hok

/-! ## Closing -/

/-- A slot after its client is closed, told so or not. -/
def Client.closed (c : Client) (ok : Bool) : Client :=
  { c with mq := none, topics := [], missedPubs := if ok then 0 else 1 }

/-- What closing the client `c`, in the slot `fd`, may do. -/
inductive Close (fd : Slot cfg) (c : Client) : Trace cfg → Client → Prop
  | intro {e : Sent cfg} {r : Option Errno} : IsReply fd c cmdClose 0 none none 0 0 e →
      Close fd c [e.event, ⟨.mqClose c.mq, r⟩] (c.closed e.ok)

theorem exec_brokerClose {s : Broker cfg} {fd : Slot cfg} {tr : Trace cfg}
    {x : Broker cfg × ℤ} (h : Exec (brokerClose s fd) tr x) :
    ∃ c, Close fd (s.clients fd) tr c ∧ x.1 = s.set fd c := by
  obtain ⟨_, ⟨s₁, rc⟩, _, h₁, h₂, rfl⟩ := exec_bind_iff.1 h
  obtain ⟨e, he, rfl, rfl, -⟩ := exec_brokerReply h₁
  simp only [IsReply, Broker.modify_eq_set, Broker.set_clients_self] at he
  simp only [Broker.modify_eq_set, Broker.set_set, Broker.set_clients_self,
    Client.sent_mq] at h₂
  obtain ⟨r, tr₂, rfl, h₃⟩ := exec_perform_bind_iff.1 h₂
  obtain ⟨rfl, rfl⟩ := exec_ret_iff.1 h₃
  exact ⟨_, .intro he, rfl⟩

/-! ## Subscriptions -/

/-- What a subscription of the client `c`, in the slot `fd`, may do. -/
inductive Subscribe (msg : PsmqMsg cfg) (stopic : CString) (fd : Slot cfg) (c : Client) :
    Trace cfg → Client → Prop
  /-- The request is refused. -/
  | refused {err : Errno} {e : Sent cfg} : subscribeErr msg stopic.length = some err → err ≠ 0 →
      IsReply fd c cmdSubscribe (UInt8.ofNat err) (some stopic) none 0 0 e →
      Subscribe msg stopic fd c [e.event] (c.sent e.ok)
  /-- There is no memory for the topic. -/
  | noMemory {size : ℕ} {e : Sent cfg} : subscribeErr msg stopic.length = some 0 →
      IsReply fd c cmdSubscribe (clampErrno ENOMEM) (some stopic) none 0 0 e →
      Subscribe msg stopic fd c [⟨.malloc size, false⟩, e.event] (c.sent e.ok)
  /-- The topic is added. -/
  | added {size : ℕ} {e : Sent cfg} : subscribeErr msg stopic.length = some 0 →
      IsReply fd c cmdSubscribe 0 (some stopic) none 0 0 e →
      Subscribe msg stopic fd c [⟨.malloc size, true⟩, e.event]
        ({ c with topics := tlInsert c.topics stopic }.sent e.ok)

theorem exec_tlAdd {topics : List CString} {topic : CString} {tr : Trace cfg}
    {r : Except Errno (List CString)} (h : Exec (tlAdd topics topic) tr r) :
    ∃ size ok, tr = [⟨.malloc size, ok⟩] ∧
      r = if ok then .ok (tlInsert topics topic) else .error ENOMEM := by
  obtain ⟨ok, tr₁, rfl, h₁⟩ := exec_perform_bind_iff.1 h
  cases ok <;>
  · obtain ⟨rfl, rfl⟩ := exec_ret_iff.1 h₁
    exact ⟨_, _, rfl, rfl⟩

theorem exec_brokerSubscribe {s : Broker cfg} {msg : PsmqMsg cfg} {tr : Trace cfg}
    {x : Broker cfg × ℤ} (h : Exec (brokerSubscribe s msg) tr x) :
    ∃ fd stopic c, slotOf cfg msg.ctrl.data = some fd ∧ str msg.data.bytes = some stopic ∧
      Subscribe msg stopic fd (s.clients fd) tr c ∧ x.1 = s.set fd c := by
  obtain ⟨fd, hfd, h₁⟩ := exec_deref_bind_iff.1 h
  obtain ⟨stopic, ht, h₂⟩ := exec_deref_bind_iff.1 h₁
  obtain ⟨err, herr, h₃⟩ := exec_deref_bind_iff.1 h₂
  refine ⟨fd, stopic, ?_⟩
  split at h₃
  · next hne =>
    obtain ⟨_, ⟨s₁, rc⟩, _, h₄, h₅, rfl⟩ := exec_bind_iff.1 h₃
    obtain ⟨e, he, rfl, rfl, -⟩ := exec_brokerReply h₄
    obtain ⟨rfl, rfl⟩ := exec_ret_iff.1 h₅
    exact ⟨_, hfd, ht, .refused herr hne he, rfl⟩
  · next h0 =>
    obtain rfl : err = 0 := not_not.1 h0
    obtain ⟨_, r, _, h₄, h₅, rfl⟩ := exec_bind_iff.1 h₃
    obtain ⟨size, ok, rfl, rfl⟩ := exec_tlAdd h₄
    cases ok with
    | false =>
      obtain ⟨_, ⟨s₁, rc⟩, _, h₆, h₇, rfl⟩ := exec_bind_iff.1 h₅
      obtain ⟨e, he, rfl, rfl, -⟩ := exec_brokerReply h₆
      obtain ⟨rfl, rfl⟩ := exec_ret_iff.1 h₇
      exact ⟨_, hfd, ht, .noMemory herr he, rfl⟩
    | true =>
      obtain ⟨_, ⟨s₁, rc⟩, _, h₆, h₇, rfl⟩ := exec_bind_iff.1 h₅
      obtain ⟨e, he, rfl, rfl, -⟩ := exec_brokerReply h₆
      obtain ⟨rfl, rfl⟩ := exec_ret_iff.1 h₇
      simp only [IsReply, Broker.modify_eq_set, Broker.set_clients_self] at he
      refine ⟨_, hfd, ht, .added herr he, ?_⟩
      rw [Broker.modify_eq_set, Broker.set_set, Broker.set_clients_self]

/-- What an unsubscription of the client `c`, in the slot `fd`, may do. -/
inductive Unsubscribe (utopic : CString) (fd : Slot cfg) (c : Client) :
    Trace cfg → Client → Prop
  /-- The client is not subscribed to the topic. -/
  | absent {e : Sent cfg} : utopic ∉ c.topics →
      IsReply fd c cmdUnsubscribe (clampErrno ENOENT) (some utopic) none 0 0 e →
      Unsubscribe utopic fd c [e.event] (c.sent e.ok)
  /-- The first occurrence of the topic is removed. -/
  | removed {e : Sent cfg} : utopic ∈ c.topics →
      IsReply fd c cmdUnsubscribe 0 (some utopic) none 0 0 e →
      Unsubscribe utopic fd c [e.event]
        ({ c with topics := c.topics.erase utopic }.sent e.ok)

theorem exec_brokerUnsubscribe {s : Broker cfg} {msg : PsmqMsg cfg} {tr : Trace cfg}
    {x : Broker cfg × ℤ} (h : Exec (brokerUnsubscribe s msg) tr x) :
    ∃ fd utopic c, slotOf cfg msg.ctrl.data = some fd ∧ str msg.data.bytes = some utopic ∧
      Unsubscribe utopic fd (s.clients fd) tr c ∧ x.1 = s.set fd c := by
  obtain ⟨fd, hfd, h₁⟩ := exec_deref_bind_iff.1 h
  obtain ⟨utopic, ht, h₂⟩ := exec_deref_bind_iff.1 h₁
  rw [tlDelete_eq] at h₂
  by_cases hm : utopic ∈ (s.clients fd).topics
  · rw [if_pos hm] at h₂
    obtain ⟨_, ⟨s₁, rc⟩, _, h₃, h₄, rfl⟩ := exec_bind_iff.1 h₂
    obtain ⟨e, he, rfl, rfl, -⟩ := exec_brokerReply h₃
    obtain ⟨rfl, rfl⟩ := exec_ret_iff.1 h₄
    simp only [IsReply, Broker.modify_eq_set, Broker.set_clients_self] at he
    refine ⟨fd, utopic, _, hfd, ht, .removed hm he, ?_⟩
    rw [Broker.modify_eq_set, Broker.set_set, Broker.set_clients_self]
  · rw [if_neg hm] at h₂
    obtain ⟨_, ⟨s₁, rc⟩, _, h₃, h₄, rfl⟩ := exec_bind_iff.1 h₂
    obtain ⟨e, he, rfl, rfl, -⟩ := exec_brokerReply h₃
    obtain ⟨rfl, rfl⟩ := exec_ret_iff.1 h₄
    exact ⟨fd, utopic, _, hfd, ht, .absent hm he, rfl⟩

/-! ## Ioctls -/

/-- What an ioctl of the client `c`, in the slot `fd`, may do; `req` is the
    request, the first byte of the data. -/
inductive Ioctl (msg : PsmqMsg cfg) (req : UInt8) (fd : Slot cfg) (c : Client) :
    Trace cfg → Client → Prop
  /-- There is no request. -/
  | noRequest {e : Sent cfg} : msg.paylen.toNat = 0 →
      IsReply fd c cmdIoctl (UInt8.ofNat EINVAL) none (some [0]) 1 0 e →
      Ioctl msg req fd c [e.event] (c.sent e.ok)
  /-- The timeout has a wrong size: it is sent back. -/
  | badData {e : Sent cfg} {buf : Ptr} : req = ioctlReplyTimeout → msg.paylen.toNat ≠ 0 →
      msg.paylen.toNat ≠ 3 →
      ioctlBuf req (some (msg.data.bytes.drop 1)) (msg.paylen.toNat - 1) = some buf →
      IsReply fd c cmdIoctl (UInt8.ofNat EINVAL) none (some buf) msg.paylen.toNat 0 e →
      Ioctl msg req fd c [e.event] (c.sent e.ok)
  /-- The timeout is set. -/
  | set {e : Sent cfg} {timeout : UInt16} : req = ioctlReplyTimeout → msg.paylen.toNat = 3 →
      loadU16 cfg.bigEndian (msg.data.bytes.drop 1) = some timeout →
      IsReply fd { c with replyTimeout := timeout } cmdIoctl 0 none
        (some (req :: storeU16 cfg.bigEndian timeout)) 3 0 e →
      Ioctl msg req fd c [e.event] ({ c with replyTimeout := timeout }.sent e.ok)
  /-- The request is not known. -/
  | badRequest {e : Sent cfg} : req ≠ ioctlReplyTimeout → msg.paylen.toNat ≠ 0 →
      IsReply fd c cmdIoctl (UInt8.ofNat EINVAL) none (some [req]) 1 0 e →
      Ioctl msg req fd c [e.event] (c.sent e.ok)

theorem exec_brokerReplyIoctl {s s' : Broker cfg} {fd : Slot cfg} {err req : UInt8}
    {data : Option Ptr} {datalen : ℕ} {tr : Trace cfg}
    (h : Exec (brokerReplyIoctl s fd err req data datalen) tr s') :
    ∃ buf e, ioctlBuf req data datalen = some buf ∧
      IsReply fd (s.clients fd) cmdIoctl err none (some buf) (1 + datalen) 0 e ∧
      tr = [e.event] ∧ s' = s.set fd ((s.clients fd).sent e.ok) := by
  obtain ⟨buf, hb, h₁⟩ := exec_deref_bind_iff.1 h
  obtain ⟨_, ⟨s₁, rc⟩, _, h₂, h₃, rfl⟩ := exec_bind_iff.1 h₁
  obtain ⟨e, he, rfl, rfl, -⟩ := exec_brokerReply h₂
  obtain ⟨rfl, rfl⟩ := exec_ret_iff.1 h₃
  exact ⟨buf, e, hb, he, rfl, rfl⟩

theorem exec_brokerIoctl {s : Broker cfg} {msg : PsmqMsg cfg} {tr : Trace cfg}
    {x : Broker cfg × ℤ} (h : Exec (brokerIoctl s msg) tr x) :
    ∃ fd req c, slotOf cfg msg.ctrl.data = some fd ∧ msg.data.bytes[0]? = some req ∧
      Ioctl msg req fd (s.clients fd) tr c ∧ x.1 = s.set fd c := by
  obtain ⟨fd, hfd, h₁⟩ := exec_deref_bind_iff.1 h
  obtain ⟨req, hreq, h₂⟩ := exec_deref_bind_iff.1 h₁
  refine ⟨fd, req, ?_⟩
  have h1 : (1 : UInt16).toNat = 1 := rfl
  by_cases hlen : msg.paylen < 1
  · rw [if_pos hlen] at h₂
    rw [UInt16.lt_iff_toNat_lt, h1] at hlen
    obtain ⟨_, s₁, _, h₃, h₄, rfl⟩ := exec_bind_iff.1 h₂
    obtain ⟨buf, e, hb, he, rfl, rfl⟩ := exec_brokerReplyIoctl h₃
    obtain ⟨rfl, rfl⟩ := exec_ret_iff.1 h₄
    obtain rfl := Option.some.inj hb
    exact ⟨_, hfd, hreq, .noRequest (by omega) he, rfl⟩
  · rw [if_neg hlen] at h₂
    rw [UInt16.lt_iff_toNat_lt, h1] at hlen
    -- There is a request byte, so that the subtraction does not wrap.
    have hsub : (msg.paylen - 1).toNat = msg.paylen.toNat - 1 :=
      UInt16.toNat_sub_of_le _ _ (UInt16.le_iff_toNat_le.2 (by omega))
    simp only [hsub] at h₂
    split at h₂
    · next hr =>
      split at h₂
      · next hd =>
        obtain ⟨_, s₁, _, h₃, h₄, rfl⟩ := exec_bind_iff.1 h₂
        obtain ⟨buf, e, hb, he, rfl, rfl⟩ := exec_brokerReplyIoctl h₃
        obtain ⟨rfl, rfl⟩ := exec_ret_iff.1 h₄
        rw [show 1 + (msg.paylen.toNat - 1) = msg.paylen.toNat by omega] at he
        exact ⟨_, hfd, hreq, .badData hr (by omega) (by omega) hb he, rfl⟩
      · next hd =>
        obtain ⟨timeout, ht, h₃⟩ := exec_deref_bind_iff.1 h₂
        obtain ⟨_, s₁, _, h₄, h₅, rfl⟩ := exec_bind_iff.1 h₃
        obtain ⟨buf, e, hb, he, rfl, rfl⟩ := exec_brokerReplyIoctl h₄
        obtain ⟨rfl, rfl⟩ := exec_ret_iff.1 h₅
        simp only [IsReply, Broker.modify_eq_set, Broker.set_clients_self] at he hb
        rw [not_not.1 hd, ioctlBuf, length_storeU16, if_pos (by decide),
          List.take_of_length_le (by rw [length_storeU16])] at hb
        obtain rfl := Option.some.inj hb
        rw [not_not.1 hd] at he
        refine ⟨_, hfd, hreq, .set hr (by omega) ht he, ?_⟩
        rw [Broker.modify_eq_set, Broker.set_set, Broker.set_clients_self]
    · next hr =>
      obtain ⟨_, s₁, _, h₃, h₄, rfl⟩ := exec_bind_iff.1 h₂
      obtain ⟨buf, e, hb, he, rfl, rfl⟩ := exec_brokerReplyIoctl h₃
      obtain ⟨rfl, rfl⟩ := exec_ret_iff.1 h₄
      obtain rfl := Option.some.inj hb
      exact ⟨_, hfd, hreq, .badRequest hr (by omega) he, rfl⟩

/-! ## Publishing -/

/-- Going through some slots, doing `R` for the client in every open one. -/
inductive Sweep (R : Slot cfg → Client → Trace cfg → Client → Prop) :
    List (Slot cfg) → Broker cfg → Trace cfg → Broker cfg → Prop
  | done {s : Broker cfg} : Sweep R [] s [] s
  /-- There is no client in the slot. -/
  | free {fd : Slot cfg} {fds : List (Slot cfg)} {s s' : Broker cfg} {tr : Trace cfg} :
      ¬s.IsOpen fd → Sweep R fds s tr s' → Sweep R (fd :: fds) s tr s'
  | visit {fd : Slot cfg} {fds : List (Slot cfg)} {s s' : Broker cfg} {c : Client}
      {tr₁ tr₂ : Trace cfg} : s.IsOpen fd → R fd (s.clients fd) tr₁ c →
      Sweep R fds (s.set fd c) tr₂ s' → Sweep R (fd :: fds) s (tr₁ ++ tr₂) s'

section Publish

variable (topic : CString) (payload : Ptr) (paylen prio : ℕ) (fd : Slot cfg)

/-- Serving a client along the list of its topics. -/
inductive Serve : List CString → Client → Trace cfg → Client → Prop
  /-- All the topics have been tried. -/
  | done {c : Client} : Serve [] c [] c
  /-- The topic does not match. -/
  | skip {node : CString} {nodes : List CString} {c c' : Client} {tr : Trace cfg} :
      brokerTopicMatches cfg topic node = some false → Serve nodes c tr c' →
      Serve (node :: nodes) c tr c'
  /-- The topic matches, and the message is sent. -/
  | sent {node : CString} {nodes : List CString} {c : Client} {e : Sent cfg} :
      TopicMatches cfg topic node →
      IsReply fd c cmdPublish 0 (some topic) (some payload) paylen prio e → e.ok = true →
      Serve (node :: nodes) c [e.event] (c.sent true)
  /-- The topic matches, but the message cannot be sent. -/
  | missed {node : CString} {nodes : List CString} {c c' : Client} {e : Sent cfg}
      {tr : Trace cfg} : TopicMatches cfg topic node →
      IsReply fd c cmdPublish 0 (some topic) (some payload) paylen prio e → e.ok = false →
      ¬maxMissedPubs ≤ c.missedPubs + 1 → Serve nodes (c.sent false) tr c' →
      Serve (node :: nodes) c (e.event :: tr) c'
  /-- The message cannot be sent, once too often: the client is closed. -/
  | evicted {node : CString} {nodes : List CString} {c c' : Client} {e : Sent cfg}
      {tr : Trace cfg} {r : Except Errno (List UInt8 × ℕ)} : TopicMatches cfg topic node →
      IsReply fd c cmdPublish 0 (some topic) (some payload) paylen prio e → e.ok = false →
      maxMissedPubs ≤ c.missedPubs + 1 → Close fd (c.sent false) tr c' →
      Serve (node :: nodes) c (e.event :: ⟨.mqTimedreceive c.mq 0, r⟩ :: tr) c'

variable {topic payload paylen prio fd}

theorem exec_publishTopics {nodes : List CString} {s s' : Broker cfg} {tr : Trace cfg}
    (h : Exec (publishTopics topic payload paylen prio fd nodes s) tr s') :
    ∃ c, Serve topic payload paylen prio fd nodes (s.clients fd) tr c ∧ s' = s.set fd c := by
  induction nodes generalizing s tr with
  | nil =>
    obtain ⟨rfl, rfl⟩ := exec_ret_iff.1 h
    exact ⟨_, .done, (s'.set_eq_self fd rfl).symm⟩
  | cons node nodes ih =>
    obtain ⟨m, hm, h₁⟩ := exec_deref_bind_iff.1 h
    cases m with
    | false =>
      obtain ⟨c, hc, rfl⟩ := ih h₁
      exact ⟨c, .skip hm hc, rfl⟩
    | true =>
      obtain ⟨_, ⟨s₁, rc⟩, _, h₂, h₃, rfl⟩ := exec_bind_iff.1 h₁
      obtain ⟨e, he, rfl, rfl, rfl⟩ := exec_brokerReply h₂
      cases hok : e.ok with
      | true =>
        rw [hok] at h₃
        obtain ⟨rfl, rfl⟩ := exec_ret_iff.1 h₃
        exact ⟨_, .sent hm he hok, rfl⟩
      | false =>
        rw [hok] at h₃
        -- A missed message is counted before the client is evicted.
        simp only [Bool.false_eq_true, if_false, ne_eq, Broker.set_clients_self,
          Client.sent_mq] at h₃
        rw [if_pos (by decide)] at h₃
        split at h₃
        · next hmax =>
          obtain ⟨r, tr₂, rfl, h₄⟩ := exec_perform_bind_iff.1 h₃
          obtain ⟨_, x, _, h₅, h₆, rfl⟩ := exec_bind_iff.1 h₄
          obtain ⟨rfl, rfl⟩ := exec_ret_iff.1 h₆
          obtain ⟨c, hc, hx⟩ := exec_brokerClose h₅
          rw [Broker.set_clients_self] at hc
          rw [List.append_nil, hx, Broker.set_set]
          exact ⟨c, .evicted hm he hok hmax hc, rfl⟩
        · next hmax =>
          -- The loop goes on: a later topic of the client may match too.
          obtain ⟨c, hc, rfl⟩ := ih h₃
          rw [Broker.set_clients_self] at hc
          exact ⟨c, .missed hm he hok hmax hc, Broker.set_set _ _ _ _⟩

variable (topic payload paylen prio)

/-- Serving the clients in some slots, one after the other. -/
abbrev ServeAll : List (Slot cfg) → Broker cfg → Trace cfg → Broker cfg → Prop :=
  Sweep fun fd c tr c' => Serve topic payload paylen prio fd c.topics c tr c'

variable {topic payload paylen prio}

theorem exec_publishClients {fds : List (Slot cfg)} {s s' : Broker cfg} {tr : Trace cfg}
    (h : Exec (publishClients topic payload paylen prio fds s) tr s') :
    ServeAll topic payload paylen prio fds s tr s' := by
  induction fds generalizing s tr with
  | nil =>
    obtain ⟨rfl, rfl⟩ := exec_ret_iff.1 h
    exact .done
  | cons fd fds ih =>
    rw [publishClients] at h
    split at h
    · next hmq => exact .free (not_not.2 hmq) (ih h)
    · next hmq =>
      obtain ⟨_, s₁, _, h₁, h₂, rfl⟩ := exec_bind_iff.1 h
      obtain ⟨c, hc, rfl⟩ := exec_publishTopics h₁
      exact .visit hmq hc (ih h₂)

end Publish

/-- The payload of a message with the topic `topic`. -/
abbrev payloadOf (msg : PsmqMsg cfg) (topic : CString) : Ptr :=
  msg.data.bytes.drop (topic.length + 1)

theorem exec_brokerPublish {s : Broker cfg} {msg : PsmqMsg cfg} {prio : ℕ} {tr : Trace cfg}
    {x : Broker cfg × ℤ} (h : Exec (brokerPublish s msg prio) tr x) :
    ∃ topic, str msg.data.bytes = some topic ∧
      ServeAll topic (payloadOf msg topic) msg.paylen.toNat prio (List.finRange cfg.maxClients)
        s tr x.1 := by
  obtain ⟨topic, ht, h₁⟩ := exec_deref_bind_iff.1 h
  obtain ⟨_, s₁, _, h₂, h₃, rfl⟩ := exec_bind_iff.1 h₁
  obtain ⟨rfl, rfl⟩ := exec_ret_iff.1 h₃
  rw [List.append_nil]
  exact ⟨topic, ht, exec_publishClients h₂⟩

/-! ## The main loop -/

/-- The message in the struct of the broker, cleared first, after it receives `bytes`. -/
abbrev received (cfg : Config) (bytes : List UInt8) : PsmqMsg cfg :=
  (PsmqMsg.zero cfg).recvInto bytes

/-- The message passes the checks of the main loop. -/
def Accepted (msg : PsmqMsg cfg) : Prop :=
  ∃ topic, str msg.data.bytes = some topic ∧
    topic.length + 1 + msg.paylen.toNat ≤ cfg.msgMax ∧
    (msg.ctrl.cmd = cmdOpen ∨ msg.ctrl.data.toNat < cfg.maxClients)

/-- The checks read a message with a topic, and let it through if it is accepted. -/
theorem brokerIntake_eq {bytes : List UInt8} {topic : CString}
    (ht : str (received cfg bytes).data.bytes = some topic) :
    (Accepted (received cfg bytes) → brokerIntake cfg bytes = ret (some (received cfg bytes))) ∧
      (¬Accepted (received cfg bytes) → brokerIntake cfg bytes = ret none) := by
  have hlen : topic.length < cfg.msgMax := by
    simpa using length_lt_of_str ht
  simp only [brokerIntake, strlen, ht, Option.map_some, deref_some, ret_bind, pure_eq,
    if_neg (not_le.2 hlen)]
  refine ⟨?_, fun hna => ?_⟩
  · rintro ⟨topic', ht', hfit, hfd⟩
    obtain rfl := Option.mem_unique ht ht'
    rw [if_neg (not_lt.2 hfit), if_neg]
    rintro ⟨hcmd, hge⟩
    exact hfd.elim hcmd (not_lt.2 hge)
  · split_ifs with hfit hfd
    · rfl
    · rfl
    · exact absurd ⟨topic, ht, not_lt.1 hfit, by
        by_cases hcmd : (received cfg bytes).ctrl.cmd = cmdOpen
        · exact .inl hcmd
        · exact .inr (not_le.1 fun hge => hfd ⟨hcmd, hge⟩)⟩ hna

/-- A message accepted is handled. -/
theorem brokerStart_of_accepted {s : Broker cfg} {bytes : List UInt8} {prio : ℕ}
    (ha : Accepted (received cfg bytes)) :
    brokerStart s bytes prio =
      brokerDispatch s (received cfg bytes) prio >>= fun x => ret x.1 := by
  obtain ⟨topic, ht, -⟩ := id ha
  rw [brokerStart, (brokerIntake_eq ht).1 ha]
  rfl

/-- A message with a topic that is not accepted is dropped. -/
theorem brokerStart_of_not_accepted {s : Broker cfg} {bytes : List UInt8} {prio : ℕ}
    {topic : CString} (ht : str (received cfg bytes).data.bytes = some topic)
    (hna : ¬Accepted (received cfg bytes)) : brokerStart s bytes prio = ret s := by
  rw [brokerStart, (brokerIntake_eq ht).2 hna]
  rfl

/-- What handling a request may do. -/
inductive Handle (s : Broker cfg) (msg : PsmqMsg cfg) (prio : ℕ) : Trace cfg → Broker cfg → Prop
  | opening {s' : Broker cfg} {tr : Trace cfg} : msg.ctrl.cmd = cmdOpen → Open s msg tr s' →
      Handle s msg prio tr s'
  | closing {c : Client} {tr : Trace cfg} {fd : Slot cfg} : msg.ctrl.cmd = cmdClose →
      slotOf cfg msg.ctrl.data = some fd → Close fd (s.clients fd) tr c →
      Handle s msg prio tr (s.set fd c)
  | subscribing {c : Client} {tr : Trace cfg} {fd : Slot cfg} {stopic : CString} :
      msg.ctrl.cmd = cmdSubscribe → slotOf cfg msg.ctrl.data = some fd →
      str msg.data.bytes = some stopic → Subscribe msg stopic fd (s.clients fd) tr c →
      Handle s msg prio tr (s.set fd c)
  | unsubscribing {c : Client} {tr : Trace cfg} {fd : Slot cfg} {utopic : CString} :
      msg.ctrl.cmd = cmdUnsubscribe → slotOf cfg msg.ctrl.data = some fd →
      str msg.data.bytes = some utopic → Unsubscribe utopic fd (s.clients fd) tr c →
      Handle s msg prio tr (s.set fd c)
  | publishing {s' : Broker cfg} {tr : Trace cfg} {topic : CString} : msg.ctrl.cmd = cmdPublish →
      str msg.data.bytes = some topic →
      ServeAll topic (payloadOf msg topic) msg.paylen.toNat prio (List.finRange cfg.maxClients)
        s tr s' → Handle s msg prio tr s'
  | ioctl {c : Client} {tr : Trace cfg} {fd : Slot cfg} {req : UInt8} :
      msg.ctrl.cmd = cmdIoctl → slotOf cfg msg.ctrl.data = some fd →
      msg.data.bytes[0]? = some req → Ioctl msg req fd (s.clients fd) tr c →
      Handle s msg prio tr (s.set fd c)
  | unknown : msg.ctrl.cmd ∉ [cmdOpen, cmdClose, cmdSubscribe, cmdUnsubscribe, cmdPublish,
      cmdIoctl] → Handle s msg prio [] s

/-- What handling a request may do, by its command. -/
theorem Handle.of_cmd {s s' : Broker cfg} {msg : PsmqMsg cfg} {prio : ℕ} {tr : Trace cfg}
    (h : Handle s msg prio tr s') :
    (msg.ctrl.cmd = cmdOpen → Open s msg tr s') ∧
    (msg.ctrl.cmd = cmdClose → ∃ fd c, slotOf cfg msg.ctrl.data = some fd ∧
      Close fd (s.clients fd) tr c ∧ s' = s.set fd c) ∧
    (msg.ctrl.cmd = cmdSubscribe → ∃ fd stopic c, slotOf cfg msg.ctrl.data = some fd ∧
      str msg.data.bytes = some stopic ∧ Subscribe msg stopic fd (s.clients fd) tr c ∧
      s' = s.set fd c) ∧
    (msg.ctrl.cmd = cmdUnsubscribe → ∃ fd utopic c, slotOf cfg msg.ctrl.data = some fd ∧
      str msg.data.bytes = some utopic ∧ Unsubscribe utopic fd (s.clients fd) tr c ∧
      s' = s.set fd c) ∧
    (msg.ctrl.cmd = cmdPublish → ∃ topic, str msg.data.bytes = some topic ∧
      ServeAll topic (payloadOf msg topic) msg.paylen.toNat prio (List.finRange cfg.maxClients)
        s tr s') ∧
    (msg.ctrl.cmd = cmdIoctl → ∃ fd req c, slotOf cfg msg.ctrl.data = some fd ∧
      msg.data.bytes[0]? = some req ∧ Ioctl msg req fd (s.clients fd) tr c ∧ s' = s.set fd c) := by
  cases h with
  | opening hcmd h =>
    refine ⟨fun _ => h, ?_, ?_, ?_, ?_, ?_⟩ <;> exact fun hc => cmd_absurd hcmd hc
  | closing hcmd hfd h =>
    refine ⟨?_, fun _ => ⟨_, _, hfd, h, rfl⟩, ?_, ?_, ?_, ?_⟩ <;>
      exact fun hc => cmd_absurd hcmd hc
  | subscribing hcmd hfd ht h =>
    refine ⟨?_, ?_, fun _ => ⟨_, _, _, hfd, ht, h, rfl⟩, ?_, ?_, ?_⟩ <;>
      exact fun hc => cmd_absurd hcmd hc
  | unsubscribing hcmd hfd ht h =>
    refine ⟨?_, ?_, ?_, fun _ => ⟨_, _, _, hfd, ht, h, rfl⟩, ?_, ?_⟩ <;>
      exact fun hc => cmd_absurd hcmd hc
  | publishing hcmd ht h =>
    refine ⟨?_, ?_, ?_, ?_, fun _ => ⟨_, ht, h⟩, ?_⟩ <;>
      exact fun hc => cmd_absurd hcmd hc
  | ioctl hcmd hfd hr h =>
    refine ⟨?_, ?_, ?_, ?_, ?_, fun _ => ⟨_, _, _, hfd, hr, h, rfl⟩⟩ <;>
      exact fun hc => cmd_absurd hcmd hc
  | unknown hno => refine ⟨?_, ?_, ?_, ?_, ?_, ?_⟩ <;> exact fun hc => absurd (by simp [hc]) hno

theorem exec_brokerDispatch {s : Broker cfg} {msg : PsmqMsg cfg} {prio : ℕ} {tr : Trace cfg}
    {x : Broker cfg × ℤ} (h : Exec (brokerDispatch s msg prio) tr x) :
    Handle s msg prio tr x.1 := by
  rw [brokerDispatch] at h
  split_ifs at h with h₁ h₂ h₃ h₄ h₅ h₆
  · exact .opening h₁ (exec_brokerOpen h)
  · obtain ⟨fd, hfd, hc⟩ := exec_deref_bind_iff.1 h
    obtain ⟨c, hc, hx⟩ := exec_brokerClose hc
    exact hx ▸ .closing h₂ hfd hc
  · obtain ⟨fd, stopic, c, hfd, ht, hs, hx⟩ := exec_brokerSubscribe h
    exact hx ▸ .subscribing h₃ hfd ht hs
  · obtain ⟨fd, utopic, c, hfd, ht, hu, hx⟩ := exec_brokerUnsubscribe h
    exact hx ▸ .unsubscribing h₄ hfd ht hu
  · obtain ⟨topic, ht, hp⟩ := exec_brokerPublish h
    exact .publishing h₅ ht hp
  · obtain ⟨fd, req, c, hfd, hr, hi, hx⟩ := exec_brokerIoctl h
    exact hx ▸ .ioctl h₆ hfd hr hi
  · obtain ⟨rfl, rfl⟩ := exec_ret_iff.1 h
    exact .unknown (by simp [h₁, h₂, h₃, h₄, h₅, h₆])

/-- What a round of the main loop may do, with the bytes received. -/
inductive Round (s : Broker cfg) (bytes : List UInt8) (prio : ℕ) :
    Trace cfg → Broker cfg → Prop
  | dropped : ¬Accepted (received cfg bytes) → Round s bytes prio [] s
  | handled {s' : Broker cfg} {tr : Trace cfg} : Accepted (received cfg bytes) →
      Handle s (received cfg bytes) prio tr s' → Round s bytes prio tr s'

theorem exec_brokerStart {s s' : Broker cfg} {bytes : List UInt8} {prio : ℕ} {tr : Trace cfg}
    (h : Exec (brokerStart s bytes prio) tr s') : Round s bytes prio tr s' := by
  by_cases ha : Accepted (received cfg bytes)
  · rw [brokerStart_of_accepted ha] at h
    obtain ⟨_, x, _, h₁, h₂, rfl⟩ := exec_bind_iff.1 h
    obtain ⟨rfl, rfl⟩ := exec_ret_iff.1 h₂
    rw [List.append_nil]
    exact .handled ha (exec_brokerDispatch h₁)
  · -- The checks of an execution have found a topic in the message.
    obtain ⟨topic, ht⟩ : ∃ topic, str (received cfg bytes).data.bytes = some topic := by
      obtain ⟨_, _, _, h₁, -, -⟩ := exec_bind_iff.1 h
      obtain ⟨l, hl, -⟩ := exec_deref_bind_iff.1 h₁
      exact (Option.map_eq_some_iff.1 hl).imp fun _ h => h.1
    rw [brokerStart_of_not_accepted ht ha] at h
    obtain ⟨rfl, rfl⟩ := exec_ret_iff.1 h
    exact .dropped ha

/-! ## Starting and stopping -/

/-- Closing the clients in some slots, one after the other. -/
abbrev CloseAll : List (Slot cfg) → Broker cfg → Trace cfg → Broker cfg → Prop := Sweep Close

theorem exec_cleanupClients {fds : List (Slot cfg)} {s s' : Broker cfg} {tr : Trace cfg}
    (h : Exec (cleanupClients fds s) tr s') : CloseAll fds s tr s' := by
  induction fds generalizing s tr with
  | nil =>
    obtain ⟨rfl, rfl⟩ := exec_ret_iff.1 h
    exact .done
  | cons fd fds ih =>
    rw [cleanupClients] at h
    split at h
    · next hmq => exact .free (not_not.2 hmq) (ih h)
    · next hmq =>
      obtain ⟨_, x, _, h₁, h₂, rfl⟩ := exec_bind_iff.1 h
      obtain ⟨c, hc, hx⟩ := exec_brokerClose h₁
      exact .visit hmq hc (ih (hx ▸ h₂))

/-- Stopping closes all the clients, and sends nothing else. -/
theorem exec_brokerCleanup {pc : PsmqdCfg} {s : Broker cfg} {tr : Trace cfg} {x : Broker cfg × ℤ}
    (h : Exec (brokerCleanup pc s) tr x) :
    ∃ tr₁, CloseAll (List.finRange cfg.maxClients) s tr₁ x.1 ∧ sends tr = sends tr₁ := by
  obtain ⟨tr₁, s₁, _, h₁, h₂, rfl⟩ := exec_bind_iff.1 h
  obtain ⟨r₁, _, rfl, h₃⟩ := exec_perform_bind_iff.1 h₂
  obtain ⟨r₂, _, rfl, h₄⟩ := exec_perform_bind_iff.1 h₃
  obtain ⟨rfl, rfl⟩ := exec_ret_iff.1 h₄
  exact ⟨tr₁, exec_cleanupClients h₁, by simp⟩

theorem exec_brokerOpenCtrl {pc : PsmqdCfg} {tries : ℕ} {tr : Trace cfg} {mq : Mqd}
    (h : Exec (brokerOpenCtrl pc tries) tr mq) : sends tr = [] := by
  induction tries generalizing tr with
  | zero =>
    obtain ⟨rfl, rfl⟩ := exec_ret_iff.1 h
    rfl
  | succ tries ih =>
    obtain ⟨r, tr₁, rfl, h₁⟩ := exec_perform_bind_iff.1 h
    cases r with
    | error err => rw [sends_mqOpen, ih h₁]
    | ok mq =>
      obtain ⟨rfl, rfl⟩ := exec_ret_iff.1 h₁
      rfl

/-- Starting marks all the slots free, and sends nothing. -/
theorem exec_brokerInit {pc : PsmqdCfg} {s : Broker cfg} {tr : Trace cfg} {x : Broker cfg × ℤ}
    (h : Exec (brokerInit pc s) tr x) :
    (∀ fd, x.1.clients fd = { s.clients fd with mq := none }) ∧ sends tr = [] := by
  have key : ∀ {tr : Trace cfg}, Exec (do
      let qctrl ← brokerOpenCtrl pc 10
      if qctrl = none then
        return (({ qctrl, clients := fun fd => { s.clients fd with mq := none } } : Broker cfg), -1)
      else
        return ({ qctrl, clients := fun fd => { s.clients fd with mq := none } }, 0)) tr x →
      (∀ fd, x.1.clients fd = { s.clients fd with mq := none }) ∧ sends tr = [] := by
    intro tr h
    obtain ⟨tr₁, q, _, h₁, h₂, rfl⟩ := exec_bind_iff.1 h
    split at h₂ <;>
    · obtain ⟨rfl, rfl⟩ := exec_ret_iff.1 h₂
      exact ⟨fun fd => rfl, by rw [List.append_nil, exec_brokerOpenCtrl h₁]⟩
  rw [brokerInit] at h
  split at h
  · obtain ⟨r, tr₁, rfl, h₁⟩ := exec_perform_bind_iff.1 h
    rw [sends_mqUnlink]
    exact key h₁
  · exact key h

end Psmq
