import Psmq.Broker.Run

/-!
# Bounds

A message that passes the checks of the main loop is handled within bounds: no
access of a handler is out of the range of an object (`handlers_in_bounds`).

The checks are about the message alone. What is compared with its topic was
stored earlier, and the buffers of the comparison hold it because every topic
stored came in a message that passed them (`TopicsShort`).
-/

namespace Psmq

open CMem Prog

variable {cfg : Config}

/-! ## The topics stored -/

/-- The topics of a client fit in a message. -/
def Client.Short (cfg : Config) (c : Client) : Prop := ∀ t ∈ c.topics, t.length < cfg.msgMax

/-- The topics stored in the slots fit in a message. -/
def TopicsShort (s : Broker cfg) : Prop := ∀ k, (s.clients k).Short cfg

theorem Client.Short.of_subset {c c' : Client} (h : c.Short cfg) (hc : c'.topics ⊆ c.topics) :
    c'.Short cfg := fun t ht => h t (hc ht)

theorem Serve.topics_subset {topic : CString} {payload : Ptr} {paylen prio : ℕ} {fd : Slot cfg}
    {nodes : List CString} {c c' : Client} {tr : Trace cfg}
    (h : Serve topic payload paylen prio fd nodes c tr c') : c'.topics ⊆ c.topics := by
  rcases h.spec with ⟨hc, -⟩ | ⟨_, _, -, -, -, hc⟩ <;> rw [hc]
  · exact List.Subset.refl _
  · exact List.nil_subset _

/-- What holds of the topics accepted holds of the topics a slot stores. -/
theorem SlotStep.forall_topics {Q : CString → Prop} {s : Broker cfg} {msg : PsmqMsg cfg} {prio : ℕ}
    {k : Slot cfg} {tr : Trace cfg} {c : Client} (h : SlotStep s msg prio k tr c)
    (hQ : ∀ {stopic}, str msg.data.bytes = some stopic →
      subscribeErr msg stopic.length = some 0 → Q stopic)
    (hs : ∀ t ∈ (s.clients k).topics, Q t) : ∀ t ∈ c.topics, Q t := by
  cases h with
  | idle => exact hs
  | opened => exact hs
  | noReply => exact hs
  | closed _ _ h =>
    obtain ⟨_, -, -, rfl⟩ := h.spec
    exact fun t ht => absurd ht List.not_mem_nil
  | subscribed _ _ hstr h =>
    cases h with
    | added herr =>
      intro t hmem
      rcases mem_tlInsert.1 hmem with rfl | hmem
      · exact hQ hstr herr
      · exact hs t hmem
    | _ => exact hs
  | unsubscribed _ _ _ h =>
    cases h with
    | absent => exact hs
    | removed => exact fun t ht => hs t (List.erase_subset ht)
  | served _ _ _ _ h => exact fun t ht => hs t (h.topics_subset ht)
  | ioctl _ _ _ h => cases h <;> exact hs

/-- What holds of the topics accepted holds of all the topics stored. -/
theorem forall_topics_of_reachable {Q : CString → Prop} {pc : PsmqdCfg} {s : Broker cfg}
    (hs : (brokerLts cfg pc).Reachable s) (hQ : ∀ {msg : PsmqMsg cfg} {stopic},
      str msg.data.bytes = some stopic → subscribeErr msg stopic.length = some 0 → Q stopic)
    (k : Slot cfg) : ∀ t ∈ (s.clients k).topics, Q t := by
  refine hs.invariant (P := fun s => ∀ t ∈ (s.clients k).topics, Q t) (fun s h => ?_)
    fun s l s' hs h => ?_
  · rw [brokerLts_init h]
    exact fun t ht => absurd ht List.not_mem_nil
  · cases l with
    | request bytes prio tr => exact (step_request_slot h k).forall_topics hQ hs
    | restart tr =>
      rcases step_restart_slot h k with ⟨-, _, -, -, hc⟩ | ⟨-, -, hc⟩
      · rw [hc]
        exact fun t ht => absurd ht List.not_mem_nil
      · rwa [hc]

/-- Every topic stored is shorter than the data of a message. -/
theorem topicsShort_of_reachable {pc : PsmqdCfg} {s : Broker cfg}
    (hs : (brokerLts cfg pc).Reachable s) : TopicsShort s := fun k =>
  forall_topics_of_reachable hs (fun hstr _ => by simpa using length_lt_of_str hstr) k

/-! ## The replies -/

/-- The length of a reply is found, and in the struct, if it does not measure
    its topic, if that ends in the data, or if the payload leaves enough room. -/
theorem realMsgSize_replyMsg {cmd data : UInt8} {topic : Option CString} {payload : Option Ptr}
    {paylen : ℕ} {msg : PsmqMsg cfg} (h : replyMsg cfg cmd data topic payload paylen = some msg)
    (hfit : (topicBytes topic).length + paylen ≤ cfg.msgMax)
    (htopic : cmd = cmdIoctl ∨ topic ≠ none ∨ 2 * paylen + 1 ≤ cfg.msgMax) :
    ∃ len, msg.realMsgSize = some len ∧ len ≤ sizeofMsg cfg := by
  obtain ⟨hctrl, hpl, hb⟩ := replyMsg_eq_some h
  have hpaylen : msg.paylen.toNat ≤ paylen := by
    rw [hpl, UInt16.toNat_ofNat']
    exact Nat.mod_le _ _
  -- The length of an ioctl reply is that of its payload, as nothing is measured.
  by_cases hcmd : cmd = cmdIoctl
  · refine ⟨headerSize + msg.paylen.toNat, by rw [PsmqMsg.realMsgSize, hctrl, if_pos hcmd], ?_⟩
    simp only [sizeofMsg]
    omega
  replace htopic := htopic.resolve_left hcmd
  obtain ⟨t, ht, htlen⟩ :
      ∃ t, str msg.data.bytes = some t ∧ t.length + 1 + paylen ≤ cfg.msgMax := by
    cases topic with
    | some t =>
      refine ⟨t, ?_, by simpa [topicBytes, CString.length] using hfit⟩
      rw [hb, topicBytes, List.append_assoc, List.append_assoc, List.singleton_append, str_append]
    | none =>
      have hle := length_payloadBytes_le payload paylen
      -- Without a topic the payload is measured: it ends in the zeros after it at the latest.
      have hpos : 2 * paylen + 1 ≤ cfg.msgMax := htopic.resolve_left (· rfl)
      rw [topicBytes, List.nil_append] at hb
      rw [show cfg.msgMax - (payloadBytes payload paylen).length =
        cfg.msgMax - (payloadBytes payload paylen).length - 1 + 1 by omega,
        List.replicate_succ] at hb
      obtain ⟨t, ht⟩ := Option.isSome_iff_exists.1
        (isSome_str_iff (p := msg.data.bytes).2 (by rw [hb]; simp))
      have := length_le_of_str (hb ▸ ht)
      exact ⟨t, ht, by omega⟩
  obtain ⟨len, hlen⟩ : ∃ len, msg.realMsgSize = some len := by
    rw [PsmqMsg.realMsgSize, strlen, ht]
    split <;> exact ⟨_, rfl⟩
  refine ⟨len, hlen, realMsgSize_le hlen (fun t' ht' => ?_) (by omega)⟩
  obtain rfl := Option.mem_unique ht ht'
  omega

/-- A reply stays in bounds if its payload is readable, and fits after its topic. -/
theorem safe_brokerReplyMq {slot : Option (Slot cfg)} {mq : Mqd} {cmd data : UInt8}
    {topic : Option CString} {payload : Option Ptr} {paylen prio : ℕ} {timeout : UInt16}
    (hp : ∀ p, payload = some p → paylen ≤ p.length)
    (hfit : (topicBytes topic).length + paylen ≤ cfg.msgMax)
    (htopic : cmd = cmdIoctl ∨ topic ≠ none ∨ 2 * paylen + 1 ≤ cfg.msgMax) :
    (brokerReplyMq slot mq cmd data topic payload paylen prio timeout).Safe := by
  refine .bind (safe_deref_iff.2 (isSome_replyMsg hp hfit)) fun tr msg hm => ?_
  obtain ⟨-, hm⟩ := exec_deref_iff.1 hm
  obtain ⟨len, hlen, hle⟩ := realMsgSize_replyMsg hm hfit htopic
  simp only [hlen, deref_some, ret_bind, mqTimedsend, if_pos hle, safe_perform]

theorem safe_brokerReply {s : Broker cfg} {fd : Slot cfg} {cmd data : UInt8}
    {topic : Option CString} {payload : Option Ptr} {paylen prio : ℕ}
    (hp : ∀ p, payload = some p → paylen ≤ p.length)
    (hfit : (topicBytes topic).length + paylen ≤ cfg.msgMax)
    (htopic : cmd = cmdIoctl ∨ topic ≠ none ∨ 2 * paylen + 1 ≤ cfg.msgMax) :
    (brokerReply s fd cmd data topic payload paylen prio).Safe := by
  refine .bind (safe_brokerReplyMq hp hfit htopic) fun tr ok _ => ?_
  cases ok <;> exact safe_ret _

/-- A reply without a payload stays in bounds if its topic fits in a message. -/
theorem safe_brokerReplyCtrl {s : Broker cfg} {fd : Slot cfg} {cmd data : UInt8}
    {extra : Option CString} (h : (topicBytes extra).length ≤ cfg.msgMax) :
    (brokerReplyCtrl s fd cmd data extra).Safe := by
  have := cfg.six_le_msgMax
  exact safe_brokerReply (by simp) h (.inr (.inr (by omega)))

theorem length_topicBytes {msg : PsmqMsg cfg} {topic : CString}
    (h : str msg.data.bytes = some topic) : (topicBytes (some topic)).length ≤ cfg.msgMax := by
  simpa [topicBytes, CString.length, Nat.succ_le_iff] using length_lt_of_str h

/-! ## The handlers -/

theorem safe_brokerOpen {s : Broker cfg} {msg : PsmqMsg cfg} {qname : CString}
    (h : str msg.data.bytes = some qname) : (brokerOpen s msg).Safe := by
  have hmax := cfg.six_le_msgMax
  rw [brokerOpen, h, deref_some, ret_bind]
  refine .bind (safe_perform _) fun _ r _ => ?_
  cases r with
  | error err => exact safe_ret _
  | ok qc =>
    simp only
    rcases brokerGetFreeClient_spec s with ⟨hfree, -⟩ | ⟨fd, hfree, -⟩
    · rw [if_pos hfree]
      refine .bind (safe_brokerReplyMq (by simp) (by simp [topicBytes]) (.inr (.inr (by omega))))
        fun _ _ _ => ?_
      exact .bind (safe_perform _) fun _ _ _ => safe_ret _
    · rw [hfree, if_neg (fdOf_ne_ucharMax fd), slotOf_fdOf, deref_some, ret_bind]
      refine .bind (safe_brokerReplyMq (by simp) (by simp [topicBytes]; omega)
        (.inr (.inr (by omega)))) fun _ ok _ => ?_
      cases ok with
      | true => exact safe_ret _
      | false => exact .bind (safe_perform _) fun _ _ _ => safe_ret _

theorem safe_brokerClose (s : Broker cfg) (fd : Slot cfg) : (brokerClose s fd).Safe := by
  refine .bind (safe_brokerReplyCtrl (by simp [topicBytes])) fun _ _ _ => ?_
  exact .bind (safe_perform _) fun _ _ _ => safe_ret _

/-- The loop over the bytes of a topic stops at its NUL. -/
theorem isSome_hasDoubleSlash {p : Ptr} (h : 0 ∈ p) : (hasDoubleSlash p).isSome := by
  induction p with
  | nil => exact absurd h List.not_mem_nil
  | cons c p ih =>
    rw [hasDoubleSlash.eq_def]
    simp only
    split_ifs with h0 hslash
    · rfl
    · have hp : 0 ∈ p := (List.mem_cons.1 h).resolve_left (Ne.symm h0)
      cases p with
      | nil => exact absurd hp List.not_mem_nil
      | cons c' p' =>
        simp only
        split_ifs
        · rfl
        · exact ih hp
    · exact ih ((List.mem_cons.1 h).resolve_left (Ne.symm h0))

theorem isSome_subscribeErr {msg : PsmqMsg cfg} {stopic : CString}
    (h : str msg.data.bytes = some stopic) : (subscribeErr msg stopic.length).isSome := by
  have hlen : stopic.length < msg.data.bytes.length := length_lt_of_str h
  have h₀ : 0 < msg.data.bytes.length := by omega
  have h₁ : stopic.length - 1 < msg.data.bytes.length := by omega
  -- All the bytes read are in the data, a topic of no byte included.
  obtain ⟨b, hb⟩ := Option.isSome_iff_exists.1
    (isSome_hasDoubleSlash (isSome_str_iff.1 (Option.isSome_of_eq_some h)))
  simp only [subscribeErr, List.getElem?_eq_getElem h₀, List.getElem?_eq_getElem h₁, hb,
    Option.bind_eq_bind, Option.bind_some, Option.pure_def]
  split_ifs <;> rfl

theorem safe_brokerSubscribe {s : Broker cfg} {msg : PsmqMsg cfg} {fd : Slot cfg}
    {stopic : CString} (hfd : slotOf cfg msg.ctrl.data = some fd)
    (h : str msg.data.bytes = some stopic) : (brokerSubscribe s msg).Safe := by
  obtain ⟨err, herr⟩ := Option.isSome_iff_exists.1 (isSome_subscribeErr h)
  have hreply : ∀ (s : Broker cfg) (data : UInt8),
      (brokerReplyCtrl s fd cmdSubscribe data (some stopic)).Safe := fun s data =>
    safe_brokerReplyCtrl (length_topicBytes h)
  simp only [brokerSubscribe, hfd, h, herr, deref_some, ret_bind]
  split
  · exact .bind (hreply _ _) fun _ _ _ => safe_ret _
  · refine .bind (.bind (safe_perform _) fun _ ok _ => ?_) fun _ r _ => ?_
    · cases ok <;> exact safe_ret _
    · cases r <;> exact .bind (hreply _ _) fun _ _ _ => safe_ret _

theorem safe_brokerUnsubscribe {s : Broker cfg} {msg : PsmqMsg cfg} {fd : Slot cfg}
    {utopic : CString} (hfd : slotOf cfg msg.ctrl.data = some fd)
    (h : str msg.data.bytes = some utopic) : (brokerUnsubscribe s msg).Safe := by
  have hreply : ∀ (s : Broker cfg) (data : UInt8),
      (brokerReplyCtrl s fd cmdUnsubscribe data (some utopic)).Safe := fun s data =>
    safe_brokerReplyCtrl (length_topicBytes h)
  simp only [brokerUnsubscribe, hfd, h, deref_some, ret_bind]
  split <;> exact .bind (hreply _ _) fun _ _ _ => safe_ret _

/-- The reply to an ioctl stays in bounds if its data are readable, and fit in the buffer. -/
theorem safe_brokerReplyIoctl {s : Broker cfg} {fd : Slot cfg} {err req : UInt8}
    {data : Option Ptr} {datalen : ℕ} (hnone : data = none → datalen = 0)
    (hdata : ∀ p, data = some p → datalen ≤ p.length) (hbuf : 1 + datalen ≤ 16)
    (hmax : 1 + datalen ≤ cfg.msgMax) : (brokerReplyIoctl s fd err req data datalen).Safe := by
  obtain ⟨buf, hb, hlen⟩ :
      ∃ buf, ioctlBuf req data datalen = some buf ∧ 1 + datalen ≤ buf.length := by
    cases data with
    | none => exact ⟨_, rfl, by simp [hnone rfl]⟩
    | some p =>
      refine ⟨_, if_pos ⟨hbuf, hdata p rfl⟩, ?_⟩
      have := hdata p rfl
      rw [List.length_cons, List.length_take]
      omega
  rw [brokerReplyIoctl, hb, deref_some, ret_bind]
  exact .bind (safe_brokerReply (fun p hp => Option.some.inj hp ▸ hlen) (by simpa [topicBytes])
    (.inl rfl)) fun _ _ _ => safe_ret _

theorem safe_brokerIoctl {s : Broker cfg} {msg : PsmqMsg cfg} {fd : Slot cfg}
    (hfd : slotOf cfg msg.ctrl.data = some fd) (hmax : msg.paylen.toNat ≤ cfg.msgMax)
    (hbuf : msg.data.bytes[0]? = some ioctlReplyTimeout → msg.paylen.toNat ≤ 16) :
    (brokerIoctl s msg).Safe := by
  have h6 := cfg.six_le_msgMax
  have hlen : (msg.data.bytes.drop 1).length = cfg.msgMax - 1 := by simp
  obtain ⟨req, hreq⟩ : ∃ req, msg.data.bytes[0]? = some req :=
    ⟨_, List.getElem?_eq_getElem (by simp; omega)⟩
  rw [brokerIoctl, hfd, hreq]
  simp only [deref_some, ret_bind]
  have h1 : (1 : UInt16).toNat = 1 := rfl
  split
  · exact .bind (safe_brokerReplyIoctl (fun _ => rfl) (by simp) (by decide) (by omega))
      fun _ _ _ => safe_ret _
  · next hge =>
    rw [UInt16.lt_iff_toNat_lt, h1] at hge
    have hsub : (msg.paylen - 1).toNat = msg.paylen.toNat - 1 :=
      UInt16.toNat_sub_of_le _ _ (UInt16.le_iff_toNat_le.2 (by omega))
    rw [hsub]
    split
    · next hr =>
      -- Only the data of a timeout are sent back.
      have hbuf : msg.paylen.toNat ≤ 16 := hbuf (hr ▸ hreq)
      split
      · exact .bind (safe_brokerReplyIoctl (by simp) (fun p hp => by
          rw [← Option.some.inj hp, hlen]; omega) (by omega) (by omega)) fun _ _ _ => safe_ret _
      · next hd =>
        refine .bind (safe_deref_iff.2 ?_) fun _ timeout _ => ?_
        · rcases hb : msg.data.bytes.drop 1 with _ | ⟨b₀, _ | ⟨b₁, rest⟩⟩
          · simp [hb] at hlen; omega
          · simp [hb] at hlen; omega
          · rfl
        · exact .bind (safe_brokerReplyIoctl (by simp) (fun p hp => by
            rw [← Option.some.inj hp, length_storeU16]; omega) (by omega) (by omega))
            fun _ _ _ => safe_ret _
    · exact .bind (safe_brokerReplyIoctl (fun _ => rfl) (by simp) (by decide) (by omega))
        fun _ _ _ => safe_ret _

section Publish

variable {topic : CString} {payload : Ptr} {paylen prio : ℕ}

theorem safe_publishTopics (hpay : paylen ≤ payload.length)
    (hfit : topic.length + 1 + paylen ≤ cfg.msgMax) {fd : Slot cfg} {nodes : List CString}
    {s : Broker cfg} (hnodes : ∀ t ∈ nodes, t.length < cfg.msgMax) :
    (publishTopics topic payload paylen prio fd nodes s).Safe := by
  induction nodes generalizing s with
  | nil => exact safe_ret _
  | cons node nodes ih =>
    rw [List.forall_mem_cons] at hnodes
    refine .bind (safe_deref_iff.2 (isSome_brokerTopicMatches (by omega) hnodes.1)) fun _ m _ => ?_
    cases m with
    | false => exact ih hnodes.2
    | true =>
      refine .bind (safe_brokerReply (fun p hp => Option.some.inj hp ▸ hpay)
        (by simpa [topicBytes, CString.length] using hfit) (.inr (.inl (by simp)))) fun _ x _ => ?_
      simp only
      split
      · split
        · refine .bind (safe_perform _) fun _ _ _ => ?_
          exact .bind (safe_brokerClose _ _) fun _ _ _ => safe_ret _
        · exact ih hnodes.2
      · exact safe_ret _

theorem safe_publishClients (hpay : paylen ≤ payload.length)
    (hfit : topic.length + 1 + paylen ≤ cfg.msgMax) {fds : List (Slot cfg)} {s : Broker cfg}
    (hs : TopicsShort s) : (publishClients topic payload paylen prio fds s).Safe := by
  induction fds generalizing s with
  | nil => exact safe_ret _
  | cons fd fds ih =>
    rw [publishClients]
    split
    · exact ih hs
    · refine .bind (safe_publishTopics hpay hfit (hs fd)) fun tr s' h => ih fun k => ?_
      -- The topics of the client served are still some of those it had.
      obtain ⟨c, hc, rfl⟩ := exec_publishTopics h
      by_cases hk : k = fd
      · subst hk
        rw [Broker.set_clients_self]
        exact (hs k).of_subset hc.topics_subset
      · rw [Broker.set_clients_of_ne _ hk]
        exact hs k

end Publish

theorem safe_brokerPublish {s : Broker cfg} {msg : PsmqMsg cfg} {prio : ℕ} {topic : CString}
    (hs : TopicsShort s) (h : str msg.data.bytes = some topic)
    (hfit : topic.length + 1 + msg.paylen.toNat ≤ cfg.msgMax) :
    (brokerPublish s msg prio).Safe := by
  rw [brokerPublish, h, deref_some, ret_bind]
  -- The payload is in the data, by the check of the main loop.
  have hpay : msg.paylen.toNat ≤ (msg.data.bytes.drop (topic.length + 1)).length := by
    rw [List.length_drop, Buf.length_eq]
    omega
  exact .bind (safe_publishClients hpay hfit hs) fun _ _ _ => safe_ret _

/-- An accepted request other than an ioctl is handled within bounds, if the
    topics stored fit in a message. -/
theorem safe_brokerDispatch {s : Broker cfg} (hs : TopicsShort s) {msg : PsmqMsg cfg}
    (ha : Accepted msg) (hcmd : msg.ctrl.cmd ≠ cmdIoctl) (prio : ℕ) :
    (brokerDispatch s msg prio).Safe := by
  obtain ⟨topic, ht, hfit, hfd⟩ := ha
  -- But for open requests, the main loop checks the descriptor.
  have hslot : msg.ctrl.cmd ≠ cmdOpen → ∃ fd, slotOf cfg msg.ctrl.data = some fd := fun hne =>
    ⟨⟨msg.ctrl.data.toNat, hfd.resolve_left hne⟩, slotOf_eq_some_iff.2 rfl⟩
  rw [brokerDispatch]
  split_ifs with h₁ h₂ h₃ h₄ h₅
  · exact safe_brokerOpen ht
  all_goals obtain ⟨fd, hfd⟩ := hslot h₁
  · rw [hfd, deref_some, ret_bind]
    exact safe_brokerClose s fd
  · exact safe_brokerSubscribe hfd ht
  · exact safe_brokerUnsubscribe hfd ht
  · exact safe_brokerPublish hs ht hfit
  · exact safe_ret _

/-- In every reachable state, the topics stored fit in a message, and an
    accepted request other than an ioctl is handled within bounds. -/
theorem handlers_in_bounds {pc : PsmqdCfg} {s : Broker cfg} (hs : (brokerLts cfg pc).Reachable s)
    {msg : PsmqMsg cfg} (ha : Accepted msg) (hcmd : msg.ctrl.cmd ≠ cmdIoctl) (prio : ℕ) :
    TopicsShort s ∧ (brokerDispatch s msg prio).Safe :=
  have hshort := topicsShort_of_reachable hs
  ⟨hshort, safe_brokerDispatch hshort ha hcmd prio⟩

/-- A publish filling the data of its message, with a topic somebody is subscribed to. -/
theorem handlers_in_bounds_full : ∃ s : Broker smallest,
    ((s.clients 0).topics.map CString.bytes = [[47, 97]]) ∧ TopicsShort s ∧
      (brokerDispatch s (received smallest [112, 0, 3, 0, 47, 97, 0, 1, 2, 3]) 0).Safe := by
  obtain ⟨s, hs, ht⟩ : ∃ s, feed (answers smallest true)
      [([111, 0, 0, 0, 47, 99, 0], 0), ([115, 0, 0, 0, 47, 97, 0], 0)] (started smallest) = some s ∧
        (s.clients 0).topics.map CString.bytes = [[47, 97]] := ⟨_, rfl, rfl⟩
  have hr := (reachable_of_feed hs (reachable_started psmqdCfgInit) (by decide)).1
  exact ⟨s, ht, handlers_in_bounds hr ⟨⟨[47, 97], by decide⟩, by decide, by decide, by decide⟩
    (by decide) 0⟩

/-! ## The checks of the main loop -/

/-- A message that is to be handled: its data contain a NUL, the payload fits
    after it, and the descriptor is one of a slot, but in an open request. -/
def Legit (msg : PsmqMsg cfg) : Prop :=
  0 ∈ msg.data.bytes ∧ msg.data.bytes.idxOf 0 + 1 + msg.paylen.toNat ≤ cfg.msgMax ∧
    (msg.ctrl.cmd = cmdOpen ∨ msg.ctrl.data.toNat < cfg.maxClients)

instance (msg : PsmqMsg cfg) : Decidable (Legit msg) :=
  inferInstanceAs (Decidable (_ ∧ _ ∧ (_ ∨ _)))

theorem accepted_iff_legit {msg : PsmqMsg cfg} : Accepted msg ↔ Legit msg := by
  constructor
  · rintro ⟨topic, ht, hfit, hfd⟩
    exact ⟨isSome_str_iff.1 (Option.isSome_of_eq_some ht), length_of_str ht ▸ hfit, hfd⟩
  · rintro ⟨h0, hfit, hfd⟩
    obtain ⟨topic, ht⟩ := Option.isSome_iff_exists.1 (isSome_str_iff.2 h0)
    exact ⟨topic, ht, length_of_str ht ▸ hfit, hfd⟩

/-- Without a NUL in the data of the message, the checks read past them. -/
theorem brokerIntake_eq_fault {bytes : List UInt8} (h0 : 0 ∉ (received cfg bytes).data.bytes) :
    brokerIntake cfg bytes = fault .bounds := by
  have hstr : str (received cfg bytes).data.bytes = none :=
    Option.not_isSome_iff_eq_none.1 (mt isSome_str_iff.1 h0)
  rw [brokerIntake, strlen, hstr]
  rfl

/-- The checks of the main loop stay in the data of the message, end, and let
    through the messages that are to be handled, and no others, which are
    dropped: exactly when there is a NUL in the data. -/
theorem intake_exact_iff (bytes : List UInt8) :
    (brokerIntake cfg bytes =
        ret (if Legit (received cfg bytes) then some (received cfg bytes) else none) ∧
      ∀ (s : Broker cfg) prio, brokerStart s bytes prio =
        if Legit (received cfg bytes) then
          brokerDispatch s (received cfg bytes) prio >>= fun x => ret x.1
        else ret s) ↔
    0 ∈ (received cfg bytes).data.bytes := by
  constructor
  · rintro ⟨h, -⟩
    by_contra h0
    rw [brokerIntake_eq_fault h0] at h
    simp at h
  · intro h0
    obtain ⟨topic, ht⟩ := Option.isSome_iff_exists.1 (isSome_str_iff.2 h0)
    by_cases ha : Accepted (received cfg bytes)
    · have hlegit := accepted_iff_legit.1 ha
      simp only [if_pos hlegit]
      exact ⟨(brokerIntake_eq ht).1 ha, fun s prio => brokerStart_of_accepted ha⟩
    · have hlegit := mt accepted_iff_legit.2 ha
      simp only [if_neg hlegit]
      exact ⟨(brokerIntake_eq ht).2 ha, fun s prio => brokerStart_of_not_accepted ht ha⟩

/-- A full message without a NUL is not to be handled, but its checks fault. -/
theorem intake_overrun : ∃ bytes : List UInt8, bytes.length = sizeofMsg smallest ∧
    ¬Legit (received smallest bytes) ∧ brokerIntake smallest bytes = fault .bounds ∧
    ∀ (s : Broker smallest) prio, ¬(brokerStart s bytes prio).Safe := by
  have h0 : 0 ∉ (received smallest [112, 0, 0, 0, 47, 97, 97, 97, 97, 97]).data.bytes := by decide
  refine ⟨_, rfl, fun h => h0 h.1, brokerIntake_eq_fault h0, fun s prio => ?_⟩
  rw [brokerStart, brokerIntake_eq_fault h0]
  exact not_safe_fault _

end Psmq
