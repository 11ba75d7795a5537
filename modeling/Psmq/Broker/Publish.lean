import Psmq.Broker.Bounds

/-!
# Publishing

What the clients get of a message published. The copies a client gets are the
attempts to send it the message that succeed (`copies`): the broker makes an
attempt for every topic of the client that matches, in turn, until one
succeeds.

* a client gets one copy at most (`Serve.length_copies_le`), and only if a
  topic of it matches (`Serve.exists_matches`); it gets one if a topic matches
  and no attempt fails (`Serve.length_copies`);
* what is sent to a client, and what becomes of it, depends on nothing but the
  client and the outcomes of its own attempts (`Serve.eq_of_agree`), as its
  slot is served like the only one (`Sweep.slot`).

Together they are `publish_exact`.
-/

namespace Psmq

open CMem Prog

variable {cfg : Config}

/-- The copies of a published message among some attempts: those that succeed. -/
def copies (es : List (Sent cfg)) : List (Sent cfg) :=
  es.filter fun e => e.msg.ctrl.cmd = cmdPublish ∧ e.ok = true

theorem mem_copies {e : Sent cfg} {es : List (Sent cfg)} :
    e ∈ copies es ↔ e ∈ es ∧ e.msg.ctrl.cmd = cmdPublish ∧ e.ok = true := by
  simp [copies]

theorem copies_cons_of_failed {e : Sent cfg} (es : List (Sent cfg)) (h : e.ok = false) :
    copies (e :: es) = copies es :=
  List.filter_cons_of_neg (by simp [h])

/-- The attempts that are in both lists, at the same place, have the same outcome. -/
def Agree (es₁ es₂ : List (Sent cfg)) : Prop :=
  ∀ (i : ℕ) (e₁ e₂ : Sent cfg), es₁[i]? = some e₁ → es₂[i]? = some e₂ → e₁.ok = e₂.ok

theorem Agree.head {e₁ e₂ : Sent cfg} {es₁ es₂ : List (Sent cfg)}
    (h : Agree (e₁ :: es₁) (e₂ :: es₂)) : e₁.ok = e₂.ok := h 0 e₁ e₂ rfl rfl

theorem Agree.tail {e₁ e₂ : Sent cfg} {es₁ es₂ : List (Sent cfg)}
    (h : Agree (e₁ :: es₁) (e₂ :: es₂)) : Agree es₁ es₂ := fun i => h (i + 1)

/-- A reply is given by its arguments, but for its outcome. -/
theorem IsReplyMq.eq {slot : Option (Slot cfg)} {mq : Mqd} {cmd data : UInt8}
    {topic : Option CString} {payload : Option Ptr} {paylen prio : ℕ} {timeout : UInt16}
    {e₁ e₂ : Sent cfg} (h₁ : IsReplyMq slot mq cmd data topic payload paylen prio timeout e₁)
    (h₂ : IsReplyMq slot mq cmd data topic payload paylen prio timeout e₂) (hok : e₁.ok = e₂.ok) :
    e₁ = e₂ := by
  obtain ⟨hs₁, hq₁, hm₁, hl₁, -, hp₁, ht₁⟩ := h₁
  obtain ⟨hs₂, hq₂, hm₂, hl₂, -, hp₂, ht₂⟩ := h₂
  have hmsg : e₁.msg = e₂.msg := Option.mem_unique hm₁ hm₂
  have hlen : e₁.len = e₂.len := Option.some.inj (hl₁.symm.trans (hmsg ▸ hl₂))
  cases e₁
  cases e₂
  simp_all

/-! ## Serving a client -/

section Serve

variable {topic : CString} {payload : Ptr} {paylen prio : ℕ} {fd : Slot cfg}
  {nodes : List CString} {c c' : Client} {tr : Trace cfg}

theorem copies_eq_nil_of_close (h : Close fd c tr c') : copies (sends tr) = [] := by
  obtain ⟨e, he, hs, -⟩ := h.spec
  rw [hs]
  exact List.filter_cons_of_neg (by simp [he.cmd_eq, cmdClose, cmdPublish])

/-- A client gets one copy of a message at most. -/
theorem Serve.length_copies_le (h : Serve topic payload paylen prio fd nodes c tr c') :
    (copies (sends tr)).length ≤ 1 := by
  induction h with
  | done => exact Nat.zero_le 1
  | skip _ _ ih => exact ih
  | sent => exact List.length_filter_le _ _
  | missed _ _ hok _ _ ih => rwa [sends_event, copies_cons_of_failed _ hok]
  | evicted _ _ hok _ hc =>
    rw [sends_event, sends_mqTimedreceive, copies_cons_of_failed _ hok, copies_eq_nil_of_close hc]
    exact Nat.zero_le 1

/-- Something is sent to a client only if one of its topics matches. -/
theorem Serve.exists_matches (h : Serve topic payload paylen prio fd nodes c tr c')
    (hne : sends tr ≠ []) : ∃ node ∈ nodes, TopicMatches cfg topic node := by
  induction h with
  | done => exact absurd rfl hne
  | skip _ _ ih =>
    obtain ⟨node, hmem, hm⟩ := ih hne
    exact ⟨node, List.mem_cons_of_mem _ hmem, hm⟩
  | sent hm => exact ⟨_, List.mem_cons_self, hm⟩
  | missed hm => exact ⟨_, List.mem_cons_self, hm⟩
  | evicted hm => exact ⟨_, List.mem_cons_self, hm⟩

/-- The copies are copies of the message published. -/
theorem Serve.isReply (h : Serve topic payload paylen prio fd nodes c tr c') {e : Sent cfg}
    (he : e ∈ sends tr) (hcmd : e.msg.ctrl.cmd = cmdPublish) :
    IsReply fd c cmdPublish 0 (some topic) (some payload) paylen prio e := by
  induction h with
  | done => exact absurd he List.not_mem_nil
  | skip _ _ ih => exact ih he
  | sent _ hr => exact List.mem_singleton.1 he ▸ hr
  | missed _ hr _ _ _ ih =>
    rcases List.mem_cons.1 he with rfl | he
    · exact hr
    · exact ih he
  | evicted _ hr _ _ hc =>
    rcases List.mem_cons.1 he with rfl | he
    · exact hr
    · obtain ⟨e', he', hs, -⟩ := hc.spec
      obtain rfl := List.mem_singleton.1 (hs ▸ he : e ∈ [e'])
      exact absurd ((congrArg Ctrl.cmd he'.cmd_eq).symm.trans hcmd) (by decide)

/-- A client with a topic that matches gets a copy, if no attempt fails. -/
theorem Serve.length_copies (h : Serve topic payload paylen prio fd nodes c tr c')
    (hm : ∃ node ∈ nodes, TopicMatches cfg topic node) (hok : ∀ e ∈ sends tr, e.ok = true) :
    (copies (sends tr)).length = 1 := by
  induction h with
  | done => simp at hm
  | skip hno _ ih =>
    obtain ⟨node, hmem, hm⟩ := hm
    rcases List.mem_cons.1 hmem with rfl | hmem
    · exact absurd (hno.symm.trans hm) (by simp)
    · exact ih ⟨node, hmem, hm⟩ hok
  | sent _ hr hok' => simp [copies, hr.cmd_eq, hok']
  | missed _ _ hko => exact absurd (hok _ List.mem_cons_self) (by simp [hko])
  | evicted _ _ hko => exact absurd (hok _ List.mem_cons_self) (by simp [hko])

/-- What is sent to a client, and what becomes of it, only depends on the
    outcomes of its own attempts. -/
theorem Serve.eq_of_agree {tr₂ : Trace cfg} {c₂ : Client}
    (h : Serve topic payload paylen prio fd nodes c tr c')
    (h₂ : Serve topic payload paylen prio fd nodes c tr₂ c₂)
    (hag : Agree (sends tr) (sends tr₂)) : sends tr = sends tr₂ ∧ c' = c₂ := by
  induction h generalizing tr₂ c₂ with
  | done =>
    cases h₂
    exact ⟨rfl, rfl⟩
  | skip hno _ ih =>
    cases h₂ with
    | skip _ h₂ => exact ih h₂ hag
    | sent hm | missed hm | evicted hm => exact absurd (hno.symm.trans hm) (by simp)
  | sent hm hr hok =>
    cases h₂ with
    | skip hno => exact absurd (hno.symm.trans hm) (by simp)
    | sent _ hr₂ hok₂ => exact ⟨congrArg (fun e => [e]) (hr.eq hr₂ (hok.trans hok₂.symm)), rfl⟩
    | missed _ _ hko | evicted _ _ hko =>
      exact absurd (hag.head.symm.trans hok) (by simp [hko])
  | missed hm hr hko hmax _ ih =>
    cases h₂ with
    | skip hno => exact absurd (hno.symm.trans hm) (by simp)
    | sent _ _ hok => exact absurd (hag.head.trans hok) (by simp [hko])
    | missed _ hr₂ hko₂ _ h₂ =>
      obtain ⟨hs, rfl⟩ := ih h₂ hag.tail
      exact ⟨by rw [sends_event, sends_event, hs, hr.eq hr₂ (hko.trans hko₂.symm)], rfl⟩
    -- The counter is the same in both, and so is the limit.
    | evicted _ _ _ hmax₂ => exact absurd hmax₂ hmax
  | evicted hm hr hko hmax hc =>
    cases h₂ with
    | skip hno => exact absurd (hno.symm.trans hm) (by simp)
    | sent _ _ hok => exact absurd (hag.head.trans hok) (by simp [hko])
    | missed _ _ _ hmax₂ => exact absurd hmax hmax₂
    | evicted _ hr₂ hko₂ _ hc₂ =>
      obtain ⟨e, he, hs, rfl⟩ := hc.spec
      obtain ⟨e₂, he₂, hs₂, rfl⟩ := hc₂.spec
      simp only [sends_event, sends_mqTimedreceive, hs, hs₂] at hag ⊢
      -- The second attempts are the close messages.
      have := he.eq he₂ hag.tail.head
      rw [this, hr.eq hr₂ (hko.trans hko₂.symm)]
      exact ⟨rfl, rfl⟩

end Serve

/-! ## All the clients -/

/-- A publish serves the client of an open slot, and leaves the free slots alone. -/
theorem exec_publish_slot {s : Broker cfg} {msg : PsmqMsg cfg} {prio : ℕ} {tr : Trace cfg}
    {x : Broker cfg × ℤ} {topic : CString} (hcmd : msg.ctrl.cmd = cmdPublish)
    (ht : str msg.data.bytes = some topic) (h : Exec (brokerDispatch s msg prio) tr x)
    (k : Slot cfg) :
    (s.IsOpen k ∧ ∃ tr', sendsTo k tr = sends tr' ∧
      Serve topic (payloadOf msg topic) msg.paylen.toNat prio k (s.clients k).topics (s.clients k)
        tr' (x.1.clients k)) ∨
    (¬s.IsOpen k ∧ sendsTo k tr = [] ∧ x.1.clients k = s.clients k) := by
  obtain ⟨topic', ht', hp⟩ := (exec_brokerDispatch h).of_cmd.2.2.2.2.1 hcmd
  obtain rfl := Option.mem_unique ht ht'
  rcases hp.slot Serve.onlyTo (List.nodup_finRange _) k with ⟨-, h⟩ | ⟨hfree, h⟩
  · exact .inl h
  · exact .inr ⟨hfree (List.mem_finRange k), h⟩

/-- What is sent to a slot, and what becomes of it, does not depend on the other slots. -/
theorem publish_eq_of_agree {s s₂ : Broker cfg} {msg : PsmqMsg cfg} {prio : ℕ}
    {tr tr₂ : Trace cfg} {x x₂ : Broker cfg × ℤ} {topic : CString} {k : Slot cfg}
    (hcmd : msg.ctrl.cmd = cmdPublish) (ht : str msg.data.bytes = some topic)
    (hk : s₂.clients k = s.clients k) (h : Exec (brokerDispatch s msg prio) tr x)
    (h₂ : Exec (brokerDispatch s₂ msg prio) tr₂ x₂) (hag : Agree (sendsTo k tr) (sendsTo k tr₂)) :
    sendsTo k tr = sendsTo k tr₂ ∧ x.1.clients k = x₂.1.clients k := by
  -- The slot is open in both states, or in none.
  have hopen : s₂.IsOpen k ↔ s.IsOpen k := by rw [Broker.IsOpen, hk, Broker.IsOpen]
  rcases exec_publish_slot hcmd ht h k with ⟨ho, tr', hs, hc⟩ | ⟨hfree, hs, hc⟩ <;>
    rcases exec_publish_slot hcmd ht h₂ k with ⟨ho₂, tr₂', hs₂, hc₂⟩ | ⟨hfree₂, hs₂, hc₂⟩
  · rw [hs, hs₂] at hag ⊢
    rw [hk] at hc₂
    exact hc.eq_of_agree hc₂ hag
  · exact absurd (hopen.2 ho) hfree₂
  · exact absurd (hopen.1 ho₂) hfree
  · exact ⟨hs.trans hs₂.symm, hc.trans (hk.symm.trans hc₂.symm)⟩

/-- The copies of a message published a client gets: one at most, if a topic
    of it matches, and one if a topic matches and no attempt fails. -/
theorem copies_of_publish {s : Broker cfg} {msg : PsmqMsg cfg} {prio : ℕ} {tr : Trace cfg}
    {x : Broker cfg × ℤ} {topic : CString} (hcmd : msg.ctrl.cmd = cmdPublish)
    (ht : str msg.data.bytes = some topic) (h : Exec (brokerDispatch s msg prio) tr x)
    (k : Slot cfg) :
    (copies (sendsTo k tr)).length ≤ 1 ∧
    (∀ e ∈ copies (sendsTo k tr), s.IsOpen k ∧
      (∃ node ∈ (s.clients k).topics, TopicMatches cfg topic node) ∧
      IsReply k (s.clients k) cmdPublish 0 (some topic) (some (payloadOf msg topic))
        msg.paylen.toNat prio e) ∧
    (s.IsOpen k → (∃ node ∈ (s.clients k).topics, TopicMatches cfg topic node) →
      (∀ e ∈ sendsTo k tr, e.ok = true) → (copies (sendsTo k tr)).length = 1) := by
  rcases exec_publish_slot hcmd ht h k with ⟨ho, tr', hs, hc⟩ | ⟨hfree, hs, -⟩ <;> rw [hs]
  · refine ⟨hc.length_copies_le, fun e he => ?_, fun _ hm hok => hc.length_copies hm hok⟩
    obtain ⟨hmem, hpub, -⟩ := mem_copies.1 he
    exact ⟨ho, hc.exists_matches (List.ne_nil_of_mem hmem), hc.isReply hmem hpub⟩
  · exact ⟨Nat.zero_le 1, fun e he => absurd (mem_copies.1 he).1 List.not_mem_nil,
      fun ho => absurd ho hfree⟩

/-- Publishing is exact. In any reachable state an accepted publish is handled
    to its end, and, whatever becomes of its attempts to send, every client
    gets one copy of the message at most; only the clients with a topic that
    matches get one; and those no attempt to fails for do. What is sent to a
    client, and what becomes of its slot, are the same in any other state with
    the same client in the slot, if its own attempts have the same outcomes. -/
theorem publish_exact {pc : PsmqdCfg} {s : Broker cfg} (hs : (brokerLts cfg pc).Reachable s)
    {msg : PsmqMsg cfg} (ha : Accepted msg) (hcmd : msg.ctrl.cmd = cmdPublish) (prio : ℕ) :
    (brokerDispatch s msg prio).Safe ∧ ∃ topic, str msg.data.bytes = some topic ∧
      ∀ tr x, Exec (brokerDispatch s msg prio) tr x → ∀ k,
        ((copies (sendsTo k tr)).length ≤ 1 ∧
          (∀ e ∈ copies (sendsTo k tr), s.IsOpen k ∧
            (∃ node ∈ (s.clients k).topics, TopicMatches cfg topic node) ∧
            IsReply k (s.clients k) cmdPublish 0 (some topic) (some (payloadOf msg topic))
              msg.paylen.toNat prio e) ∧
          (s.IsOpen k → (∃ node ∈ (s.clients k).topics, TopicMatches cfg topic node) →
            (∀ e ∈ sendsTo k tr, e.ok = true) → (copies (sendsTo k tr)).length = 1)) ∧
        (∀ (s₂ : Broker cfg) tr₂ x₂, s₂.clients k = s.clients k →
          Exec (brokerDispatch s₂ msg prio) tr₂ x₂ → Agree (sendsTo k tr) (sendsTo k tr₂) →
          sendsTo k tr = sendsTo k tr₂ ∧ x.1.clients k = x₂.1.clients k) := by
  refine ⟨safe_brokerDispatch (topicsShort_of_reachable hs) ha (by rw [hcmd]; decide) prio, ?_⟩
  obtain ⟨topic, ht, -, -⟩ := ha
  exact ⟨topic, ht, fun tr x h k => ⟨copies_of_publish hcmd ht h k,
    fun s₂ tr₂ x₂ hk h₂ => publish_eq_of_agree hcmd ht hk h h₂⟩⟩

/-- A client subscribed twice to `/a`, to which nothing fails to be sent, gets one copy. -/
theorem publish_exact_twice : ∃ s : Broker smallest,
    ((s.clients 0).topics.map CString.bytes = [[47, 97], [47, 97]]) ∧
    ∀ tr x, Exec (brokerDispatch s (received smallest [112, 1, 1, 0, 47, 97, 0, 9]) 5) tr x →
      (∀ e ∈ sendsTo 0 tr, e.ok = true) → (copies (sendsTo 0 tr)).length = 1 := by
  obtain ⟨s, hs, hopen, htopics, hm⟩ : ∃ s, feed (answers smallest true)
      [([111, 0, 0, 0, 47, 99, 0], 0), ([115, 0, 0, 0, 47, 97, 0], 0),
        ([115, 0, 0, 0, 47, 97, 0], 0)] (started smallest) = some s ∧ s.IsOpen 0 ∧
      (s.clients 0).topics.map CString.bytes = [[47, 97], [47, 97]] ∧
      ∃ node ∈ (s.clients 0).topics, TopicMatches smallest ⟨[47, 97], by decide⟩ node :=
    ⟨_, rfl, by decide, rfl, by decide⟩
  have hr := (reachable_of_feed hs (reachable_started psmqdCfgInit) (by decide)).1
  have ha : Accepted (received smallest [112, 1, 1, 0, 47, 97, 0, 9]) :=
    ⟨⟨[47, 97], by decide⟩, by decide, by decide, by decide⟩
  obtain ⟨-, topic, ht, h⟩ := publish_exact hr ha (by decide) 5
  have htopic : str (received smallest [112, 1, 1, 0, 47, 97, 0, 9]).data.bytes =
      some ⟨[47, 97], by decide⟩ := by decide
  obtain rfl := Option.mem_unique htopic ht
  exact ⟨s, htopics, fun tr x hx hok => (h tr x hx 0).1.2.2 hopen hm hok⟩

end Psmq
