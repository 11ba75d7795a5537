import Psmq.Broker.Fresh
import Psmq.Broker.Publish
import Psmq.Broker.Requests
import Mathlib.Data.List.Induction
import Mathlib.Data.Set.Basic

/-!
# Subscriptions of the clients

What a client is to receive is said by its requests: the topics it has
subscribed to and not unsubscribed from since (`subscriptions`), a set that
follows the answers of the broker along a run. The list of topics of its slot
is that set (`mem_topics_iff_of_run`) in the runs in which

* topics are only added to open slots (`SubscribesOpen`), and
* a topic is only unsubscribed from when it is in the list once
  (`UnsubscribesLast`).

Subscribing twice to a topic puts it in the list twice, and unsubscribing
removes it once: the client still gets what is published on it
(`leftover_topic`).
-/

namespace Psmq

open CMem Prog

variable {cfg : Config} {pc : PsmqdCfg}

/-! ## The requests confirmed -/

/-- A request `cmd` for the topic `t`, of the client in the slot `k`, is
    answered with no error. -/
def Confirms (cmd : UInt8) (k : Slot cfg) (t : CString) : BrokerLabel cfg → Prop
  | .request bytes _ tr =>
    Accepted (received cfg bytes) ∧ (received cfg bytes).ctrl.cmd = cmd ∧
      slotOf cfg (received cfg bytes).ctrl.data = some k ∧
      str (received cfg bytes).data.bytes = some t ∧
      ∃ e ∈ sendsTo k tr, e.msg.ctrl = ⟨cmd, 0⟩
  | .restart _ => False

/-- A topic is only unsubscribed from when it is in the list once at most. -/
def UnsubscribesLast (s : Broker cfg) : BrokerLabel cfg → Prop
  | .request bytes _ _ => (received cfg bytes).ctrl.cmd = cmdUnsubscribe →
      ∀ k t, slotOf cfg (received cfg bytes).ctrl.data = some k →
        str (received cfg bytes).data.bytes = some t → (s.clients k).topics.count t ≤ 1
  | .restart _ => True

/-- What a step makes of the topics the client in the slot `k` is subscribed to. -/
def subscriptionStep (k : Slot cfg) (subs : Set CString) (l : BrokerLabel cfg) : Set CString :=
  {t | ((t ∈ subs ∧ ¬Confirms cmdUnsubscribe k t l) ∨ Confirms cmdSubscribe k t l) ∧ ¬Frees k l}

/-- The topics the client in the slot `k` has subscribed to, and not
    unsubscribed from, in a run. -/
def subscriptions (k : Slot cfg) (ls : List (BrokerLabel cfg)) : Set CString :=
  ls.foldl (subscriptionStep k) ∅

/-- A topic unsubscribed from is not subscribed to, until it is again. -/
theorem notMem_subscriptions {k : Slot cfg} {t : CString} {ls₁ ls₂ : List (BrokerLabel cfg)}
    {l : BrokerLabel cfg} (hl : Confirms cmdUnsubscribe k t l)
    (hls : ∀ l' ∈ ls₂, ¬Confirms cmdSubscribe k t l') :
    t ∉ subscriptions k (ls₁ ++ l :: ls₂) := by
  have hsub : ¬Confirms cmdSubscribe k t l := by
    cases l with
    | request => exact fun h => cmd_absurd hl.2.1 h.2.1
    | restart => exact id
  have key : ∀ (ls : List (BrokerLabel cfg)) (subs : Set CString), t ∉ subs →
      (∀ l' ∈ ls, ¬Confirms cmdSubscribe k t l') → t ∉ ls.foldl (subscriptionStep k) subs := by
    intro ls
    induction ls with
    | nil => exact fun _ h _ => h
    | cons l' ls ih =>
      intro subs h hls
      rw [List.forall_mem_cons] at hls
      exact ih _ (fun hmem => hmem.1.elim (fun h' => h h'.1) hls.1) hls.2
  rw [subscriptions, List.foldl_append, List.foldl_cons]
  exact key _ _ (fun hmem => hmem.1.elim (fun h => h.2 hl) hsub) hls

/-- A topic subscribed to was subscribed to by some request. -/
theorem exists_confirms_of_mem {k : Slot cfg} {t : CString} {ls : List (BrokerLabel cfg)}
    (h : t ∈ subscriptions k ls) : ∃ l ∈ ls, Confirms cmdSubscribe k t l := by
  induction ls using List.reverseRecOn with
  | nil => exact absurd h (Set.notMem_empty t)
  | append_singleton ls l ih =>
    rw [subscriptions, List.foldl_append, List.foldl_cons, List.foldl_nil] at h
    rcases h.1 with ⟨hmem, -⟩ | hl
    · obtain ⟨l', hl', hc⟩ := ih hmem
      exact ⟨l', List.mem_append_left _ hl', hc⟩
    · exact ⟨l, List.mem_append_right _ List.mem_cons_self, hl⟩

/-! ## What a step does to the list -/

/-- Removing the only occurrence of a topic removes the topic. -/
theorem mem_erase_iff_of_count_le {topics : List CString} {t u : CString}
    (h : topics.count u ≤ 1) : t ∈ topics.erase u ↔ t ∈ topics ∧ ¬t = u := by
  by_cases heq : t = u
  · subst heq
    rw [← List.count_pos_iff, List.count_erase_self]
    exact iff_of_false (by omega) fun h => h.2 rfl
  · rw [List.mem_erase_of_ne heq, and_iff_left heq]

/-- A slot that is freed has no topics. -/
theorem topics_eq_nil_of_frees {s s' : Broker cfg} {l : BrokerLabel cfg} {k : Slot cfg}
    (h : BrokerStep pc s l s') (hs : FreeClean s) (hl : Frees k l) :
    (s'.clients k).topics = [] := by
  by_cases ho : s.IsOpen k
  · obtain ⟨_, _, -, -, -, hc⟩ := step_frees h ho hl
    rw [hc]
    rfl
  · -- A request that frees a slot is no subscription.
    refine topics_eq_nil_of_not_subscribes h (hs k ho) fun hsub => ?_
    cases l with
    | restart tr => exact hsub
    | request bytes prio tr =>
      rcases hl with ⟨-, hcmd, -⟩ | ⟨hcmd, -⟩
      · exact cmd_absurd hsub.2.1 hcmd
      · exact cmd_absurd hsub.2.1 hcmd

/-- The answer to a request of the client in a slot tells whether it is confirmed. -/
theorem Answers.confirms_iff {k fd : Slot cfg} {c : Client} {cmd : UInt8} {tr : Trace cfg}
    {e : Sent cfg} {bytes : List UInt8} {prio : ℕ} {t t' : CString} (he : Answers fd c cmd tr e)
    (ha : Accepted (received cfg bytes)) (hcmd : (received cfg bytes).ctrl.cmd = cmd)
    (hfd : slotOf cfg (received cfg bytes).ctrl.data = some fd)
    (ht : str (received cfg bytes).data.bytes = some t) :
    Confirms cmd k t' (.request bytes prio tr) ↔ k = fd ∧ t' = t ∧ e.msg.ctrl.data = 0 := by
  constructor
  · rintro ⟨-, -, hk, ht', e', hmem, he'⟩
    obtain rfl := Option.mem_unique hk hfd
    obtain rfl := Option.mem_unique ht ht'
    obtain rfl : e' = e := by
      have := List.mem_of_mem_filter hmem
      rw [he.sends_eq] at this
      exact List.mem_singleton.1 this
    exact ⟨rfl, rfl, by rw [he']⟩
  · rintro ⟨rfl, rfl, hdata⟩
    refine ⟨ha, hcmd, hfd, ht, e, by simp [sendsTo, he.sends_eq, he.slot_eq], ?_⟩
    rw [← he.cmd_eq, ← hdata]

/-- The list of a slot follows the answers of the broker, when topics are added to
    open slots, and removed when they are there once. -/
theorem mem_topics_iff_of_step {s s' : Broker cfg} {l : BrokerLabel cfg} {k : Slot cfg}
    {t : CString} (h : BrokerStep pc s l s') (hs : FreeClean s) (hu : UnsubscribesLast s l) :
    t ∈ (s'.clients k).topics ↔
      ((t ∈ (s.clients k).topics ∧ ¬Confirms cmdUnsubscribe k t l) ∨
        Confirms cmdSubscribe k t l) ∧ ¬Frees k l := by
  by_cases hl : Frees k l
  · rw [topics_eq_nil_of_frees h hs hl]
    exact iff_of_false List.not_mem_nil fun h => h.2 hl
  rw [and_iff_left hl]
  cases l with
  | restart tr => exact absurd trivial hl
  | request bytes prio tr =>
    -- Other requests than those for topics confirm nothing, and leave the list alone.
    have other : ∀ {c : Client}, c.topics = (s.clients k).topics →
        (¬Confirms cmdUnsubscribe k t (.request bytes prio tr)) →
        (¬Confirms cmdSubscribe k t (.request bytes prio tr)) →
        (t ∈ c.topics ↔ (t ∈ (s.clients k).topics ∧
          ¬Confirms cmdUnsubscribe k t (.request bytes prio tr)) ∨
            Confirms cmdSubscribe k t (.request bytes prio tr)) := by
      intro c hc hno₁ hno₂
      rw [hc, or_iff_left hno₂, and_iff_left hno₁]
    rcases step_request h with ⟨hna, -, rfl⟩ | ⟨ha, h⟩
    · exact other rfl (fun h => hna h.1) fun h => hna h.1
    generalize hc : s'.clients k = c
    cases hc ▸ h.slotStep k with
    | idle hs =>
      refine other rfl ?_ ?_ <;>
      · rintro ⟨-, -, -, -, e, he, -⟩
        exact absurd (hs ▸ he) List.not_mem_nil
    | opened hcmd => exact other rfl (fun h => cmd_absurd hcmd h.2.1) fun h => cmd_absurd hcmd h.2.1
    | noReply hcmd =>
      exact other rfl (fun h => cmd_absurd hcmd h.2.1) fun h => cmd_absurd hcmd h.2.1
    | closed hcmd hfd => exact absurd (.inl ⟨ha, hcmd, hfd⟩) hl
    | subscribed hcmd hfd ht h =>
      obtain ⟨e, he, hdata⟩ := h.answered
      have hno : ¬Confirms cmdUnsubscribe k t (.request bytes prio tr) :=
        fun h => cmd_absurd hcmd h.2.1
      rw [he.confirms_iff ha hcmd hfd ht, and_iff_left hno]
      rcases hdata with ⟨h0, hc⟩ | ⟨hne, hc⟩ <;> rw [hc]
      · simp [h0, or_comm]
      · simp [hne]
    | unsubscribed hcmd hfd ht h =>
      obtain ⟨e, he, hdata⟩ := h.answered
      have hno : ¬Confirms cmdSubscribe k t (.request bytes prio tr) :=
        fun h => cmd_absurd hcmd h.2.1
      rw [or_iff_left hno, he.confirms_iff ha hcmd hfd ht]
      rcases hdata with ⟨h0, hmem, hc⟩ | ⟨hne, hc⟩ <;> rw [hc]
      · -- The only occurrence of the topic is removed.
        have hcount := hu hcmd _ _ hfd ht
        simp only [true_and, h0, and_true]
        exact mem_erase_iff_of_count_le hcount
      · simp [hne]
    | served hcmd _ _ hs h =>
      refine other ?_ (fun h => cmd_absurd hcmd h.2.1) fun h => cmd_absurd hcmd h.2.1
      rcases h.spec with ⟨hc, -⟩ | ⟨es, e, hes, -, he, -⟩
      · rw [hc]
      · exact absurd (.inr ⟨hcmd, e, by simp [hs, hes], by rw [he]⟩) hl
    | ioctl hcmd _ _ h =>
      refine other ?_ (fun h => cmd_absurd hcmd h.2.1) fun h => cmd_absurd hcmd h.2.1
      cases h <;> rfl

/-- In the runs meeting the conditions, the list of a slot is the set of the
    topics its client is subscribed to. -/
theorem mem_topics_iff_of_run {s₀ s : Broker cfg} {ls : List (BrokerLabel cfg)}
    (h₀ : (brokerLts cfg pc).init s₀)
    (h : ((brokerLts cfg pc).restrict fun s l => SubscribesOpen s l ∧ UnsubscribesLast s l).Run
      s₀ ls s) (k : Slot cfg) (t : CString) :
    t ∈ (s.clients k).topics ↔ t ∈ subscriptions k ls := by
  -- The free slots stay clean along the run, as it is needed at every step.
  refine (h.foldl (g := subscriptionStep k) (a := ∅)
    (R := fun s subs => FreeClean s ∧ ∀ t, t ∈ (s.clients k).topics ↔ t ∈ subs)
    (fun s l s' subs hs hst => ?_) ⟨fun k _ => ?_, fun t => ?_⟩).2 t
  · obtain ⟨hst, hopen, hu⟩ := hst
    refine ⟨(freeClean_iff_subscribesOpen hst hs.1).2 hopen, fun t => ?_⟩
    rw [mem_topics_iff_of_step hst hs.1 hu, hs.2 t]
    rfl
  · rw [brokerLts_init h₀]
  · simp [brokerLts_init h₀]

/-! ## What is delivered -/

/-- A message published is sent to the client in a slot for a topic in its list. -/
theorem exists_matches_of_sendsTo {s s' : Broker cfg} {bytes : List UInt8} {prio : ℕ}
    {tr : Trace cfg} {k : Slot cfg} {topic : CString}
    (h : BrokerStep pc s (.request bytes prio tr) s')
    (ht : str (received cfg bytes).data.bytes = some topic) {e : Sent cfg} (he : e ∈ sendsTo k tr)
    (hcmd : e.msg.ctrl.cmd = cmdPublish) :
    ∃ u ∈ (s.clients k).topics, TopicMatches cfg topic u := by
  rcases step_request h with ⟨-, rfl, -⟩ | ⟨-, h⟩
  · exact absurd he List.not_mem_nil
  rcases (h.slotStep k).cmd_eq he with hc | ⟨-, hc⟩
  · obtain ⟨topic', ht', h⟩ := h.of_cmd.2.2.2.2.1 (hc.symm.trans hcmd)
    obtain rfl := Option.mem_unique ht ht'
    rcases h.slot Serve.onlyTo (List.nodup_finRange _) k with ⟨-, -, tr', hs, hc⟩ | ⟨-, hs, -⟩
    · exact hc.exists_matches (List.ne_nil_of_mem (hs ▸ he))
    · exact absurd (hs ▸ he) List.not_mem_nil
  · exact cmd_absurd hcmd hc

/-- Unsubscribing from a topic leaves none of it exactly when it was in the
    list once. -/
theorem notMem_topics_iff_of_confirms {s s' : Broker cfg} {l : BrokerLabel cfg} {k : Slot cfg}
    {t : CString} (h : BrokerStep pc s l s') (hl : Confirms cmdUnsubscribe k t l) :
    t ∉ (s'.clients k).topics ↔ (s.clients k).topics.count t ≤ 1 := by
  cases l with
  | restart tr => exact absurd hl id
  | request bytes prio tr =>
    obtain ⟨-, h⟩ := (step_request h).resolve_left fun h => h.1 hl.1
    obtain ⟨fd, utopic, c, hfd, ht, hc, rfl⟩ := h.of_cmd.2.2.2.1 hl.2.1
    obtain ⟨e, he, hdata⟩ := hc.answered
    obtain ⟨rfl, rfl, h0⟩ := (he.confirms_iff hl.1 hl.2.1 hfd ht).1 hl
    rcases hdata with ⟨-, hmem, hc⟩ | ⟨hne, -⟩
    · rw [Broker.set_clients_self, hc, ← List.count_eq_zero, List.count_erase_self]
      omega
    · exact absurd h0 hne

/-- Once an unsubscription from a topic is confirmed, and until a subscription
    to it is, the client is only sent what is published on its other topics: in
    the runs in which topics are added to open slots only, and unsubscribed
    from when they are in the list once. An unsubscription confirmed of a topic
    that is there more than once leaves it in the list. As for the broker, the
    client is whoever has its slot: it is told by nothing else. -/
theorem unsubscribed_silent {s₀ s : Broker cfg} {ls : List (BrokerLabel cfg)}
    (h₀ : (brokerLts cfg pc).init s₀)
    (h : ((brokerLts cfg pc).restrict fun s l => SubscribesOpen s l ∧ UnsubscribesLast s l).Run
      s₀ ls s) :
    (∀ ls₁ l ls₂ k t, ls = ls₁ ++ l :: ls₂ → Confirms cmdUnsubscribe k t l →
      (∀ l' ∈ ls₂, ¬Confirms cmdSubscribe k t l') →
      ∀ bytes prio tr s' topic, BrokerStep pc s (.request bytes prio tr) s' →
        str (received cfg bytes).data.bytes = some topic →
        ∀ e ∈ sendsTo k tr, e.msg.ctrl.cmd = cmdPublish →
          ∃ u, u ≠ t ∧ u ∈ subscriptions k ls ∧ TopicMatches cfg topic u) ∧
    (∀ l s' k t, BrokerStep pc s l s' → Confirms cmdUnsubscribe k t l →
      (t ∉ (s'.clients k).topics ↔ (s.clients k).topics.count t ≤ 1)) := by
  refine ⟨fun ls₁ l ls₂ k t hls hl hno bytes prio tr s' topic hst ht e he hcmd => ?_,
    fun l s' k t hst hl => notMem_topics_iff_of_confirms hst hl⟩
  obtain ⟨u, hu, hm⟩ := exists_matches_of_sendsTo hst ht he hcmd
  rw [mem_topics_iff_of_run h₀ h] at hu
  refine ⟨u, ?_, hu, hm⟩
  rintro rfl
  exact notMem_subscriptions hl hno (hls ▸ hu)

theorem zero_notMem_topicA : 0 ∉ ([47, 97] : List UInt8) := by decide

/-- The topic `/a`. -/
def topicA : CString := ⟨[47, 97], zero_notMem_topicA⟩

/-- A client that opens `/c`, subscribes to `/a`, and unsubscribes. -/
theorem unsubscribed_silent_once : ∃ (s : Broker smallest) (ls : List (BrokerLabel smallest))
    (l : BrokerLabel smallest),
    (brokerLts smallest psmqdCfgInit).Run (started smallest) (ls ++ [l]) s ∧
    Confirms cmdUnsubscribe 0 topicA l ∧
    ∀ bytes prio tr s' topic, BrokerStep psmqdCfgInit s (.request bytes prio tr) s' →
      str (received smallest bytes).data.bytes = some topic →
      ∀ e ∈ sendsTo 0 tr, e.msg.ctrl.cmd = cmdPublish →
        ∃ u, u ≠ topicA ∧ u ∈ subscriptions 0 (ls ++ [l]) ∧ TopicMatches smallest topic u := by
  obtain ⟨tr₁, s₁, tr₂, s₂, tr₃, s₃, h₁, h₂, h₃, hq₁, hq₂, ho, hcount, he⟩ :
      ∃ tr₁ s₁ tr₂ s₂ tr₃ s₃,
        eval (answers smallest true) []
          (brokerStart (started smallest) [111, 0, 0, 0, 47, 99, 0] 0) =
          some (tr₁, s₁) ∧
        eval (answers smallest true) [] (brokerStart s₁ [115, 0, 0, 0, 47, 97, 0] 0) =
          some (tr₂, s₂) ∧
        eval (answers smallest true) [] (brokerStart s₂ [117, 0, 0, 0, 47, 97, 0] 0) =
          some (tr₃, s₃) ∧
        s₁.qctrl ≠ none ∧ s₂.qctrl ≠ none ∧ s₁.IsOpen 0 ∧ (s₂.clients 0).topics.count topicA ≤ 1 ∧
        ∃ e ∈ sendsTo 0 tr₃, e.msg.ctrl = ⟨cmdUnsubscribe, 0⟩ :=
    ⟨_, _, _, _, _, _, rfl, rfl, rfl, by decide, by decide, by decide, by decide, by decide⟩
  have ha : str (received smallest [117, 0, 0, 0, 47, 97, 0]).data.bytes = some topicA := by decide
  have hl : Confirms cmdUnsubscribe 0 topicA (.request [117, 0, 0, 0, 47, 97, 0] 0 tr₃) :=
    ⟨⟨topicA, ha, by decide, by decide⟩, rfl, by decide, ha, he⟩
  have hrun : ((brokerLts smallest psmqdCfgInit).restrict
      fun s l => SubscribesOpen s l ∧ UnsubscribesLast s l).Run (started smallest)
      ([.request [111, 0, 0, 0, 47, 99, 0] 0 tr₁, .request [115, 0, 0, 0, 47, 97, 0] 0 tr₂] ++
        [.request [117, 0, 0, 0, 47, 97, 0] 0 tr₃]) s₃ := by
    refine .cons ⟨.request (by decide) (by decide) (exec_of_eval h₁), ?_, ?_⟩
      (.cons ⟨.request hq₁ (by decide) (exec_of_eval h₂), ?_, ?_⟩
        (.cons ⟨.request hq₂ (by decide) (exec_of_eval h₃), ?_, ?_⟩ (.nil _)))
    · exact fun k hk => absurd hk.2.1 (by decide)
    · exact fun h => absurd h (by decide)
    · intro k hk
      obtain rfl : 0 = k := Option.some.inj (show some 0 = some k from hk.2.2.1)
      exact ho
    · exact fun h => absurd h (by decide)
    · exact fun k hk => absurd hk.2.1 (by decide)
    · intro _ k t hk ht
      obtain rfl : 0 = k := Option.some.inj (show some 0 = some k from hk)
      obtain rfl := Option.mem_unique ha ht
      exact hcount
  exact ⟨s₃, _, _, hrun.of_restrict, hl,
    (unsubscribed_silent (started_init _) hrun).1 _ _ _ 0 topicA rfl hl (by simp)⟩

/-- A client that opens `/c`, subscribes to `/a` twice, and unsubscribes from it
    once, which is confirmed, gets what is published on `/a`: it is subscribed
    to nothing else. -/
theorem leftover_topic : ∃ (s s' : Broker smallest) (ls : List (BrokerLabel smallest))
    (l : BrokerLabel smallest) (tr : Trace smallest),
    (brokerLts smallest psmqdCfgInit).init (started smallest) ∧
    (brokerLts smallest psmqdCfgInit).Run (started smallest) (ls ++ [l]) s ∧
    Confirms cmdUnsubscribe 0 topicA l ∧
    BrokerStep psmqdCfgInit s (.request [112, 0, 0, 0, 47, 97, 0] 0 tr) s' ∧
    str (received smallest [112, 0, 0, 0, 47, 97, 0]).data.bytes = some topicA ∧
    (∃ e ∈ sendsTo 0 tr, e.msg.ctrl.cmd = cmdPublish ∧ e.ok = true) ∧
    ∀ u, u ≠ topicA → u ∉ subscriptions 0 (ls ++ [l]) := by
  obtain ⟨ls, s₁, tr₂, s₂, tr₃, s₃, h₁, h₂, h₃, hq, he, hpub⟩ : ∃ ls s₁ tr₂ s₂ tr₃ s₃,
      feedRun (answers smallest true) [([111, 0, 0, 0, 47, 99, 0], 0),
        ([115, 0, 0, 0, 47, 97, 0], 0), ([115, 0, 0, 0, 47, 97, 0], 0)] (started smallest) =
          some (ls, s₁) ∧
      eval (answers smallest true) [] (brokerStart s₁ [117, 0, 0, 0, 47, 97, 0] 0) =
        some (tr₂, s₂) ∧
      eval (answers smallest true) [] (brokerStart s₂ [112, 0, 0, 0, 47, 97, 0] 0) =
        some (tr₃, s₃) ∧
      s₂.qctrl ≠ none ∧ (∃ e ∈ sendsTo 0 tr₂, e.msg.ctrl = ⟨cmdUnsubscribe, 0⟩) ∧
      ∃ e ∈ sendsTo 0 tr₃, e.msg.ctrl.cmd = cmdPublish ∧ e.ok = true :=
    ⟨_, _, _, _, _, _, rfl, rfl, rfl, by decide, by decide, by decide⟩
  obtain ⟨hrun, hq₁⟩ : (brokerLts smallest psmqdCfgInit).Run _ _ _ ∧ _ :=
    run_of_feedRun h₁ (by decide)
  have ha : str (received smallest [117, 0, 0, 0, 47, 97, 0]).data.bytes = some topicA := by decide
  refine ⟨s₂, s₃, ls, .request [117, 0, 0, 0, 47, 97, 0] 0 tr₂, tr₃, started_init _,
    hrun.append (.cons (.request hq₁ (by decide) (exec_of_eval h₂)) (.nil _)),
    ⟨⟨topicA, ha, by decide, by decide⟩, rfl, by decide, ha, he⟩,
    .request hq (by decide) (exec_of_eval h₃), by decide, hpub, fun u hu hmem => hu ?_⟩
  obtain ⟨l, hl, hc⟩ := exists_confirms_of_mem hmem
  rcases List.mem_append.1 hl with hl | hl
  · -- All the requests to subscribe are for `/a`.
    obtain ⟨bytes, prio, tr, hmsg, rfl⟩ := mem_of_feedRun h₁ hl
    have hall : ∀ m ∈ [(([111, 0, 0, 0, 47, 99, 0] : List UInt8), 0),
        ([115, 0, 0, 0, 47, 97, 0], 0), ([115, 0, 0, 0, 47, 97, 0], 0)],
        (received smallest m.1).ctrl.cmd = cmdSubscribe →
          str (received smallest m.1).data.bytes = some topicA := by decide
    exact Option.mem_unique hc.2.2.2.1 (hall _ hmsg hc.2.1)
  · obtain rfl := List.mem_singleton.1 hl
    exact absurd hc.2.1 (by decide)

end Psmq
