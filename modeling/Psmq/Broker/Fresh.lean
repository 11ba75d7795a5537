import Psmq.Broker.Slots

/-!
# Free slots

What is left in a slot of its former clients, and of requests naming it while
it is free, when it is given to a new client.

* A free slot keeps no topic, as long as no request adds one to a free slot
  (`SubscribesOpen`). A new client gets no message published before it
  subscribes to something itself, as long as nobody does in its name before it
  (`OwnSubscribes`, `free_slots_clean`). The broker checks neither that the slot
  a request names is open, nor who names it: a subscription to a free slot stays
  there for the next client (`stale_topic`).
* Closing a client resets everything but its reply timeout, and then counts
  the reply it sends. New clients start alike, as long as the slots are closed
  with no reply timeout set, and that reply delivered (`ClosesFresh`,
  `fresh_connection`), but not otherwise (`stale_timeout`).
-/

namespace Psmq

open CMem Prog

variable {cfg : Config} {pc : PsmqdCfg}

/-! ## Freeing a slot -/

/-- Freeing an open slot closes its client, which is told so last. -/
theorem step_frees {s s' : Broker cfg} {l : BrokerLabel cfg} {k : Slot cfg}
    (h : BrokerStep pc s l s') (ho : s.IsOpen k) (hl : Frees k l) :
    ∃ es e, sendsTo k l.trace = es ++ [e] ∧ (∀ e' ∈ es, e'.msg.ctrl.cmd ≠ cmdClose) ∧
      e.msg.ctrl = ⟨cmdClose, 0⟩ ∧ s'.clients k = (s.clients k).closed e.ok := by
  cases l with
  | restart tr =>
    rcases step_restart_slot h k with ⟨-, e, he, hs, hc⟩ | ⟨hfree, -⟩
    · exact ⟨[], e, hs, by simp, he.cmd_eq, hc⟩
    · exact absurd ho hfree
  | request bytes prio tr =>
    rcases hl with ⟨ha, hcmd, hfd⟩ | ⟨hcmd, e, he, hclose⟩
    · obtain ⟨-, h⟩ := (step_request h).resolve_left fun h => h.1 ha
      obtain ⟨fd, c, hfd', hc, rfl⟩ := h.of_cmd.2.1 hcmd
      obtain rfl := Option.mem_unique hfd hfd'
      obtain ⟨e, he, hs, rfl⟩ := hc.spec
      exact ⟨[], e, hc.onlyTo.sendsTo_self.trans hs, by simp, he.cmd_eq, s.set_clients_self _ _⟩
    · rcases step_request h with ⟨-, rfl, -⟩ | ⟨-, h⟩
      · exact absurd he List.not_mem_nil
      obtain ⟨topic, -, h⟩ := h.of_cmd.2.2.2.2.1 hcmd
      rcases h.slot Serve.onlyTo (List.nodup_finRange _) k with ⟨-, -, tr', hs, hc⟩ | ⟨-, hs, -⟩
      · rcases hc.spec with ⟨-, hes⟩ | ⟨es, e', hes', hes, he', hc⟩
        · exact absurd ((congrArg Ctrl.cmd (hes e (hs ▸ he))).symm.trans hclose) (by decide)
        · exact ⟨es, e', hs.trans hes', fun e h => by rw [hes e h]; decide, he', hc⟩
      · exact absurd (hs ▸ he) List.not_mem_nil

/-- An open slot is freed by the steps that free it. -/
theorem isOpen_iff_not_frees {s s' : Broker cfg} {l : BrokerLabel cfg} {k : Slot cfg}
    (h : BrokerStep pc s l s') (ho : s.IsOpen k) : s'.IsOpen k ↔ ¬Frees k l := by
  refine ⟨fun ho' hl => ?_, fun hl => by rwa [Broker.IsOpen, mq_eq_of_not_frees h ho hl]⟩
  obtain ⟨_, _, -, -, -, hc⟩ := step_frees h ho hl
  exact ho' (by rw [hc]; rfl)

/-! ## Topics of free slots -/

/-- The step adds a topic to the slot `k`: a subscribe request carrying it,
    with a topic that is not refused, and memory for it. -/
def Subscribes (k : Slot cfg) : BrokerLabel cfg → Prop
  | .request bytes _ tr =>
    Accepted (received cfg bytes) ∧ (received cfg bytes).ctrl.cmd = cmdSubscribe ∧
      slotOf cfg (received cfg bytes).ctrl.data = some k ∧
      (∃ stopic, str (received cfg bytes).data.bytes = some stopic ∧
        subscribeErr (received cfg bytes) stopic.length = some 0) ∧
      ∃ size, ⟨.malloc size, true⟩ ∈ tr
  | .restart _ => False

/-- Topics are only added to open slots. -/
def SubscribesOpen (s : Broker cfg) (l : BrokerLabel cfg) : Prop := ∀ k, Subscribes k l → s.IsOpen k

/-- The free slots have no topics. -/
def FreeClean (s : Broker cfg) : Prop := ∀ k, ¬s.IsOpen k → (s.clients k).topics = []

theorem Subscribe.topics_eq {msg : PsmqMsg cfg} {stopic : CString} {fd : Slot cfg} {c c' : Client}
    {tr : Trace cfg} (h : Subscribe msg stopic fd c tr c') :
    c'.mq = c.mq ∧ (c'.topics = c.topics ∨
      (subscribeErr msg stopic.length = some 0 ∧ ∃ size, ⟨.malloc size, true⟩ ∈ tr)) := by
  cases h with
  | refused => exact ⟨rfl, .inl rfl⟩
  | noMemory => exact ⟨rfl, .inl rfl⟩
  | added herr => exact ⟨rfl, .inr ⟨herr, _, List.mem_cons_self⟩⟩

/-- A step that adds no topic to a slot without topics leaves it so. -/
theorem topics_eq_nil_of_not_subscribes {s s' : Broker cfg} {l : BrokerLabel cfg} {k : Slot cfg}
    (h : BrokerStep pc s l s') (hnil : (s.clients k).topics = []) (hl : ¬Subscribes k l) :
    (s'.clients k).topics = [] := by
  cases l with
  | restart tr =>
    rcases step_restart_slot h k with ⟨-, _, -, -, hc⟩ | ⟨-, -, hc⟩
    · rw [hc]
      rfl
    · rwa [hc]
  | request bytes prio tr =>
    rcases step_request h with ⟨-, -, rfl⟩ | ⟨ha, h⟩
    · exact hnil
    generalize hc : s'.clients k = c
    cases hc ▸ h.slotStep k with
    | idle => exact hnil
    | opened => exact hnil
    | noReply => exact hnil
    | closed _ _ h =>
      obtain ⟨_, -, -, rfl⟩ := h.spec
      rfl
    | subscribed hcmd hfd ht h =>
      rcases h.topics_eq.2 with h | ⟨herr, hmem⟩
      · rwa [h]
      · exact absurd ⟨ha, hcmd, hfd, ⟨_, ht, herr⟩, hmem⟩ hl
    | unsubscribed _ _ _ h =>
      cases h with
      | absent => exact hnil
      | removed hmem => exact absurd (hnil ▸ hmem) List.not_mem_nil
    | served _ _ _ _ h =>
      rcases h.spec with ⟨hc, -⟩ | ⟨_, _, -, -, -, hc⟩ <;> rw [hc]
      · exact hnil
      · rfl
    | ioctl _ _ _ h => cases h <;> exact hnil

/-- A topic added to a slot is there, and the slot is as free as it was. -/
theorem topics_ne_nil_of_subscribes {s s' : Broker cfg} {l : BrokerLabel cfg} {k : Slot cfg}
    (h : BrokerStep pc s l s') (hl : Subscribes k l) :
    (s'.clients k).topics ≠ [] ∧ (s'.IsOpen k ↔ s.IsOpen k) := by
  cases l with
  | restart tr => exact absurd hl id
  | request bytes prio tr =>
    obtain ⟨ha, hcmd, hfd, ⟨stopic, ht, herr⟩, size, hmem⟩ := hl
    obtain ⟨-, h⟩ := (step_request h).resolve_left fun h => h.1 ha
    obtain ⟨fd, stopic', c, hfd', ht', hc, rfl⟩ := h.of_cmd.2.2.1 hcmd
    obtain rfl := Option.mem_unique hfd hfd'
    obtain rfl := Option.mem_unique ht ht'
    rw [Broker.IsOpen, Broker.set_clients_self, Broker.IsOpen, hc.topics_eq.1]
    refine ⟨?_, Iff.rfl⟩
    cases hc with
    | refused herr' hne => exact absurd (Option.mem_unique herr' herr) hne
    | noMemory => simp [Sent.event] at hmem
    | added => exact tlInsert_ne_nil _ _

/-- A step keeps the free slots clean exactly when it adds no topic to one of them. -/
theorem freeClean_iff_subscribesOpen {s s' : Broker cfg} {l : BrokerLabel cfg}
    (h : BrokerStep pc s l s') (hs : FreeClean s) : FreeClean s' ↔ SubscribesOpen s l := by
  refine ⟨fun hs' k hl => ?_, fun hl k hfree => ?_⟩
  · -- A topic added stays there, and the slot is still free.
    obtain ⟨hne, hopen⟩ := topics_ne_nil_of_subscribes h hl
    by_contra hfree
    exact hne (hs' k fun h => hfree (hopen.1 h))
  · by_cases ho : s.IsOpen k
    · have hf : Frees k l := by
        by_contra hf
        exact hfree ((isOpen_iff_not_frees h ho).2 hf)
      obtain ⟨_, _, -, -, -, hc⟩ := step_frees h ho hf
      rw [hc]
      rfl
    · exact topics_eq_nil_of_not_subscribes h (hs k ho) fun h => ho (hl k h)

theorem Serve.eq_nil {topic : CString} {payload : Ptr} {paylen prio : ℕ} {fd : Slot cfg}
    {c c' : Client} {tr : Trace cfg} (h : Serve topic payload paylen prio fd [] c tr c') :
    tr = [] := by
  cases h
  rfl

/-- A client without topics is sent no published message. -/
theorem cmd_ne_publish_of_topics_nil {s s' : Broker cfg} {l : BrokerLabel cfg} {k : Slot cfg}
    (h : BrokerStep pc s l s') (hnil : (s.clients k).topics = []) {e : Sent cfg}
    (he : e ∈ sendsTo k l.trace) : e.msg.ctrl.cmd ≠ cmdPublish := by
  cases l with
  | restart tr =>
    rcases step_restart_slot h k with ⟨-, e', he', hs, -⟩ | ⟨-, hs, -⟩
    · have hmem : e ∈ [e'] := by
        rw [← hs]
        exact he
      rw [List.mem_singleton.1 hmem, he'.cmd_eq]
      decide
    · exact absurd (hs ▸ he) List.not_mem_nil
  | request bytes prio tr =>
    rcases step_request h with ⟨-, rfl, -⟩ | ⟨-, h⟩
    · exact absurd he List.not_mem_nil
    have hstep := h.slotStep k
    intro hcmd
    rcases hstep.cmd_eq he with hc | ⟨-, hc⟩
    · obtain ⟨topic, -, h⟩ := h.of_cmd.2.2.2.2.1 (hc.symm.trans hcmd)
      rcases h.slot Serve.onlyTo (List.nodup_finRange _) k with ⟨-, -, tr', hs, hc⟩ | ⟨-, hs, -⟩
      · rw [hnil] at hc
        rw [hc.eq_nil] at hs
        exact absurd (hs ▸ he) List.not_mem_nil
      · exact absurd (hs ▸ he) List.not_mem_nil
    · exact cmd_absurd hcmd hc

theorem freeClean_of_reachable {s : Broker cfg}
    (hs : ((brokerLts cfg pc).restrict SubscribesOpen).Reachable s) : FreeClean s := by
  refine hs.invariant (fun s h k _ => ?_) fun s l s' hs h => ?_
  · rw [brokerLts_init h]
  · exact (freeClean_iff_subscribesOpen h.1 hs).2 h.2

/-! ## Histories with senders -/

/-- The broker, with the sender each slot was given to. -/
structure Owned (cfg : Config) where
  broker : Broker cfg
  owner : Slot cfg → Option ℕ

/-- The owners after a step of the broker, on a message of `who`: a slot it
    opens is given to `who`. -/
def ownerAfter (h : Owned cfg) (s' : Broker cfg) (who : ℕ) (k : Slot cfg) : Option ℕ :=
  if s'.IsOpen k then if h.broker.IsOpen k then h.owner k else some who else none

/-- Who has the slots: the client each slot was given to, and whether it has
    subscribed to something itself since. -/
structure Tenancy (cfg : Config) where
  owner : Slot cfg → Option ℕ
  subscribed : Slot cfg → Prop

/-- Nobody has a slot. -/
def Tenancy.none : Tenancy cfg := ⟨fun _ => .none, fun _ => False⟩

/-- Who has the slots after a step of the broker, on a message of `l.1`. -/
def Tenancy.after (T : Tenancy cfg) (s : Broker cfg) (l : ℕ × BrokerLabel cfg) (s' : Broker cfg) :
    Tenancy cfg where
  owner := ownerAfter ⟨s, T.owner⟩ s' l.1
  subscribed k := s'.IsOpen k ∧ (T.subscribed k ∨ (Subscribes k l.2 ∧ T.owner k = some l.1))

/-- The broker, on messages that anybody sends, with the clients that have its slots. -/
def tenancyLts (cfg : Config) (pc : PsmqdCfg) :
    Lts (Broker cfg × Tenancy cfg) (ℕ × BrokerLabel cfg) :=
  Lts.watch ⟨(brokerLts cfg pc).init, fun s l s' => BrokerStep pc s l.2 s'⟩ .none Tenancy.after

/-- The first topic added to a slot, since it was given to a client, is added by
    this client. -/
def OwnSubscribes (X : Broker cfg × Tenancy cfg) (l : ℕ × BrokerLabel cfg) : Prop :=
  ∀ k, Subscribes k l.2 → X.2.subscribed k ∨ X.2.owner k = some l.1

/-- The slots that are free, or whose client has not subscribed to anything
    itself, have no topics. -/
def UnaskedClean (X : Broker cfg × Tenancy cfg) : Prop :=
  ∀ k, ¬X.2.subscribed k → (X.1.clients k).topics = []

section Tenancy

variable {X X' : Broker cfg × Tenancy cfg} {l : ℕ × BrokerLabel cfg}

/-- The clients of the slots have opened them. -/
theorem Tenancy.isOpen (hX : (tenancyLts cfg pc).Reachable X) (k : Slot cfg) :
    (X.2.subscribed k → X.1.IsOpen k) ∧ (X.2.owner k ≠ .none → X.1.IsOpen k) := by
  cases hX with
  | init hi =>
    obtain ⟨-, hT⟩ := hi
    rw [hT]
    exact ⟨False.elim, fun h => absurd rfl h⟩
  | step _ hst =>
    obtain ⟨-, hT⟩ := hst
    rw [hT]
    refine ⟨fun h => h.1, fun h => ?_⟩
    by_contra hfree
    exact h (if_neg hfree)

/-- A step adds no topic before the client of the slot does, exactly when it is
    not the first one to add one, or is this client. -/
theorem unaskedClean_iff_ownSubscribes (hX : (tenancyLts cfg pc).Reachable X)
    (hclean : UnaskedClean X) (hst : (tenancyLts cfg pc).step X l X') :
    UnaskedClean X' ↔ OwnSubscribes X l := by
  obtain ⟨hb, hT⟩ : BrokerStep pc X.1 l.2 X'.1 ∧ X'.2 = X.2.after X.1 l X'.1 := hst
  have hiff (k : Slot cfg) : X'.2.subscribed k ↔ X'.1.IsOpen k ∧
      (X.2.subscribed k ∨ (Subscribes k l.2 ∧ X.2.owner k = some l.1)) := by
    rw [hT]
    rfl
  refine ⟨fun hclean' k hk => ?_, fun hl k hk => ?_⟩
  · -- A topic added by another one is there before the client has subscribed.
    by_contra hno
    obtain ⟨hsub, howner⟩ := not_or.1 hno
    refine (topics_ne_nil_of_subscribes hb hk).1 (hclean' k fun h => ?_)
    rcases ((hiff k).1 h).2 with h | ⟨-, h⟩
    · exact hsub h
    · exact howner h
  · rw [hiff, not_and] at hk
    by_cases hsub : X.2.subscribed k
    · -- The client of the slot is gone.
      have ho := ((Tenancy.isOpen hX k).1 hsub)
      have hf : Frees k l.2 := by
        by_contra hf
        exact hk ((isOpen_iff_not_frees hb ho).2 hf) (.inl hsub)
      obtain ⟨_, _, -, -, -, hc⟩ := step_frees hb ho hf
      rw [hc]
      rfl
    · refine topics_eq_nil_of_not_subscribes hb (hclean k hsub) fun hadd => ?_
      have howner := (hl k hadd).resolve_left hsub
      have ho := (Tenancy.isOpen hX k).2 (by simp [howner])
      exact hk ((topics_ne_nil_of_subscribes hb hadd).2.2 ho) (.inr ⟨hadd, howner⟩)

theorem unaskedClean_of_reachable
    (hX : ((tenancyLts cfg pc).restrict OwnSubscribes).Reachable X) : UnaskedClean X := by
  induction hX with
  | init hi =>
    intro k _
    rw [brokerLts_init hi.1]
  | step hr hst ih => exact (unaskedClean_iff_ownSubscribes hr.of_restrict ih hst.1).2 hst.2

/-- A slot opened is given to the sender, that has not subscribed to anything. -/
theorem owner_of_opened (hX : (tenancyLts cfg pc).Reachable X)
    (hst : (tenancyLts cfg pc).step X l X') {k : Slot cfg} (hfree : ¬X.1.IsOpen k)
    (ho : X'.1.IsOpen k) : X'.2.owner k = some l.1 ∧ ¬X'.2.subscribed k := by
  obtain ⟨hb, hT⟩ : BrokerStep pc X.1 l.2 X'.1 ∧ X'.2 = X.2.after X.1 l X'.1 := hst
  rw [hT]
  refine ⟨?_, ?_⟩
  · simp [Tenancy.after, ownerAfter, ho, hfree]
  · rintro ⟨-, hsub | ⟨hadd, -⟩⟩
    · exact hfree ((Tenancy.isOpen hX k).1 hsub)
    · exact hfree ((topics_ne_nil_of_subscribes hb hadd).2.1 ho)

end Tenancy

/-- In the runs in which topics are only added to open slots, the free slots
    have none, and the first topic added to a free slot ends this.

    In those in which the first topic of a client is added by this client, it
    has none, and gets no published message, until it has subscribed to
    something itself; and the first topic added by another one ends this. A
    slot opened is that of the sender, that has not subscribed to anything. -/
theorem free_slots_clean (cfg : Config) (pc : PsmqdCfg) :
    (∀ s, ((brokerLts cfg pc).restrict SubscribesOpen).Reachable s → FreeClean s ∧
      ∀ l s', BrokerStep pc s l s' → (FreeClean s' ↔ SubscribesOpen s l)) ∧
    ∀ X, ((tenancyLts cfg pc).restrict OwnSubscribes).Reachable X → FreeClean X.1 ∧
      UnaskedClean X ∧ ∀ l X', (tenancyLts cfg pc).step X l X' →
        (UnaskedClean X' ↔ OwnSubscribes X l) ∧
        (∀ k, ¬X.1.IsOpen k → X'.1.IsOpen k →
          X'.2.owner k = some l.1 ∧ ¬X'.2.subscribed k) ∧
        ∀ k, ¬X.2.subscribed k → ∀ e ∈ sendsTo k l.2.trace, e.msg.ctrl.cmd ≠ cmdPublish := by
  refine ⟨fun s hs => ?_, fun X hX => ?_⟩
  · have hclean := freeClean_of_reachable hs
    exact ⟨hclean, fun l s' h => freeClean_iff_subscribesOpen h hclean⟩
  · have hclean := unaskedClean_of_reachable hX
    have hX := hX.of_restrict
    exact ⟨fun k hfree => hclean k fun hsub => hfree ((Tenancy.isOpen hX k).1 hsub), hclean,
      fun l X' hst => ⟨unaskedClean_iff_ownSubscribes hX hclean hst,
        fun k => owner_of_opened hX hst,
        fun k hsub e he => cmd_ne_publish_of_topics_nil hst.1 (hclean k hsub) he⟩⟩

/-- Handling a message is a step, that adds no topic unless it is of the client of
    the slot; the clients keep their slots. -/
theorem exists_tenancy {s s' : Broker cfg} {T : Tenancy cfg}
    (hX : ((tenancyLts cfg pc).restrict OwnSubscribes).Reachable (s, T)) (who : ℕ)
    {bytes : List UInt8} {prio : ℕ} {tr : Trace cfg}
    (hst : BrokerStep pc s (.request bytes prio tr) s')
    (hl : (received cfg bytes).ctrl.cmd = cmdSubscribe →
      ∀ k ∈ slotOf cfg (received cfg bytes).ctrl.data, T.owner k = some who) :
    ∃ T', (tenancyLts cfg pc).step (s, T) (who, .request bytes prio tr) (s', T') ∧
      ((tenancyLts cfg pc).restrict OwnSubscribes).Reachable (s', T') ∧
      ∀ k, s.IsOpen k → s'.IsOpen k → T'.owner k = T.owner k := by
  have hown : OwnSubscribes (s, T) (who, .request bytes prio tr) :=
    fun k hk => .inr (hl hk.2.1 k hk.2.2.1)
  refine ⟨T.after s (who, .request bytes prio tr) s', ⟨hst, rfl⟩, hX.step ⟨⟨hst, rfl⟩, hown⟩,
    fun k ho ho' => ?_⟩
  simp [Tenancy.after, ownerAfter, ho, ho']

/-- The clients 8 and 7 open `/d` and `/c`. What 8 publishes on `/a` is sent to 7
    once 7 has subscribed to it, but not before; then 7 closes. -/
theorem free_slots_clean_closed : ∃ (s₂ s₃ s₄ s₅ s₆ : Broker smallest)
    (tr₃ tr₄ tr₅ tr₆ : Trace smallest),
    BrokerStep psmqdCfgInit s₂ (.request [112, 0, 0, 0, 47, 97, 0] 0 tr₃) s₃ ∧
    BrokerStep psmqdCfgInit s₃ (.request [115, 1, 0, 0, 47, 97, 0] 0 tr₄) s₄ ∧
    BrokerStep psmqdCfgInit s₄ (.request [112, 0, 0, 0, 47, 97, 0] 0 tr₅) s₅ ∧
    BrokerStep psmqdCfgInit s₅ (.request [99, 1, 0, 0, 0] 0 tr₆) s₆ ∧
    s₂.IsOpen 1 ∧ (∀ e ∈ sendsTo 1 tr₃, e.msg.ctrl.cmd ≠ cmdPublish) ∧
    (∃ e ∈ sendsTo 1 tr₅, e.msg.ctrl.cmd = cmdPublish) ∧
    ¬s₆.IsOpen 1 ∧ (s₆.clients 1).topics = [] := by
  obtain ⟨tr₁, s₁, tr₂, s₂, tr₃, s₃, tr₄, s₄, tr₅, s₅, tr₆, s₆, h₁, h₂, h₃, h₄, h₅, h₆, hq₁, hq₂,
      hq₃, hq₄, hq₅, hfree, ho₂, ho₃, hpub, hfree₆⟩ : ∃ tr₁ s₁ tr₂ s₂ tr₃ s₃ tr₄ s₄ tr₅ s₅ tr₆ s₆,
      eval (answers smallest true) []
        (brokerStart (started smallest) [111, 0, 0, 0, 47, 100, 0] 0) = some (tr₁, s₁) ∧
      eval (answers smallest true) [] (brokerStart s₁ [111, 0, 0, 0, 47, 99, 0] 0) =
        some (tr₂, s₂) ∧
      eval (answers smallest true) [] (brokerStart s₂ [112, 0, 0, 0, 47, 97, 0] 0) =
        some (tr₃, s₃) ∧
      eval (answers smallest true) [] (brokerStart s₃ [115, 1, 0, 0, 47, 97, 0] 0) =
        some (tr₄, s₄) ∧
      eval (answers smallest true) [] (brokerStart s₄ [112, 0, 0, 0, 47, 97, 0] 0) =
        some (tr₅, s₅) ∧
      eval (answers smallest true) [] (brokerStart s₅ [99, 1, 0, 0, 0] 0) = some (tr₆, s₆) ∧
      s₁.qctrl ≠ none ∧ s₂.qctrl ≠ none ∧ s₃.qctrl ≠ none ∧ s₄.qctrl ≠ none ∧ s₅.qctrl ≠ none ∧
      ¬s₁.IsOpen 1 ∧ s₂.IsOpen 1 ∧ s₃.IsOpen 1 ∧
      (∃ e ∈ sendsTo 1 tr₅, e.msg.ctrl.cmd = cmdPublish) ∧ ¬s₆.IsOpen 1 :=
    ⟨_, _, _, _, _, _, _, _, _, _, _, _, rfl, rfl, rfl, rfl, rfl, rfl, by decide, by decide,
      by decide, by decide, by decide, by decide, by decide, by decide, by decide, by decide⟩
  have hi : ((tenancyLts smallest psmqdCfgInit).restrict OwnSubscribes).Reachable
      (started smallest, .none) := .init ⟨started_init _, rfl⟩
  have hst₁ : BrokerStep psmqdCfgInit (started smallest)
      (.request [111, 0, 0, 0, 47, 100, 0] 0 tr₁) s₁ :=
    .request (by decide) (by decide) (exec_of_eval h₁)
  have hst₂ : BrokerStep psmqdCfgInit s₁ (.request [111, 0, 0, 0, 47, 99, 0] 0 tr₂) s₂ :=
    .request hq₁ (by decide) (exec_of_eval h₂)
  have hst₃ : BrokerStep psmqdCfgInit s₂ (.request [112, 0, 0, 0, 47, 97, 0] 0 tr₃) s₃ :=
    .request hq₂ (by decide) (exec_of_eval h₃)
  have hst₄ : BrokerStep psmqdCfgInit s₃ (.request [115, 1, 0, 0, 47, 97, 0] 0 tr₄) s₄ :=
    .request hq₃ (by decide) (exec_of_eval h₄)
  have hst₅ : BrokerStep psmqdCfgInit s₄ (.request [112, 0, 0, 0, 47, 97, 0] 0 tr₅) s₅ :=
    .request hq₄ (by decide) (exec_of_eval h₅)
  have hst₆ : BrokerStep psmqdCfgInit s₅ (.request [99, 1, 0, 0, 0] 0 tr₆) s₆ :=
    .request hq₅ (by decide) (exec_of_eval h₆)
  have hclean := (free_slots_clean smallest psmqdCfgInit).2
  obtain ⟨T₁, -, hr₁, -⟩ := exists_tenancy hi 8 hst₁ fun h => absurd h (by decide)
  obtain ⟨T₂, hx₂, hr₂, -⟩ := exists_tenancy hr₁ 7 hst₂ fun h => absurd h (by decide)
  obtain ⟨T₃, hx₃, hr₃, hkeep⟩ := exists_tenancy hr₂ 8 hst₃ fun h => absurd h (by decide)
  -- The slot opened is that of 7, which has not subscribed.
  obtain ⟨howner, hsub⟩ := ((hclean _ hr₁).2.2 _ _ hx₂).2.1 1 hfree ho₂
  obtain ⟨T₄, -, hr₄, -⟩ := exists_tenancy hr₃ 7 hst₄ fun _ k hk => by
    obtain rfl : (1 : Slot smallest) = k := Option.some.inj hk
    exact (hkeep 1 ho₂ ho₃).trans howner
  obtain ⟨T₅, -, hr₅, -⟩ := exists_tenancy hr₄ 8 hst₅ fun h => absurd h (by decide)
  obtain ⟨T₆, -, hr₆, -⟩ := exists_tenancy hr₅ 7 hst₆ fun h => absurd h (by decide)
  exact ⟨s₂, s₃, s₄, s₅, s₆, tr₃, tr₄, tr₅, tr₆, hst₃, hst₄, hst₅, hst₆, ho₂,
    ((hclean _ hr₂).2.2 _ _ hx₃).2.2 1 hsub, hpub, hfree₆, (hclean _ hr₆).1 1 hfree₆⟩

/-- A topic subscribed to in the name of a free slot stays there: the next
    client of the slot, which has subscribed to nothing, gets what is published
    on it. The requests are subscribe `/a`, for the slot 0, open `/c`, and
    publish on `/a`. -/
theorem stale_topic : ∃ (s₁ s₂ s₃ : Broker smallest) (tr₂ tr₃ : Trace smallest),
    (brokerLts smallest psmqdCfgInit).Reachable s₁ ∧ ¬FreeClean s₁ ∧
    BrokerStep psmqdCfgInit s₁ (.request [111, 0, 0, 0, 47, 99, 0] 0 tr₂) s₂ ∧
    ¬s₁.IsOpen 0 ∧ s₂.IsOpen 0 ∧ Told 0 tr₂ ∧
    BrokerStep psmqdCfgInit s₂ (.request [112, 1, 0, 0, 47, 97, 0] 0 tr₃) s₃ ∧
    ∃ e ∈ sendsTo 0 tr₃, e.msg.ctrl = ⟨cmdPublish, 0⟩ ∧ e.ok = true := by
  obtain ⟨s₁, tr₂, s₂, tr₃, s₃, h₁, h₂, h₃, hq, htopics, hfree, ho, htold, hpub⟩ :
      ∃ s₁ tr₂ s₂ tr₃ s₃,
        feed (answers smallest true) [([115, 0, 0, 0, 47, 97, 0], 0)] (started smallest) = some s₁ ∧
        eval (answers smallest true) [] (brokerStart s₁ [111, 0, 0, 0, 47, 99, 0] 0) =
          some (tr₂, s₂) ∧
        eval (answers smallest true) [] (brokerStart s₂ [112, 1, 0, 0, 47, 97, 0] 0) =
          some (tr₃, s₃) ∧
        s₂.qctrl ≠ none ∧ (s₁.clients 0).topics ≠ [] ∧ ¬s₁.IsOpen 0 ∧ s₂.IsOpen 0 ∧
        (∃ e ∈ sends tr₂, e.msg.ctrl = ⟨cmdOpen, 0⟩ ∧
          e.msg.data.bytes[0]? = some (fdOf (0 : Slot smallest)) ∧ e.ok = true) ∧
        ∃ e ∈ sendsTo 0 tr₃, e.msg.ctrl = ⟨cmdPublish, 0⟩ ∧ e.ok = true :=
    ⟨_, _, _, _, _, rfl, rfl, rfl, by decide, by decide, by decide, by decide, by decide, by decide⟩
  obtain ⟨hr, hq₁⟩ := reachable_of_feed h₁ (reachable_started psmqdCfgInit) (by decide)
  exact ⟨s₁, s₂, s₃, tr₂, tr₃, hr, fun h => htopics (h 0 hfree),
    .request hq₁ (by decide) (exec_of_eval h₂), hfree, ho, htold,
    .request hq (by decide) (exec_of_eval h₃), hpub⟩

/-! ## Histories with owners -/

/-- The steps in which every request is sent by the owner of the descriptor it
    carries, but for open requests, which carry none. -/
inductive OwnedStep (pc : PsmqdCfg) (h : Owned cfg) : ℕ × BrokerLabel cfg → Owned cfg → Prop
  | request (who : ℕ) {bytes : List UInt8} {prio : ℕ} {tr : Trace cfg} {s' : Broker cfg} :
      BrokerStep pc h.broker (.request bytes prio tr) s' →
      ((received cfg bytes).ctrl.cmd ≠ cmdOpen →
        ∃ k, slotOf cfg (received cfg bytes).ctrl.data = some k ∧ h.owner k = some who) →
      OwnedStep pc h (who, .request bytes prio tr) ⟨s', ownerAfter h s' who⟩
  | restart {who : ℕ} {tr : Trace cfg} {s' : Broker cfg} :
      BrokerStep pc h.broker (.restart tr) s' →
      OwnedStep pc h (who, .restart tr) ⟨s', ownerAfter h s' who⟩

/-- The histories in which every request is sent by the owner of the descriptor it carries. -/
def ownedLts (cfg : Config) (pc : PsmqdCfg) : Lts (Owned cfg) (ℕ × BrokerLabel cfg) where
  init h := (brokerLts cfg pc).init h.broker ∧ h.owner = fun _ => none
  step := OwnedStep pc

theorem OwnedStep.brokerStep {h h' : Owned cfg} {l : ℕ × BrokerLabel cfg}
    (hst : OwnedStep pc h l h') : BrokerStep pc h.broker l.2 h'.broker := by
  cases hst with
  | request _ hst => exact hst
  | restart hst => exact hst

/-- Only open slots have owners. -/
theorem isOpen_of_owner {h : Owned cfg} (hh : (ownedLts cfg pc).Reachable h) {k : Slot cfg}
    {who : ℕ} (hk : h.owner k = some who) : h.broker.IsOpen k := by
  cases hh with
  | init hi => simp [hi.2] at hk
  | step _ hst =>
    by_contra hfree
    cases hst <;> simp [ownerAfter, hfree] at hk

/-- The slots freed in the step had no reply timeout set, and their clients
    were told that they are closed. -/
def ClosesFresh (h : Owned cfg) (l : ℕ × BrokerLabel cfg) : Prop :=
  ∀ k, h.broker.IsOpen k → Frees k l.2 → (h.broker.clients k).replyTimeout = 0 ∧
    ∀ e ∈ sendsTo k l.2.trace, e.msg.ctrl.cmd = cmdClose → e.ok = true

/-- The free slots are as they were at the start. -/
def FreeFresh (s : Broker cfg) : Prop := ∀ k, ¬s.IsOpen k → s.clients k = ⟨none, [], 0, 0⟩

/-- A slot is fresh once freed exactly when no timeout was set, and its client was told. -/
theorem closed_eq_fresh_iff {c : Client} {ok : Bool} :
    c.closed ok = ⟨none, [], 0, 0⟩ ↔ c.replyTimeout = 0 ∧ ok = true := by
  cases ok <;> simp [Client.closed]

/-- A request of an owner leaves the free slots alone, unless it opens them. -/
theorem clients_eq_of_free {h h' : Owned cfg} {l : ℕ × BrokerLabel cfg}
    (hh : (ownedLts cfg pc).Reachable h) (hst : OwnedStep pc h l h') {k : Slot cfg}
    (hfree : ¬h.broker.IsOpen k) :
    h'.broker.clients k = { h.broker.clients k with mq := (h'.broker.clients k).mq } := by
  cases hst with
  | restart hst =>
    rcases step_restart_slot hst k with ⟨ho, -⟩ | ⟨-, -, hc⟩
    · exact absurd ho hfree
    · rw [hc]
  | @request who bytes prio tr s' hst howner =>
    rcases step_request hst with ⟨-, -, rfl⟩ | ⟨-, hst⟩
    · rfl
    -- A free slot has no owner to name it.
    have hopen : (received cfg bytes).ctrl.cmd ≠ cmdOpen →
        slotOf cfg (received cfg bytes).ctrl.data ≠ some k := fun hcmd hk => by
      obtain ⟨k', hk', hwho⟩ := howner hcmd
      obtain rfl := Option.mem_unique hk hk'
      exact hfree (isOpen_of_owner hh hwho)
    generalize hc : s'.clients k = c
    cases hc ▸ hst.slotStep k with
    | idle => rfl
    | opened => rfl
    | noReply => rfl
    | closed hcmd hfd => exact absurd hfd (hopen (by rw [hcmd]; decide))
    | subscribed hcmd hfd => exact absurd hfd (hopen (by rw [hcmd]; decide))
    | unsubscribed hcmd hfd => exact absurd hfd (hopen (by rw [hcmd]; decide))
    | served _ _ ho => exact absurd ho hfree
    | ioctl hcmd hfd => exact absurd hfd (hopen (by rw [hcmd]; decide))

/-- A step keeps the free slots fresh exactly when it frees slots fresh. -/
theorem freeFresh_iff_closesFresh {h h' : Owned cfg} {l : ℕ × BrokerLabel cfg}
    (hh : (ownedLts cfg pc).Reachable h) (hs : FreeFresh h.broker) (hst : OwnedStep pc h l h') :
    FreeFresh h'.broker ↔ ClosesFresh h l := by
  have hb := hst.brokerStep
  refine ⟨fun hs' k ho hl => ?_, fun hl k hfree => ?_⟩
  · obtain ⟨es, e, hsends, hes, -, hc⟩ := step_frees hb ho hl
    have hfresh := hs' k (by rw [isOpen_iff_not_frees hb ho]; exact not_not.2 hl)
    obtain ⟨ht, hok⟩ := closed_eq_fresh_iff.1 (hc.symm.trans hfresh)
    refine ⟨ht, fun e' he' hcmd => ?_⟩
    -- The message telling the client so is the last one sent to it.
    rcases List.mem_append.1 (hsends ▸ he') with he' | he'
    · exact absurd hcmd (hes e' he')
    · rwa [List.mem_singleton.1 he']
  · by_cases ho : h.broker.IsOpen k
    · have hf : Frees k l.2 := by
        by_contra hf
        exact hfree ((isOpen_iff_not_frees hb ho).2 hf)
      obtain ⟨es, e, hsends, -, he, hc⟩ := step_frees hb ho hf
      obtain ⟨ht, htold⟩ := hl k ho hf
      rw [hc, closed_eq_fresh_iff]
      exact ⟨ht, htold e (by simp [hsends]) (by rw [he])⟩
    · -- The slot was free already.
      have hmq : (h'.broker.clients k).mq = none := not_not.1 hfree
      rw [clients_eq_of_free hh hst ho, hs k ho, hmq]

theorem freeFresh_of_reachable {h : Owned cfg}
    (hh : ((ownedLts cfg pc).restrict ClosesFresh).Reachable h) : FreeFresh h.broker := by
  induction hh with
  | init hi => exact fun k _ => brokerLts_init hi.1 k
  | step hr hst ih => exact (freeFresh_iff_closesFresh hr.of_restrict ih hst.1).2 hst.2

/-- After any two histories that freed slots fresh, ending with the same slots
    open, a client gets the same slot, the same but for the handle of its
    queue; and the first slot not freed fresh ends this. -/
theorem fresh_connection {h₁ h₂ : Owned cfg}
    (hh₁ : ((ownedLts cfg pc).restrict ClosesFresh).Reachable h₁)
    (hh₂ : ((ownedLts cfg pc).restrict ClosesFresh).Reachable h₂)
    (hopen : ∀ k, h₁.broker.IsOpen k ↔ h₂.broker.IsOpen k) {bytes : List UInt8} {prio : ℕ}
    {tr₁ tr₂ : Trace cfg} {s₁ s₂ : Broker cfg}
    (hst₁ : BrokerStep pc h₁.broker (.request bytes prio tr₁) s₁)
    (hst₂ : BrokerStep pc h₂.broker (.request bytes prio tr₂) s₂) {k₁ k₂ : Slot cfg}
    (hk₁ : Told k₁ tr₁) (hk₂ : Told k₂ tr₂) :
    k₁ = k₂ ∧
    (∃ qc e, AnsweredBy (received cfg bytes) tr₁ qc e ∧ s₁.clients k₁ = ⟨some qc, [], 0, 0⟩) ∧
    (∃ qc e, AnsweredBy (received cfg bytes) tr₂ qc e ∧ s₂.clients k₂ = ⟨some qc, [], 0, 0⟩) ∧
    (∀ l h', OwnedStep pc h₁ l h' → (FreeFresh h'.broker ↔ ClosesFresh h₁ l)) := by
  have hfresh₁ := freeFresh_of_reachable hh₁
  have hfresh₂ := freeFresh_of_reachable hh₂
  obtain ⟨hfree₁, hlt₁, qc₁, e₁, he₁, hc₁⟩ := clients_eq_of_told hst₁ hk₁
  obtain ⟨hfree₂, hlt₂, qc₂, e₂, he₂, hc₂⟩ := clients_eq_of_told hst₂ hk₂
  refine ⟨?_, ⟨qc₁, e₁, he₁, by rw [hc₁, hfresh₁ k₁ hfree₁]⟩,
    ⟨qc₂, e₂, he₂, by rw [hc₂, hfresh₂ k₂ hfree₂]⟩,
    fun l h' => freeFresh_iff_closesFresh hh₁.of_restrict hfresh₁⟩
  -- Both are the first free slot.
  rcases lt_trichotomy k₁ k₂ with hlt | rfl | hlt
  · exact absurd ((hopen k₁).2 (hlt₂ k₁ hlt)) hfree₁
  · rfl
  · exact absurd ((hopen k₂).1 (hlt₁ k₂ hlt)) hfree₂

/-- The broker once it is started, no slot having an owner. -/
def ownedStarted (cfg : Config) : Owned cfg := ⟨started cfg, fun _ => none⟩

/-- The steps freeing slots fresh: their clients are told so, and have no reply timeout. -/
theorem closesFresh_of_told {h : Owned cfg} {l : ℕ × BrokerLabel cfg} {s' : Broker cfg}
    (hst : BrokerStep pc h.broker l.2 s')
    (hl : ∀ k, ∀ e ∈ sendsTo k l.2.trace, e.msg.ctrl.cmd = cmdClose →
      e.ok = true ∧ (h.broker.clients k).replyTimeout = 0) : ClosesFresh h l := by
  intro k ho hf
  obtain ⟨es, e, hsends, -, he, -⟩ := step_frees hst ho hf
  have hcmd : e.msg.ctrl.cmd = cmdClose := by rw [he]
  exact ⟨(hl k e (by simp [hsends]) hcmd).2, fun e' he' hcmd' => (hl k e' he' hcmd').1⟩

/-- The broker handling a list of messages, each with its sender and whether what
    is sent meanwhile is delivered: those of owners, freeing slots fresh. -/
def ownedFeed : List (ℕ × Bool × List UInt8) → Owned cfg → Option (Owned cfg)
  | [], h => some h
  | (who, delivered, bytes) :: msgs, h =>
    if h.broker.qctrl ≠ none ∧ bytes.length ≤ sizeofMsg cfg ∧
        ((received cfg bytes).ctrl.cmd ≠ cmdOpen →
          (slotOf cfg (received cfg bytes).ctrl.data).bind h.owner = some who) then
      (eval (answers cfg delivered) [] (brokerStart h.broker bytes 0)).bind fun x =>
        if ∀ k, ∀ e ∈ sendsTo k x.1, e.msg.ctrl.cmd = cmdClose →
            e.ok = true ∧ (h.broker.clients k).replyTimeout = 0 then
          ownedFeed msgs ⟨x.2, ownerAfter h x.2 who⟩
        else none
    else none

theorem reachable_of_ownedFeed {msgs : List (ℕ × Bool × List UInt8)} {h h' : Owned cfg}
    (hfeed : ownedFeed msgs h = some h')
    (hh : ((ownedLts cfg pc).restrict ClosesFresh).Reachable h) :
    ((ownedLts cfg pc).restrict ClosesFresh).Reachable h' := by
  induction msgs generalizing h with
  | nil =>
    obtain rfl := Option.some.inj hfeed
    exact hh
  | cons msg msgs ih =>
    obtain ⟨who, delivered, bytes⟩ := msg
    rw [ownedFeed] at hfeed
    split at hfeed
    · next hmay =>
      obtain ⟨hq, hlen, howner⟩ := hmay
      obtain ⟨⟨tr, s⟩, hx, hfeed⟩ := Option.bind_eq_some_iff.1 hfeed
      split at hfeed
      · next hfresh =>
        have hst : BrokerStep pc h.broker (.request bytes 0 tr) s :=
          .request hq hlen (exec_of_eval hx)
        refine ih hfeed (hh.step ⟨.request who hst fun hcmd => ?_,
          closesFresh_of_told (l := (who, .request bytes 0 tr)) hst hfresh⟩)
        exact Option.bind_eq_some_iff.1 (howner hcmd)
      · exact absurd hfeed (by simp)
    · exact absurd hfeed (by simp)

/-- The first slot is given to a client that subscribes to `/a`, misses what it
    publishes there, and closes; or to another one, that sets its reply timeout,
    and resets it before it closes. A new client opening `/e` gets the same slot. -/
theorem fresh_connection_reused : ∃ (g₁ h₁ g₂ h₂ : Owned smallest) (tr₁ tr₂ : Trace smallest)
    (s₁ s₂ : Broker smallest),
    ownedFeed [(7, true, [111, 0, 0, 0, 47, 99, 0]), (7, true, [115, 0, 0, 0, 47, 97, 0]),
      (7, false, [112, 0, 0, 0, 47, 97, 0])] (ownedStarted smallest) = some g₁ ∧
    (g₁.broker.clients 0).topics ≠ [] ∧ (g₁.broker.clients 0).missedPubs = 1 ∧
    ownedFeed [(7, true, [99, 0, 0, 0, 0])] g₁ = some h₁ ∧
    ownedFeed [(8, true, [111, 0, 0, 0, 47, 100, 0]), (8, true, [105, 0, 3, 0, 1, 100, 0])]
      (ownedStarted smallest) = some g₂ ∧ (g₂.broker.clients 0).replyTimeout = 100 ∧
    ownedFeed [(8, true, [105, 0, 3, 0, 1, 0, 0]), (8, true, [99, 0, 0, 0, 0])] g₂ = some h₂ ∧
    BrokerStep psmqdCfgInit h₁.broker (.request [111, 0, 0, 0, 47, 101, 0] 0 tr₁) s₁ ∧
    BrokerStep psmqdCfgInit h₂.broker (.request [111, 0, 0, 0, 47, 101, 0] 0 tr₂) s₂ ∧
    (∃ qc e, AnsweredBy (received smallest [111, 0, 0, 0, 47, 101, 0]) tr₁ qc e ∧
      s₁.clients 0 = ⟨some qc, [], 0, 0⟩) ∧
    ∃ qc e, AnsweredBy (received smallest [111, 0, 0, 0, 47, 101, 0]) tr₂ qc e ∧
      s₂.clients 0 = ⟨some qc, [], 0, 0⟩ := by
  obtain ⟨g₁, h₁, g₂, h₂, tr₁, s₁, tr₂, s₂, hg₁, hh₁, hg₂, hh₂, he₁, he₂, htopics, hmissed,
      htimeout, hopen, hq₁, hq₂, htold₁, htold₂⟩ : ∃ g₁ h₁ g₂ h₂ tr₁ s₁ tr₂ s₂,
      ownedFeed [(7, true, [111, 0, 0, 0, 47, 99, 0]), (7, true, [115, 0, 0, 0, 47, 97, 0]),
        (7, false, [112, 0, 0, 0, 47, 97, 0])] (ownedStarted smallest) = some g₁ ∧
      ownedFeed [(7, true, [99, 0, 0, 0, 0])] g₁ = some h₁ ∧
      ownedFeed [(8, true, [111, 0, 0, 0, 47, 100, 0]), (8, true, [105, 0, 3, 0, 1, 100, 0])]
        (ownedStarted smallest) = some g₂ ∧
      ownedFeed [(8, true, [105, 0, 3, 0, 1, 0, 0]), (8, true, [99, 0, 0, 0, 0])] g₂ = some h₂ ∧
      eval (opensAs smallest 5) [] (brokerStart h₁.broker [111, 0, 0, 0, 47, 101, 0] 0) =
        some (tr₁, s₁) ∧
      eval (opensAs smallest 6) [] (brokerStart h₂.broker [111, 0, 0, 0, 47, 101, 0] 0) =
        some (tr₂, s₂) ∧
      (g₁.broker.clients 0).topics ≠ [] ∧ (g₁.broker.clients 0).missedPubs = 1 ∧
      (g₂.broker.clients 0).replyTimeout = 100 ∧
      (∀ k, h₁.broker.IsOpen k ↔ h₂.broker.IsOpen k) ∧
      h₁.broker.qctrl ≠ none ∧ h₂.broker.qctrl ≠ none ∧
      (∃ e ∈ sends tr₁, e.msg.ctrl = ⟨cmdOpen, 0⟩ ∧
        e.msg.data.bytes[0]? = some (fdOf (0 : Slot smallest)) ∧ e.ok = true) ∧
      ∃ e ∈ sends tr₂, e.msg.ctrl = ⟨cmdOpen, 0⟩ ∧
        e.msg.data.bytes[0]? = some (fdOf (0 : Slot smallest)) ∧ e.ok = true :=
    ⟨_, _, _, _, _, _, _, _, rfl, rfl, rfl, rfl, rfl, rfl, by decide, by decide, by decide,
      by decide, by decide, by decide, by decide, by decide⟩
  have hi : ((ownedLts smallest psmqdCfgInit).restrict ClosesFresh).Reachable
      (ownedStarted smallest) := .init ⟨started_init _, rfl⟩
  have hst₁ : BrokerStep psmqdCfgInit h₁.broker (.request [111, 0, 0, 0, 47, 101, 0] 0 tr₁) s₁ :=
    .request hq₁ (by decide) (exec_of_eval he₁)
  have hst₂ : BrokerStep psmqdCfgInit h₂.broker (.request [111, 0, 0, 0, 47, 101, 0] 0 tr₂) s₂ :=
    .request hq₂ (by decide) (exec_of_eval he₂)
  obtain ⟨-, hc₁, hc₂, -⟩ := fresh_connection (reachable_of_ownedFeed hh₁
    (reachable_of_ownedFeed hg₁ hi)) (reachable_of_ownedFeed hh₂ (reachable_of_ownedFeed hg₂ hi))
    hopen hst₁ hst₂ htold₁ htold₂
  exact ⟨g₁, h₁, g₂, h₂, tr₁, tr₂, s₁, s₂, hg₁, htopics, hmissed, hh₁, hg₂, htimeout, hh₂, hst₁,
    hst₂, hc₁, hc₂⟩

/-- A client that opens `/c`, sets its reply timeout to 100, and closes, its
    queue being full, leaves a reply timeout and a missed message to the next
    client of its slot. -/
theorem stale_timeout : ∃ (h₁ h₂ : Owned smallest) (tr₁ tr₂ : Trace smallest)
    (s₁ s₂ : Broker smallest),
    (ownedLts smallest psmqdCfgInit).Reachable h₁ ∧
    (ownedLts smallest psmqdCfgInit).Reachable h₂ ∧
    (∀ k, h₁.broker.IsOpen k ↔ h₂.broker.IsOpen k) ∧
    BrokerStep psmqdCfgInit h₁.broker (.request [111, 0, 0, 0, 47, 100, 0] 0 tr₁) s₁ ∧
    BrokerStep psmqdCfgInit h₂.broker (.request [111, 0, 0, 0, 47, 100, 0] 0 tr₂) s₂ ∧
    Told 0 tr₁ ∧ Told 0 tr₂ ∧
    s₁.clients 0 = ⟨some 1, [], 1, 100⟩ ∧ s₂.clients 0 = ⟨some 1, [], 0, 0⟩ := by
  obtain ⟨t₁, r₁, t₂, r₂, t₃, r₃, tr₁, s₁, tr₂, s₂, h₁, h₂, h₃, h₄, h₅, ho₁, ho₂, hq₁, hq₂, hq₃,
      hopen, htold₁, htold₂, hc₁, hc₂⟩ :
      ∃ t₁ r₁ t₂ r₂ t₃ r₃ tr₁ s₁ tr₂ s₂,
        eval (answers smallest true) []
          (brokerStart (started smallest) [111, 0, 0, 0, 47, 99, 0] 0) =
          some (t₁, r₁) ∧
        eval (answers smallest true) [] (brokerStart r₁ [105, 0, 3, 0, 1, 100, 0] 0) =
          some (t₂, r₂) ∧
        eval (answers smallest false) [] (brokerStart r₂ [99, 0, 0, 0, 0] 0) = some (t₃, r₃) ∧
        eval (answers smallest true) [] (brokerStart r₃ [111, 0, 0, 0, 47, 100, 0] 0) =
          some (tr₁, s₁) ∧
        eval (answers smallest true) []
          (brokerStart (started smallest) [111, 0, 0, 0, 47, 100, 0] 0) =
          some (tr₂, s₂) ∧
        r₁.IsOpen 0 ∧ r₂.IsOpen 0 ∧ r₁.qctrl ≠ none ∧ r₂.qctrl ≠ none ∧ r₃.qctrl ≠ none ∧
        (∀ k, r₃.IsOpen k ↔ (started smallest).IsOpen k) ∧
        (∃ e ∈ sends tr₁, e.msg.ctrl = ⟨cmdOpen, 0⟩ ∧
          e.msg.data.bytes[0]? = some (fdOf (0 : Slot smallest)) ∧ e.ok = true) ∧
        (∃ e ∈ sends tr₂, e.msg.ctrl = ⟨cmdOpen, 0⟩ ∧
          e.msg.data.bytes[0]? = some (fdOf (0 : Slot smallest)) ∧ e.ok = true) ∧
        s₁.clients 0 = ⟨some 1, [], 1, 100⟩ ∧ s₂.clients 0 = ⟨some 1, [], 0, 0⟩ :=
    ⟨_, _, _, _, _, _, _, _, _, _, rfl, rfl, rfl, rfl, rfl, by decide, by decide, by decide,
      by decide, by decide, by decide, by decide, by decide, by decide, by decide⟩
  have hi : (ownedLts smallest psmqdCfgInit).init (ownedStarted smallest) := ⟨started_init _, rfl⟩
  have hfree : ¬(started smallest).IsOpen 0 := by decide
  have hr₁ := Lts.Reachable.step (.init hi) (OwnedStep.request 7
    (.request (by decide) (by decide) (exec_of_eval h₁)) fun h => absurd rfl h)
  have hr₂ := hr₁.step (OwnedStep.request 7
    (.request hq₁ (by decide) (exec_of_eval h₂)) fun _ => ⟨0, by decide, by
      simp [ownerAfter, ho₁, ownedStarted, hfree]⟩)
  have hr₃ := hr₂.step (OwnedStep.request 7
    (.request hq₂ (by decide) (exec_of_eval h₃)) fun _ => ⟨0, by decide, by
      simp [ownerAfter, ho₁, ho₂, ownedStarted, hfree]⟩)
  exact ⟨_, ownedStarted smallest, tr₁, tr₂, s₁, s₂, hr₃, .init hi, hopen,
    .request hq₃ (by decide) (exec_of_eval h₄), .request (by decide) (by decide) (exec_of_eval h₅),
    htold₁, htold₂, hc₁, hc₂⟩

end Psmq
