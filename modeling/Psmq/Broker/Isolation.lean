import Psmq.Broker.Publish

/-!
# The clients do not disturb each other

What a client sees of a step of the broker (`BrokerLabel.view`): the requests
about its slot and the publishes, with the results of the calls made for it.
All the rest, the clients in the other slots, their requests, the outcomes of
what is sent to them, is hidden from it (`unwinds_slot`): it does not change
what the client is sent, nor what the broker knows of it (`slot_isolated`).

One thing only gets to a client from the others: which slot a new client is
given depends on the slots that are used (`slot_allocation` says how).
-/

namespace Psmq

open CMem Prog

variable {cfg : Config} {pc : PsmqdCfg}

/-! ## What a client sees -/

instance (msg : PsmqMsg cfg) : Decidable (Accepted msg) :=
  match h : str msg.data.bytes with
  | none => .isFalse fun ⟨_, ht, _⟩ => Option.some_ne_none _ (ht.symm.trans h)
  | some topic =>
    decidable_of_iff (topic.length + 1 + msg.paylen.toNat ≤ cfg.msgMax ∧
        (msg.ctrl.cmd = cmdOpen ∨ msg.ctrl.data.toNat < cfg.maxClients))
      ⟨fun hfit => ⟨topic, h, hfit⟩, fun ⟨_, ht, hfit⟩ => Option.mem_unique ht h ▸ hfit⟩

/-- The result of opening a queue. -/
def queueOf : Event (Op cfg) Op.Res → Option (Except Errno ℕ)
  | ⟨.mqOpen _ _, r⟩ => some r
  | _ => none

/-- The result of an allocation. -/
def memoryOf : Event (Op cfg) Op.Res → Option Bool
  | ⟨.malloc _, ok⟩ => some ok
  | _ => none

/-- What a client sees of a step. -/
structure View (cfg : Config) where
  /-- The request, with its priority; `none` for a restart. -/
  request : Option (PsmqMsg cfg × ℕ)
  /-- The outcomes of the attempts to send to the client. -/
  sent : List Bool
  /-- The results of opening its queue. -/
  queues : List (Except Errno ℕ)
  /-- The results of allocating its topics. -/
  memory : List Bool

/-- The request is about the slot `k`: it names it, is a publish, or opens a
    connection that is given this slot. -/
def Concerns (k : Slot cfg) (msg : PsmqMsg cfg) (tr : Trace cfg) : Prop :=
  Accepted msg ∧ (msg.ctrl.cmd = cmdPublish ∨
    (msg.ctrl.cmd ∈ [cmdClose, cmdSubscribe, cmdUnsubscribe, cmdIoctl] ∧
      slotOf cfg msg.ctrl.data = some k) ∨
    (msg.ctrl.cmd = cmdOpen ∧ sendsTo k tr ≠ []))

instance (k : Slot cfg) (msg : PsmqMsg cfg) (tr : Trace cfg) : Decidable (Concerns k msg tr) :=
  inferInstanceAs (Decidable (_ ∧ _))

/-- What the client in the slot `k` sees of a step, if it is about it. -/
def BrokerLabel.view (k : Slot cfg) : BrokerLabel cfg → Option (View cfg)
  | request bytes prio tr =>
    if Concerns k (received cfg bytes) tr then
      some ⟨some (received cfg bytes, prio), (sendsTo k tr).map Sent.ok, tr.filterMap queueOf,
        tr.filterMap memoryOf⟩
    else none
  | restart tr => some ⟨none, (sendsTo k tr).map Sent.ok, [], []⟩

/-- What is sent to the client in the slot `k` in a step. -/
def BrokerLabel.sentTo (k : Slot cfg) (l : BrokerLabel cfg) : List (Sent cfg) :=
  sendsTo k l.trace

/-! ## Handlers as functions of what is seen -/

section Handlers

variable {fd k : Slot cfg} {c c₁ c₂ : Client} {tr₁ tr₂ : Trace cfg}

theorem agree_of_map_eq {es₁ es₂ : List (Sent cfg)} (h : es₁.map Sent.ok = es₂.map Sent.ok) :
    Agree es₁ es₂ := by
  intro i e₁ e₂ h₁ h₂
  have := congrArg (·[i]?) h
  simpa [h₁, h₂] using this

/-- One reply, with one outcome, is one attempt. -/
theorem IsReplyMq.sends_eq {slot : Option (Slot cfg)} {mq : Mqd} {cmd data : UInt8}
    {topic : Option CString} {payload : Option Ptr} {paylen prio : ℕ} {timeout : UInt16}
    {e₁ e₂ : Sent cfg} (h₁ : IsReplyMq slot mq cmd data topic payload paylen prio timeout e₁)
    (h₂ : IsReplyMq slot mq cmd data topic payload paylen prio timeout e₂)
    (hok : [e₁].map Sent.ok = [e₂].map Sent.ok) : e₁ = e₂ :=
  h₁.eq h₂ (List.cons.inj hok).1

theorem Close.eq_of_view (h₁ : Close fd c tr₁ c₁) (h₂ : Close fd c tr₂ c₂)
    (hok : (sends tr₁).map Sent.ok = (sends tr₂).map Sent.ok) :
    c₁ = c₂ ∧ sends tr₁ = sends tr₂ := by
  obtain ⟨e₁, he₁, hs₁, rfl⟩ := h₁.spec
  obtain ⟨e₂, he₂, hs₂, rfl⟩ := h₂.spec
  rw [hs₁, hs₂] at hok ⊢
  obtain rfl := he₁.sends_eq he₂ hok
  exact ⟨rfl, rfl⟩

theorem Subscribe.eq_of_view {msg : PsmqMsg cfg} {stopic : CString}
    (h₁ : Subscribe msg stopic fd c tr₁ c₁) (h₂ : Subscribe msg stopic fd c tr₂ c₂)
    (hok : (sends tr₁).map Sent.ok = (sends tr₂).map Sent.ok)
    (hmem : tr₁.filterMap memoryOf = tr₂.filterMap memoryOf) :
    c₁ = c₂ ∧ sends tr₁ = sends tr₂ := by
  cases h₁ with
  | refused herr hne he =>
    cases h₂ with
    | refused herr₂ _ he₂ =>
      obtain rfl := Option.some.inj (herr.symm.trans herr₂)
      obtain rfl := he.sends_eq he₂ hok
      exact ⟨rfl, rfl⟩
    | noMemory herr₂ | added herr₂ =>
      exact absurd (Option.some.inj (herr.symm.trans herr₂)) hne
  | noMemory herr he =>
    cases h₂ with
    | refused herr₂ hne => exact absurd (Option.some.inj (herr₂.symm.trans herr)) hne
    | noMemory _ he₂ =>
      obtain rfl := he.sends_eq he₂ hok
      exact ⟨rfl, rfl⟩
    | added => simp [memoryOf, Sent.event] at hmem
  | added herr he =>
    cases h₂ with
    | refused herr₂ hne => exact absurd (Option.some.inj (herr₂.symm.trans herr)) hne
    | noMemory => simp [memoryOf, Sent.event] at hmem
    | added _ he₂ =>
      obtain rfl := he.sends_eq he₂ hok
      exact ⟨rfl, rfl⟩

theorem Unsubscribe.eq_of_view {utopic : CString} (h₁ : Unsubscribe utopic fd c tr₁ c₁)
    (h₂ : Unsubscribe utopic fd c tr₂ c₂)
    (hok : (sends tr₁).map Sent.ok = (sends tr₂).map Sent.ok) :
    c₁ = c₂ ∧ sends tr₁ = sends tr₂ := by
  rcases h₁ with ⟨hno, he⟩ | ⟨hmem, he⟩ <;> rcases h₂ with ⟨hno₂, he₂⟩ | ⟨hmem₂, he₂⟩
  · obtain rfl := he.sends_eq he₂ hok
    exact ⟨rfl, rfl⟩
  · exact absurd hmem₂ hno
  · exact absurd hmem hno₂
  · obtain rfl := he.sends_eq he₂ hok
    exact ⟨rfl, rfl⟩

theorem Ioctl.eq_of_view {msg : PsmqMsg cfg} {req : UInt8} (h₁ : Ioctl msg req fd c tr₁ c₁)
    (h₂ : Ioctl msg req fd c tr₂ c₂) (hok : (sends tr₁).map Sent.ok = (sends tr₂).map Sent.ok) :
    c₁ = c₂ ∧ sends tr₁ = sends tr₂ := by
  -- The cases exclude each other: they differ in the request, or in its size.
  cases h₁ with
  | noRequest h0 he =>
    cases h₂ with
    | noRequest _ he₂ =>
      obtain rfl := he.sends_eq he₂ hok
      exact ⟨rfl, rfl⟩
    | badData _ hne | badRequest _ hne => exact absurd h0 hne
    | set _ h3 => omega
  | badData hr hne hne3 hbuf he =>
    cases h₂ with
    | noRequest h0 => exact absurd h0 hne
    | badData _ _ _ hbuf₂ he₂ =>
      obtain rfl := Option.some.inj (hbuf.symm.trans hbuf₂)
      obtain rfl := he.sends_eq he₂ hok
      exact ⟨rfl, rfl⟩
    | set _ h3 => exact absurd h3 hne3
    | badRequest hr₂ => exact absurd hr hr₂
  | set hr h3 ht he =>
    cases h₂ with
    | noRequest => omega
    | badData _ _ hne3 => exact absurd h3 hne3
    | set _ _ ht₂ he₂ =>
      obtain rfl := Option.some.inj (ht.symm.trans ht₂)
      obtain rfl := he.sends_eq he₂ hok
      exact ⟨rfl, rfl⟩
    | badRequest hr₂ => exact absurd hr hr₂
  | badRequest hr hne he =>
    cases h₂ with
    | noRequest h0 => exact absurd h0 hne
    | badData hr₂ | set hr₂ => exact absurd hr₂ hr
    | badRequest _ _ he₂ =>
      obtain rfl := he.sends_eq he₂ hok
      exact ⟨rfl, rfl⟩

/-- The slot something is sent to is given to the new client, or left free. -/
theorem Open.given {s s' : Broker cfg} {msg : PsmqMsg cfg} {tr : Trace cfg}
    (h : Open s msg tr s') (hto : sendsTo k tr ≠ []) :
    ∃ qc e, IsReplyMq (some k) (some qc) cmdOpen 0 none (some [fdOf k]) 1 0 0 e ∧
      sendsTo k tr = [e] ∧ tr.filterMap queueOf = [.ok qc] ∧
      s'.clients k = if e.ok then { s.clients k with mq := some qc } else s.clients k := by
  -- The only attempt made is for the slot that is offered.
  cases h with
  | noQueue => exact absurd rfl hto
  | noSlot _ _ he => exact absurd (by simp [sendsTo, he.slot_eq]) hto
  | @opened _ qc fd e _ _ _ he hok =>
    obtain rfl : fd = k := by
      by_contra hne
      exact hto (by simp [sendsTo, he.slot_eq, hne])
    exact ⟨qc, e, he, by simp [sendsTo, he.slot_eq], by simp [queueOf, Sent.event],
      by rw [if_pos hok, Broker.set_clients_self]⟩
  | @noReply _ qc fd e _ _ _ _ he hok =>
    obtain rfl : fd = k := by
      by_contra hne
      exact hto (by simp [sendsTo, he.slot_eq, hne])
    exact ⟨qc, e, he, by simp [sendsTo, he.slot_eq], by simp [queueOf, Sent.event], by simp [hok]⟩

/-- Opening a connection that is given a slot. -/
theorem Open.eq_of_view {s₁ s₂ s₁' s₂' : Broker cfg} {msg : PsmqMsg cfg}
    (h₁ : Open s₁ msg tr₁ s₁') (h₂ : Open s₂ msg tr₂ s₂')
    (hk : s₁.clients k = s₂.clients k) (hto₁ : sendsTo k tr₁ ≠ []) (hto₂ : sendsTo k tr₂ ≠ [])
    (hok : (sendsTo k tr₁).map Sent.ok = (sendsTo k tr₂).map Sent.ok)
    (hq : tr₁.filterMap queueOf = tr₂.filterMap queueOf) :
    s₁'.clients k = s₂'.clients k ∧ sendsTo k tr₁ = sendsTo k tr₂ := by
  obtain ⟨qc₁, e₁, he₁, hs₁, hqc₁, hc₁⟩ := h₁.given hto₁
  obtain ⟨qc₂, e₂, he₂, hs₂, hqc₂, hc₂⟩ := h₂.given hto₂
  rw [hqc₁, hqc₂] at hq
  obtain rfl : qc₁ = qc₂ := by simpa using hq
  rw [hs₁, hs₂] at hok ⊢
  obtain rfl := he₁.sends_eq he₂ hok
  exact ⟨by rw [hc₁, hc₂, hk], rfl⟩

/-- Serving the clients does to a slot what it sees. -/
theorem ServeAll.eq_of_view {s₁ s₂ s₁' s₂' : Broker cfg} {topic : CString} {payload : Ptr}
    {paylen prio : ℕ}
    (h₁ : ServeAll topic payload paylen prio (List.finRange cfg.maxClients) s₁ tr₁ s₁')
    (h₂ : ServeAll topic payload paylen prio (List.finRange cfg.maxClients) s₂ tr₂ s₂')
    (hk : s₁.clients k = s₂.clients k)
    (hok : (sendsTo k tr₁).map Sent.ok = (sendsTo k tr₂).map Sent.ok) :
    s₁'.clients k = s₂'.clients k ∧ sendsTo k tr₁ = sendsTo k tr₂ := by
  have hopen : s₁.IsOpen k ↔ s₂.IsOpen k := by rw [Broker.IsOpen, hk, Broker.IsOpen]
  rcases h₁.slot Serve.onlyTo (List.nodup_finRange _) k with
      ⟨-, ho, tr₁', hs₁, hc₁⟩ | ⟨hfree, hs₁, hc₁⟩ <;>
    rcases h₂.slot Serve.onlyTo (List.nodup_finRange _) k with
      ⟨-, ho₂, tr₂', hs₂, hc₂⟩ | ⟨hfree₂, hs₂, hc₂⟩
  · rw [hs₁, hs₂] at hok ⊢
    rw [hk] at hc₁
    exact (hc₁.eq_of_agree hc₂ (agree_of_map_eq hok)).symm
  · exact absurd (hopen.1 ho) (hfree₂ (List.mem_finRange k))
  · exact absurd (hopen.2 ho₂) (hfree (List.mem_finRange k))
  · exact ⟨hc₁.trans (hk.trans hc₂.symm), hs₁.trans hs₂.symm⟩

end Handlers

/-! ## Steps -/

/-- A request that is not about a slot leaves it alone. -/
theorem Handle.idle_of_not_concerns {s s' : Broker cfg} {msg : PsmqMsg cfg} {prio : ℕ}
    {tr : Trace cfg} (h : Handle s msg prio tr s') {k : Slot cfg} (ha : Accepted msg)
    (hk : ¬Concerns k msg tr) : s'.clients k = s.clients k ∧ sendsTo k tr = [] := by
  have hnamed : msg.ctrl.cmd ∈ [cmdClose, cmdSubscribe, cmdUnsubscribe, cmdIoctl] →
      slotOf cfg msg.ctrl.data ≠ some k := fun hcmd hfd => hk ⟨ha, .inr (.inl ⟨hcmd, hfd⟩)⟩
  have hslot := h.slotStep k
  generalize s'.clients k = c at hslot ⊢
  cases hslot with
  | idle hs => exact ⟨rfl, hs⟩
  | opened hcmd _ _ _ hs => exact absurd ⟨ha, .inr (.inr ⟨hcmd, by simp [hs]⟩)⟩ hk
  | noReply hcmd _ _ _ hs => exact absurd ⟨ha, .inr (.inr ⟨hcmd, by simp [hs]⟩)⟩ hk
  | served hcmd => exact absurd ⟨ha, .inl hcmd⟩ hk
  | closed hcmd hfd | subscribed hcmd hfd | unsubscribed hcmd hfd | ioctl hcmd hfd =>
    exact absurd hfd (hnamed (by simp [hcmd]))

/-- A request about a slot does to it what it sees. -/
theorem Handle.eq_of_view {s₁ s₂ s₁' s₂' : Broker cfg} {msg : PsmqMsg cfg} {prio : ℕ}
    {tr₁ tr₂ : Trace cfg} {k : Slot cfg} (h₁ : Handle s₁ msg prio tr₁ s₁')
    (h₂ : Handle s₂ msg prio tr₂ s₂') (hc₁ : Concerns k msg tr₁) (hc₂ : Concerns k msg tr₂)
    (hk : s₁.clients k = s₂.clients k)
    (hok : (sendsTo k tr₁).map Sent.ok = (sendsTo k tr₂).map Sent.ok)
    (hq : tr₁.filterMap queueOf = tr₂.filterMap queueOf)
    (hmem : tr₁.filterMap memoryOf = tr₂.filterMap memoryOf) :
    s₁'.clients k = s₂'.clients k ∧ sendsTo k tr₁ = sendsTo k tr₂ := by
  obtain ⟨hopen₁, hclose₁, hsub₁, hunsub₁, hpub₁, hioctl₁⟩ := h₁.of_cmd
  obtain ⟨hopen₂, hclose₂, hsub₂, hunsub₂, hpub₂, hioctl₂⟩ := h₂.of_cmd
  -- A handler that names the slot changes this slot, and sends to it only.
  have key : ∀ {c₁ c₂ : Client}, OnlyTo k tr₁ → OnlyTo k tr₂ →
      ((sends tr₁).map Sent.ok = (sends tr₂).map Sent.ok →
        c₁ = c₂ ∧ sends tr₁ = sends tr₂) →
      (s₁.set k c₁).clients k = (s₂.set k c₂).clients k ∧ sendsTo k tr₁ = sendsTo k tr₂ := by
    intro c₁ c₂ ho₁ ho₂ heq
    rw [ho₁.sendsTo_self, ho₂.sendsTo_self] at hok ⊢
    rw [Broker.set_clients_self, Broker.set_clients_self]
    exact heq hok
  rcases hc₁ with ⟨-, hcmd | ⟨hcmd, hfd⟩ | ⟨hcmd, hto⟩⟩
  · obtain ⟨topic, ht, hs₁⟩ := hpub₁ hcmd
    obtain ⟨topic₂, ht₂, hs₂⟩ := hpub₂ hcmd
    obtain rfl := Option.some.inj (ht.symm.trans ht₂)
    exact hs₁.eq_of_view hs₂ hk hok
  · simp only [List.mem_cons, List.not_mem_nil, or_false] at hcmd
    rcases hcmd with hcmd | hcmd | hcmd | hcmd
    · obtain ⟨fd, c₁, hfd₁, hr₁, rfl⟩ := hclose₁ hcmd
      obtain ⟨fd₂, c₂, hfd₂, hr₂, rfl⟩ := hclose₂ hcmd
      obtain rfl := Option.some.inj (hfd.symm.trans hfd₁)
      obtain rfl := Option.some.inj (hfd.symm.trans hfd₂)
      exact key hr₁.onlyTo hr₂.onlyTo ((hk ▸ hr₁).eq_of_view hr₂)
    · obtain ⟨fd, stopic, c₁, hfd₁, ht, hr₁, rfl⟩ := hsub₁ hcmd
      obtain ⟨fd₂, stopic₂, c₂, hfd₂, ht₂, hr₂, rfl⟩ := hsub₂ hcmd
      obtain rfl := Option.some.inj (hfd.symm.trans hfd₁)
      obtain rfl := Option.some.inj (hfd.symm.trans hfd₂)
      obtain rfl := Option.some.inj (ht.symm.trans ht₂)
      exact key hr₁.onlyTo hr₂.onlyTo fun hok => (hk ▸ hr₁).eq_of_view hr₂ hok hmem
    · obtain ⟨fd, utopic, c₁, hfd₁, ht, hr₁, rfl⟩ := hunsub₁ hcmd
      obtain ⟨fd₂, utopic₂, c₂, hfd₂, ht₂, hr₂, rfl⟩ := hunsub₂ hcmd
      obtain rfl := Option.some.inj (hfd.symm.trans hfd₁)
      obtain rfl := Option.some.inj (hfd.symm.trans hfd₂)
      obtain rfl := Option.some.inj (ht.symm.trans ht₂)
      exact key hr₁.onlyTo hr₂.onlyTo ((hk ▸ hr₁).eq_of_view hr₂)
    · obtain ⟨fd, req, c₁, hfd₁, hr, hr₁, rfl⟩ := hioctl₁ hcmd
      obtain ⟨fd₂, req₂, c₂, hfd₂, hreq₂, hr₂, rfl⟩ := hioctl₂ hcmd
      obtain rfl := Option.some.inj (hfd.symm.trans hfd₁)
      obtain rfl := Option.some.inj (hfd.symm.trans hfd₂)
      obtain rfl := Option.some.inj (hr.symm.trans hreq₂)
      exact key hr₁.onlyTo hr₂.onlyTo ((hk ▸ hr₁).eq_of_view hr₂)
  · rcases hc₂ with ⟨-, hcmd₂ | ⟨hcmd₂, -⟩ | ⟨-, hto₂⟩⟩
    · exact cmd_absurd hcmd hcmd₂
    · rw [hcmd] at hcmd₂
      exact absurd hcmd₂ (by decide)
    · exact (hopen₁ hcmd).eq_of_view (hopen₂ hcmd) hk hto hto₂ hok hq

/-- Nothing but what the client in a slot sees changes what it is sent, and its slot. -/
theorem unwinds_slot (cfg : Config) (pc : PsmqdCfg) (k : Slot cfg) :
    (brokerLts cfg pc).Unwinds (fun s => s.clients k) (BrokerLabel.view k)
      (BrokerLabel.sentTo k) where
  hidden s l s' hst hv := by
    cases l with
    | restart tr => exact absurd hv (by simp [BrokerLabel.view])
    | request bytes prio tr =>
      have hk : ¬Concerns k (received cfg bytes) tr := fun hc => by
        simp [BrokerLabel.view, hc] at hv
      rcases step_request hst with ⟨-, rfl, rfl⟩ | ⟨ha, hh⟩
      · exact ⟨rfl, rfl⟩
      · exact hh.idle_of_not_concerns ha hk
  seen s₁ s₂ l₁ l₂ s₁' s₂' hst₁ hst₂ hne hv hobs := by
    cases l₁ with
    | restart tr₁ =>
      cases l₂ with
      | request bytes₂ prio₂ tr₂ =>
        rw [BrokerLabel.view, BrokerLabel.view] at hv
        split at hv <;> simp at hv
      | restart tr₂ =>
        have hok : (sendsTo k tr₁).map Sent.ok = (sendsTo k tr₂).map Sent.ok :=
          congrArg View.sent (Option.some.inj hv)
        have hopen : s₁.IsOpen k ↔ s₂.IsOpen k := by rw [Broker.IsOpen, hobs, Broker.IsOpen]
        rcases step_restart_slot hst₁ k with ⟨ho, e₁, he₁, hs₁, hc₁⟩ | ⟨ho, hs₁, hc₁⟩ <;>
          rcases step_restart_slot hst₂ k with ⟨ho₂, e₂, he₂, hs₂, hc₂⟩ | ⟨ho₂, hs₂, hc₂⟩
        · rw [hs₁, hs₂] at hok
          rw [hobs] at he₁ hc₁
          obtain rfl := he₁.sends_eq he₂ hok
          exact ⟨hc₁.trans hc₂.symm, hs₁.trans hs₂.symm⟩
        · exact absurd (hopen.1 ho) ho₂
        · exact absurd (hopen.2 ho₂) ho
        · exact ⟨hc₁.trans (hobs.trans hc₂.symm), hs₁.trans hs₂.symm⟩
    | request bytes₁ prio₁ tr₁ =>
      have hc₁ : Concerns k (received cfg bytes₁) tr₁ := by
        by_contra hc
        exact hne (if_neg hc)
      rw [BrokerLabel.view, if_pos hc₁] at hv
      cases l₂ with
      | restart tr₂ => simp [BrokerLabel.view] at hv
      | request bytes₂ prio₂ tr₂ =>
        have hc₂ : Concerns k (received cfg bytes₂) tr₂ := by
          by_contra hc
          rw [BrokerLabel.view, if_neg hc] at hv
          exact Option.some_ne_none _ hv
        rw [BrokerLabel.view, if_pos hc₂] at hv
        simp only [Option.some.injEq, View.mk.injEq, Prod.mk.injEq] at hv
        obtain ⟨⟨hmsg, rfl⟩, hok, hq, hmem⟩ := hv
        have hh₁ := ((step_request hst₁).resolve_left fun h => h.1 hc₁.1).2
        have hh₂ := ((step_request hst₂).resolve_left fun h => h.1 hc₂.1).2
        rw [hmsg] at hh₁ hc₁
        exact hh₁.eq_of_view hh₂ hc₁ hc₂ hobs hok hq hmem

/-! ## Runs -/

/-- The clients do not disturb each other. Take two runs of the broker, with
    the same client in the slot `k` at their start, and any other clients. If
    the client sees the same in both (the requests about its slot, the
    publishes and the restarts, and the results of the calls made for it), then
    it is sent the same messages, in the same order, and its slot ends the same:
    neither depends on the other clients, their requests, or what is sent to them. -/
theorem slot_isolated {k : Slot cfg} {s₁ s₂ s₁' s₂' : Broker cfg} {ls₁ ls₂ : List (BrokerLabel cfg)}
    (h₁ : (brokerLts cfg pc).Run s₁ ls₁ s₁') (h₂ : (brokerLts cfg pc).Run s₂ ls₂ s₂')
    (hk : s₁.clients k = s₂.clients k)
    (hview : ls₁.filterMap (BrokerLabel.view k) = ls₂.filterMap (BrokerLabel.view k)) :
    s₁'.clients k = s₂'.clients k ∧
      (ls₁.flatMap fun l => sendsTo k l.trace) = ls₂.flatMap fun l => sendsTo k l.trace :=
  (unwinds_slot cfg pc k).eq_of_view h₁ h₂ hk hview

/-- A client that opens `/c` and subscribes to `/a` gets what is published there,
    alone or with another client, which opens `/d`, fails an ioctl and closes. -/
theorem slot_isolated_alone : ∃ (s₁ s₂ : Broker smallest) (ls₁ ls₂ : List (BrokerLabel smallest)),
    (brokerLts smallest psmqdCfgInit).Run (started smallest) ls₁ s₁ ∧
    (brokerLts smallest psmqdCfgInit).Run (started smallest) ls₂ s₂ ∧
    ls₁.length = 3 ∧ ls₂.length = 6 ∧ s₁.clients 0 = s₂.clients 0 ∧
    (ls₁.flatMap fun l => sendsTo 0 l.trace).length = 3 ∧
    (ls₁.flatMap fun l => sendsTo 0 l.trace) = ls₂.flatMap fun l => sendsTo 0 l.trace := by
  obtain ⟨s₁, s₂, ls₁, ls₂, h₁, h₂, hlen₁, hlen₂, hsent, hview⟩ : ∃ s₁ s₂ ls₁ ls₂,
      feedRun (answers smallest true) [([111, 0, 0, 0, 47, 99, 0], 0),
        ([115, 0, 0, 0, 47, 97, 0], 0), ([112, 0, 1, 0, 47, 97, 0, 9], 0)] (started smallest) =
          some (ls₁, s₁) ∧
      feedRun (answers smallest true) [([111, 0, 0, 0, 47, 99, 0], 0),
        ([111, 0, 0, 0, 47, 100, 0], 0), ([105, 1, 1, 0, 9], 0),
        ([115, 0, 0, 0, 47, 97, 0], 0), ([112, 0, 1, 0, 47, 97, 0, 9], 0),
        ([99, 1, 0, 0, 0], 0)] (started smallest) = some (ls₂, s₂) ∧
      ls₁.length = 3 ∧ ls₂.length = 6 ∧ (ls₁.flatMap fun l => sendsTo 0 l.trace).length = 3 ∧
      ls₁.filterMap (BrokerLabel.view 0) = ls₂.filterMap (BrokerLabel.view 0) :=
    ⟨_, _, _, _, rfl, rfl, rfl, rfl, by decide, rfl⟩
  have hrun₁ : (brokerLts smallest psmqdCfgInit).Run _ _ _ :=
    (run_of_feedRun h₁ (by decide)).1
  have hrun₂ : (brokerLts smallest psmqdCfgInit).Run _ _ _ :=
    (run_of_feedRun h₂ (by decide)).1
  obtain ⟨hclient, hsame⟩ := slot_isolated (k := 0) hrun₁ hrun₂ rfl hview
  exact ⟨s₁, s₂, ls₁, ls₂, hrun₁, hrun₂, hlen₁, hlen₂, hclient, hsent, hsame⟩

end Psmq
