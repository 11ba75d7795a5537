import Psmq.Broker.Handlers
import Psmq.Lib.Lts

/-!
# Runs of the broker

The broker as a transition system (`brokerLts`): it handles any message that
may be on its control queue, with any results of its calls, and it may be
stopped and started again in the same process.

What a step does is said one slot at a time: `SlotStep` lists all that a
request may do to a slot, and what is sent to it meanwhile. A publish goes
through all the slots, but what it does to one of them is what serving its
client alone does (`Sweep.slot`).

* `Handle.slotStep`: a request does to every slot what `SlotStep` says;
* `feed`: the broker computed on a list of messages, for given results of its
  calls (`reachable_of_feed`), and the steps it makes (`run_of_feedRun`).
-/

namespace Psmq

open CMem Prog

variable {cfg : Config}

/-! ## What is sent to a slot -/

/-- Everything sent is sent on behalf of the slot `fd`. -/
def OnlyTo (fd : Slot cfg) (tr : Trace cfg) : Prop := ∀ e ∈ sends tr, e.slot = some fd

theorem OnlyTo.sendsTo_self {fd : Slot cfg} {tr : Trace cfg} (h : OnlyTo fd tr) :
    sendsTo fd tr = sends tr :=
  List.filter_eq_self.2 fun e he => by simpa using h e he

theorem OnlyTo.sendsTo_ne {fd k : Slot cfg} {tr : Trace cfg} (h : OnlyTo fd tr) (hk : k ≠ fd) :
    sendsTo k tr = [] :=
  List.filter_eq_nil_iff.2 fun e he => by simpa [h e he] using hk.symm

theorem onlyTo_event {fd : Slot cfg} {e : Sent cfg} (he : e.slot = some fd) :
    OnlyTo fd [e.event] := by
  simpa [OnlyTo] using he

theorem Close.spec {fd : Slot cfg} {c c' : Client} {tr : Trace cfg} (h : Close fd c tr c') :
    ∃ e, IsReply fd c cmdClose 0 none none 0 0 e ∧ sends tr = [e] ∧ c' = c.closed e.ok := by
  cases h with
  | intro he => exact ⟨_, he, rfl, rfl⟩

theorem Close.onlyTo {fd : Slot cfg} {c c' : Client} {tr : Trace cfg} (h : Close fd c tr c') :
    OnlyTo fd tr := by
  obtain ⟨e, he, hs, -⟩ := h.spec
  simpa [OnlyTo, hs] using he.slot_eq

theorem Subscribe.onlyTo {msg : PsmqMsg cfg} {stopic : CString} {fd : Slot cfg} {c c' : Client}
    {tr : Trace cfg} (h : Subscribe msg stopic fd c tr c') : OnlyTo fd tr := by
  rcases h with ⟨_, _, he⟩ | ⟨_, he⟩ | ⟨_, he⟩ <;> simpa [OnlyTo] using he.slot_eq

theorem Unsubscribe.onlyTo {utopic : CString} {fd : Slot cfg} {c c' : Client} {tr : Trace cfg}
    (h : Unsubscribe utopic fd c tr c') : OnlyTo fd tr := by
  rcases h with ⟨_, he⟩ | ⟨_, he⟩ <;> exact onlyTo_event he.slot_eq

theorem Ioctl.onlyTo {msg : PsmqMsg cfg} {req : UInt8} {fd : Slot cfg} {c c' : Client}
    {tr : Trace cfg} (h : Ioctl msg req fd c tr c') : OnlyTo fd tr := by
  rcases h with ⟨_, he⟩ | ⟨_, _, _, _, he⟩ | ⟨_, _, _, he⟩ | ⟨_, _, he⟩ <;>
    exact onlyTo_event he.slot_eq

section Publish

variable {topic : CString} {payload : Ptr} {paylen prio : ℕ}

theorem Serve.onlyTo {fd : Slot cfg} {nodes : List CString} {c c' : Client} {tr : Trace cfg}
    (h : Serve topic payload paylen prio fd nodes c tr c') : OnlyTo fd tr := by
  induction h with
  | done => exact fun e he => absurd he List.not_mem_nil
  | skip _ _ ih => exact ih
  | sent _ he => exact onlyTo_event he.slot_eq
  | missed _ he _ _ _ ih =>
    rw [OnlyTo, sends_event, List.forall_mem_cons]
    exact ⟨he.slot_eq, ih⟩
  | evicted _ he _ _ hc =>
    rw [OnlyTo, sends_event, sends_mqTimedreceive, List.forall_mem_cons]
    exact ⟨he.slot_eq, hc.onlyTo⟩

/-- Serving a client changes nothing but its counter of missed messages, and
    sends it copies of the message, unless it closes the client, and tells it so. -/
theorem Serve.spec {fd : Slot cfg} {nodes : List CString} {c c' : Client} {tr : Trace cfg}
    (h : Serve topic payload paylen prio fd nodes c tr c') :
    (c' = { c with missedPubs := c'.missedPubs } ∧ ∀ e ∈ sends tr, e.msg.ctrl = ⟨cmdPublish, 0⟩) ∨
      ∃ es e, sends tr = es ++ [e] ∧ (∀ e ∈ es, e.msg.ctrl = ⟨cmdPublish, 0⟩) ∧
        e.msg.ctrl = ⟨cmdClose, 0⟩ ∧ c' = c.closed e.ok := by
  induction h with
  | done => exact .inl ⟨rfl, fun e he => absurd he List.not_mem_nil⟩
  | skip _ _ ih => exact ih
  | sent _ he =>
    refine .inl ⟨rfl, fun e' he' => ?_⟩
    obtain rfl := List.mem_singleton.1 he'
    exact he.cmd_eq
  | missed _ he _ _ _ ih =>
    rcases ih with ⟨hc, hes⟩ | ⟨es, e', hs, hes, he', hc⟩
    · exact .inl ⟨hc, List.forall_mem_cons.2 ⟨he.cmd_eq, hes⟩⟩
    · exact .inr ⟨_ :: es, e', congrArg _ hs, List.forall_mem_cons.2 ⟨he.cmd_eq, hes⟩, he', hc⟩
  | @evicted _ _ _ _ e _ _ _ he _ _ hc =>
    obtain ⟨e', he', hs, rfl⟩ := hc.spec
    exact .inr ⟨[e], e', congrArg _ hs, fun e'' h => List.mem_singleton.1 h ▸ he.cmd_eq,
      he'.cmd_eq, rfl⟩

end Publish

/-- Going through the slots does to a slot what it does for its client, if there is one. -/
theorem Sweep.slot {R : Slot cfg → Client → Trace cfg → Client → Prop}
    (honly : ∀ {fd c tr c'}, R fd c tr c' → OnlyTo fd tr) {fds : List (Slot cfg)}
    {s s' : Broker cfg} {tr : Trace cfg} (h : Sweep R fds s tr s') (hnd : fds.Nodup)
    (k : Slot cfg) :
    (k ∈ fds ∧ s.IsOpen k ∧ ∃ tr', sendsTo k tr = sends tr' ∧
      R k (s.clients k) tr' (s'.clients k)) ∨
    ((k ∈ fds → ¬s.IsOpen k) ∧ sendsTo k tr = [] ∧ s'.clients k = s.clients k) := by
  induction h with
  | done => exact .inr ⟨fun h => absurd h List.not_mem_nil, rfl, rfl⟩
  | @free fd fds s s' tr hfd _ ih =>
    rw [List.nodup_cons] at hnd
    rcases ih hnd.2 with ⟨hk, ho, h⟩ | ⟨hk, h⟩
    · exact .inl ⟨List.mem_cons_of_mem _ hk, ho, h⟩
    · refine .inr ⟨fun hmem => ?_, h⟩
      rcases List.mem_cons.1 hmem with rfl | hmem
      · exact hfd
      · exact hk hmem
  | @visit fd fds s s' c tr₁ tr₂ hfd hc _ ih =>
    rw [List.nodup_cons] at hnd
    rw [sendsTo_append]
    by_cases hk : k = fd
    · subst hk
      -- What is done for the other clients leaves this one alone.
      rcases ih hnd.2 with ⟨hmem, -⟩ | ⟨-, hsends, hs'⟩
      · exact absurd hmem hnd.1
      · refine .inl ⟨List.mem_cons_self, hfd, tr₁, ?_, ?_⟩
        · rw [hsends, List.append_nil, (honly hc).sendsTo_self]
        · rwa [hs', Broker.set_clients_self]
    · rw [(honly hc).sendsTo_ne hk, List.nil_append]
      -- What is done for this client leaves the other ones alone.
      have hopen : (s.set fd c).IsOpen k ↔ s.IsOpen k := by
        rw [Broker.IsOpen, Broker.set_clients_of_ne _ hk, Broker.IsOpen]
      rw [hopen, Broker.set_clients_of_ne _ hk] at ih
      simpa [hk] using ih hnd.2

/-- What is sent while going through the slots is sent for one of the clients. -/
theorem Sweep.exists_of_mem {R : Slot cfg → Client → Trace cfg → Client → Prop}
    {fds : List (Slot cfg)} {s s' : Broker cfg} {tr : Trace cfg} (h : Sweep R fds s tr s')
    {e : Sent cfg} (he : e ∈ sends tr) : ∃ fd c tr' c', R fd c tr' c' ∧ e ∈ sends tr' := by
  induction h with
  | done => exact absurd he List.not_mem_nil
  | free _ _ ih => exact ih he
  | visit _ hc _ ih =>
    rw [sends_append] at he
    rcases List.mem_append.1 he with he | he
    · exact ⟨_, _, _, _, hc, he⟩
    · exact ih he

theorem Sweep.qctrl_eq {R : Slot cfg → Client → Trace cfg → Client → Prop}
    {fds : List (Slot cfg)} {s s' : Broker cfg} {tr : Trace cfg} (h : Sweep R fds s tr s') :
    s'.qctrl = s.qctrl := by
  induction h with
  | done => rfl
  | free _ _ ih => exact ih
  | visit _ _ _ ih => rw [ih, Broker.set_qctrl]

/-! ## What a request does to a slot -/

/-- What handling a request may do to the slot `k`. -/
inductive SlotStep (s : Broker cfg) (msg : PsmqMsg cfg) (prio : ℕ) (k : Slot cfg)
    (tr : Trace cfg) : Client → Prop
  /-- Nothing. -/
  | idle : sendsTo k tr = [] → SlotStep s msg prio k tr (s.clients k)
  /-- It is given to a new client. -/
  | opened {qc : ℕ} {e : Sent cfg} : msg.ctrl.cmd = cmdOpen → ¬s.IsOpen k →
      IsReplyMq (some k) (some qc) cmdOpen 0 none (some [fdOf k]) 1 0 0 e → e.ok = true →
      sendsTo k tr = [e] → SlotStep s msg prio k tr { s.clients k with mq := some qc }
  /-- It is left free, as the new client cannot be told. -/
  | noReply {qc : ℕ} {e : Sent cfg} : msg.ctrl.cmd = cmdOpen → ¬s.IsOpen k →
      IsReplyMq (some k) (some qc) cmdOpen 0 none (some [fdOf k]) 1 0 0 e → e.ok = false →
      sendsTo k tr = [e] → SlotStep s msg prio k tr (s.clients k)
  | closed {c : Client} : msg.ctrl.cmd = cmdClose → slotOf cfg msg.ctrl.data = some k →
      Close k (s.clients k) tr c → SlotStep s msg prio k tr c
  | subscribed {c : Client} {stopic : CString} : msg.ctrl.cmd = cmdSubscribe →
      slotOf cfg msg.ctrl.data = some k → str msg.data.bytes = some stopic →
      Subscribe msg stopic k (s.clients k) tr c → SlotStep s msg prio k tr c
  | unsubscribed {c : Client} {utopic : CString} : msg.ctrl.cmd = cmdUnsubscribe →
      slotOf cfg msg.ctrl.data = some k → str msg.data.bytes = some utopic →
      Unsubscribe utopic k (s.clients k) tr c → SlotStep s msg prio k tr c
  /-- Its client is served a publish. -/
  | served {c : Client} {topic : CString} {tr' : Trace cfg} : msg.ctrl.cmd = cmdPublish →
      str msg.data.bytes = some topic → s.IsOpen k → sendsTo k tr = sends tr' →
      Serve topic (payloadOf msg topic) msg.paylen.toNat prio k (s.clients k).topics
        (s.clients k) tr' c → SlotStep s msg prio k tr c
  | ioctl {c : Client} {req : UInt8} : msg.ctrl.cmd = cmdIoctl →
      slotOf cfg msg.ctrl.data = some k → msg.data.bytes[0]? = some req →
      Ioctl msg req k (s.clients k) tr c → SlotStep s msg prio k tr c

/-- A handler changing the slot `fd` only leaves the others alone. -/
theorem SlotStep.of_ne {s : Broker cfg} {msg : PsmqMsg cfg} {prio : ℕ} {fd k : Slot cfg}
    {tr : Trace cfg} (hk : k ≠ fd) (htr : OnlyTo fd tr) (c : Client) :
    SlotStep s msg prio k tr ((s.set fd c).clients k) := by
  rw [Broker.set_clients_of_ne _ hk]
  exact .idle (htr.sendsTo_ne hk)

/-- An open request does to a slot what `SlotStep` says. -/
theorem Open.slotStep {s s' : Broker cfg} {msg : PsmqMsg cfg} {prio : ℕ} {tr : Trace cfg}
    (hcmd : msg.ctrl.cmd = cmdOpen) (h : Open s msg tr s') (k : Slot cfg) :
    SlotStep s msg prio k tr (s'.clients k) := by
  rcases h with _ | ⟨_, _, he⟩ | @⟨_, _, fd, e, _, hfd, _, he, hok⟩ |
    @⟨_, _, fd, e, _, _, hfd, _, he, hok⟩
  · exact .idle rfl
  · exact .idle (by simp [sendsTo, he.slot_eq])
  · by_cases hk : k = fd
    · subst hk
      rw [Broker.set_clients_self]
      exact .opened hcmd hfd he hok (by simp [sendsTo, he.slot_eq])
    · exact .of_ne hk (by simpa [OnlyTo] using he.slot_eq) _
  · by_cases hk : k = fd
    · subst hk
      exact .noReply hcmd hfd he hok (by simp [sendsTo, he.slot_eq])
    · exact .idle (by simp [sendsTo, he.slot_eq, Ne.symm hk])

/-- A request does to every slot what `SlotStep` says. -/
theorem Handle.slotStep {s s' : Broker cfg} {msg : PsmqMsg cfg} {prio : ℕ} {tr : Trace cfg}
    (h : Handle s msg prio tr s') (k : Slot cfg) : SlotStep s msg prio k tr (s'.clients k) := by
  have key : ∀ {fd : Slot cfg} {c : Client}, OnlyTo fd tr →
      (k = fd → SlotStep s msg prio k tr c) →
      SlotStep s msg prio k tr ((s.set fd c).clients k) := by
    intro fd c htr hself
    by_cases hk : k = fd
    · subst hk
      rw [Broker.set_clients_self]
      exact hself rfl
    · exact .of_ne hk htr c
  cases h with
  | opening hcmd h => exact h.slotStep hcmd k
  | closing hcmd hfd h => exact key h.onlyTo fun hk => by subst hk; exact .closed hcmd hfd h
  | subscribing hcmd hfd ht h =>
    exact key h.onlyTo fun hk => by subst hk; exact .subscribed hcmd hfd ht h
  | unsubscribing hcmd hfd ht h =>
    exact key h.onlyTo fun hk => by subst hk; exact .unsubscribed hcmd hfd ht h
  | publishing hcmd ht h =>
    rcases h.slot Serve.onlyTo (List.nodup_finRange _) k with
      ⟨-, ho, tr', hs, hc⟩ | ⟨-, hs, hc⟩
    · exact .served hcmd ht ho hs hc
    · exact hc ▸ .idle hs
  | ioctl hcmd hfd hr h => exact key h.onlyTo fun hk => by subst hk; exact .ioctl hcmd hfd hr h
  | unknown => exact .idle rfl

theorem Handle.qctrl_eq {s s' : Broker cfg} {msg : PsmqMsg cfg} {prio : ℕ} {tr : Trace cfg}
    (h : Handle s msg prio tr s') : s'.qctrl = s.qctrl := by
  cases h with
  | opening _ h => cases h <;> rfl
  | publishing _ _ h => exact h.qctrl_eq
  | _ => rfl

/-- A request to close, subscribe, unsubscribe or for an ioctl only changes the slot
    it names. -/
theorem clients_eq_of_ne {s s' : Broker cfg} {bytes : List UInt8} {prio : ℕ} {tr : Trace cfg}
    (h : Exec (brokerStart s bytes prio) tr s')
    (hcmd : (received cfg bytes).ctrl.cmd ∈ [cmdClose, cmdSubscribe, cmdUnsubscribe, cmdIoctl])
    {k : Slot cfg} (hk : slotOf cfg (received cfg bytes).ctrl.data ≠ some k) :
    s'.clients k = s.clients k := by
  rcases exec_brokerStart h with _ | ⟨-, h⟩
  · rfl
  have hset : ∀ {fd : Slot cfg} {c : Client}, slotOf cfg (received cfg bytes).ctrl.data = some fd →
      (s.set fd c).clients k = s.clients k := fun hfd =>
    Broker.set_clients_of_ne _ (by rintro rfl; exact hk hfd) _
  cases h with
  | closing _ hfd => exact hset hfd
  | subscribing _ hfd => exact hset hfd
  | unsubscribing _ hfd => exact hset hfd
  | ioctl _ hfd => exact hset hfd
  | unknown => rfl
  | opening hc => exact absurd hcmd (by rw [hc]; decide)
  | publishing hc => exact absurd hcmd (by rw [hc]; decide)

/-! ## The transition system -/

/-- The steps of the broker, with the calls they make. -/
inductive BrokerLabel (cfg : Config)
  /-- A message is received, and handled. -/
  | request (bytes : List UInt8) (prio : ℕ) (tr : Trace cfg)
  /-- The broker is stopped, and started again. -/
  | restart (tr : Trace cfg)

/-- The calls of a step. -/
def BrokerLabel.trace : BrokerLabel cfg → Trace cfg
  | request _ _ tr => tr
  | restart tr => tr

/-- The steps of the broker. A message on the control queue has at most the
    size of a message of the queue, and nothing is received without one. -/
inductive BrokerStep (pc : PsmqdCfg) (s : Broker cfg) : BrokerLabel cfg → Broker cfg → Prop
  | request {bytes : List UInt8} {prio : ℕ} {tr : Trace cfg} {s' : Broker cfg} :
      s.qctrl ≠ none → bytes.length ≤ sizeofMsg cfg → Exec (brokerStart s bytes prio) tr s' →
      BrokerStep pc s (.request bytes prio tr) s'
  | restart {tr₁ tr₂ : Trace cfg} {x y : Broker cfg × ℤ} : Exec (brokerCleanup pc s) tr₁ x →
      Exec (brokerInit pc x.1) tr₂ y → BrokerStep pc s (.restart (tr₁ ++ tr₂)) y.1

/-- The broker: it starts with `psmqd_broker_init`, in a new process. -/
def brokerLts (cfg : Config) (pc : PsmqdCfg) : Lts (Broker cfg) (BrokerLabel cfg) where
  init s := ∃ tr x, Exec (brokerInit pc (staticBroker cfg)) tr x ∧ x.1 = s
  step := BrokerStep pc

variable {pc : PsmqdCfg}

/-- At the start, all the slots are free and empty. -/
theorem brokerLts_init {s : Broker cfg} (h : (brokerLts cfg pc).init s) (k : Slot cfg) :
    s.clients k = ⟨none, [], 0, 0⟩ := by
  obtain ⟨tr, x, h, rfl⟩ := h
  rw [(exec_brokerInit h).1]
  rfl

/-- A message is dropped, or handled. -/
theorem step_request {s s' : Broker cfg} {bytes : List UInt8} {prio : ℕ} {tr : Trace cfg}
    (h : BrokerStep pc s (.request bytes prio tr) s') :
    (¬Accepted (received cfg bytes) ∧ tr = [] ∧ s' = s) ∨
      (Accepted (received cfg bytes) ∧ Handle s (received cfg bytes) prio tr s') := by
  cases h with
  | request _ _ h =>
    rcases exec_brokerStart h with hna | ⟨ha, h⟩
    · exact .inl ⟨hna, rfl, rfl⟩
    · exact .inr ⟨ha, h⟩

/-- A request does to every slot what `SlotStep` says. -/
theorem step_request_slot {s s' : Broker cfg} {bytes : List UInt8} {prio : ℕ} {tr : Trace cfg}
    (h : BrokerStep pc s (.request bytes prio tr) s') (k : Slot cfg) :
    SlotStep s (received cfg bytes) prio k tr (s'.clients k) := by
  rcases step_request h with ⟨-, rfl, rfl⟩ | ⟨-, h⟩
  · exact .idle rfl
  · exact h.slotStep k

/-- A restart closes the client in every open slot, and marks the slots free. -/
theorem step_restart_slot {s s' : Broker cfg} {tr : Trace cfg}
    (h : BrokerStep pc s (.restart tr) s') (k : Slot cfg) :
    (s.IsOpen k ∧ ∃ e, IsReply k (s.clients k) cmdClose 0 none none 0 0 e ∧ sendsTo k tr = [e] ∧
      s'.clients k = (s.clients k).closed e.ok) ∨
    (¬s.IsOpen k ∧ sendsTo k tr = [] ∧ s'.clients k = s.clients k) := by
  cases h with
  | restart h₁ h₂ =>
    obtain ⟨tr', hc, hs⟩ := exec_brokerCleanup h₁
    obtain ⟨hi, hs₂⟩ := exec_brokerInit h₂
    rw [sendsTo, sends_append, hs, hs₂, List.append_nil, ← sendsTo, hi]
    rcases hc.slot Close.onlyTo (List.nodup_finRange _) k with
      ⟨-, ho, tr₁, hk, hclose⟩ | ⟨ho, hk, hc⟩
    · obtain ⟨e, he, htr₁, hx⟩ := hclose.spec
      exact .inl ⟨ho, e, he, hk.trans htr₁, by rw [hx]; rfl⟩
    · have hfree := not_not.1 (ho (List.mem_finRange k))
      exact .inr ⟨not_not.2 hfree, hk, by rw [hc, ← hfree]⟩

/-! ## Computed runs -/

/-- The broker handling a list of messages, each with its priority, with the
    results `env` gives to its calls. -/
def feed (env : Trace cfg → (o : Op cfg) → Op.Res o) :
    List (List UInt8 × ℕ) → Broker cfg → Option (Broker cfg)
  | [], s => some s
  | (bytes, prio) :: msgs, s =>
    if bytes.length ≤ sizeofMsg cfg then
      (eval env [] (brokerStart s bytes prio)).bind fun x => feed env msgs x.2
    else none

/-- Handling a message is a step, and leaves the control queue open. -/
theorem step_of_eval {env : Trace cfg → (o : Op cfg) → Op.Res o} {s s' : Broker cfg}
    {bytes : List UInt8} {prio : ℕ} {tr : Trace cfg} (hlen : bytes.length ≤ sizeofMsg cfg)
    (h : eval env [] (brokerStart s bytes prio) = some (tr, s')) (hq : s.qctrl ≠ none) :
    BrokerStep pc s (.request bytes prio tr) s' ∧ s'.qctrl ≠ none := by
  have hstep : BrokerStep pc s (.request bytes prio tr) s' := .request hq hlen (exec_of_eval h)
  refine ⟨hstep, ?_⟩
  rcases step_request hstep with ⟨-, -, rfl⟩ | ⟨-, hh⟩
  · exact hq
  · rwa [hh.qctrl_eq]

theorem reachable_of_feed {env : Trace cfg → (o : Op cfg) → Op.Res o}
    {msgs : List (List UInt8 × ℕ)} {s s' : Broker cfg} (h : feed env msgs s = some s')
    (hs : (brokerLts cfg pc).Reachable s) (hq : s.qctrl ≠ none) :
    (brokerLts cfg pc).Reachable s' ∧ s'.qctrl ≠ none := by
  induction msgs generalizing s with
  | nil =>
    obtain rfl := Option.some.inj h
    exact ⟨hs, hq⟩
  | cons msg msgs ih =>
    obtain ⟨bytes, prio⟩ := msg
    rw [feed] at h
    split at h
    · next hlen =>
      obtain ⟨⟨tr, s₁⟩, h₁, h₂⟩ := Option.bind_eq_some_iff.1 h
      obtain ⟨hstep, hq₁⟩ := step_of_eval hlen h₁ hq
      exact ih h₂ (hs.step hstep) hq₁
    · exact absurd h (by simp)

/-- The steps of the broker handling a list of messages, as `feed`, and its
    last state. -/
def feedRun (env : Trace cfg → (o : Op cfg) → Op.Res o) :
    List (List UInt8 × ℕ) → Broker cfg → Option (List (BrokerLabel cfg) × Broker cfg)
  | [], s => some ([], s)
  | (bytes, prio) :: msgs, s =>
    if bytes.length ≤ sizeofMsg cfg then do
      let x ← eval env [] (brokerStart s bytes prio)
      let y ← feedRun env msgs x.2
      return (.request bytes prio x.1 :: y.1, y.2)
    else none

theorem feedRun_cons {env : Trace cfg → (o : Op cfg) → Op.Res o} {bytes : List UInt8} {prio : ℕ}
    {msgs : List (List UInt8 × ℕ)} {s s' : Broker cfg} {ls : List (BrokerLabel cfg)}
    (h : feedRun env ((bytes, prio) :: msgs) s = some (ls, s')) :
    bytes.length ≤ sizeofMsg cfg ∧ ∃ tr s₁ ls',
      eval env [] (brokerStart s bytes prio) = some (tr, s₁) ∧
      feedRun env msgs s₁ = some (ls', s') ∧ ls = .request bytes prio tr :: ls' := by
  rw [feedRun] at h
  split at h
  · next hlen =>
    obtain ⟨⟨tr, s₁⟩, h₁, h₂⟩ := Option.bind_eq_some_iff.1 h
    obtain ⟨⟨ls', s₂⟩, h₃, h₄⟩ := Option.bind_eq_some_iff.1 h₂
    obtain ⟨rfl, rfl⟩ := Prod.mk.inj (Option.some.inj h₄)
    exact ⟨hlen, tr, s₁, ls', h₁, h₃, rfl⟩
  · exact absurd h (by simp)

theorem run_of_feedRun {env : Trace cfg → (o : Op cfg) → Op.Res o}
    {msgs : List (List UInt8 × ℕ)} {s s' : Broker cfg} {ls : List (BrokerLabel cfg)}
    (h : feedRun env msgs s = some (ls, s')) (hq : s.qctrl ≠ none) :
    (brokerLts cfg pc).Run s ls s' ∧ s'.qctrl ≠ none := by
  induction msgs generalizing s ls with
  | nil =>
    obtain ⟨rfl, rfl⟩ := Prod.mk.inj (Option.some.inj h)
    exact ⟨.nil s, hq⟩
  | cons msg msgs ih =>
    obtain ⟨hlen, tr, s₁, ls', h₁, h₂, rfl⟩ := feedRun_cons h
    obtain ⟨hstep, hq₁⟩ := step_of_eval hlen h₁ hq
    obtain ⟨hrun, hq'⟩ := ih h₂ hq₁
    exact ⟨.cons hstep hrun, hq'⟩

/-- The steps handle the messages. -/
theorem mem_of_feedRun {env : Trace cfg → (o : Op cfg) → Op.Res o}
    {msgs : List (List UInt8 × ℕ)} {s s' : Broker cfg} {ls : List (BrokerLabel cfg)}
    (h : feedRun env msgs s = some (ls, s')) {l : BrokerLabel cfg} (hl : l ∈ ls) :
    ∃ bytes prio tr, (bytes, prio) ∈ msgs ∧ l = .request bytes prio tr := by
  induction msgs generalizing s ls with
  | nil =>
    obtain ⟨rfl, -⟩ := Prod.mk.inj (Option.some.inj h)
    exact absurd hl List.not_mem_nil
  | cons msg msgs ih =>
    obtain ⟨-, tr, s₁, ls', -, h₂, rfl⟩ := feedRun_cons h
    rcases List.mem_cons.1 hl with rfl | hl
    · exact ⟨_, _, tr, List.mem_cons_self, rfl⟩
    · obtain ⟨bytes', prio', tr', hmem, rfl⟩ := ih h₂ hl
      exact ⟨bytes', prio', tr', List.mem_cons_of_mem _ hmem, rfl⟩

/-- The steps of the broker handling a list of messages meet the condition `C`. -/
def feedMeets (C : Broker cfg → BrokerLabel cfg → Prop) [∀ s l, Decidable (C s l)]
    (env : Trace cfg → (o : Op cfg) → Op.Res o) : List (List UInt8 × ℕ) → Broker cfg → Bool
  | [], _ => true
  | (bytes, prio) :: msgs, s =>
    match eval env [] (brokerStart s bytes prio) with
    | none => true
    | some x => decide (C s (.request bytes prio x.1)) && feedMeets C env msgs x.2

/-- The steps meeting a condition make a run of the system restricted to it. -/
theorem restrict_run_of_feedRun {C : Broker cfg → BrokerLabel cfg → Prop}
    [∀ s l, Decidable (C s l)] {env : Trace cfg → (o : Op cfg) → Op.Res o}
    {msgs : List (List UInt8 × ℕ)} {s s' : Broker cfg} {ls : List (BrokerLabel cfg)}
    (h : feedRun env msgs s = some (ls, s')) (hq : s.qctrl ≠ none)
    (hC : feedMeets C env msgs s = true) :
    ((brokerLts cfg pc).restrict C).Run s ls s' := by
  induction msgs generalizing s ls with
  | nil =>
    obtain ⟨rfl, rfl⟩ := Prod.mk.inj (Option.some.inj h)
    exact .nil s
  | cons msg msgs ih =>
    obtain ⟨hlen, tr, s₁, ls', h₁, h₂, rfl⟩ := feedRun_cons h
    rw [feedMeets, h₁] at hC
    simp only [Bool.and_eq_true, decide_eq_true_eq] at hC
    obtain ⟨hstep, hq₁⟩ := step_of_eval hlen h₁ hq
    exact .cons ⟨hstep, hC.1⟩ (ih h₂ hq₁ hC.2)

/-- Results for the calls: all succeed, but the messages are delivered or not. -/
def answers (cfg : Config) (delivered : Bool) : Trace cfg → (o : Op cfg) → Op.Res o
  | _, .mqOpen _ _ => .ok 1
  | _, .mqClose _ => none
  | _, .mqUnlink _ => none
  | _, .mqSend _ _ _ _ _ => .ok ()
  | _, .mqTimedsend _ _ _ _ _ _ => delivered
  | _, .mqReceive _ => .error EINTR
  | _, .mqTimedreceive _ _ => .error ETIMEDOUT
  | _, .malloc _ => true

/-- With these results, all the attempts to send have the same outcome. -/
theorem ok_of_eval_answers {α : Type} {delivered : Bool} {p : P cfg α} {past tr : Trace cfg} {a : α}
    (h : eval (answers cfg delivered) past p = some (tr, a)) {e : Sent cfg} (he : e ∈ sends tr) :
    e.ok = delivered := by
  obtain ⟨⟨o, r⟩, hev, hsent⟩ := List.mem_filterMap.1 he
  obtain ⟨past', hres⟩ := result_of_eval h _ hev
  cases o with
  | mqTimedsend =>
    obtain rfl := Option.some.inj hsent
    exact hres
  | _ => simp [sentOf] at hsent

/-- Results for the calls: all succeed, but for the attempts to send published messages. -/
def publishesLost (cfg : Config) : Trace cfg → (o : Op cfg) → Op.Res o
  | _, .mqTimedsend _ _ msg _ _ _ => decide (msg.ctrl.cmd ≠ cmdPublish)
  | past, o => answers cfg true past o

/-- The broker once it is started. -/
def started (cfg : Config) : Broker cfg := ⟨some 1, fun _ => ⟨none, [], 0, 0⟩⟩

theorem started_init (pc : PsmqdCfg) : (brokerLts cfg pc).init (started cfg) := by
  have h : ∀ remove, ∃ tr, eval (answers cfg true) []
      (brokerInit { pc with removeQueue := remove } (staticBroker cfg)) =
        some (tr, (started cfg, 0)) := by
    intro remove
    cases remove <;> exact ⟨_, rfl⟩
  obtain ⟨tr, h⟩ := h pc.removeQueue
  exact ⟨tr, _, exec_of_eval h, rfl⟩

theorem reachable_started (pc : PsmqdCfg) : (brokerLts cfg pc).Reachable (started cfg) :=
  .init (started_init pc)

end Psmq
