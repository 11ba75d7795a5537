import Psmq.Broker.Requests
import Psmq.System.Turns

/-!
# Late requests

A client that misses too many messages is evicted: its slot is freed, and may
be given to another client. The evicted one is not asked, and may still send
requests with its old descriptor; the descriptor is all the broker knows of
their sender. Such a late request changes the slot, which may be that of
another client, just as one of its own would: it is left alone if and only if
the request would change nothing whoever sends it, and in all the states of a
run with no other requests for the slot (`evicted_harmless_iff`). A close
request disconnects the client in the slot: so does the clean-up of an evicted
client (`evicted_harmful`).
-/

namespace Psmq

open CMem Prog

variable {cfg : Config} {pc : PsmqdCfg} {names : QueueNames pc} {S S' : Sys cfg}
  {k : Slot cfg} {s s' : Broker cfg} {x : Item} {tr : Trace cfg}

/-! ## Harmless requests -/

/-- A slot keeps its subscriptions and its reply timeout, and its client stays connected, if it
    has one. -/
def Client.Kept (c c' : Client) : Prop :=
  (c.mq ≠ none → c'.mq = c.mq) ∧ c'.topics = c.topics ∧ c'.replyTimeout = c.replyTimeout

theorem Client.Kept.refl (c : Client) : c.Kept c := ⟨fun _ => rfl, rfl, rfl⟩

theorem Client.Kept.trans {c₁ c₂ c₃ : Client} (h₁ : c₁.Kept c₂) (h₂ : c₂.Kept c₃) :
    c₁.Kept c₃ :=
  ⟨fun h => (h₂.1 ((h₁.1 h).trans_ne h)).trans (h₁.1 h), h₂.2.1.trans h₁.2.1,
    h₂.2.2.trans h₁.2.2⟩

/-- A request that changes nothing to its slot, which has `c`; `tr` tells whether
    there is memory. -/
inductive Harmless (msg : PsmqMsg cfg) (c : Client) (tr : Trace cfg) : Prop
  /-- It does not pass the checks of the main loop. -/
  | dropped : ¬Accepted msg → Harmless msg c tr
  /-- It is a close request for a slot that is free, and has no topics. -/
  | vacant : msg.ctrl.cmd = cmdClose → c.mq = none → c.topics = [] → Harmless msg c tr
  /-- It is a subscription that is refused. -/
  | refused {stopic : CString} {err : Errno} : msg.ctrl.cmd = cmdSubscribe →
      str msg.data.bytes = some stopic → subscribeErr msg stopic.length = some err → err ≠ 0 →
      Harmless msg c tr
  /-- It is a subscription that there is no memory for. -/
  | noMemory {size : ℕ} : msg.ctrl.cmd = cmdSubscribe → ⟨.malloc size, false⟩ ∈ tr →
      Harmless msg c tr
  /-- It is an unsubscription from a topic that the slot does not have. -/
  | absent {utopic : CString} : msg.ctrl.cmd = cmdUnsubscribe →
      str msg.data.bytes = some utopic → utopic ∉ c.topics → Harmless msg c tr
  /-- It is an ioctl that asks for no timeout, or for the one the slot has. -/
  | sameTimeout : msg.ctrl.cmd = cmdIoctl →
      (∀ timeout, AsksTimeout msg timeout → timeout = c.replyTimeout) → Harmless msg c tr

section Handlers

variable {msg : PsmqMsg cfg} {c c' : Client}

/-- What makes a request harmless, by its command. -/
theorem Harmless.of_cmd (h : Harmless msg c tr) (ha : Accepted msg) :
    (msg.ctrl.cmd = cmdClose ∧ c.mq = none ∧ c.topics = []) ∨
    (msg.ctrl.cmd = cmdSubscribe ∧ ((∃ stopic err, str msg.data.bytes = some stopic ∧
      subscribeErr msg stopic.length = some err ∧ err ≠ 0) ∨ ∃ size, ⟨.malloc size, false⟩ ∈ tr)) ∨
    (msg.ctrl.cmd = cmdUnsubscribe ∧ ∃ utopic, str msg.data.bytes = some utopic ∧
      utopic ∉ c.topics) ∨
    (msg.ctrl.cmd = cmdIoctl ∧ ∀ timeout, AsksTimeout msg timeout → timeout = c.replyTimeout) := by
  cases h with
  | dropped hna => exact absurd ha hna
  | vacant hcmd hmq ht => exact .inl ⟨hcmd, hmq, ht⟩
  | refused hcmd ht herr hne => exact .inr (.inl ⟨hcmd, .inl ⟨_, _, ht, herr, hne⟩⟩)
  | noMemory hcmd hm => exact .inr (.inl ⟨hcmd, .inr ⟨_, hm⟩⟩)
  | absent hcmd ht hmem => exact .inr (.inr (.inl ⟨hcmd, _, ht, hmem⟩))
  | sameTimeout hcmd ht => exact .inr (.inr (.inr ⟨hcmd, ht⟩))

theorem Close.kept_iff (h : Close k c tr c') (hcmd : msg.ctrl.cmd = cmdClose)
    (ha : Accepted msg) : c.Kept c' ↔ Harmless msg c tr := by
  obtain ⟨e, -, -, rfl⟩ := h.spec
  constructor
  · -- The slot is free after it, without topics.
    intro hk
    have hmq : c.mq = none := by
      by_contra hne
      exact hne (hk.1 hne).symm
    exact .vacant hcmd hmq hk.2.1.symm
  · intro hh
    rcases hh.of_cmd ha with ⟨-, hmq, ht⟩ | ⟨hc, -⟩ | ⟨hc, -⟩ | ⟨hc, -⟩
    · exact ⟨absurd hmq, ht.symm, rfl⟩
    · exact cmd_absurd hcmd hc
    · exact cmd_absurd hcmd hc
    · exact cmd_absurd hcmd hc

theorem Subscribe.kept_iff {stopic : CString} (h : Subscribe msg stopic k c tr c')
    (hcmd : msg.ctrl.cmd = cmdSubscribe) (ha : Accepted msg)
    (ht : str msg.data.bytes = some stopic) : c.Kept c' ↔ Harmless msg c tr := by
  cases h with
  | refused herr hne => exact iff_of_true (.refl _) (.refused hcmd ht herr hne)
  | noMemory => exact iff_of_true (.refl _) (.noMemory hcmd List.mem_cons_self)
  | added herr =>
    refine iff_of_false (fun hk => ?_) fun hh => ?_
    · -- The list has one topic more.
      have hp := tlInsert_perm c.topics stopic
      rw [show tlInsert c.topics stopic = c.topics from hk.2.1] at hp
      exact not_perm_cons_self stopic c.topics hp
    · rcases hh.of_cmd ha with ⟨hc, -⟩ | ⟨-, ⟨stopic', err, ht', herr', hne⟩ | ⟨size, hm⟩⟩ |
        ⟨hc, -⟩ | ⟨hc, -⟩
      · exact cmd_absurd hcmd hc
      · obtain rfl := Option.mem_unique ht ht'
        exact hne (Option.mem_unique herr' herr)
      · simp [Sent.event] at hm
      · exact cmd_absurd hcmd hc
      · exact cmd_absurd hcmd hc

theorem Unsubscribe.kept_iff {utopic : CString} (h : Unsubscribe utopic k c tr c')
    (hcmd : msg.ctrl.cmd = cmdUnsubscribe) (ha : Accepted msg)
    (ht : str msg.data.bytes = some utopic) : c.Kept c' ↔ Harmless msg c tr := by
  cases h with
  | absent hmem => exact iff_of_true (.refl _) (.absent hcmd ht hmem)
  | removed hmem =>
    refine iff_of_false (fun hk => ?_) fun hh => ?_
    · have hp := List.perm_cons_erase hmem
      rw [show c.topics.erase utopic = c.topics from hk.2.1] at hp
      exact not_perm_cons_self utopic c.topics hp
    · rcases hh.of_cmd ha with ⟨hc, -⟩ | ⟨hc, -⟩ | ⟨-, utopic', ht', hmem'⟩ | ⟨hc, -⟩
      · exact cmd_absurd hcmd hc
      · exact cmd_absurd hcmd hc
      · obtain rfl := Option.mem_unique ht ht'
        exact hmem' hmem
      · exact cmd_absurd hcmd hc

theorem Ioctl.kept_iff {req : UInt8} (h : Ioctl msg req k c tr c') (hcmd : msg.ctrl.cmd = cmdIoctl)
    (ha : Accepted msg) (hreq : msg.data.bytes[0]? = some req) :
    c.Kept c' ↔ Harmless msg c tr := by
  obtain ⟨e, -, ⟨-, timeout, ht, hc⟩ | ⟨-, hno, hc⟩⟩ := h.answered hreq
  · constructor
    · -- A message asks for one timeout at most.
      intro hk
      refine .sameTimeout hcmd fun timeout' ht' => ?_
      obtain rfl := Option.mem_unique ht.2.2 ht'.2.2
      rw [← hk.2.2, hc]
    · intro hh
      rcases hh.of_cmd ha with ⟨hc', -⟩ | ⟨hc', -⟩ | ⟨hc', -⟩ | ⟨-, hsame⟩
      · exact cmd_absurd hcmd hc'
      · exact cmd_absurd hcmd hc'
      · exact cmd_absurd hcmd hc'
      · rw [hc, hsame timeout ht]
        exact ⟨fun _ => rfl, rfl, rfl⟩
  · -- No timeout is asked for, and none is set.
    rw [hc]
    exact iff_of_true (.refl _) (.sameTimeout hcmd fun timeout ht => absurd ht (hno timeout))

end Handlers

/-- A request leaves its slot as it was just when it is harmless. -/
theorem kept_iff_harmless {bytes : List UInt8} {prio : ℕ}
    (hexec : Exec (brokerStart s bytes prio) tr s')
    (hcmd : (received cfg bytes).ctrl.cmd ∈ [cmdClose, cmdSubscribe, cmdUnsubscribe, cmdIoctl])
    (hk : slotOf cfg (received cfg bytes).ctrl.data = some k) :
    (s.clients k).Kept (s'.clients k) ↔ Harmless (received cfg bytes) (s.clients k) tr := by
  rcases exec_brokerStart hexec with hna | ⟨ha, h⟩
  · exact iff_of_true (.refl _) (.dropped hna)
  -- Every handler finds the slot by itself: it is the one named.
  have hset : ∀ {fd : Slot cfg} {c : Client}, slotOf cfg (received cfg bytes).ctrl.data = some fd →
      ((s.clients fd).Kept c ↔ Harmless (received cfg bytes) (s.clients fd) tr) →
      ((s.clients k).Kept ((s.set fd c).clients k) ↔
        Harmless (received cfg bytes) (s.clients k) tr) := fun hfd hiff => by
    obtain rfl := Option.mem_unique hk hfd
    rwa [Broker.set_clients_self]
  cases h with
  | closing hc hfd h => exact hset hfd (h.kept_iff hc ha)
  | subscribing hc hfd ht h => exact hset hfd (h.kept_iff hc ha ht)
  | unsubscribing hc hfd ht h => exact hset hfd (h.kept_iff hc ha ht)
  | ioctl hc hfd hr h => exact hset hfd (h.kept_iff hc ha hr)
  | opening hc => exact absurd hcmd (by rw [hc]; decide)
  | publishing hc => exact absurd hcmd (by rw [hc]; decide)
  | unknown hc => exact absurd hcmd fun hm => hc (by simp_all)

/-! ## Evicted clients -/

/-- The broker evicts the client `a` from the slot `k`, handling a publish. -/
def Evicts (pc : PsmqdCfg) (names : QueueNames pc) (S S' : Sys cfg) (a : ℕ) (k : Slot cfg) : Prop :=
  ∃ s x tr s', Handled pc names S s x tr s' S' ∧ x.cmd cfg = cmdPublish ∧ S.Holds s k a ∧
    ¬s'.IsOpen k

/-- The client `i` sends the message `x`. -/
def SysLabel.sends (i : ℕ) (x : Item) : SysLabel cfg → Bool
  | clientOp j ⟨.mqSend _ _ msg len prio, .ok _⟩ =>
    j = i ∧ msg.toBytes.take len = x.bytes ∧ prio = x.prio
  | _ => false

/-- The client `a` was evicted from the slot `k`, `ls` are the steps made since, and the broker,
    with `s` in memory, waits for a message. -/
structure Evicted (pc : PsmqdCfg) (names : QueueNames pc) (a : ℕ) (k : Slot cfg)
    (ls : List (SysLabel cfg)) (S : Sys cfg) (s : Broker cfg) : Prop where
  run : ∃ S₁ S₂, (sysLts cfg pc names).Reachable S₁ ∧ Evicts pc names S₁ S₂ a k ∧
    (sysLts cfg pc names).Run S₂ ls S
  idle : S.broker = .idle s

/-- A late request, handled by the broker from the state `S` to the state `S'`: the client `a`
    was evicted from the slot `k`, and has sent a request with its old descriptor since. The slot
    is free when this is handled, or it is that of another client. -/
structure Late (pc : PsmqdCfg) (names : QueueNames pc) (a : ℕ) (k : Slot cfg) (S : Sys cfg)
    (s : Broker cfg) (x : Item) (tr : Trace cfg) (s' : Broker cfg) (S' : Sys cfg) : Prop where
  evicted : ∃ ls, Evicted pc names a k ls S s ∧ ∃ l ∈ ls, l.sends a x = true
  handled : Handled pc names S s x tr s' S'
  sender : x.sender = .client a
  slot : slotOf cfg (x.data cfg) = some k
  cmd : x.cmd cfg ∈ [cmdClose, cmdSubscribe, cmdUnsubscribe, cmdIoctl]
  left : ¬S.Holds s k a

/-! ## Runs sparing a slot -/

/-- The broker is not done with a message that changes the slot `k`: a request that carries its
    descriptor is harmless, and a publish does not evict its client. -/
def Spares (k : Slot cfg) (S : Sys cfg) : SysLabel cfg → Prop
  | .finish => ∀ s x tr s', S.broker = .busy (.handle s x) tr (.ret s') →
    (x.cmd cfg ∈ [cmdClose, cmdSubscribe, cmdUnsubscribe, cmdIoctl] →
      slotOf cfg (x.data cfg) = some k →
      Harmless (received cfg x.bytes) (s.clients k) tr) ∧
    (x.cmd cfg = cmdPublish → ∀ e ∈ sendsTo k tr, e.msg.ctrl.cmd ≠ cmdClose)
  | _ => True

/-- The broker has kept the slot `k` since it had `c`, or stops. -/
def BrokerProc.Keeps (c : Client) (k : Slot cfg) : BrokerProc cfg → Prop
  | idle s => c.Kept (s.clients k)
  | busy (.handle s _) _ _ => c.Kept (s.clients k)
  | busy .start _ _ => False
  | busy .stop _ _ => True
  | off => True

/-- A message that spares a slot leaves it as it was, but for opening it. -/
theorem kept_of_exec {bytes : List UInt8} {prio : ℕ} (hexec : Exec (brokerStart s bytes prio) tr s')
    (hreq : (received cfg bytes).ctrl.cmd ∈ [cmdClose, cmdSubscribe, cmdUnsubscribe, cmdIoctl] →
      slotOf cfg (received cfg bytes).ctrl.data = some k →
      Harmless (received cfg bytes) (s.clients k) tr)
    (hpub : (received cfg bytes).ctrl.cmd = cmdPublish →
      ∀ e ∈ sendsTo k tr, e.msg.ctrl.cmd ≠ cmdClose) :
    (s.clients k).Kept (s'.clients k) := by
  by_cases hcmd : (received cfg bytes).ctrl.cmd ∈
      [cmdClose, cmdSubscribe, cmdUnsubscribe, cmdIoctl]
  · by_cases hk : slotOf cfg (received cfg bytes).ctrl.data = some k
    · exact (kept_iff_harmless hexec hcmd hk).2 (hreq hcmd hk)
    · rw [clients_eq_of_ne hexec hcmd hk]
      exact .refl _
  · rcases exec_brokerStart hexec with _ | ⟨-, h⟩
    · exact .refl _
    generalize hc : s'.clients k = c
    cases hc ▸ h.slotStep k with
    | idle => exact .refl _
    | opened _ hfree => exact ⟨fun ho => absurd ho hfree, rfl, rfl⟩
    | noReply => exact .refl _
    | closed hc => exact absurd (by rw [hc]; decide) hcmd
    | subscribed hc => exact absurd (by rw [hc]; decide) hcmd
    | unsubscribed hc => exact absurd (by rw [hc]; decide) hcmd
    | ioctl hc => exact absurd (by rw [hc]; decide) hcmd
    | served hc _ _ hs h =>
      rcases h.spec with ⟨hc', -⟩ | ⟨es, e, hsends, -, he, -⟩
      · rw [hc']
        exact ⟨fun _ => rfl, rfl, rfl⟩
      · -- The client would be told that it is evicted.
        exact absurd (congrArg Ctrl.cmd he) (hpub hc e (by simp [hs, hsends]))

theorem SysStep.keeps {c : Client} {l : SysLabel cfg}
    (h : S.broker.Keeps c k) (hx : S.broker.Executes) (hst : SysStep pc names S l S')
    (hl : Spares k S l) : S'.broker.Keeps c k := by
  -- The memory of the broker changes when it is done with a message, and not before.
  cases hst with
  | call => exact h
  | clientOp => exact h
  | «return» => exact h
  | take hs =>
    rw [hs] at h
    exact h
  | stop => trivial
  | @brokerOp job tr o p r os' hb =>
    rw [hb] at h
    cases job <;> exact h
  | @finish job tr s' hb =>
    rw [hb] at h hx
    cases job with
    | start => exact h.elim
    | stop => trivial
    | handle s x =>
      obtain ⟨hreq, hpub⟩ := hl s x tr s' hb
      have hexec : Exec (brokerStart s x.bytes x.prio) tr s' := by simpa using hx [] s' (.ret s')
      exact h.trans (kept_of_exec hexec hreq hpub)

/-- A run sparing a slot keeps it in every state reached. -/
theorem kept_of_run {ls : List (SysLabel cfg)} (hs : S.broker = .idle s)
    (hrun : ((sysLts cfg pc names).restrict (Spares k)).Run S ls S') (hs' : S'.broker = .idle s') :
    (s.clients k).Kept (s'.clients k) := by
  have h : S'.broker.Keeps (s.clients k) k ∧ S'.broker.Executes := by
    refine hrun.invariant (P := fun S => S.broker.Keeps (s.clients k) k ∧ S.broker.Executes)
      (fun S l S' h hst => ?_) ?_
    · obtain ⟨hst, hl⟩ : SysStep pc names S l S' ∧ Spares k S l := hst
      exact ⟨hst.keeps h.1 h.2 hl, hst.executes h.2⟩
    · rw [hs]
      exact ⟨.refl _, trivial⟩
  rw [hs'] at h
  exact h.1

/-- A late request leaves the slot as it was, and its client connected, with its subscriptions
    and its reply timeout, just when it is harmless. In the runs in which all the requests that
    carry the descriptor are harmless, the slot is so in every state reached, as long as its
    client is not evicted in turn. -/
theorem evicted_harmless_iff (pc : PsmqdCfg) (names : QueueNames pc) (a : ℕ) (k : Slot cfg) :
    (∀ S s x tr s' S', Late pc names a k S s x tr s' S' →
      ((s.clients k).Kept (s'.clients k) ↔
        Harmless (received cfg x.bytes) (s.clients k) tr)) ∧
    (∀ ls S s ls' S' s', Evicted pc names a k ls S s →
      ((sysLts cfg pc names).restrict (Spares k)).Run S ls' S' → S'.broker = .idle s' →
      (s.clients k).Kept (s'.clients k)) :=
  ⟨fun _ _ _ _ _ _ h => kept_iff_harmless h.handled.exec h.cmd h.slot,
    fun _ _ _ _ _ _ h hrun hs' => kept_of_run h.idle hrun hs'⟩

/-! ## A late clean-up -/

/-- The client 0 fills its queue, and misses the ten messages it has subscribed to then. -/
def missing : List (Turn smallest) :=
  List.replicate 2 .broker ++ connecting 0 nameA 1 ++
    requesting 0 (.subscribe (some nameA)) ++ List.replicate 4 .broker ++
    (List.replicate 9 (requesting 0 (.publish (some nameA) none 0 0) ++
      List.replicate 3 .broker)).flatten ++ requesting 0 (.publish (some nameA) none 0 0)

/-- The client 0 is evicted from the slot 0 for missing messages, and makes the call `c` once this
    is the slot of the client 1. The request it sends changes the memory as `R` tells. -/
def LateCall (c : Call smallest) (R : Broker smallest → Item → Broker smallest → Prop) : Prop :=
  ∃ y ∈ Sys.turns psmqdCfgInit twoNames missing (.start smallest psmqdCfgInit),
  ∃ z ∈ y.2.handle, z.2.1.cmd smallest = cmdPublish ∧ y.2.Holds z.1 0 0 ∧ ¬z.2.2.2.1.IsOpen 0 ∧
  ∃ y' ∈ Sys.turns psmqdCfgInit twoNames
    (.broker :: connecting 1 nameB 10 ++ [.call 0 c, .client 0]) z.2.2.2.2,
  ∃ z' ∈ y'.2.handle, (∃ l ∈ y'.1, l.sends 0 z'.2.1 = true) ∧ z'.2.1.sender = .client 0 ∧
    slotOf smallest (z'.2.1.data smallest) = some 0 ∧
    z'.2.1.cmd smallest ∈ [cmdClose, cmdSubscribe, cmdUnsubscribe, cmdIoctl] ∧
    y'.2.Holds z'.1 0 1 ∧ R z'.1 z'.2.1 z'.2.2.2.1

set_option synthInstance.maxSize 512 in
instance (c : Call smallest) (R : Broker smallest → Item → Broker smallest → Prop)
    [∀ s x s', Decidable (R s x s')] : Decidable (LateCall c R) := by
  unfold LateCall
  infer_instance

variable {c : Call smallest} {R : Broker smallest → Item → Broker smallest → Prop}

theorem LateCall.exists_late (h : LateCall c R) :
    ∃ S s x tr s' S', Late psmqdCfgInit twoNames 0 0 S s x tr s' S' ∧ S.Holds s 0 1 ∧
      R s x s' := by
  obtain ⟨⟨ls, S₁⟩, h₁, ⟨s₁, x₁, tr₁, s₁', S₂⟩, h₂, hcmd₁, hold₁, hfree, ⟨ls', S⟩, h₃,
    ⟨s, x, tr, s', S'⟩, h₄, hsent, hsender, hslot, hcmd, hold, hR⟩ := h
  have hreach := (Sys.run_of_turns h₁).reachable (.init rfl)
  have hevicts : Evicts psmqdCfgInit twoNames S₁ S₂ 0 0 :=
    ⟨s₁, x₁, tr₁, s₁', Sys.handled_of_handle h₂, hcmd₁, hold₁, hfree⟩
  have hx : Handled psmqdCfgInit twoNames S s x tr s' S' := Sys.handled_of_handle h₄
  have hleft : ¬S.Holds s 0 0 := fun h => absurd (Option.mem_unique h hold) (by decide)
  exact ⟨S, s, x, tr, s', S', ⟨⟨ls', ⟨⟨S₁, S₂, hreach, hevicts, Sys.run_of_turns h₃⟩, hx.idle⟩,
    hsent⟩, hx, hsender, hslot, hcmd, hleft⟩, hold, hR⟩

/-- The clean-up of an evicted client disconnects the next client of its slot. -/
theorem evicted_harmful : ¬∀ (a b : ℕ) (k : Slot smallest) S s x tr s' S',
    Late psmqdCfgInit twoNames a k S s x tr s' S' → a ≠ b → S.Holds s k b →
      (s.clients k).Kept (s'.clients k) := by
  have hlate : LateCall .cleanup fun s _ s' => s.IsOpen 0 ∧ ¬s'.IsOpen 0 := by decide +kernel
  obtain ⟨S, s, x, tr, s', S', h, hold, hopen, hclosed⟩ := hlate.exists_late
  exact fun hkept => hopen (((hkept 0 1 0 S s x tr s' S' h Nat.zero_ne_one hold).1 hopen).symm.trans
    (not_not.1 hclosed))

/-- An evicted client unsubscribes from its topic, that the next client is not subscribed to. -/
theorem evicted_harmless_unsubscribe : ∃ (S S' : Sys smallest) (s s' : Broker smallest) (x : Item)
    (tr : Trace smallest), Late psmqdCfgInit twoNames 0 0 S s x tr s' S' ∧ S.Holds s 0 1 ∧
      x.cmd smallest = cmdUnsubscribe ∧ (s.clients 0).Kept (s'.clients 0) := by
  have hlate : LateCall (.unsubscribe (some nameA)) fun s x _ => x.cmd smallest = cmdUnsubscribe ∧
      ∃ utopic ∈ str (received smallest x.bytes).data.bytes, utopic ∉ (s.clients 0).topics := by
    decide +kernel
  obtain ⟨S, s, x, tr, s', S', h, hold, hcmd, utopic, ht, hmem⟩ := hlate.exists_late
  exact ⟨S, S', s, s', x, tr, h, hold, hcmd,
    ((evicted_harmless_iff _ _ _ _).1 _ _ _ _ _ _ h).2 (.absent hcmd ht hmem)⟩

end Psmq
