import Psmq.Broker.Misses
import Psmq.Broker.Publish
import Psmq.Broker.Requests

/-!
# Lost messages

A client is to be dropped when ten published messages in a row have failed to
reach it. But the broker counts the attempts that fail, and one message is sent
to a client as many times as it has subscriptions that match, until an attempt
succeeds.

* One message is counted once at most, whatever becomes of the attempts,
  exactly when one subscription at most matches, or the first attempt that
  fails is the last one (`SentOnce`).
* In the runs in which it is so for every publish, a client that misses nothing
  but published messages, in a slot that starts counting from zero, is not
  evicted before it has lost ten of them.
-/

namespace Psmq

open CMem Prog

variable {cfg : Config} {pc : PsmqdCfg}

/-- The attempts to send a published message that fail. -/
def failures (es : List (Sent cfg)) : List (Sent cfg) :=
  es.filter fun e => e.msg.ctrl.cmd = cmdPublish ∧ e.ok = false

/-- The subscriptions what is published on `topic` matches. -/
def matching (cfg : Config) (topic : CString) (nodes : List CString) : List CString :=
  nodes.filter fun node => TopicMatches cfg topic node

/-- What is published on `topic` is sent to the client again after no attempt
    that fails: one subscription at most matches, or the client is evicted. -/
def SentOnce (cfg : Config) (topic : CString) (c : Client) : Prop :=
  (matching cfg topic c.topics).length ≤ 1 ∨ maxMissedPubs ≤ c.missedPubs + 1

instance (topic : CString) (c : Client) : Decidable (SentOnce cfg topic c) :=
  inferInstanceAs (Decidable (_ ∨ _))

theorem failures_cons_of_failed {e : Sent cfg} (es : List (Sent cfg))
    (hcmd : e.msg.ctrl.cmd = cmdPublish) (hok : e.ok = false) :
    failures (e :: es) = e :: failures es :=
  List.filter_cons_of_pos (by simp [hcmd, hok])

theorem matching_cons_of_matches {topic node : CString} {nodes : List CString}
    (h : TopicMatches cfg topic node) :
    matching cfg topic (node :: nodes) = node :: matching cfg topic nodes :=
  List.filter_cons_of_pos (by simpa using h)

theorem matching_cons_of_not_matches {topic node : CString} {nodes : List CString}
    (h : ¬TopicMatches cfg topic node) :
    matching cfg topic (node :: nodes) = matching cfg topic nodes :=
  List.filter_cons_of_neg (by simpa using h)

/-! ## Serving a client -/

section Serve

variable {topic : CString} {payload : Ptr} {paylen prio : ℕ} {fd : Slot cfg}
  {nodes : List CString} {c c' : Client} {tr : Trace cfg}

theorem not_topicMatches {topic node : CString}
    (h : brokerTopicMatches cfg topic node = some false) : ¬TopicMatches cfg topic node := fun hm =>
  absurd (Option.some.inj (h.symm.trans hm)) Bool.false_ne_true

theorem failures_eq_nil_of_close (h : Close fd c tr c') : failures (sends tr) = [] := by
  obtain ⟨e, he, hs, -⟩ := h.spec
  rw [hs]
  exact List.filter_cons_of_neg (by simp [he.cmd_eq, cmdClose, cmdPublish])

/-- A message is sent to a client once at most for each subscription that matches. -/
theorem Serve.attempts_le (h : Serve topic payload paylen prio fd nodes c tr c') :
    (failures (sends tr)).length + (copies (sends tr)).length ≤
      (matching cfg topic nodes).length := by
  induction h with
  | done => exact Nat.zero_le _
  | skip hno _ ih => rwa [matching_cons_of_not_matches (not_topicMatches hno)]
  | sent hm he hok =>
    rw [matching_cons_of_matches hm]
    simp [failures, copies, he.cmd_eq, hok]
  | missed hm he hok _ _ ih =>
    rw [matching_cons_of_matches hm, sends_event,
      failures_cons_of_failed _ (congrArg Ctrl.cmd he.cmd_eq) hok, copies_cons_of_failed _ hok]
    simp only [List.length_cons]
    omega
  | evicted hm he hok _ hc =>
    rw [matching_cons_of_matches hm, sends_event, sends_mqTimedreceive,
      failures_cons_of_failed _ (congrArg Ctrl.cmd he.cmd_eq) hok, copies_cons_of_failed _ hok,
      failures_eq_nil_of_close hc, copies_eq_nil_of_close hc]
    simp only [List.length_cons, List.length_nil]
    omega

/-- A client that one more failure evicts is sent a message once at most. -/
theorem Serve.attempts_le_one (h : Serve topic payload paylen prio fd nodes c tr c')
    (hmax : maxMissedPubs ≤ c.missedPubs + 1) :
    (failures (sends tr)).length + (copies (sends tr)).length ≤ 1 := by
  induction h with
  | done => exact Nat.zero_le _
  | skip _ _ ih => exact ih hmax
  | sent _ he hok => simp [failures, copies, he.cmd_eq, hok]
  | missed _ _ _ hlt => exact absurd hmax hlt
  | evicted _ he hok _ hc =>
    rw [sends_event, sends_mqTimedreceive,
      failures_cons_of_failed _ (congrArg Ctrl.cmd he.cmd_eq) hok, copies_cons_of_failed _ hok,
      failures_eq_nil_of_close hc, copies_eq_nil_of_close hc]
    exact Nat.le_refl 1

/-- A message sent once is counted once, or has reached the client. -/
theorem Serve.sentOnce (h : Serve topic payload paylen prio fd c.topics c tr c')
    (honce : SentOnce cfg topic c) :
    (failures (sends tr)).length + (copies (sends tr)).length ≤ 1 :=
  honce.elim (fun hle => h.attempts_le.trans hle) h.attempts_le_one

theorem toNat_add_one_le (n : UInt8) : (n + 1).toNat ≤ n.toNat + 1 := by
  have h1 : (1 : UInt8).toNat = 1 := rfl
  rw [UInt8.toNat_add, h1]
  exact Nat.mod_le _ _

/-- The counter is raised by the attempts that fail at most. -/
theorem Serve.raised_le (h : Serve topic payload paylen prio fd nodes c tr c') :
    c'.missedPubs.toNat ≤ c.missedPubs.toNat + (failures (sends tr)).length := by
  induction h with
  | done => exact Nat.le_add_right _ _
  | skip _ _ ih => exact ih
  | sent => exact Nat.zero_le _
  | @missed _ _ c _ _ _ _ he hok _ _ ih =>
    rw [sends_event, failures_cons_of_failed _ (congrArg Ctrl.cmd he.cmd_eq) hok, List.length_cons]
    have hc : (c.sent false).missedPubs.toNat ≤ c.missedPubs.toNat + 1 := toNat_add_one_le _
    omega
  | evicted _ he hok _ hc =>
    obtain ⟨e', -, -, rfl⟩ := hc.spec
    rw [sends_event, failures_cons_of_failed _ (congrArg Ctrl.cmd he.cmd_eq) hok, List.length_cons]
    have hle : ∀ ok : Bool, (if ok then (0 : UInt8) else 1).toNat ≤ 1 := by decide
    exact (hle e'.ok).trans (Nat.le_add_left _ _)

/-- A client is evicted when its counter reaches the limit, by attempts that fail. -/
theorem Serve.ten_le_of_evicted (h : Serve topic payload paylen prio fd nodes c tr c')
    (ho : c.mq ≠ none) (hfree : c'.mq = none) :
    10 ≤ c.missedPubs.toNat + (failures (sends tr)).length := by
  induction h with
  | done => exact absurd hfree ho
  | skip _ _ ih => exact ih ho hfree
  | sent => exact absurd hfree ho
  | @missed _ _ c _ _ _ _ he hok _ _ ih =>
    rw [sends_event, failures_cons_of_failed _ (congrArg Ctrl.cmd he.cmd_eq) hok, List.length_cons]
    have hc : (c.sent false).missedPubs.toNat ≤ c.missedPubs.toNat + 1 := toNat_add_one_le _
    have := ih ho hfree
    omega
  | @evicted _ _ c _ _ _ _ _ he hok hmax hc =>
    rw [sends_event, failures_cons_of_failed _ (congrArg Ctrl.cmd he.cmd_eq) hok, List.length_cons]
    have := maxMissedPubs_le_iff.1 hmax
    have := toNat_add_one_le c.missedPubs
    omega

/-- When all the attempts fail, one is made for the first subscription that matches. -/
theorem Serve.failures_pos (h : Serve topic payload paylen prio fd nodes c tr c')
    (hko : ∀ e ∈ sends tr, e.ok = false) (hm : 1 ≤ (matching cfg topic nodes).length) :
    1 ≤ (failures (sends tr)).length := by
  induction h with
  | done => exact hm
  | skip hno _ ih =>
    rw [matching_cons_of_not_matches (not_topicMatches hno)] at hm
    exact ih hko hm
  | sent _ _ hok => exact absurd (hko _ List.mem_cons_self) (by simp [hok])
  | missed _ he hok | evicted _ he hok =>
    rw [sends_event, failures_cons_of_failed _ (congrArg Ctrl.cmd he.cmd_eq) hok, List.length_cons]
    omega

/-- When all the attempts fail, there is another one if the first one does not
    evict the client, and another subscription matches. -/
theorem Serve.two_le_failures (h : Serve topic payload paylen prio fd nodes c tr c')
    (hko : ∀ e ∈ sends tr, e.ok = false) (hm : 2 ≤ (matching cfg topic nodes).length)
    (hlt : ¬maxMissedPubs ≤ c.missedPubs + 1) : 2 ≤ (failures (sends tr)).length := by
  induction h with
  | done => exact hm
  | skip hno _ ih =>
    rw [matching_cons_of_not_matches (not_topicMatches hno)] at hm
    exact ih hko hm hlt
  | sent _ _ hok => exact absurd (hko _ List.mem_cons_self) (by simp [hok])
  | missed hmatch he hok _ h =>
    rw [matching_cons_of_matches hmatch, List.length_cons] at hm
    rw [sends_event, failures_cons_of_failed _ (congrArg Ctrl.cmd he.cmd_eq) hok, List.length_cons]
    have := h.failures_pos (List.forall_mem_cons.1 hko).2 (by omega)
    omega
  | evicted _ _ _ hmax => exact absurd hmax hlt

end Serve

/-! ## One publish -/

/-- However the attempts end, a publish is counted once at most by the client
    in the slot `k`: one attempt to send it the message fails at most, and its
    counter is raised by one at most. -/
def CountedOnce (s : Broker cfg) (msg : PsmqMsg cfg) (prio : ℕ) (k : Slot cfg) : Prop :=
  ∀ tr x, Exec (brokerDispatch s msg prio) tr x → (failures (sendsTo k tr)).length ≤ 1 ∧
    (x.1.clients k).missedPubs.toNat ≤ (s.clients k).missedPubs.toNat + 1

/-- A publish is counted once at most by an open client exactly when it is sent
    to it once at most. -/
theorem countedOnce_iff {s : Broker cfg} (hs : (brokerLts cfg pc).Reachable s) {msg : PsmqMsg cfg}
    (ha : Accepted msg) (hcmd : msg.ctrl.cmd = cmdPublish) (prio : ℕ) {topic : CString}
    (ht : str msg.data.bytes = some topic) {k : Slot cfg} (ho : s.IsOpen k) :
    CountedOnce s msg prio k ↔ SentOnce cfg topic (s.clients k) := by
  constructor
  · intro h
    by_contra hno
    rw [SentOnce, not_or, not_le] at hno
    -- Let all the attempts fail.
    have hsafe : (brokerDispatch s msg prio).Safe :=
      safe_brokerDispatch (topicsShort_of_reachable hs) ha (by rw [hcmd]; decide) prio
    obtain ⟨tr, x, hx⟩ := hsafe.exists_eval (answers cfg false) []
    rcases exec_publish_slot hcmd ht (exec_of_eval hx) k with ⟨-, tr', hsends, hserve⟩ | ⟨hfree, -⟩
    · have hko : ∀ e ∈ sends tr', e.ok = false := fun e he =>
        ok_of_eval_answers hx (List.mem_of_mem_filter (hsends ▸ he))
      have htwo := hserve.two_le_failures hko hno.1 hno.2
      have hone := (h tr x (exec_of_eval hx)).1
      rw [hsends] at hone
      omega
    · exact hfree ho
  · intro honce tr x hx
    rcases exec_publish_slot hcmd ht hx k with ⟨-, tr', hsends, hserve⟩ | ⟨hfree, -⟩
    · have hle := hserve.sentOnce honce
      have hraised := hserve.raised_le
      rw [hsends]
      exact ⟨by omega, by omega⟩
    · exact absurd ho hfree

/-! ## Runs -/

/-- A publish is sent once at most to every open client. -/
def PublishesOnce (s : Broker cfg) : BrokerLabel cfg → Prop
  | .request bytes _ _ => (received cfg bytes).ctrl.cmd = cmdPublish →
      ∀ topic ∈ str (received cfg bytes).data.bytes, ∀ k, s.IsOpen k →
        SentOnce cfg topic (s.clients k)
  | .restart _ => True

instance (s : Broker cfg) : (l : BrokerLabel cfg) → Decidable (PublishesOnce s l)
  | .request bytes _ _ => inferInstanceAs (Decidable ((received cfg bytes).ctrl.cmd = cmdPublish →
      ∀ topic ∈ str (received cfg bytes).data.bytes, ∀ k, s.IsOpen k → _))
  | .restart _ => .isTrue trivial

/-- A published message fails to reach the client in the slot `k`. -/
def Lost (k : Slot cfg) (l : BrokerLabel cfg) : Prop :=
  failures (sendsTo k l.trace) ≠ [] ∧ copies (sendsTo k l.trace) = []

instance (k : Slot cfg) (l : BrokerLabel cfg) : Decidable (Lost k l) :=
  inferInstanceAs (Decidable (_ ∧ _))

/-- Nothing but published messages fails to be sent to the slot `k`. -/
def OnlyPublishesFail (k : Slot cfg) (l : BrokerLabel cfg) : Prop :=
  ∀ e ∈ sendsTo k l.trace, e.ok = false → e.msg.ctrl.cmd = cmdPublish

instance (k : Slot cfg) (l : BrokerLabel cfg) : Decidable (OnlyPublishesFail k l) :=
  inferInstanceAs (Decidable (∀ e ∈ _, _))

/-- A client served a publish that is sent to it once at most counts it if it loses it. -/
theorem Serve.failures_le_lost {topic : CString} {payload : Ptr} {paylen prio : ℕ} {k : Slot cfg}
    {c c' : Client} {tr : Trace cfg} {l : BrokerLabel cfg}
    (h : Serve topic payload paylen prio k c.topics c tr c') (hs : sendsTo k l.trace = sends tr)
    (honce : SentOnce cfg topic c) : (failures (sends tr)).length ≤ if Lost k l then 1 else 0 := by
  have hle := h.sentOnce honce
  split
  · omega
  · next hno =>
    rw [Lost, hs, not_and_or, not_not] at hno
    rcases hno with hno | hno
    · rw [hno, List.length_nil]
    · have := List.length_pos_of_ne_nil hno
      omega

/-- A step raises the counter of a slot that misses nothing but published
    messages only if one is lost. -/
theorem counter_of_step {s s' : Broker cfg} {l : BrokerLabel cfg} {k : Slot cfg}
    (h : BrokerStep pc s l s') (hl : PublishesOnce s l) (hf : OnlyPublishesFail k l) :
    (s'.clients k).missedPubs.toNat ≤
      (s.clients k).missedPubs.toNat + if Lost k l then 1 else 0 := by
  -- A reply is delivered, and resets the counter.
  have reply : ∀ {e : Sent cfg}, sendsTo k l.trace = [e] → e.msg.ctrl.cmd ≠ cmdPublish →
      e.ok = true := fun {e} hs hcmd => by
    by_contra hko
    exact hcmd (hf e (hs ▸ List.mem_cons_self) (by simpa using hko))
  have reset : ∀ {c : Client} {e : Sent cfg}, sendsTo k l.trace = [e] →
      e.msg.ctrl.cmd ≠ cmdPublish → c.missedPubs = ((s.clients k).sent e.ok).missedPubs →
      c.missedPubs.toNat ≤ (s.clients k).missedPubs.toNat + if Lost k l then 1 else 0 := by
    intro c e hs hcmd hc
    rw [hc, reply hs hcmd]
    exact Nat.zero_le _
  cases l with
  | restart tr =>
    rcases step_restart_slot h k with ⟨-, e, he, hs, hc⟩ | ⟨-, -, hc⟩ <;> rw [hc]
    · rw [reply hs (by rw [he.cmd_eq]; decide)]
      exact Nat.zero_le _
    · exact Nat.le_add_right _ _
  | request bytes prio tr =>
    generalize hc : s'.clients k = c
    cases hc ▸ step_request_slot h k with
    | idle => exact Nat.le_add_right _ _
    | opened => exact Nat.le_add_right _ _
    | noReply => exact Nat.le_add_right _ _
    | closed _ _ h =>
      obtain ⟨e, he, hs, rfl⟩ := h.spec
      rw [reply (h.onlyTo.sendsTo_self.trans hs) (by rw [he.cmd_eq]; decide)]
      exact Nat.zero_le _
    | subscribed _ _ _ h =>
      obtain ⟨e, he, -⟩ := h.answered
      obtain ⟨e', hs, hc, -⟩ := h.counted
      obtain rfl := List.singleton_inj.1 (he.sends_eq.symm.trans hs)
      exact reset (h.onlyTo.sendsTo_self.trans hs) (by rw [he.cmd_eq]; decide) hc
    | unsubscribed _ _ _ h =>
      obtain ⟨e, he, -⟩ := h.answered
      obtain ⟨e', hs, hc, -⟩ := h.counted
      obtain rfl := List.singleton_inj.1 (he.sends_eq.symm.trans hs)
      exact reset (h.onlyTo.sendsTo_self.trans hs) (by rw [he.cmd_eq]; decide) hc
    | ioctl _ _ hreq h =>
      obtain ⟨e, he, -⟩ := h.answered hreq
      obtain ⟨e', hs, hc, -⟩ := h.counted
      obtain rfl := List.singleton_inj.1 (he.sends_eq.symm.trans hs)
      exact reset (h.onlyTo.sendsTo_self.trans hs) (by rw [he.cmd_eq]; decide) hc
    | served hcmd ht ho hs h =>
      have honce := hl hcmd _ ht k ho
      have hlost := h.failures_le_lost (l := .request bytes prio tr) hs honce
      have hraised := h.raised_le
      omega

/-- The counter of a slot that misses nothing but published messages is raised
    in a run by those lost at most. -/
theorem counter_of_run {s s' : Broker cfg} {ls : List (BrokerLabel cfg)} {k : Slot cfg}
    (h : ((brokerLts cfg pc).restrict PublishesOnce).Run s ls s')
    (hf : ∀ l ∈ ls, OnlyPublishesFail k l) :
    (s'.clients k).missedPubs.toNat ≤
      (s.clients k).missedPubs.toNat + ls.countP fun l => Lost k l := by
  induction h with
  | nil => exact Nat.le_add_right _ _
  | cons hst _ ih =>
    rw [List.forall_mem_cons] at hf
    have hstep := counter_of_step hst.1 hst.2 hf.1
    have ih := ih hf.2
    simp only [List.countP_cons, decide_eq_true_eq]
    omega

/-- A publish evicts the client in the slot `k`. -/
def Drops (k : Slot cfg) (s s' : Broker cfg) : BrokerLabel cfg → Prop
  | .request bytes _ _ =>
    (received cfg bytes).ctrl.cmd = cmdPublish ∧ s.IsOpen k ∧ ¬s'.IsOpen k
  | .restart _ => False

/-- A client is given the slot `k`, which starts counting from zero, in the state
    `s`. After the steps `ls`, in which it misses nothing but published
    messages, the step `l'` evicts it. -/
def EvictedAfter (pc : PsmqdCfg) (k : Slot cfg) (s : Broker cfg) (ls : List (BrokerLabel cfg))
    (l' : BrokerLabel cfg) : Prop :=
  ∃ l s₁ s₂ s₃, BrokerStep pc s l s₁ ∧ ¬s.IsOpen k ∧ (s.clients k).missedPubs = 0 ∧ s₁.IsOpen k ∧
    ((brokerLts cfg pc).restrict PublishesOnce).Run s₁ ls s₂ ∧ (∀ l ∈ ls, OnlyPublishesFail k l) ∧
    ((brokerLts cfg pc).restrict PublishesOnce).step s₂ l' s₃ ∧ Drops k s₂ s₃ l'

/-- A slot given to a client goes on counting where it was. -/
theorem missedPubs_of_opened {s s' : Broker cfg} {l : BrokerLabel cfg} {k : Slot cfg}
    (h : BrokerStep pc s l s') (hfree : ¬s.IsOpen k) (ho : s'.IsOpen k) :
    (s'.clients k).missedPubs = (s.clients k).missedPubs := by
  rw [Broker.IsOpen] at ho
  cases l with
  | restart tr =>
    rcases step_restart_slot h k with ⟨hk, -⟩ | ⟨-, -, hc⟩
    · exact absurd hk hfree
    · rw [hc]
  | request bytes prio tr =>
    generalize hc : s'.clients k = c at ho
    cases hc ▸ step_request_slot h k with
    | idle => rfl
    | opened => rfl
    | noReply => rfl
    | closed _ _ h =>
      obtain ⟨_, -, -, rfl⟩ := h.spec
      exact absurd rfl ho
    | subscribed _ _ _ h =>
      obtain ⟨_, -, -, hmq⟩ := h.counted
      exact absurd (by rwa [Broker.IsOpen, ← hmq]) hfree
    | unsubscribed _ _ _ h =>
      obtain ⟨_, -, -, hmq⟩ := h.counted
      exact absurd (by rwa [Broker.IsOpen, ← hmq]) hfree
    | ioctl _ _ _ h =>
      obtain ⟨_, -, -, hmq⟩ := h.counted
      exact absurd (by rwa [Broker.IsOpen, ← hmq]) hfree
    | served _ _ hk => exact absurd hk hfree

theorem EvictedAfter.ten_le {k : Slot cfg} {s : Broker cfg} {ls : List (BrokerLabel cfg)}
    {l' : BrokerLabel cfg} (h : EvictedAfter pc k s ls l') :
    10 ≤ (ls ++ [l']).countP fun l => Lost k l := by
  obtain ⟨l, s₁, s₂, s₃, hopen, hfree, h0, ho, hrun, hf, hstep, hdrops⟩ := h
  have hrun := counter_of_run hrun hf
  rw [missedPubs_of_opened hopen hfree ho, h0] at hrun
  cases l' with
  | restart tr => exact absurd hdrops id
  | request bytes prio tr =>
    obtain ⟨hcmd, ho₂, hfree₃⟩ := hdrops
    obtain ⟨-, hh⟩ : Accepted (received cfg bytes) ∧ Handle s₂ (received cfg bytes) prio tr s₃ := by
      rcases step_request hstep.1 with ⟨-, -, rfl⟩ | h
      · exact absurd ho₂ hfree₃
      · exact h
    obtain ⟨topic, ht, hserve⟩ := hh.of_cmd.2.2.2.2.1 hcmd
    rcases hserve.slot Serve.onlyTo (List.nodup_finRange _) k with
      ⟨-, -, tr', hs, hserve⟩ | ⟨-, -, hc⟩
    · have hten := hserve.ten_le_of_evicted ho₂ (not_not.1 hfree₃)
      have hlost := hserve.failures_le_lost (l := .request bytes prio tr) hs
        (hstep.2 hcmd _ ht k ho₂)
      have hzero : (0 : UInt8).toNat = 0 := rfl
      simp only [List.countP_append, List.countP_cons, List.countP_nil, decide_eq_true_eq]
      omega
    · exact absurd (by rwa [Broker.IsOpen, hc]) hfree₃

/-- A lost message counts once: in every reachable state, a publish is counted
    once at most by an open client, whatever becomes of its attempts, exactly
    when one subscription at most matches or the first failure evicts the
    client. In the runs in which it is so, a client that misses nothing but
    published messages, in a slot that starts counting from zero, has lost ten
    of them when it is evicted. -/
theorem lost_once {s : Broker cfg} (hs : (brokerLts cfg pc).Reachable s) (k : Slot cfg) :
    (∀ msg prio topic, Accepted msg → msg.ctrl.cmd = cmdPublish → str msg.data.bytes = some topic →
      s.IsOpen k → (CountedOnce s msg prio k ↔ SentOnce cfg topic (s.clients k))) ∧
    (∀ ls l', EvictedAfter pc k s ls l' → 10 ≤ (ls ++ [l']).countP fun l => Lost k l) :=
  ⟨fun _ prio _ ha hcmd ht ho => countedOnce_iff hs ha hcmd prio ht ho, fun _ _ h => h.ten_le⟩

/-- A client subscribed to `/a` is evicted after ten messages published there. -/
theorem lost_once_ten : ∃ (s : Broker smallest) (ls : List (BrokerLabel smallest))
    (l' : BrokerLabel smallest), EvictedAfter psmqdCfgInit 0 (started smallest) ls l' ∧
    (10 ≤ (ls ++ [l']).countP fun l => Lost 0 l) ∧ s.IsOpen 0 ∧
    CountedOnce s (received smallest [112, 0, 0, 0, 47, 97, 0]) 0 0 := by
  obtain ⟨tr₁, s₁, ls, s₂, tr₃, s₃, h₁, h₂, h₃, hq₁, ho₁, hmeets, hf, hq₂, honce, hdrops, hsent⟩ :
      ∃ tr₁ s₁ ls s₂ tr₃ s₃,
        eval (publishesLost smallest) []
          (brokerStart (started smallest) [111, 0, 0, 0, 47, 99, 0] 0) = some (tr₁, s₁) ∧
        feedRun (publishesLost smallest)
          (([115, 0, 0, 0, 47, 97, 0], 0) :: List.replicate 9 ([112, 0, 0, 0, 47, 97, 0], 0)) s₁ =
            some (ls, s₂) ∧
        eval (publishesLost smallest) [] (brokerStart s₂ [112, 0, 0, 0, 47, 97, 0] 0) =
          some (tr₃, s₃) ∧
        s₁.qctrl ≠ none ∧ s₁.IsOpen 0 ∧
        feedMeets PublishesOnce (publishesLost smallest)
          (([115, 0, 0, 0, 47, 97, 0], 0) :: List.replicate 9 ([112, 0, 0, 0, 47, 97, 0], 0)) s₁ =
            true ∧
        (∀ l ∈ ls, OnlyPublishesFail 0 l) ∧ s₂.qctrl ≠ none ∧
        PublishesOnce s₂ (.request [112, 0, 0, 0, 47, 97, 0] 0 tr₃) ∧
        (s₂.IsOpen 0 ∧ ¬s₃.IsOpen 0) ∧
        SentOnce smallest ⟨[47, 97], by decide⟩ (s₂.clients 0) :=
    ⟨_, _, _, _, _, _, rfl, rfl, rfl, by decide, by decide, by decide, by decide, by decide,
      by decide, by decide, by decide⟩
  have hstep : BrokerStep psmqdCfgInit (started smallest)
      (.request [111, 0, 0, 0, 47, 99, 0] 0 tr₁) s₁ :=
    .request (by decide) (by decide) (exec_of_eval h₁)
  have hrun : ((brokerLts smallest psmqdCfgInit).restrict PublishesOnce).Run s₁ ls s₂ :=
    restrict_run_of_feedRun h₂ hq₁ hmeets
  have hstart : (brokerLts smallest psmqdCfgInit).Reachable (started smallest) :=
    reachable_started psmqdCfgInit
  have hevicted : EvictedAfter psmqdCfgInit 0 (started smallest) ls
      (.request [112, 0, 0, 0, 47, 97, 0] 0 tr₃) :=
    ⟨_, s₁, s₂, s₃, hstep, by decide, by decide, ho₁, hrun, hf,
      ⟨.request hq₂ (by decide) (exec_of_eval h₃), honce⟩, by decide, hdrops⟩
  exact ⟨s₂, ls, _, hevicted, (lost_once hstart 0).2 _ _ hevicted, hdrops.1,
    ((lost_once (hrun.of_restrict.reachable (hstart.step hstep)) 0).1 _ 0 ⟨[47, 97], by decide⟩
      ⟨⟨[47, 97], by decide⟩, by decide, by decide, by decide⟩ (by decide) (by decide)
      hdrops.1).2 hsent⟩

/-- A client subscribed to `/a` twice loses a message published there: it is counted twice. -/
theorem lost_twice : ∃ (s : Broker smallest) (tr : Trace smallest) (x : Broker smallest × ℤ),
    (brokerLts smallest psmqdCfgInit).Reachable s ∧ s.IsOpen 0 ∧
    Accepted (received smallest [112, 0, 0, 0, 47, 97, 0]) ∧
    Exec (brokerDispatch s (received smallest [112, 0, 0, 0, 47, 97, 0]) 0) tr x ∧
    (failures (sendsTo 0 tr)).length = 2 ∧ (s.clients 0).missedPubs = 0 ∧
    (x.1.clients 0).missedPubs = 2 ∧
    ¬CountedOnce s (received smallest [112, 0, 0, 0, 47, 97, 0]) 0 0 := by
  obtain ⟨s, tr, x, hs, hx, ho, htwo, h0, h2⟩ : ∃ s tr x, feed (answers smallest true)
      [([111, 0, 0, 0, 47, 99, 0], 0), ([115, 0, 0, 0, 47, 97, 0], 0),
        ([115, 0, 0, 0, 47, 97, 0], 0)] (started smallest) = some s ∧
      eval (publishesLost smallest) [] (brokerDispatch s
        (received smallest [112, 0, 0, 0, 47, 97, 0]) 0) = some (tr, x) ∧ s.IsOpen 0 ∧
      (failures (sendsTo 0 tr)).length = 2 ∧ (s.clients 0).missedPubs = 0 ∧
      (x.1.clients 0).missedPubs = 2 :=
    ⟨_, _, _, rfl, rfl, by decide, by decide, by decide, by decide⟩
  refine ⟨s, tr, x, (reachable_of_feed hs (reachable_started psmqdCfgInit) (by decide)).1, ho,
    ⟨⟨[47, 97], by decide⟩, by decide, by decide, by decide⟩, exec_of_eval hx, htwo, h0, h2,
    fun h => ?_⟩
  have hone := (h tr x (exec_of_eval hx)).1
  rw [htwo] at hone
  exact absurd hone (by decide)

end Psmq
