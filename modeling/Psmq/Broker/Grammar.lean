import Psmq.Broker.Matching
import Psmq.Broker.Publish
import Psmq.Broker.Requests

/-!
# The grammar of topics

Which of the topics clients send are accepted, well-formed or not: the topic of
a subscription is checked by `psmqd_broker_subscribe`, and that of a message
published by nobody.

* `subscribe_grammar`: with memory for it, a topic is subscribed to exactly
  when it is well-formed, and comes without a payload;
* `malformed_not_delivered_iff`: a message with a malformed topic is delivered
  to the clients subscribed to what its non-empty parts make.
-/

namespace Psmq

open CMem Prog Tokens

variable {cfg : Config}

/-! ## Subscriptions -/

/-- The loop of `psmqd_broker_subscribe` finds whether there are two slashes in a row. -/
theorem hasDoubleSlash_eq_false_iff {s rest : List UInt8} (h0 : 0 ∉ s) :
    hasDoubleSlash (s ++ 0 :: rest) = some false ↔ NoDouble slash s := by
  refine ⟨noDouble_of_hasDoubleSlash h0, fun h => ?_⟩
  induction s with
  | nil => simp [hasDoubleSlash]
  | cons c s ih =>
    rw [List.mem_cons, not_or] at h0
    have ih : hasDoubleSlash (s ++ 0 :: rest) = some false := ih h0.2 (List.isChain_cons.1 h).2
    rw [List.cons_append, hasDoubleSlash.eq_def]
    dsimp only
    rw [if_neg (Ne.symm h0.1)]
    split
    · next hc =>
      cases s with
      | nil =>
        rw [List.nil_append] at ih ⊢
        exact (if_neg (by decide)).trans ih
      | cons d s =>
        have hd : d ≠ slash := fun hd => (List.isChain_cons_cons.1 h).1 ⟨hc, hd⟩
        rw [List.cons_append] at ih ⊢
        exact (if_neg hd).trans ih
    · exact ih

/-- What is left of the checks of `psmqd_broker_subscribe` after that of the payload. -/
theorem subscribeErr_eq_zero_iff {msg : PsmqMsg cfg} {stopic : CString}
    (hstr : str msg.data.bytes = some stopic) :
    subscribeErr msg stopic.length = some 0 ↔ msg.paylen = 0 ∧ WellFormed stopic := by
  constructor
  · intro h
    refine ⟨?_, exists_topicOf_of_accepted hstr h⟩
    by_contra hpay
    have hbad : EBADMSG ≠ 0 := by decide
    simp only [subscribeErr, Option.pure_def, if_pos hpay] at h
    split at h <;> exact hbad (Option.some.inj h)
  · rintro ⟨hpay, hwf⟩
    obtain ⟨hhead, hlast, hdouble⟩ := wellFormed_iff.1 hwf
    obtain ⟨rest, hrest⟩ := str_eq_some_iff.1 hstr
    -- A slash, which is not the last character.
    have hlen : ¬stopic.length < 2 := fun hlt => by
      obtain ⟨_ | ⟨c, _ | ⟨d, l⟩⟩, hs⟩ := stopic
      · simp at hhead
      · exact hlast (by simpa using hhead)
      · have : l.length + 2 < 2 := hlt
        omega
    have hget : ∀ i < stopic.length, msg.data.bytes[i]? = stopic.bytes[i]? := fun i hi => by
      rw [hrest, List.getElem?_append_left hi]
    have hfirst : msg.data.bytes[0]? = some slash := by
      rw [hget 0 (by omega), ← List.head?_eq_getElem?, hhead]
    have hnil : stopic.bytes ≠ [] := fun hnil => by simp [hnil] at hhead
    obtain ⟨d, hd⟩ : ∃ d, stopic.bytes.getLast? = some d :=
      ⟨_, List.getLast?_eq_some_getLast hnil⟩
    have hend : msg.data.bytes[stopic.length - 1]? = some d := by
      rw [hget _ (by omega), CString.length, ← List.getLast?_eq_getElem?, hd]
    have hslash : hasDoubleSlash msg.data.bytes = some false := by
      rw [hrest, hasDoubleSlash_eq_false_iff stopic.zero_notMem]
      exact hdouble
    have hne : d ≠ slash := fun h => hlast (h ▸ hd)
    simp [subscribeErr, hlen, hpay, hfirst, hend, hslash, hne]

/-- The reply to a request for a topic carries the whole topic. -/
theorem IsReplyMq.str_eq {slot : Option (Slot cfg)} {mq : Mqd} {cmd data : UInt8}
    {topic : CString} {payload : Option Ptr} {paylen prio : ℕ} {timeout : UInt16} {e : Sent cfg}
    (h : IsReplyMq slot mq cmd data (some topic) payload paylen prio timeout e) :
    str e.msg.data.bytes = some topic := by
  rw [(replyMsg_eq_some h.msg_eq).2.2, topicBytes, List.append_assoc, List.append_assoc,
    List.singleton_append, str_append]

/-- The call is not an allocation that fails. -/
def allocates : Event (Op cfg) Op.Res → Bool
  | ⟨.malloc _, ok⟩ => ok
  | _ => true

/-- The allocations of an execution succeed. -/
def Allocates (tr : Trace cfg) : Prop := ∀ e ∈ tr, allocates e = true

instance (tr : Trace cfg) : Decidable (Allocates tr) := inferInstanceAs (Decidable (∀ e ∈ tr, _))

/-- A subscription, with memory for its topic: it is answered once, with the
    whole topic sent back; the topic is added, where `psmqd_tl_add` puts it, to
    those there were, and the answer 0, if the request follows the grammar; and
    nothing is added, and the answer is `EBADMSG`, if not. -/
def SubscribesTo (msg : PsmqMsg cfg) (stopic : CString) (k : Slot cfg) (c c' : Client)
    (tr : Trace cfg) : Prop :=
  ∃ e, Answers k c cmdSubscribe tr e ∧ str e.msg.data.bytes = some stopic ∧
    ((e.msg.ctrl.data = 0 ∧ c'.topics = tlInsert c.topics stopic) ↔
      msg.paylen = 0 ∧ WellFormed stopic) ∧
    ((e.msg.ctrl.data = 0 ∧ c'.topics.Perm (stopic :: c.topics)) ↔
      msg.paylen = 0 ∧ WellFormed stopic) ∧
    (¬(msg.paylen = 0 ∧ WellFormed stopic) →
      e.msg.ctrl.data = UInt8.ofNat EBADMSG ∧ c'.topics = c.topics)

theorem Subscribe.subscribesTo {msg : PsmqMsg cfg} {stopic : CString} {k : Slot cfg}
    {c c' : Client} {tr : Trace cfg} (hstr : str msg.data.bytes = some stopic)
    (h : Subscribe msg stopic k c tr c') (hmem : Allocates tr) :
    SubscribesTo msg stopic k c c' tr := by
  cases h with
  | @refused err e herr hne he =>
    have hbad : err = EBADMSG := (subscribeErr_eq herr).resolve_left hne
    have hwf : ¬(msg.paylen = 0 ∧ WellFormed stopic) := fun h =>
      hne (Option.some.inj (herr.symm.trans ((subscribeErr_eq_zero_iff hstr).2 h)))
    have hdata : e.msg.ctrl.data = UInt8.ofNat EBADMSG := hbad ▸ he.data_eq
    have hne : e.msg.ctrl.data ≠ 0 := by
      rw [hdata]
      decide
    exact ⟨e, he.answers rfl, he.str_eq, iff_of_false (fun h => hne h.1) hwf,
      iff_of_false (fun h => hne h.1) hwf, fun _ => ⟨hdata, rfl⟩⟩
  | noMemory => exact absurd (hmem _ List.mem_cons_self) Bool.false_ne_true
  | added herr he =>
    have hwf := (subscribeErr_eq_zero_iff hstr).1 herr
    exact ⟨_, he.answers rfl, he.str_eq, iff_of_true ⟨he.data_eq, rfl⟩ hwf,
      iff_of_true ⟨he.data_eq, tlInsert_perm _ _⟩ hwf, fun h => absurd hwf h⟩

/-- A subscription is accepted exactly when it follows the grammar: with memory
    for its topic, the topic is added, and the answer is 0, if and only if the
    request has no payload and its topic is well-formed; else nothing is added,
    and the answer is `EBADMSG`. The topic sent back is the one of the request. -/
theorem subscribe_grammar {s : Broker cfg} {msg : PsmqMsg cfg} {k : Slot cfg} (ha : Accepted msg)
    (hcmd : msg.ctrl.cmd = cmdSubscribe) (hk : slotOf cfg msg.ctrl.data = some k) (prio : ℕ) :
    (brokerDispatch s msg prio).Safe ∧ ∃ stopic, str msg.data.bytes = some stopic ∧
      ∀ tr x, Exec (brokerDispatch s msg prio) tr x → Allocates tr →
        SubscribesTo msg stopic k (s.clients k) (x.1.clients k) tr ∧
        ∀ j, j ≠ k → x.1.clients j = s.clients j := by
  obtain ⟨topic, ht, -⟩ := ha
  refine ⟨?_, topic, ht, fun tr x h hmem => ?_⟩
  · rw [brokerDispatch, hcmd, if_neg (by decide), if_neg (by decide), if_pos rfl]
    exact safe_brokerSubscribe hk ht
  · obtain ⟨fd, stopic, c, hfd, hstr, h, hx⟩ := (exec_brokerDispatch h).of_cmd.2.2.1 hcmd
    obtain rfl := Option.mem_unique hk hfd
    obtain rfl := Option.mem_unique ht hstr
    rw [hx, Broker.set_clients_self]
    exact ⟨h.subscribesTo ht hmem, fun j hj => Broker.set_clients_of_ne _ hj _⟩

/-- Of two subscriptions, to `/a` and to `/a/`, the second one is refused. -/
theorem subscribe_grammar_twice : ∃ (s : Broker smallest) (tr : Trace smallest)
    (x : Broker smallest × ℤ), s.IsOpen 0 ∧
    (s.clients 0).topics.map CString.bytes = [[47, 97]] ∧
    Exec (brokerDispatch s (received smallest [115, 0, 0, 0, 47, 97, 47, 0]) 0) tr x ∧
    SubscribesTo (received smallest [115, 0, 0, 0, 47, 97, 47, 0]) ⟨[47, 97, 47], by decide⟩ 0
      (s.clients 0) (x.1.clients 0) tr ∧
    (x.1.clients 0).topics.map CString.bytes = [[47, 97]] := by
  obtain ⟨s, tr, x, hs, hx, ho, htopics, hmem, hsame⟩ : ∃ s tr x,
      feed (answers smallest true)
        [([111, 0, 0, 0, 47, 99, 0], 0), ([115, 0, 0, 0, 47, 97, 0], 0)]
        (started smallest) = some s ∧
      eval (answers smallest true) [] (brokerDispatch s
        (received smallest [115, 0, 0, 0, 47, 97, 47, 0]) 0) = some (tr, x) ∧ s.IsOpen 0 ∧
      (s.clients 0).topics.map CString.bytes = [[47, 97]] ∧ Allocates tr ∧
      (x.1.clients 0).topics.map CString.bytes = [[47, 97]] :=
    ⟨_, _, _, rfl, rfl, by decide, rfl, by decide, rfl⟩
  have ha : Accepted (received smallest [115, 0, 0, 0, 47, 97, 47, 0]) :=
    ⟨⟨[47, 97, 47], by decide⟩, by decide, by decide, by decide⟩
  obtain ⟨-, stopic, hstr, h⟩ := subscribe_grammar (s := s) (k := 0) ha (by decide)
    (by decide) 0
  have hslash : str (received smallest [115, 0, 0, 0, 47, 97, 47, 0]).data.bytes =
      some ⟨[47, 97, 47], by decide⟩ := by decide
  obtain rfl := Option.mem_unique hslash hstr
  exact ⟨s, tr, x, ho, htopics, exec_of_eval hx, (h tr x (exec_of_eval hx) hmem).1, hsame⟩

/-! ## Published messages -/

/-- The topics stored are well-formed. -/
theorem exists_topicOf_of_mem {pc : PsmqdCfg} {s : Broker cfg} (hs : (brokerLts cfg pc).Reachable s)
    {k : Slot cfg} {t : CString} (ht : t ∈ (s.clients k).topics) :
    ∃ sub, t = topicOf sub ∧ (topicOf sub).length < cfg.msgMax := by
  obtain ⟨sub, -, rfl⟩ : WellFormed t :=
    forall_topics_of_reachable hs (fun hstr herr => exists_topicOf_of_accepted hstr herr) k t ht
  exact ⟨sub, rfl, topicsShort_of_reachable hs k _ ht⟩

/-- What is published on `topic` matches a subscription of the client in the
    slot `k`, once the empty parts of `topic` are left out. -/
def Reaches (s : Broker cfg) (topic : CString) (k : Slot cfg) : Prop :=
  s.IsOpen k ∧ ∃ sub, topicOf sub ∈ (s.clients k).topics ∧ LoopMatches (partsOf topic) sub

/-- The matcher finds the subscriptions to what the non-empty parts of a topic make. -/
theorem reaches_iff {pc : PsmqdCfg} {s : Broker cfg} (hs : (brokerLts cfg pc).Reachable s)
    {topic : CString} (hlen : topic.length < cfg.msgMax) (k : Slot cfg) :
    Reaches s topic k ↔
      s.IsOpen k ∧ ∃ node ∈ (s.clients k).topics, TopicMatches cfg topic node := by
  refine and_congr_right fun _ => ⟨?_, ?_⟩
  · rintro ⟨sub, hmem, hm⟩
    exact ⟨_, hmem, (topicMatches_partsOf_iff hlen (topicsShort_of_reachable hs k _ hmem)).2 hm⟩
  · rintro ⟨node, hmem, hm⟩
    obtain ⟨sub, rfl, hsub⟩ := exists_topicOf_of_mem hs hmem
    exact ⟨sub, hmem, (topicMatches_partsOf_iff hlen hsub).1 hm⟩

/-- When everything sent is delivered, a message reaches every client it may. -/
theorem exists_exec_copies {pc : PsmqdCfg} {s : Broker cfg} (hs : (brokerLts cfg pc).Reachable s)
    {msg : PsmqMsg cfg} (ha : Accepted msg) (hcmd : msg.ctrl.cmd = cmdPublish) (prio : ℕ)
    {topic : CString} (ht : str msg.data.bytes = some topic) {k : Slot cfg}
    (hk : Reaches s topic k) :
    ∃ tr x, Exec (brokerDispatch s msg prio) tr x ∧ copies (sendsTo k tr) ≠ [] := by
  have hsafe : (brokerDispatch s msg prio).Safe :=
    safe_brokerDispatch (topicsShort_of_reachable hs) ha (by rw [hcmd]; decide) prio
  obtain ⟨tr, x, hx⟩ := hsafe.exists_eval (answers cfg true) []
  refine ⟨tr, x, exec_of_eval hx, fun hnil => ?_⟩
  obtain ⟨ho, hm⟩ := (reaches_iff hs (by simpa using length_lt_of_str ht) k).1 hk
  -- All the attempts succeed.
  have hok : ∀ e ∈ sendsTo k tr, e.ok = true := fun e he =>
    ok_of_eval_answers hx (List.mem_of_mem_filter he)
  have hlen := (copies_of_publish hcmd ht (exec_of_eval hx) k).2.2 ho hm hok
  simp [hnil] at hlen

/-- A published message with a malformed topic is not delivered exactly when no
    open client has a subscription that the non-empty parts of the topic match:
    the empty ones are skipped. -/
theorem malformed_not_delivered_iff {pc : PsmqdCfg} {s : Broker cfg}
    (hs : (brokerLts cfg pc).Reachable s) {msg : PsmqMsg cfg} (ha : Accepted msg)
    (hcmd : msg.ctrl.cmd = cmdPublish) (prio : ℕ) :
    ∃ topic, str msg.data.bytes = some topic ∧
      ((∀ tr x, Exec (brokerDispatch s msg prio) tr x →
          ∀ k, copies (sendsTo k tr) ≠ [] → WellFormed topic) ↔
        WellFormed topic ∨ ∀ k, ¬Reaches s topic k) := by
  obtain ⟨topic, ht, -⟩ := id ha
  have hlen : topic.length < cfg.msgMax := by simpa using length_lt_of_str ht
  refine ⟨topic, ht, fun h => ?_, ?_⟩
  · refine or_iff_not_imp_left.2 fun hwf k hk => ?_
    obtain ⟨tr, x, hx, hne⟩ := exists_exec_copies hs ha hcmd prio ht hk
    exact hwf (h tr x hx k hne)
  · rintro (hwf | hno) tr x hx k hne
    · exact hwf
    · obtain ⟨e, he⟩ := List.exists_mem_of_ne_nil _ hne
      obtain ⟨ho, hm, -⟩ := (copies_of_publish hcmd ht hx k).2.1 e he
      exact absurd ((reaches_iff hs hlen k).2 ⟨ho, hm⟩) (hno k)

/-- The broker, with a client subscribed to `/a/b`. -/
def subscribedAB : Option (Broker smallest) :=
  feed (answers smallest true)
    [([111, 0, 0, 0, 47, 99, 0], 0), ([115, 0, 0, 0, 47, 97, 47, 98, 0], 0)] (started smallest)

/-- A message published on `/a//b` is delivered to a client subscribed to `/a/b`. -/
theorem malformed_delivered : ∃ (s : Broker smallest) (tr : Trace smallest)
    (x : Broker smallest × ℤ) (topic : CString),
    (brokerLts smallest psmqdCfgInit).Reachable s ∧
    Accepted (received smallest [112, 0, 0, 0, 47, 97, 47, 47, 98, 0]) ∧
    Exec (brokerDispatch s (received smallest [112, 0, 0, 0, 47, 97, 47, 47, 98, 0]) 0) tr x ∧
    copies (sendsTo 0 tr) ≠ [] ∧
    str (received smallest [112, 0, 0, 0, 47, 97, 47, 47, 98, 0]).data.bytes = some topic ∧
    topic.bytes = [47, 97, 47, 47, 98] ∧ ¬WellFormed topic := by
  obtain ⟨s, tr, x, hs, hx, hne⟩ : ∃ s tr x, subscribedAB = some s ∧
      eval (answers smallest true) [] (brokerDispatch s
        (received smallest [112, 0, 0, 0, 47, 97, 47, 47, 98, 0]) 0) = some (tr, x) ∧
      copies (sendsTo 0 tr) ≠ [] := ⟨_, _, _, rfl, rfl, by decide⟩
  have hr := (reachable_of_feed hs (reachable_started psmqdCfgInit) (by decide)).1
  exact ⟨s, tr, x, ⟨[47, 97, 47, 47, 98], by decide⟩, hr,
    ⟨⟨[47, 97, 47, 47, 98], by decide⟩, by decide, by decide, by decide⟩, exec_of_eval hx, hne,
    by decide, rfl, by decide⟩

/-- A message published on `/a/` is not delivered to a client subscribed to `/a/b`. -/
theorem malformed_not_delivered_trailing : ∃ s, subscribedAB = some s ∧
    ∀ tr x, Exec (brokerDispatch s (received smallest [112, 0, 0, 0, 47, 97, 47, 0]) 0) tr x →
      copies (sendsTo 0 tr) = [] := by
  obtain ⟨s, hs, hno⟩ : ∃ s, subscribedAB = some s ∧ ∀ k, ∀ t ∈ (s.clients k).topics,
      ¬LoopMatches (partsOf ⟨[47, 97, 47], by decide⟩) (partsOf t) := ⟨_, rfl, by decide⟩
  have hr := (reachable_of_feed hs (reachable_started psmqdCfgInit) (by decide)).1
  have ha : Accepted (received smallest [112, 0, 0, 0, 47, 97, 47, 0]) :=
    ⟨⟨[47, 97, 47], by decide⟩, by decide, by decide, by decide⟩
  obtain ⟨topic, ht, h⟩ := malformed_not_delivered_iff hr ha (by decide) 0
  have hslash : str (received smallest [112, 0, 0, 0, 47, 97, 47, 0]).data.bytes =
      some ⟨[47, 97, 47], by decide⟩ := by decide
  obtain rfl := Option.mem_unique hslash ht
  have hnone := h.2 <| .inr fun k hk => by
    obtain ⟨-, sub, hmem, hm⟩ := hk
    exact hno k _ hmem (by rwa [partsOf_topicOf])
  refine ⟨s, hs, fun tr x hx => ?_⟩
  by_contra hne
  exact absurd (hnone tr x hx 0 hne) (by decide)

end Psmq
