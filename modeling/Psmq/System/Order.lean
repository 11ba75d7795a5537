import Psmq.System.Mail

/-!
# The order of the messages

The broker puts a message on every queue once at most (`Relays`, `Served`), and
only copies of the one it has taken (`BrokerProc.Hands`). A client publishes the
message of `psmq_publish_prio` with this call only, once (`ClientProc.Posts`).

As long as a queue is opened once at most, the messages a client reads are, for
each of those who have published them and each priority, some of those whose
`psmq_publish_prio` has returned 0, in the same order, each of them once at most,
with their topics and payloads (`messages_in_order`).
-/

namespace Psmq

open CMem Prog PrioQueue

variable {cfg : Config} {pc : PsmqdCfg} {names : QueueNames pc}

/-- The broker does not open the queue of a client again: each is the subject of
    one open request. -/
def OpensOnce (X : Sys cfg × Mail) (l : SysLabel cfg) : Prop :=
  ∀ q ∈ l.opens X.1, q ∉ X.2.opened

/-! ## What is relayed -/

section Calls

variable {p : Pid} {os os' : Os} {o : Op cfg} {r : Op.Res o} {R : Relay Published Qid} {q : Qid}
  {post : Option Published} {e : Event (Op cfg) Op.Res} {R' : Relay Published Qid}

/-- The messages go from the control queue, once it is created, to the others. -/
def Relays (os : Os) (R : Relay Published Qid) : Prop :=
  ∃ inbox, (∀ q, os.creator q = some .broker ↔ inbox = some q) ∧ R.Sound Published.prio inbox

variable {owner : CString → Option ℕ} {φ : ℕ → ClientPhase} {h : Held cfg} {i : ℕ} {job : Job cfg}

/-- What a client publishes comes to the control queue, and what it reads comes
    from another one. -/
theorem Relays.client_step (hR : Relays os R) (hw : Wired pc owner os φ h)
    (hpre : clientPre pc owner i (φ i) o) (hst : OsStep (.client i) os o r os')
    (hpost : ∀ m ∈ post, ∃ src mq msg len,
      (⟨o, r⟩ : Event (Op cfg) Op.Res) = ⟨.mqSend src mq msg len m.prio, .ok ()⟩) :
    Relays os' (relayCall (.client i) post os os' R ⟨o, r⟩) := by
  obtain ⟨inbox, hinbox, hs⟩ := hR
  refine ⟨inbox, fun q => ?_, ?_⟩
  · rw [← hinbox]
    exact ⟨fun hq => (hst.creator_eq hq).resolve_right fun hc => (nomatch hc.1), hst.creator⟩
  · have hcall : RelayStep (.client i) post os os' R ⟨o, r⟩ _ := relayCall_step hst
    generalize relayCall (.client i) post os os' R ⟨o, r⟩ = R' at hcall
    cases hcall with
    | same => exact hs
    | clear => exact hs.clear _
    | put => exact hs.put _ _
    | @publish src mq msg len prio q m he hq hm =>
      obtain rfl : prio = m.prio := by
        obtain ⟨_, _, _, _, he'⟩ := hpost m hm
        obtain ⟨ho, -⟩ := Sigma.mk.inj_iff.1 (he.symm.trans he')
        injection ho
      have hput : putBy (.client i) os ⟨o, r⟩ =
          some (q, ⟨msg.toBytes.take len, m.prio, .client i, os.fd (.client i) src⟩) := by
        simp [he, putBy, hq]
      obtain rfl := (hinbox q).1 (hw.request_of_putBy hpre hput).1
      exact hs.publish m
    | deliver he =>
      obtain ⟨rfl, -⟩ := Sigma.mk.inj_iff.1 he
      exact hpre.elim
    | drop => exact hs.drop _
    | read => exact hs.read _

/-- The broker only sends a message that is published to a client in a slot,
    that it has not sent it yet. -/
theorem slot_of_publish {slot : Option (Slot cfg)} {mq : Mqd} {msg : PsmqMsg cfg} {len prio : ℕ}
    {timeout : UInt16} (hpre : jobPre pc h job (.mqTimedsend slot mq msg len prio timeout))
    (hcmd : (received cfg (msg.toBytes.take len)).ctrl.cmd = cmdPublish) :
    ∃ s x k, job = .handle s x ∧ slot = some k ∧ mq = h.mq (.slot k) ∧ prio = x.prio ∧
      h.served k = false := by
  cases job with
  | start => exact hpre.elim
  | handle s x =>
    change h.MaySend x slot mq (msg.toBytes.take len) prio at hpre
    generalize msg.toBytes.take len = bytes at hpre hcmd
    cases hpre with
    | offer hc => exact cmd_absurd hcmd hc
    | refuse hc => exact cmd_absurd hcmd hc
    | close hc => exact cmd_absurd hcmd hc
    | @publish k _ _ _ hserved => exact ⟨s, x, k, rfl, rfl, rfl, rfl, hserved⟩
    | reply hc => simp [hcmd] at hc
  | stop =>
    obtain ⟨_, -, -, hc, -⟩ := hpre
    exact cmd_absurd hcmd hc

/-- The message taken is the one the broker handles. -/
def Job.Hands (hand : Option Published) : Job cfg → Prop
  | .handle _ x => hand.map Published.content = publication cfg x.bytes ∧
      ∀ m ∈ hand, m.prio = x.prio
  | _ => True

/-- The queues that have been sent the message taken: the broker holds them in
    slots whose clients it has served, if it still does. -/
def Served (R : Relay Published Qid) (fds : ℕ → Option Qid) (opened : List Qid)
    (h : Held cfg) : Prop :=
  ∀ q ∈ R.served, q ∈ opened ∧ h.queue fds .spare ≠ some q ∧
    ∀ k, h.queue fds (.slot k) = some q → h.served k = true

theorem Relays.broker_step {opened : List Qid} (hR : Relays os R) (hw : Wired pc owner os φ h)
    (hv : Served R (os.fds .broker) opened h) (hhand : job.Hands R.hand)
    (hpre : jobPre pc h job o) (hst : OsStep .broker os o r os') :
    Relays os' (relayCall .broker none os os' R ⟨o, r⟩) := by
  obtain ⟨inbox, hinbox, hs⟩ := hR
  by_cases hcreator : os'.creator = os.creator
  · refine ⟨inbox, by rwa [hcreator], ?_⟩
    have hcall : RelayStep .broker none os os' R ⟨o, r⟩ _ := relayCall_step hst
    generalize relayCall .broker none os os' R ⟨o, r⟩ = R' at hcall
    cases hcall with
    | same => exact hs
    | clear hnone hq =>
      rw [hcreator, hnone] at hq
      exact nomatch hq
    | put => exact hs.put _ _
    | publish _ _ hm => exact nomatch hm
    | deliver he hcmd hq =>
      obtain ⟨rfl, -⟩ := Sigma.mk.inj_iff.1 he
      obtain ⟨s, x, k, rfl, rfl, rfl, rfl, hserved⟩ := slot_of_publish hpre hcmd
      -- The queue is that of a client, which has not been sent the message.
      refine hs.deliver (fun heq => ?_) (fun hq' => ?_) fun m hm => (hhand.2 m hm).symm
      · obtain ⟨i, hi⟩ := hw.places (.slot k) _ (by simp) hq
        rw [(hinbox _).2 heq.symm] at hi
        exact nomatch hi
      · rw [(hv _ hq').2.2 k hq] at hserved
        exact nomatch hserved
    | drop => exact hs.drop _
    | read hp => exact absurd rfl hp
  · -- The control queue is created: there was none.
    cases hst with
    | @created name flags d q hname hcreat hnone =>
      obtain ⟨-, hctrl, -⟩ := start_of_creat hpre hcreat
      have hold := hw.fresh hctrl
      obtain rfl : inbox = none := by
        by_contra hne
        obtain ⟨q', hq'⟩ := Option.ne_none_iff_exists'.1 hne
        exact hold q' ((hinbox q').2 hq')
      refine ⟨some q, fun q' => ⟨fun hq' => ?_, fun hq' => ?_⟩, ?_⟩
      · by_contra hne
        rw [(OsStep.created_of_ne fun heq => hne (congrArg some heq.symm)).1] at hq'
        exact hold q' hq'
      · obtain rfl := Option.some.inj hq'
        exact OsStep.created_creator
      · simp only [relayCall, hname, if_true, Os.setFd_self, Option.elim]
        exact (hs.clear q).open_inbox Relay.clear_queue_self
    | closed => exact absurd OsStep.closed_eq.2.1 hcreator
    | _ => exact absurd rfl hcreator

/-- A client that has been sent the message stays marked so. -/
theorem Held.Step.served {fds' : ℕ → Option Qid} {h' : Held cfg} (hst : h.Step os job e fds' h')
    {k : Slot cfg} (hk : h.served k = true) : h'.served k = true := by
  cases hst with
  | @sent slot =>
    cases slot with
    | none => exact hk
    | some j =>
      rw [Held.onSend]
      split_ifs
      · exact hk
      · exact hk
      · exact hk
      · by_cases hkj : k = j
        · subst hkj
          exact Function.update_self ..
        · exact (Function.update_of_ne hkj ..).trans hk
      · exact hk
      · exact hk
  | _ => exact hk

theorem Served.step {opened : List Qid} (hv : Served R (os.fds .broker) opened h)
    (hsole : h.Sole (os.fds .broker) opened) (hs : job ≠ .stop → h.Sound (os.fds .broker))
    (hpre : jobPre pc h job o) (hst : OsStep .broker os o r os')
    (hnew : ∀ q ∈ openedBy os ⟨o, r⟩, q ∉ opened) :
    Served (relayCall .broker none os os' R ⟨o, r⟩) (os'.fds .broker)
      (opened ++ (openedBy os ⟨o, r⟩).toList) (jobNext h job o r) := by
  have hstep := jobNext_step hst hpre
  intro q hq
  rcases (relayCall_step hst).mem_served hq with hold | ⟨_, _, msg, len, _, timeout, he, hcmd, hfd⟩
  · obtain ⟨hopened, hspare, hslots⟩ := hv q hold
    refine ⟨List.mem_append_left _ hopened, fun hq => ?_, fun k hk => ?_⟩
    · rcases hstep.queue hs hpre hq with hq | ⟨ha, -⟩ | ⟨-, hopen⟩ | ⟨_, ha, -⟩ | ⟨_, ha, -⟩
      · exact hspare hq
      · exact nomatch ha
      · exact hnew q hopen hopened
      · exact nomatch ha
      · exact nomatch ha
    · rcases hstep.queue hs hpre hk with hq | ⟨ha, -⟩ | ⟨ha, -⟩ | ⟨_, -, -, hq, -⟩ | ⟨_, ha, -⟩
      · exact hstep.served (hslots k hq)
      · exact nomatch ha
      · exact nomatch ha
      · exact absurd hq hspare
      · exact nomatch ha
  · -- The queue is sent the message: it is in one place, the slot of the client served.
    obtain ⟨rfl, hr⟩ := Sigma.mk.inj_iff.1 he
    obtain rfl := eq_of_heq hr
    obtain ⟨s, x, k, rfl, rfl, rfl, rfl, -⟩ := slot_of_publish hpre hcmd
    have hfds : os'.fds .broker = os.fds .broker := by
      cases hst
      rfl
    have hnext : jobNext h (.handle s x) (.mqTimedsend (some k) (h.mq (.slot k)) msg len x.prio
        timeout) true = h.serve k := by
      rw [jobNext_mqTimedsend rfl, hcmd, Held.onSend_publish, if_pos rfl]
    rw [hfds, hnext]
    refine ⟨List.mem_append_left _ (hsole.opened (.slot k) q (by simp) hfd), fun hq' => ?_,
      fun j hj => ?_⟩
    · exact nomatch hsole.inj .spare (.slot k) q (by simp) (by simp) hq' hfd
    · obtain rfl := Place.slot.inj (hsole.inj (.slot j) (.slot k) q (by simp) (by simp) hj hfd)
      exact Function.update_self ..

end Calls

/-! ## What is published -/

/-- The message is published by the client `i`, from the queue of `psmq`, with
    this priority and this content. -/
def Published.IsOf (os : Os) (i : ℕ) (psmq : PsmqObj) (prio : ℕ) (c : Content) (m : Published) :
    Prop :=
  m.via = os.fd (.client i) psmq.qsub ∧ m.prio = prio ∧ m.content = c

/-- What the call a client is making has published: a call of `psmq_publish_prio`
    has published nothing yet, or it is done, and returns 0 just if it has
    published its message; another one publishes nothing. -/
def ClientProc.Posts (os : Os) (i : ℕ) (post : Option Published) : ClientProc cfg → Prop
  | busy (.publish topic payload paylen prio) psmq tr p =>
    (tr = [] ∧ p = (Call.publish topic payload paylen prio).prog psmq ∧ post = none) ∨
    (p = .ret psmq ∧ ∃ r, Exec (psmqPublishPrio psmq topic payload paylen prio : P cfg _) tr r ∧
      (r = .ok () ↔ post ≠ none) ∧
      ∀ m ∈ post, m.IsOf os i psmq prio (.ofCall topic payload paylen))
  | busy _ _ _ p => p.Only (·.sends cmdPublish = false) ∧ post = none
  | idle _ => post = none

section Posts

variable {os os' : Os} {i : ℕ} {post : Option Published} {c : ClientProc cfg}

/-- What the other processes do changes nothing to it. -/
theorem ClientProc.Posts.of_fds (hc : c.Posts os i post)
    (hfds : os'.fds (.client i) = os.fds (.client i)) : c.Posts os' i post := by
  cases c with
  | idle => exact hc
  | busy call psmq tr p =>
    cases call with
    | publish =>
      simp only [ClientProc.Posts, Published.IsOf, Os.fd, hfds] at hc ⊢
      exact hc
    | _ => exact hc

theorem ClientProc.posts_call (call : Call cfg) (psmq : PsmqObj) :
    (ClientProc.busy call psmq [] (call.prog psmq)).Posts os i none := by
  cases call with
  | publish => exact .inl ⟨rfl, rfl, rfl⟩
  | _ => exact ⟨Call.only_not_sending (by rw [Call.cmd]; decide), rfl⟩

/-- A call that has published something is one of `psmq_publish_prio`. -/
theorem ClientProc.Posts.publishing {m : Published} (hc : c.Posts os i (some m)) :
    ∃ topic payload paylen prio psmq tr p,
      c = .busy (.publish topic payload paylen prio) psmq tr p := by
  cases c with
  | idle => exact nomatch hc
  | busy call psmq tr p =>
    cases call with
    | publish topic payload paylen prio => exact ⟨topic, payload, paylen, prio, psmq, tr, p, rfl⟩
    | _ => exact nomatch hc.2

/-- A call that goes on has published nothing. -/
theorem ClientProc.Posts.eq_none {call : Call cfg} {psmq : PsmqObj} {tr : Trace cfg} {o : Op cfg}
    {k : Op.Res o → P cfg PsmqObj}
    (hc : (ClientProc.busy call psmq tr (.call o k)).Posts os i post) : post = none := by
  cases call with
  | publish => exact (Or.resolve_right hc fun hret => nomatch hret.1).2.2
  | _ => exact hc.2

/-- A call of `psmq_publish_prio` that returns has published its message, or failed. -/
theorem ClientProc.Posts.exec {topic : Option CString} {payload : Option Ptr} {paylen prio : ℕ}
    {psmq psmq' : PsmqObj} {tr : Trace cfg}
    (hc : (ClientProc.busy (.publish topic payload paylen prio) psmq tr (.ret psmq')).Posts os i
      post) :
    ∃ r, Exec (psmqPublishPrio psmq topic payload paylen prio : P cfg _) tr r ∧
      (r = .ok () ↔ post ≠ none) ∧
      ∀ m ∈ post, m.IsOf os i psmq prio (.ofCall topic payload paylen) := by
  rcases hc with ⟨rfl, hprog, rfl⟩ | ⟨-, h⟩
  · -- The call has failed at once.
    rw [Call.prog] at hprog
    have hsends : SendsOnce psmq prio (.ofCall topic payload paylen)
        (psmqPublishPrio psmq topic payload paylen prio : P cfg _) := sendsOnce_psmqPublishPrio
    rcases hsends with ⟨e, heq⟩ | ⟨f, heq⟩ | ⟨pub, len, heq, -⟩
    · exact ⟨.error e, heq ▸ .ret _, iff_of_false nofun (fun h => h rfl), nofun⟩
    · rw [heq] at hprog
      exact nomatch hprog
    · rw [heq] at hprog
      exact nomatch hprog
  · exact h

/-- A call of a client going on, the `n`th message being published if it publishes one. -/
theorem ClientProc.Posts.op {S : Sys cfg} {call : Call cfg} {psmq : PsmqObj} {tr : Trace cfg}
    {o : Op cfg} {k : Op.Res o → P cfg PsmqObj} {r : Op.Res o} {n : ℕ}
    (hc : (ClientProc.busy call psmq tr (.call o k)).Posts S.os i post)
    (hst : OsStep (.client i) S.os o r os') :
    (ClientProc.busy call psmq (tr ++ [⟨o, r⟩]) (k r)).Posts os' i
      (((SysLabel.clientOp i ⟨o, r⟩).post S n).elim post some) := by
  have hother (h : (Prog.call o k).Only (·.sends cmdPublish = false) ∧ post = none) :
      (k r).Only (·.sends cmdPublish = false) ∧
        ((SysLabel.clientOp i ⟨o, r⟩).post S n).elim post some = none := by
    refine ⟨h.1.2 r, ?_⟩
    have hnone : (SysLabel.clientOp i ⟨o, r⟩).post S n = none := by
      cases o with
      | mqSend src mq msg len prio =>
        cases r with
        | error e => rfl
        | ok u => rw [SysLabel.post, publication_of_not_sends h.1.1, Option.map_none]
      | _ => rfl
    rw [hnone, h.2]
    rfl
  cases call with
  | publish topic payload paylen prio =>
    obtain ⟨rfl, hp, rfl⟩ := Or.resolve_right hc fun hret => nomatch hret.1
    rw [Call.prog] at hp
    have hsends : SendsOnce psmq prio (.ofCall topic payload paylen)
        (psmqPublishPrio psmq topic payload paylen prio : P cfg _) := sendsOnce_psmqPublishPrio
    rcases hsends with ⟨e, heq⟩ | ⟨f, heq⟩ | ⟨pub, len, heq, hpub⟩
    · simp [heq] at hp
    · simp [heq] at hp
    · rw [heq, call_bind] at hp
      obtain ⟨rfl, hk⟩ := Prog.call.inj hp
      obtain rfl := eq_of_heq hk
      refine .inr ⟨rfl, r, heq ▸ .call (.ret r), ?_⟩
      cases hst with
      | sendFail => exact ⟨iff_of_false nofun (fun h => h rfl), nofun⟩
      | sent =>
        rw [SysLabel.post, hpub]
        refine ⟨iff_of_true rfl (Option.some_ne_none _), fun m hm => ?_⟩
        obtain rfl := Option.some.inj hm
        exact ⟨rfl, rfl, rfl⟩
  | _ => exact hother hc

end Posts

/-! ## The invariant -/

variable {X X' : Sys cfg × Mail} {S S' : Sys cfg} {M : Mail} {φ : ℕ → ClientPhase} {h : Held cfg}

/-- A job only publishes copies of the message it handles. -/
def Job.Copies (p : P cfg (Broker cfg)) : Job cfg → Prop
  | .handle _ x => p.Only (Op.ofHandler (IsCopy x.bytes))
  | _ => True

/-- What the broker is doing is about the message taken. -/
def BrokerProc.Hands (hand : Option Published) : BrokerProc cfg → Prop
  | busy job _ p => job.Hands hand ∧ job.Copies p
  | _ => True

/-- The messages are relayed in order, and what the processes do agrees with it. -/
structure Ordered (pc : PsmqdCfg) (owner : CString → Option ℕ) (S : Sys cfg) (M : Mail)
    (φ : ℕ → ClientPhase) (h : Held cfg) : Prop where
  wired : S.Wired pc owner φ h
  sole : h.Sole (S.os.fds .broker) M.opened
  served : Served M.relay (S.os.fds .broker) M.opened h
  hand : S.broker.Hands M.relay.hand
  synced : Synced cfg M.relay S.os
  relays : Relays S.os M.relay
  numbered : M.relay.log.map Published.num = List.range M.relay.log.length
  accounted : Relay.Accounted M.relay.log M.sent M.returned
  posts : ∀ i, (S.clients i).Posts S.os i (M.sent i)
  reads : M.Reads cfg

theorem Ordered.init (names : QueueNames pc) :
    Ordered pc names.owner (.start cfg pc) .init (fun _ => .out) Held.init where
  wired := .init names
  sole := .init _
  served := nofun
  hand := ⟨trivial, trivial⟩
  synced _ := rfl
  relays := ⟨none, fun _ => ⟨nofun, nofun⟩, .init⟩
  numbered := rfl
  accounted := .init
  posts _ := rfl
  reads _ := rfl

/-- A message published is the next one. -/
theorem numbered_append {l : List Published} (hl : l.map Published.num = List.range l.length)
    {post : Option Published} (hpost : ∀ m ∈ post, m.num = l.length) :
    (l ++ post.toList).map Published.num = List.range (l ++ post.toList).length := by
  cases post with
  | none => simpa using hl
  | some m =>
    rw [Option.toList_some, List.map_append, hl, List.length_append, List.length_singleton,
      List.range_succ]
    simp [hpost m rfl]

theorem notMem_of_num {l : List Published} (hl : l.map Published.num = List.range l.length)
    {m : Published} (hm : m.num = l.length) : m ∉ l := fun hmem => by
  have := hl ▸ List.mem_map_of_mem (f := Published.num) hmem
  simp [hm] at this

/-! ## Its steps -/

namespace Mail

theorem after_eq {l : SysLabel cfg} (hrelay : l.relay S S' M.relay = M.relay)
    (hopens : l.opens S = none) (hsent : l.sent S M = M.sent) (hsettles : l.settles M = none)
    (hreceives : l.receives S = none) : M.after S l S' = M := by
  simp only [after, hrelay, hopens, hsent, hsettles, hreceives, Option.toList_none,
    List.append_nil, Option.elim]

theorem opened_clientOp {i : ℕ} {e : Event (Op cfg) Op.Res} :
    (M.after S (.clientOp i e) S').opened = M.opened := List.append_nil _

theorem returned_clientOp {i : ℕ} {e : Event (Op cfg) Op.Res} :
    (M.after S (.clientOp i e) S').returned = M.returned := List.append_nil _

theorem after_take {x : Item} {s : Broker cfg} {q : Qid} (hb : S.broker = .idle s)
    (hq : S.os.fd .broker s.qctrl = some q) :
    M.after S (.take x) S' = { M with relay := M.relay.take q } := by
  simp only [after, SysLabel.relay, SysLabel.opens, SysLabel.sent, SysLabel.settles,
    SysLabel.receives, hb, hq, Option.elim, Option.toList_none, List.append_nil]

theorem after_return {i : ℕ} : M.after S (.return i) S' = { M with
    sent := Function.update M.sent i none, returned := M.returned ++ (M.sent i).toList } := by
  simp only [after, SysLabel.opens, SysLabel.receives, SysLabel.settles, SysLabel.sent,
    Option.toList_none, List.append_nil, Option.elim]
  rfl

theorem after_brokerOp {e : Event (Op cfg) Op.Res} : M.after S (.brokerOp e) S' = { M with
    relay := relayCall .broker none S.os S'.os M.relay e
    opened := M.opened ++ (openedBy S.os e).toList } := by
  simp only [after, SysLabel.opens, SysLabel.receives, SysLabel.settles, SysLabel.sent,
    Option.toList_none, List.append_nil, Option.elim]
  rfl

end Mail

namespace SysLabel

variable {i : ℕ} {o : Op cfg} {r : Op.Res o} {n : ℕ} {m : Published}

theorem post_eq_some (hm : (clientOp i ⟨o, r⟩ : SysLabel cfg).post S n = some m) :
    m.num = n ∧ ∃ src mq msg len,
      (⟨o, r⟩ : Event (Op cfg) Op.Res) = ⟨.mqSend src mq msg len m.prio, .ok ()⟩ := by
  cases o with
  | mqSend src mq msg len prio =>
    cases r with
    | error => exact nomatch hm
    | ok =>
      obtain ⟨c, -, rfl⟩ := Option.map_eq_some_iff.1 hm
      exact ⟨rfl, src, mq, msg, len, rfl⟩
  | _ => exact nomatch hm

theorem sent_self : (clientOp i ⟨o, r⟩ : SysLabel cfg).sent S M i =
    ((clientOp i ⟨o, r⟩ : SysLabel cfg).post S M.relay.log.length).elim (M.sent i) some := by
  rw [sent]
  cases (clientOp i ⟨o, r⟩ : SysLabel cfg).post S M.relay.log.length with
  | none => rfl
  | some m => exact Function.update_self ..

theorem sent_of_ne {j : ℕ} (hj : j ≠ i) :
    (clientOp i ⟨o, r⟩ : SysLabel cfg).sent S M j = M.sent j := by
  rw [sent]
  cases (clientOp i ⟨o, r⟩ : SysLabel cfg).post S M.relay.log.length with
  | none => rfl
  | some m => exact Function.update_of_ne hj ..

end SysLabel

/-- What a client sends publishes what is logged. -/
theorem posting_client {owner : CString → Option ℕ} {i n : ℕ} {φ : ClientPhase} {o : Op cfg}
    {r : Op.Res o} {R : Relay Published Qid} (hpre : clientPre pc owner i φ o) :
    Posting ((SysLabel.clientOp i ⟨o, r⟩).post S n) R ⟨o, r⟩ := by
  cases o with
  | mqSend src mq msg len prio =>
    cases r with
    | error e => trivial
    | ok u =>
      rw [Posting, SysLabel.post, Option.map_map]
      exact Option.map_id'.symm
  | mqTimedsend => exact hpre.elim
  | _ => trivial

/-- What the broker publishes is a copy of the message taken. -/
theorem posting_broker {job : Job cfg} {o : Op cfg} {r : Op.Res o}
    {k : Op.Res o → P cfg (Broker cfg)} {R : Relay Published Qid} (hhand : job.Hands R.hand)
    (hcopies : job.Copies (.call o k)) (hpre : jobPre pc h job o) : Posting none R ⟨o, r⟩ := by
  cases o with
  | mqSend => cases job <;> exact hpre.elim
  | mqTimedsend slot mq msg len prio timeout =>
    cases r with
    | false => trivial
    | true =>
      intro hcmd
      obtain ⟨s, x, j, rfl, -⟩ := slot_of_publish hpre hcmd
      obtain ⟨⟨hlen, hcopy⟩, -⟩ := hcopies
      rw [received, recvInto_ctrl _ _ hlen] at hcmd
      rw [hcopy hcmd len hlen, hhand.1]
  | _ => trivial

namespace Ordered

variable {φ' : ℕ → ClientPhase}

theorem clientOp (ho : Ordered pc names.owner S M φ h) {i : ℕ} {e : Event (Op cfg) Op.Res}
    (hst : SysStep pc names S (.clientOp i e) S') (hwired : S'.Wired pc names.owner φ' h) :
    Ordered pc names.owner S' (M.after S (.clientOp i e) S') φ' h := by
  cases hst with
  | @clientOp _ call psmq tr o k r os' hi hos =>
    have hpre : clientPre pc names.owner i (φ i) o := by
      have hc := ho.wired.clients i
      rw [hi] at hc
      exact hc.op.1
    have hfds : os'.fds .broker = S.os.fds .broker := hos.fds_of_ne nofun
    have hpost : ∀ m ∈ (SysLabel.clientOp i ⟨o, r⟩).post S M.relay.log.length, m.num = _ ∧ _ :=
      fun m hm => SysLabel.post_eq_some hm
    have hlog := relayCall_log (R := M.relay) hos fun m hm => (hpost m hm).2
    have hcall : RelayStep (.client i) ((SysLabel.clientOp i ⟨o, r⟩).post S M.relay.log.length)
      S.os os' M.relay ⟨o, r⟩ _ := relayCall_step hos
    have hposts := ho.posts i
    rw [hi] at hposts
    obtain ⟨inbox, -, hs⟩ := ho.relays
    refine ⟨hwired, ?_, fun q hq => ?_, ?_, ho.synced.call hos (posting_client hpre),
      ho.relays.client_step ho.wired.os hpre hos fun m hm => (hpost m hm).2, ?_, ?_, fun j => ?_,
      ho.reads.clientOp ho.synced hs hos⟩
    · show h.Sole (os'.fds .broker) _
      rw [hfds, Mail.opened_clientOp]
      exact ho.sole
    · show q ∈ _ ∧ h.queue (os'.fds .broker) .spare ≠ some q ∧
        ∀ k, h.queue (os'.fds .broker) (.slot k) = some q → h.served k = true
      rw [hfds, Mail.opened_clientOp]
      rcases hcall.mem_served hq with hq | ⟨_, _, _, _, _, _, he, -⟩
      · exact ho.served q hq
      · obtain ⟨rfl, -⟩ := Sigma.mk.inj_iff.1 he
        exact hpre.elim
    · show S.broker.Hands (relayCall _ _ _ _ _ _).hand
      rw [hcall.hand_eq]
      exact ho.hand
    · show (relayCall _ _ _ _ _ _).log.map Published.num =
        List.range (relayCall _ _ _ _ _ _).log.length
      rw [hlog]
      exact numbered_append ho.numbered fun m hm => (hpost m hm).1
    · show Relay.Accounted (relayCall _ _ _ _ _ _).log ((SysLabel.clientOp i ⟨o, r⟩).sent S M) _
      rw [hlog, Mail.returned_clientOp, SysLabel.sent]
      cases hp : (SysLabel.clientOp i ⟨o, r⟩).post S M.relay.log.length with
      | none => simpa using ho.accounted
      | some m =>
        exact ho.accounted.publish hposts.eq_none (notMem_of_num ho.numbered (hpost m hp).1)
    · show ((S.setClient i _).clients j).Posts os' j ((SysLabel.clientOp i ⟨o, r⟩).sent S M j)
      by_cases hj : j = i
      · subst hj
        rw [Sys.setClient_self, SysLabel.sent_self]
        exact hposts.op hos
      · rw [Sys.setClient_of_ne hj, SysLabel.sent_of_ne hj]
        exact (ho.posts j).of_fds (hos.fds_of_ne (by simpa using hj))

theorem take (ho : Ordered pc names.owner S M φ h) {x : Item}
    (hst : SysStep pc names S (.take x) S') (hwired : S'.Wired pc names.owner φ' h.begin) :
    Ordered pc names.owner S' (M.after S (.take x) S') φ' h.begin := by
  cases hst with
  | @take s q _ l hb hq hl =>
    obtain ⟨inbox, hinbox, hs⟩ := ho.relays
    have htracks := ho.wired.tracks
    rw [hb] at htracks
    -- The control queue is the inbox.
    obtain rfl : inbox = some q := by
      refine (hinbox q).1 (ho.wired.os.ctrl q ?_)
      rwa [Held.queue, ← htracks.obeys.1]
    have hserved : Served (M.relay.take q) (S.os.fds .broker) M.opened h.begin := fun q' hq' => by
      simp [Relay.take] at hq'
    rw [Mail.after_take hb hq]
    exact ⟨hwired, ho.sole.of_mq rfl, hserved, ⟨ho.synced.head_eq hs hl, only_copies⟩,
      ho.synced.drop hl, ⟨some q, hinbox, hs.take⟩, ho.numbered, ho.accounted,
      fun i => (ho.posts i).of_fds rfl, ho.reads⟩

theorem brokerOp (ho : Ordered pc names.owner S M φ h) {e : Event (Op cfg) Op.Res}
    (hst : SysStep pc names S (.brokerOp e) S')
    (hwired : S'.Wired pc names.owner φ' (h.after S (.brokerOp e)))
    (hl : OpensOnce (S, M) (.brokerOp e)) :
    Ordered pc names.owner S' (M.after S (.brokerOp e) S') φ' (h.after S (.brokerOp e)) := by
  cases hst with
  | @brokerOp job tr o k r os' hb hos =>
    have htracks := ho.wired.tracks
    have hhand := ho.hand
    rw [hb] at htracks hhand
    obtain ⟨hpre, hstep, -⟩ := htracks.op hos
    have hafter : h.after S (.brokerOp ⟨o, r⟩) = jobNext h job o r := by
      rw [Held.after, hb]
    have hcall : RelayStep .broker none S.os os' M.relay ⟨o, r⟩ _ := relayCall_step hos
    have hcopies : job.Copies (k r) := by
      cases job with
      | handle s x => exact hhand.2.2 r
      | _ => trivial
    rw [hafter] at hwired ⊢
    rw [Mail.after_brokerOp]
    refine ⟨hwired, ho.sole.step htracks.sound hpre hstep hl,
      ho.served.step ho.sole htracks.sound hpre hos hl, ⟨?_, hcopies⟩,
      ho.synced.call hos (posting_broker hhand.1 hhand.2 hpre),
      ho.relays.broker_step ho.wired.os ho.served hhand.1 hpre hos, ?_, ?_,
      fun i => (ho.posts i).of_fds (hos.fds_of_ne (by simp)), fun q => ?_⟩
    · rw [hcall.hand_eq]
      exact hhand.1
    · rw [hcall.log_eq]
      exact ho.numbered
    · rw [hcall.log_eq]
      exact ho.accounted
    · rw [hcall.got_eq]
      exact ho.reads q

theorem «return» (ho : Ordered pc names.owner S M φ h) {i : ℕ}
    (hst : SysStep pc names S (.return i) S') (hwired : S'.Wired pc names.owner φ' h) :
    Ordered pc names.owner S' (M.after S (.return i) S') φ' h := by
  cases hst with
  | @«return» call psmq tr psmq' hi =>
    rw [Mail.after_return]
    refine ⟨hwired, ho.sole, ho.served, ho.hand, ho.synced, ho.relays, ho.numbered,
      ho.accounted.settle i, fun j => ?_, ho.reads⟩
    show ((S.setClient i (.idle psmq')).clients j).Posts S.os j (Function.update M.sent i none j)
    by_cases hj : j = i
    · subst hj
      rw [Sys.setClient_self, Function.update_self]
      rfl
    · rw [Sys.setClient_of_ne hj, Function.update_of_ne hj]
      exact ho.posts j

/-- A step that makes no call, and begins none, changes nothing to the messages. -/
theorem of_after_eq (ho : Ordered pc names.owner S M φ h) {l : SysLabel cfg}
    (hM : M.after S l S' = M) (hwired : S'.Wired pc names.owner φ' h) (hos : S'.os = S.os)
    (hhand : S'.broker.Hands M.relay.hand)
    (hposts : ∀ i, (S'.clients i).Posts S.os i (M.sent i)) :
    Ordered pc names.owner S' (M.after S l S') φ' h := by
  rw [hM]
  exact ⟨hwired, hos ▸ ho.sole, hos ▸ ho.served, hhand, hos ▸ ho.synced, hos ▸ ho.relays,
    ho.numbered, ho.accounted, hos ▸ hposts, ho.reads⟩

/-- Every step keeps the messages in order, as long as no queue is opened again. -/
theorem step (ho : Ordered pc names.owner S M φ h) {l : SysLabel cfg}
    (hst : SysStep pc names S l S') (hl : OpensOnce (S, M) l) :
    ∃ φ' h', Ordered pc names.owner S' (M.after S l S') φ' h' := by
  obtain ⟨φ', hwired⟩ := ho.wired.step hst
  refine ⟨φ', h.after S l, ?_⟩
  cases l with
  | clientOp i e => exact ho.clientOp hst hwired
  | take x => exact ho.take hst hwired
  | brokerOp e => exact ho.brokerOp hst hwired hl
  | «return» i => exact ho.return hst hwired
  | call i c =>
    cases hst with
    | @call _ _ psmq hi =>
      refine ho.of_after_eq (Mail.after_eq rfl rfl rfl rfl rfl) hwired rfl ho.hand fun j => ?_
      by_cases hj : j = i
      · subst hj
        have hnone := ho.posts j
        rw [hi] at hnone
        rw [Sys.setClient_self, show M.sent j = none from hnone]
        exact ClientProc.posts_call c psmq
      · rw [Sys.setClient_of_ne hj]
        exact ho.posts j
  | stop =>
    cases hst with
    | stop =>
      exact ho.of_after_eq (Mail.after_eq rfl rfl rfl rfl rfl) hwired rfl ⟨trivial, trivial⟩
        ho.posts
  | finish =>
    cases hst with
    | @finish job _ s =>
      have hhand : (job.done s).Hands M.relay.hand := by cases job <;> trivial
      exact ho.of_after_eq (Mail.after_eq rfl rfl rfl rfl rfl) hwired rfl hhand ho.posts

end Ordered

theorem Ordered.of_reachable (hX : ((mailLts cfg pc names).restrict OpensOnce).Reachable X) :
    ∃ φ h, Ordered pc names.owner X.1 X.2 φ h := by
  refine hX.invariant (P := fun X => ∃ φ h, Ordered pc names.owner X.1 X.2 φ h) ?_ ?_
  · rintro ⟨S, M⟩ ⟨hS, hM⟩
    obtain rfl : S = .start cfg pc := hS
    obtain rfl : M = .init := hM
    exact ⟨_, _, .init names⟩
  · rintro ⟨S, M⟩ l ⟨S', M'⟩ ⟨φ, h, ho⟩ ⟨⟨hst, hM⟩, hl⟩
    obtain rfl : M' = M.after S l S' := hM
    exact ho.step hst hl

/-- The messages a client reads are in order, each of them once at most: those
    with some priority, published by some other one, are some of those whose
    `psmq_publish_prio` has returned 0, in the order of these calls. The queues
    watched are those of the system, and the messages read are those received,
    with their priorities and contents. Each message published is so by one call,
    of `psmq_publish_prio`, that has returned or is being made; and such a call
    returns 0 just if it has published its message: its topic and its payload, at
    its priority, from the queue of its connection. -/
theorem messages_in_order (hX : ((mailLts cfg pc names).restrict OpensOnce).Reachable X) :
    (∀ (pub sub : Qid) (i p : ℕ), X.1.os.creator sub = some (.client i) →
      ((X.2.relay.got sub).filter fun m => m.via = some pub ∧ m.prio = p).Sublist
        (X.2.relay.log.filter fun m => m.via = some pub ∧ m.prio = p)) ∧
    X.2.relay.log.Nodup ∧
    (∀ q, (X.2.relay.queue q).map told = (X.1.os.items q).map (Item.tells cfg)) ∧
    X.2.Reads cfg ∧
    Relay.Accounted X.2.relay.log X.2.sent X.2.returned ∧
    (∀ i, ∀ m ∈ X.2.sent i, ∃ topic payload paylen prio psmq tr p,
      X.1.clients i = .busy (.publish topic payload paylen prio) psmq tr p) ∧
    ∀ i topic payload paylen prio psmq tr psmq',
      X.1.clients i = .busy (.publish topic payload paylen prio) psmq tr (.ret psmq') →
      ∃ r, Exec (psmqPublishPrio psmq topic payload paylen prio : P cfg _) tr r ∧
        (r = .ok () ↔ ∃ m ∈ X.2.sent i, m ∈ X.2.relay.log ∧ m.prio = prio ∧
          m.via = X.1.os.fd (.client i) psmq.qsub ∧
          m.content = .ofCall topic payload paylen) := by
  obtain ⟨φ, h, ho⟩ := Ordered.of_reachable hX
  refine ⟨fun pub sub i p hsub => ?_, ?_, ho.synced, ho.reads, ho.accounted, fun i m hm => ?_,
    fun i topic payload paylen prio psmq tr psmq' hi => ?_⟩
  · obtain ⟨inbox, hinbox, hs⟩ := ho.relays
    refine hs.got (fun hin => ?_) fun m m' hm hm' => ?_
    · -- The control queue is that of the broker.
      rw [(hinbox sub).2 hin.symm] at hsub
      exact nomatch hsub
    · simp only [decide_eq_true_eq] at hm hm'
      rw [hm.2, hm'.2]
  · refine List.Nodup.of_map Published.num ?_
    rw [ho.numbered]
    exact List.nodup_range
  · have hp := ho.posts i
    rw [Option.mem_def.1 hm] at hp
    exact hp.publishing
  · have hp := ho.posts i
    rw [hi] at hp
    obtain ⟨r, hexec, hr, hof⟩ := hp.exec
    refine ⟨r, hexec, hr.trans ⟨fun hne => ?_, fun ⟨m, hm, _⟩ hnone => ?_⟩⟩
    · obtain ⟨m, hm⟩ := Option.ne_none_iff_exists'.1 hne
      obtain ⟨hvia, hprio, hcontent⟩ := hof m hm
      exact ⟨m, hm, (ho.accounted.mem_log m).2 (.inr ⟨i, hm⟩), hprio, hvia, hcontent⟩
    · rw [hnone] at hm
      exact nomatch hm

instance (X : Sys cfg × Mail) (l : SysLabel cfg) : Decidable (OpensOnce X l) :=
  inferInstanceAs (Decidable (∀ q ∈ l.opens X.1, q ∉ X.2.opened))

/-- The client 0 publishes two messages, at the priorities 1 and 3, and the
    client 1, that has subscribed to their topic, reads them. -/
def relaying : List (Turn smallest) :=
  List.replicate 2 .broker ++ connecting 0 nameA 10 ++ connecting 1 nameB 10 ++
    requesting 1 (.subscribe (some nameB)) ++ List.replicate 4 .broker ++
    requesting 0 (.publish (some nameB) none 0 1) ++
    requesting 0 (.publish (some nameB) (some [7, 8]) 2 3) ++ List.replicate 6 .broker ++
    requesting 1 (.receive (.zero smallest)) ++ requesting 1 (.receive (.zero smallest))

theorem messages_in_order_two : ∃ X : Sys smallest × Mail,
    (X.2.relay.got 3).map Published.num = [1, 0] ∧
    (X.2.relay.got 3).map Published.content = [⟨some nameB, [7, 8]⟩, ⟨some nameB, []⟩] ∧
    X.2.returned = X.2.relay.log ∧ X.2.relay.log.Nodup ∧ X.2.Reads smallest ∧
    ((X.2.relay.got 3).filter fun m => m.via = some 2 ∧ m.prio = 3).Sublist
      (X.2.relay.log.filter fun m => m.via = some 2 ∧ m.prio = 3) := by
  obtain ⟨X, hX, hgot, hcontent, hreturned, hsub⟩ :
      ∃ X ∈ moves psmqdCfgInit twoNames Mail.after OpensOnce
        (relaying.map .turn) (.start smallest psmqdCfgInit, .init),
      (X.2.relay.got 3).map Published.num = [1, 0] ∧
      (X.2.relay.got 3).map Published.content = [⟨some nameB, [7, 8]⟩, ⟨some nameB, []⟩] ∧
      X.2.returned = X.2.relay.log ∧ X.1.os.creator 3 = some (.client 1) := by
    decide +kernel
  have h := messages_in_order (reachable_of_moves hX (.init ⟨rfl, rfl⟩))
  exact ⟨X, hgot, hcontent, hreturned, h.2.1, h.2.2.2.1, h.1 2 3 1 3 hsub⟩

end Psmq
