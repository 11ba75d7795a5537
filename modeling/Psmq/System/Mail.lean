import Psmq.Lib.Relay
import Psmq.System.Contents
import Psmq.System.Wiring

/-!
# The messages on the queues

What becomes of the messages published: the broker relays them from its control
queue to the queues of the clients (`Relay`). The system is watched (`Mail`):
the messages on the queues, those read, the queues the broker has opened, the
message published by the call a client is making, and those published by the
calls that have returned.

* The messages watched are those of the system: on a queue, they have the
  priorities and the contents of what is there (`Synced`), and those read have
  the priorities and the contents of what is received (`Mail.Reads`).
* A call may put a message on a queue, remove the first one, or create a queue
  (`RelayStep`).
-/

namespace Psmq

open CMem Prog PrioQueue

variable {cfg : Config} {pc : PsmqdCfg} {names : QueueNames pc}

/-! ## Watching the messages -/

/-- A message published: the queue its publisher receives on, its priority, how
    many were published before, and what it publishes. -/
structure Published where
  via : Option Qid
  prio : ℕ
  num : ℕ
  content : Content
  deriving DecidableEq

/-- What has become of the messages published. -/
structure Mail where
  relay : Relay Published Qid
  /-- The queues of clients that the broker has opened. -/
  opened : List Qid
  /-- The message published by the call a client is making. -/
  sent : ℕ → Option Published
  /-- Those published by the calls that have returned. -/
  returned : List Published
  /-- What clients have received from the queues: bytes, and a priority. -/
  reads : Qid → List (List UInt8 × ℕ)

def Mail.init : Mail := ⟨.init, [], fun _ => none, [], fun _ => []⟩

section Steps

variable (S S' : Sys cfg)

/-- The message published by a step, the `n`th one, if it sends one that publishes. -/
def SysLabel.post (n : ℕ) : SysLabel cfg → Option Published
  | clientOp i ⟨.mqSend src _ msg len prio, .ok _⟩ =>
    (publication cfg (msg.toBytes.take len)).map fun c => ⟨S.os.fd (.client i) src, prio, n, c⟩
  | _ => none

/-- A call of the process `p`, publishing `post`, with the messages on the queues. -/
def relayCall (p : Pid) (post : Option Published) (os os' : Os) (R : Relay Published Qid) :
    Event (Op cfg) Op.Res → Relay Published Qid
  | ⟨.mqOpen name _, .ok d⟩ =>
    -- Under a name that is free, the queue is a new one.
    if os.names name = none then (os'.fds p d).elim R R.clear else R
  | ⟨.mqSend _ mq _ _ prio, .ok _⟩ => (os.fd p mq).elim R fun q =>
    post.elim (R.put q prio none) (R.publish q prio)
  | ⟨.mqTimedsend _ mq msg len prio _, true⟩ => (os.fd p mq).elim R fun q =>
    if (received cfg (msg.toBytes.take len)).ctrl.cmd = cmdPublish then R.deliver q prio
    else R.put q prio none
  | ⟨.mqReceive mq, .ok _⟩ => (os.fd p mq).elim R (if p = .broker then R.drop else R.read)
  | ⟨.mqTimedreceive mq _, .ok _⟩ => (os.fd p mq).elim R (if p = .broker then R.drop else R.read)
  | _ => R

/-- A step, with the messages on the queues. -/
def SysLabel.relay (R : Relay Published Qid) : SysLabel cfg → Relay Published Qid
  | clientOp i e => relayCall (.client i) ((clientOp i e).post S R.log.length) S.os S'.os R e
  | brokerOp e => relayCall .broker none S.os S'.os R e
  | take _ => match S.broker with
    | .idle s => (S.os.fd .broker s.qctrl).elim R R.take
    | _ => R
  | _ => R

/-- The queue of a client opened by a step of the broker. -/
def SysLabel.opens : SysLabel cfg → Option Qid
  | brokerOp e => openedBy S.os e
  | _ => none

/-- The message published by the call a client is making, after a step. -/
def SysLabel.sent (M : Mail) : SysLabel cfg → ℕ → Option Published
  | «return» i => Function.update M.sent i none
  | clientOp i e =>
    ((clientOp i e).post S M.relay.log.length).elim M.sent
      fun m => Function.update M.sent i (some m)
  | _ => M.sent

/-- The message published by the call that returns. -/
def SysLabel.settles (M : Mail) : SysLabel cfg → Option Published
  | «return» i => M.sent i
  | _ => none

/-- What a client receives from a queue. -/
def SysLabel.receives : SysLabel cfg → Option (Qid × List UInt8 × ℕ)
  | clientOp i ⟨.mqReceive mq, .ok x⟩ => (S.os.fd (.client i) mq).map fun q => (q, x)
  | clientOp i ⟨.mqTimedreceive mq _, .ok x⟩ => (S.os.fd (.client i) mq).map fun q => (q, x)
  | _ => none

end Steps

/-- The messages after a step. -/
def Mail.after (M : Mail) (S : Sys cfg) (l : SysLabel cfg) (S' : Sys cfg) : Mail where
  relay := l.relay S S' M.relay
  opened := M.opened ++ (l.opens S).toList
  sent := l.sent S M
  returned := M.returned ++ (l.settles M).toList
  reads := (l.receives S).elim M.reads
    fun x => Function.update M.reads x.1 (M.reads x.1 ++ [x.2])

/-- The system, with the messages. -/
def mailLts (cfg : Config) (pc : PsmqdCfg) (names : QueueNames pc) :
    Lts (Sys cfg × Mail) (SysLabel cfg) :=
  (sysLts cfg pc names).watch .init Mail.after

/-! ## The queues -/

/-- What is told of a message watched. -/
def told (e : ℕ × Option Published) : ℕ × Option Content := (e.1, e.2.map Published.content)

/-- What a message on a queue tells. -/
def Item.tells (cfg : Config) (x : Item) : ℕ × Option Content :=
  (x.prio, publication cfg x.bytes)

theorem told_fst (e : ℕ × Option Published) : (told e).1 = e.1 := rfl

theorem tells_fst (x : Item) : (x.tells cfg).1 = x.prio := rfl

/-- The messages on the queues are those of the system, with what they publish
    at their priorities. -/
def Synced (cfg : Config) (R : Relay Published Qid) (os : Os) : Prop :=
  ∀ q, (R.queue q).map told = (os.items q).map (Item.tells cfg)

section Calls

variable {p : Pid} {os os' : Os} {o : Op cfg} {r : Op.Res o} {R : Relay Published Qid} {q : Qid}
  {post : Option Published}

theorem Synced.put (hR : Synced cfg R os) {prio : ℕ} {x : Option Published} {y : Item}
    (hy : told (prio, x) = y.tells cfg) : Synced cfg (R.put q prio x) (os.put q y) := by
  intro q'
  by_cases hq : q' = q
  · subst hq
    rw [Relay.put_queue_self, Os.put, Os.setItems_self, map_enqueue told_fst,
      map_enqueue tells_fst, hR q', hy]
  · rw [Relay.put_queue_of_ne hq, Os.put, Os.setItems_of_ne hq, hR q']

theorem Synced.drop (hR : Synced cfg R os) {y : Item} {l : List Item} (hl : os.items q = y :: l) :
    Synced cfg (R.drop q) (os.setItems q l) := by
  intro q'
  by_cases hq : q' = q
  · subst hq
    rw [Relay.drop_queue_self, Os.setItems_self, List.map_tail, hR q', hl]
    rfl
  · rw [Relay.drop_queue_of_ne hq, Os.setItems_of_ne hq, hR q']

/-- What the call sends publishes `post`, or what the message taken does. -/
def Posting (post : Option Published) (R : Relay Published Qid) : Event (Op cfg) Op.Res → Prop
  | ⟨.mqSend _ _ msg len _, .ok _⟩ =>
    publication cfg (msg.toBytes.take len) = post.map Published.content
  | ⟨.mqTimedsend _ _ msg len _ _, true⟩ =>
    (received cfg (msg.toBytes.take len)).ctrl.cmd = cmdPublish →
      publication cfg (msg.toBytes.take len) = R.hand.map Published.content
  | _ => True

/-- The calls keep the messages those of the system. -/
theorem Synced.call (hR : Synced cfg R os) (hst : OsStep p os o r os')
    (hpost : Posting post R ⟨o, r⟩) : Synced cfg (relayCall p post os os' R ⟨o, r⟩) os' := by
  cases hst with
  | opened hname =>
    simp only [relayCall, hname, reduceCtorEq, if_false]
    exact hR
  | @created name flags d q hname =>
    simp only [relayCall, hname, if_true, Os.setFd_self, Option.elim]
    intro q'
    by_cases hq : q' = q
    · subst hq
      rw [Relay.clear_queue_self, OsStep.created_items]
      rfl
    · rw [Relay.clear_queue_of_ne hq, (OsStep.created_of_ne hq).2, hR q']
  | closed =>
    intro q'
    rw [OsStep.closed_eq.2.2]
    exact hR q'
  | sent hq =>
    simp only [relayCall, hq, Option.elim]
    rw [Posting] at hpost
    cases post with
    | none => exact hR.put (Prod.ext rfl hpost.symm)
    | some m => exact hR.put (Prod.ext rfl hpost.symm)
  | timedsent hq =>
    simp only [relayCall, hq, Option.elim]
    split
    · next hcmd => exact hR.put (Prod.ext rfl (hpost hcmd).symm)
    · next hcmd => exact hR.put (Prod.ext rfl (publication_eq_none hcmd).symm)
  | received hq hl =>
    simp only [relayCall, hq, Option.elim]
    split
    · exact hR.drop hl
    · exact hR.drop hl
  | timedreceived hq hl =>
    simp only [relayCall, hq, Option.elim]
    split
    · exact hR.drop hl
    · exact hR.drop hl
  | _ => exact hR

/-- What a call may do to the messages. -/
inductive RelayStep (p : Pid) (post : Option Published) (os os' : Os) (R : Relay Published Qid)
    (e : Event (Op cfg) Op.Res) : Relay Published Qid → Prop
  | same : RelayStep p post os os' R e R
  | clear {q : Qid} : os.creator q = none → os'.creator q = some p →
      RelayStep p post os os' R e (R.clear q)
  | put {q : Qid} {prio : ℕ} : RelayStep p post os os' R e (R.put q prio none)
  | publish {src mq : Mqd} {msg : PsmqMsg cfg} {len prio : ℕ} {q : Qid} {m : Published} :
      e = ⟨.mqSend src mq msg len prio, .ok ()⟩ → os.fd p mq = some q → post = some m →
      RelayStep p post os os' R e (R.publish q prio m)
  | deliver {slot : Option (Slot cfg)} {mq : Mqd} {msg : PsmqMsg cfg} {len prio : ℕ}
      {timeout : UInt16} {q : Qid} : e = ⟨.mqTimedsend slot mq msg len prio timeout, true⟩ →
      (received cfg (msg.toBytes.take len)).ctrl.cmd = cmdPublish → os.fd p mq = some q →
      RelayStep p post os os' R e (R.deliver q prio)
  | drop {q : Qid} : RelayStep p post os os' R e (R.drop q)
  | read {q : Qid} : p ≠ .broker → RelayStep p post os os' R e (R.read q)

theorem relayCall_step (hst : OsStep p os o r os') :
    RelayStep p post os os' R ⟨o, r⟩ (relayCall p post os os' R ⟨o, r⟩) := by
  cases hst with
  | opened hname =>
    simp only [relayCall, hname, reduceCtorEq, if_false]
    exact .same
  | created hname _ hq =>
    simp only [relayCall, hname, if_true, Os.setFd_self, Option.elim]
    exact .clear hq OsStep.created_creator
  | sent hq =>
    simp only [relayCall, hq, Option.elim]
    cases post with
    | none => exact .put
    | some m => exact .publish rfl hq rfl
  | timedsent hq =>
    simp only [relayCall, hq, Option.elim]
    split
    · next hcmd => exact .deliver rfl hcmd hq
    · exact .put
  | received hq =>
    simp only [relayCall, hq, Option.elim]
    split
    · exact .drop
    · next hp => exact .read hp
  | timedreceived hq =>
    simp only [relayCall, hq, Option.elim]
    split
    · exact .drop
    · next hp => exact .read hp
  | _ => exact .same

variable {e : Event (Op cfg) Op.Res} {R' : Relay Published Qid}

theorem RelayStep.hand_eq (h : RelayStep p post os os' R e R') : R'.hand = R.hand := by
  cases h <;> rfl

/-- The broker reads nothing from the queues it puts messages on. -/
theorem RelayStep.got_eq (h : RelayStep .broker post os os' R e R') : R'.got = R.got := by
  cases h with
  | read hp => exact absurd rfl hp
  | _ => rfl

/-- Only a message that is published is logged. -/
theorem RelayStep.log_eq (h : RelayStep p none os os' R e R') : R'.log = R.log := by
  cases h with
  | publish _ _ hpost => exact nomatch hpost
  | _ => rfl

/-- What is published is logged. -/
theorem relayCall_log (hst : OsStep p os o r os') (hpost : ∀ m ∈ post, ∃ src mq msg len,
      (⟨o, r⟩ : Event (Op cfg) Op.Res) = ⟨.mqSend src mq msg len m.prio, .ok ()⟩) :
    (relayCall p post os os' R ⟨o, r⟩).log = R.log ++ post.toList := by
  cases post with
  | none => simpa using (relayCall_step hst).log_eq
  | some m =>
    obtain ⟨src, mq, msg, len, he⟩ := hpost m rfl
    obtain ⟨rfl, hr⟩ := Sigma.mk.inj_iff.1 he
    obtain rfl := eq_of_heq hr
    cases hst with
    | sent hq => simp only [relayCall, hq, Option.elim, Option.toList_some, Relay.publish]

/-- A queue is served when it is sent the message that is relayed. -/
theorem RelayStep.mem_served (h : RelayStep p post os os' R e R') (hq : q ∈ R'.served) :
    q ∈ R.served ∨ ∃ slot mq msg len prio timeout,
      e = ⟨.mqTimedsend slot mq msg len prio timeout, true⟩ ∧
      (received cfg (msg.toBytes.take len)).ctrl.cmd = cmdPublish ∧ os.fd p mq = some q := by
  cases h with
  | deliver he hcmd hq' =>
    rcases List.mem_cons.1 hq with rfl | hq
    · exact .inr ⟨_, _, _, _, _, _, he, hcmd, hq'⟩
    · exact .inl hq
  | _ => exact .inl hq

end Calls

/-! ## The messages read -/

section Reads

variable {S S' : Sys cfg} {M : Mail} {i : ℕ} {o : Op cfg} {r : Op.Res o}

/-- The messages read are those received, with what they publish at their priorities. -/
def Mail.Reads (cfg : Config) (M : Mail) : Prop :=
  ∀ q, (M.relay.got q).map (fun m => (m.prio, m.content)) =
    (M.reads q).filterMap fun x => (publication cfg x.1).map fun c => (x.2, c)

/-- The first message on a queue is read with what it publishes, at its priority. -/
theorem Synced.head_eq {os : Os} {R : Relay Published Qid} {inbox : Option Qid} {q : Qid}
    {x : Item} {l : List Item} (hR : Synced cfg R os) (hs : R.Sound Published.prio inbox)
    (hl : os.items q = x :: l) :
    (R.head q).map Published.content = publication cfg x.bytes ∧
      ∀ m ∈ R.head q, m.prio = x.prio := by
  have hsync := hR q
  rw [hl] at hsync
  cases hq : R.queue q with
  | nil => simp [hq] at hsync
  | cons e l' =>
    rw [hq, List.map_cons, List.map_cons, List.cons.injEq, told, Item.tells, Prod.mk.injEq] at hsync
    rw [Relay.head, hq]
    refine ⟨hsync.1.2, fun m hm => ?_⟩
    rw [← hsync.1.1, hs.entries q e (hq ▸ List.mem_cons_self) m hm]

/-- A message is read with what is received. -/
theorem Mail.Reads.read {M' : Mail} (hr : M.Reads cfg) {os : Os} {inbox : Option Qid}
    (hR : Synced cfg M.relay os) (hs : M.relay.Sound Published.prio inbox) {q : Qid} {x : Item}
    {l : List Item} (hl : os.items q = x :: l) (hrelay : M'.relay = M.relay.read q)
    (hreads : M'.reads = Function.update M.reads q (M.reads q ++ [(x.bytes, x.prio)])) :
    M'.Reads cfg := by
  intro q'
  rw [hrelay, hreads]
  by_cases hq : q' = q
  · subst hq
    obtain ⟨hcontent, hprio⟩ := hR.head_eq hs hl
    rw [Relay.read_got_self, Function.update_self, List.map_append, hr q', List.filterMap_append]
    congr 1
    cases hm : M.relay.head q' with
    | none => simp [← hcontent, hm]
    | some m => simp [← hcontent, hm, hprio m hm]
  · rw [Relay.read_got_of_ne hq, Function.update_of_ne hq]
    exact hr q'

/-- A call of a client keeps the messages read those received. -/
theorem Mail.Reads.clientOp (hr : M.Reads cfg) {inbox : Option Qid}
    (hR : Synced cfg M.relay S.os) (hs : M.relay.Sound Published.prio inbox)
    (hos : OsStep (.client i) S.os o r S'.os) :
    (M.after S (.clientOp i ⟨o, r⟩) S').Reads cfg := by
  have hsame (hgot : ((SysLabel.clientOp i ⟨o, r⟩).relay S S' M.relay).got = M.relay.got)
      (hno : (SysLabel.clientOp i ⟨o, r⟩).receives S = none) :
      (M.after S (.clientOp i ⟨o, r⟩) S').Reads cfg := by
    intro q
    rw [Mail.after, hgot, hno]
    exact hr q
  generalize hos' : S'.os = os' at hos
  cases hos with
  | received hq hl =>
    refine hr.read hR hs hl ?_ ?_
    · simp only [Mail.after, SysLabel.relay, relayCall, hq, Option.elim, reduceCtorEq, if_false]
    · simp only [Mail.after, SysLabel.receives, hq, Option.map_some, Option.elim]
  | timedreceived hq hl =>
    refine hr.read hR hs hl ?_ ?_
    · simp only [Mail.after, SysLabel.relay, relayCall, hq, Option.elim, reduceCtorEq, if_false]
    · simp only [Mail.after, SysLabel.receives, hq, Option.map_some, Option.elim]
  | opened hname =>
    refine hsame ?_ rfl
    simp only [SysLabel.relay, relayCall, hname, reduceCtorEq, if_false]
  | created hname =>
    refine hsame ?_ rfl
    simp only [SysLabel.relay, relayCall, hname, if_true, hos', Os.setFd_self, Option.elim]
    rfl
  | sent hq =>
    refine hsame ?_ rfl
    simp only [SysLabel.relay, relayCall, hq, Option.elim]
    cases (SysLabel.clientOp i _).post S M.relay.log.length <;> rfl
  | timedsent hq =>
    refine hsame ?_ rfl
    simp only [SysLabel.relay, relayCall, hq, Option.elim]
    split <;> rfl
  | _ => exact hsame rfl rfl

end Reads

end Psmq
