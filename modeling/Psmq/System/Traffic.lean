import Psmq.Lib.Channel
import Psmq.System.Wiring

/-!
# The traffic on the queues

The broker among processes that may do anything (`World`): they make any calls,
at any moment, and nothing is known of what they send. The system with its
clients is one (`SysStep.world`).

What happens on each queue is written down, with the queues that have been given
a slot (`Traffic`). Each queue is a channel: what is written down is a run of
it, from the messages it held to those it holds (`exists_transfers`).
-/

namespace Psmq

open CMem Prog PrioQueue

variable {cfg : Config}

/-! ## The broker and the others -/

/-- The broker, and the system it runs on. -/
structure World (cfg : Config) where
  os : Os
  broker : BrokerProc cfg

/-- The steps of the broker, and of the others, that may make any call. -/
inductive WorldStep (pc : PsmqdCfg) (W : World cfg) : SysLabel cfg → World cfg → Prop
  | call {i : ℕ} {call : Call cfg} : WorldStep pc W (.call i call) W
  | clientOp {i : ℕ} {o : Op cfg} {r : Op.Res o} {os' : Os} : OsStep (.client i) W.os o r os' →
      WorldStep pc W (.clientOp i ⟨o, r⟩) { W with os := os' }
  | return {i : ℕ} : WorldStep pc W (.return i) W
  | take {s : Broker cfg} {q : Qid} {x : Item} {l : List Item} : W.broker = .idle s →
      W.os.fd .broker s.qctrl = some q → W.os.items q = x :: l →
      WorldStep pc W (.take x)
        ⟨W.os.setItems q l, .busy (.handle s x) [] ((Job.handle s x).prog pc s)⟩
  | stop {s : Broker cfg} : W.broker = .idle s →
      WorldStep pc W .stop { W with broker := .busy .stop [] (Job.stop.prog pc s) }
  | brokerOp {job : Job cfg} {tr : Trace cfg} {o : Op cfg} {k : Op.Res o → P cfg (Broker cfg)}
      {r : Op.Res o} {os' : Os} : W.broker = .busy job tr (.call o k) →
      OsStep .broker W.os o r os' →
      WorldStep pc W (.brokerOp ⟨o, r⟩) ⟨os', .busy job (tr ++ [⟨o, r⟩]) (k r)⟩
  | finish {job : Job cfg} {tr : Trace cfg} {s : Broker cfg} :
      W.broker = .busy job tr (.ret s) →
      WorldStep pc W .finish { W with broker := job.done s }

/-- The broker starts, and there are no queues. -/
def World.start (cfg : Config) (pc : PsmqdCfg) : World cfg :=
  ⟨.init, .busy .start [] (Job.start.prog pc (staticBroker cfg))⟩

/-- The broker among the others. -/
def worldLts (cfg : Config) (pc : PsmqdCfg) : Lts (World cfg) (SysLabel cfg) where
  init W := W = .start cfg pc
  step := WorldStep pc

/-- The system, of which only the broker is known. -/
def Sys.world (S : Sys cfg) : World cfg := ⟨S.os, S.broker⟩

variable {pc : PsmqdCfg} {W W' : World cfg} {l : SysLabel cfg}

/-- The clients are some of the processes the broker may be among. -/
theorem SysStep.world {names : QueueNames pc} {S S' : Sys cfg} (h : SysStep pc names S l S') :
    WorldStep pc S.world l S'.world := by
  cases h with
  | call => exact .call
  | clientOp _ hos => exact .clientOp hos
  | «return» => exact .return
  | take hb hq hl => exact .take hb hq hl
  | stop hb => exact .stop hb
  | brokerOp hb hos => exact .brokerOp hb hos
  | finish hb => exact .finish hb

/-- The broker is in the middle of what it executes. -/
theorem WorldStep.executes (hst : WorldStep pc W l W') (h : W.broker.Executes) :
    W'.broker.Executes := by
  cases hst with
  | take => exact fun _ _ h => h
  | stop => trivial
  | brokerOp hb =>
    rw [hb] at h
    exact h.call _
  | @finish job => cases job <;> trivial
  | _ => exact h

/-! ## The queues -/

/-- The first message on the queue that is open with a descriptor, with the queue. -/
def Os.first (os : Os) (p : Pid) (mq : Mqd) : Option (Qid × Item) :=
  (os.fd p mq).bind fun q => (os.items q).head?.map fun x => (q, x)

/-- The message taken from a queue by a call of the process `p`, and the queue. -/
def receivedBy (p : Pid) (os : Os) : Event (Op cfg) Op.Res → Option (Qid × Item)
  | ⟨.mqReceive mq, .ok _⟩ => os.first p mq
  | ⟨.mqTimedreceive mq _, .ok _⟩ => os.first p mq
  | _ => none

/-- What a call of the process `p` does on a queue, and the queue. -/
def transferBy (p : Pid) (os : Os) (e : Event (Op cfg) Op.Res) :
    Option (Qid × Transfer Pid Item) :=
  ((putBy p os e).map fun y => (y.1, .put y.2)).or
    ((receivedBy p os e).map fun y => (y.1, .take p y.2))

/-- What happens on the queue `q`. -/
def transfersOn (q : Qid) : Option (Qid × Transfer Pid Item) → List (Transfer Pid Item)
  | some (q', t) => if q' = q then [t] else []
  | none => []

/-- No queue holds more messages than it has room for, and those not created
    yet have none. -/
structure Os.Sane (os : Os) : Prop where
  fits : ∀ q, (os.items q).length ≤ os.room q
  blank : ∀ q, os.creator q = none → os.room q = 0

section Calls

variable {p : Pid} {os os' : Os} {o : Op cfg} {r : Op.Res o} {q : Qid}

theorem Os.first_eq_some {mq : Mqd} {x : Item} {l : List Item} (hq : os.fd p mq = some q)
    (hl : os.items q = x :: l) : os.first p mq = some (q, x) := by
  rw [first, hq, Option.bind_some, hl]
  rfl

/-- A message put on a queue is put on it in its channel, and changes no other. -/
theorem Os.run_put {q' : Qid} {x : Item} (hlt : (os.items q').length < os.room q') :
    (channel Pid Item.prio (os.room q)).Run (os.items q) (transfersOn q (some (q', .put x)))
      ((os.put q' x).items q) := by
  rw [transfersOn]
  split
  · next heq =>
    subst heq
    rw [Os.put, Os.setItems_self]
    exact .cons (.put hlt) (.nil _)
  · next hne =>
    rw [Os.put, Os.setItems_of_ne (Ne.symm hne)]
    exact .nil _

/-- So is the first message of a queue, when it is taken. -/
theorem Os.run_take {q' : Qid} {x : Item} {l : List Item} (hl : os.items q' = x :: l) :
    (channel Pid Item.prio (os.room q)).Run (os.items q) (transfersOn q (some (q', .take p x)))
      ((os.setItems q' l).items q) := by
  rw [transfersOn]
  split
  · next heq =>
    subst heq
    rw [Os.setItems_self, hl]
    exact .cons .take (.nil _)
  · next hne =>
    rw [Os.setItems_of_ne (Ne.symm hne)]
    exact .nil _

/-- What a call does on a queue, unless it creates it. -/
theorem OsStep.transfers (h : OsStep p os o r os') (hq : os'.creator q = os.creator q) :
    os'.room q = os.room q ∧ (channel Pid Item.prio (os.room q)).Run (os.items q)
      (transfersOn q (transferBy p os ⟨o, r⟩)) (os'.items q) := by
  cases h with
  | @created name flags d q' _ _ hnone =>
    have hne : q ≠ q' := by
      rintro rfl
      rw [OsStep.created_creator, hnone] at hq
      exact absurd hq (by simp)
    rw [(OsStep.created_of_ne hne).2]
    exact ⟨Function.update_of_ne hne .., .nil _⟩
  | @closed mq => cases mq <;> exact ⟨rfl, .nil _⟩
  | sent hfd hlt =>
    simp only [transferBy, putBy, hfd, Option.map_some, Option.some_or]
    exact ⟨rfl, Os.run_put hlt⟩
  | timedsent hfd hlt =>
    simp only [transferBy, putBy, hfd, Option.map_some, Option.some_or]
    exact ⟨rfl, Os.run_put hlt⟩
  | received hfd hl =>
    simp only [transferBy, putBy, receivedBy, Os.first_eq_some hfd hl, Option.map_some,
      Option.map_none, Option.none_or]
    exact ⟨rfl, Os.run_take hl⟩
  | timedreceived hfd hl =>
    simp only [transferBy, putBy, receivedBy, Os.first_eq_some hfd hl, Option.map_some,
      Option.map_none, Option.none_or]
    exact ⟨rfl, Os.run_take hl⟩
  | _ => exact ⟨rfl, .nil _⟩

theorem OsStep.sane (h : OsStep p os o r os') (hs : os.Sane) : os'.Sane := by
  have key (q : Qid) : (os'.items q).length ≤ os'.room q ∧
      (os'.creator q = none → os'.room q = 0) := by
    by_cases hq : os'.creator q = os.creator q
    · obtain ⟨hroom, hrun⟩ := h.transfers hq
      rw [hroom, hq]
      exact ⟨length_le_of_run hrun (hs.fits q), hs.blank q⟩
    · -- The queue is created.
      cases h with
      | @created _ _ _ q' =>
        by_cases hne : q = q'
        · subst hne
          rw [OsStep.created_items, OsStep.created_creator]
          exact ⟨Nat.zero_le _, nofun⟩
        · exact absurd (OsStep.created_of_ne hne).1 hq
      | @closed mq => cases mq <;> exact absurd rfl hq
      | _ => exact absurd rfl hq
  exact ⟨fun q => (key q).1, fun q => (key q).2⟩

variable {e : Event (Op cfg) Op.Res}

/-- What is put on a queue by a call. -/
theorem puts_transferBy : puts (transfersOn q (transferBy p os e)) =
    ((putBy p os e).filter fun y => y.1 = q).toList.map Prod.snd := by
  rw [transferBy]
  cases putBy p os e with
  | some y =>
    simp only [Option.map_some, Option.some_or, transfersOn, Option.filter_some, decide_eq_true_eq]
    split <;> rfl
  | none =>
    rw [Option.map_none, Option.none_or]
    cases receivedBy p os e with
    | none => rfl
    | some y =>
      simp only [Option.map_some, transfersOn]
      split <;> rfl

theorem mem_puts_transferBy {x : Item} :
    x ∈ puts (transfersOn q (transferBy p os e)) ↔ putBy p os e = some (q, x) := by
  rw [puts_transferBy]
  constructor
  · intro hx
    obtain ⟨⟨q', y⟩, hy, rfl⟩ := List.mem_map.1 hx
    obtain ⟨hput, hq⟩ := Option.filter_eq_some_iff.1 (Option.mem_toList.1 hy)
    obtain rfl : q' = q := by simpa using hq
    exact hput
  · intro hx
    rw [hx, Option.filter_some, if_pos (by simp)]
    exact List.mem_singleton_self x

theorem takenBy_transferBy_of_ne {p' : Pid} (hp : p ≠ p') :
    takenBy p' (transfersOn q (transferBy p os e)) = [] := by
  rw [transferBy]
  cases putBy p os e with
  | some y =>
    simp only [Option.map_some, Option.some_or, transfersOn]
    split <;> rfl
  | none =>
    rw [Option.map_none, Option.none_or]
    cases receivedBy p os e with
    | none => rfl
    | some y =>
      simp only [Option.map_some, transfersOn]
      split
      · exact takenBy_take_of_ne hp
      · rfl

/-- A message put on a queue tells who has put it there. -/
theorem sender_of_putBy {x : Item} (hx : putBy p os e = some (q, x)) : x.sender = p := by
  obtain ⟨o, r⟩ := e
  cases o with
  | mqSend =>
    cases r with
    | error => exact nomatch hx
    | ok =>
      obtain ⟨_, -, hx⟩ := Option.map_eq_some_iff.1 hx
      exact (Prod.mk.inj hx).2 ▸ rfl
  | mqTimedsend =>
    cases r with
    | false => exact nomatch hx
    | true =>
      obtain ⟨_, -, hx⟩ := Option.map_eq_some_iff.1 hx
      exact (Prod.mk.inj hx).2 ▸ rfl
  | _ => exact nomatch hx

end Calls

/-! ## What is written down -/

/-- What has happened on the queues, and the queues that have been given a slot. -/
structure Traffic where
  log : Qid → List (Transfer Pid Item)
  slotted : List Qid

def Traffic.init : Traffic := ⟨fun _ => [], []⟩

/-- What a step does on a queue, and the queue. -/
def SysLabel.transfer (W : World cfg) : SysLabel cfg → Option (Qid × Transfer Pid Item)
  | clientOp i e => transferBy (.client i) W.os e
  | take x => match W.broker with
    | .idle s => (W.os.fd .broker s.qctrl).map fun q => (q, .take .broker x)
    | _ => none
  | brokerOp e => transferBy .broker W.os e
  | _ => none

/-- The queue that a step gives a slot. -/
def SysLabel.slots (W : World cfg) : SysLabel cfg → Option Qid
  | brokerOp e => offeredOn W.os e
  | _ => none

/-- What is written down after a step. -/
def Traffic.after (T : Traffic) (W : World cfg) (l : SysLabel cfg) (_ : World cfg) : Traffic where
  log q := T.log q ++ transfersOn q (l.transfer W)
  slotted := T.slotted ++ (l.slots W).toList

/-- The broker among the others, with what is written down. -/
def trafficLts (cfg : Config) (pc : PsmqdCfg) : Lts (World cfg × Traffic) (SysLabel cfg) :=
  (worldLts cfg pc).watch .init Traffic.after

section Steps

variable {q : Qid} {ls : List (SysLabel cfg)} {X X' : World cfg × Traffic}

/-- Nothing is put on a queue as the broker takes a message. -/
theorem puts_transfer_take {x : Item} :
    puts (transfersOn q ((SysLabel.take x : SysLabel cfg).transfer W)) = [] := by
  rw [SysLabel.transfer]
  split
  · next s _ =>
    cases W.os.fd .broker s.qctrl with
    | none => rfl
    | some q' =>
      rw [Option.map_some, transfersOn]
      split <;> rfl
  · rfl

theorem WorldStep.creator (hst : WorldStep pc W l W') {p : Pid} (hq : W.os.creator q = some p) :
    W'.os.creator q = some p := by
  cases hst with
  | clientOp hos => exact hos.creator hq
  | brokerOp _ hos => exact hos.creator hq
  | _ => exact hq

/-- What a step does on a queue, unless it creates it. -/
theorem WorldStep.transfers (hst : WorldStep pc W l W') (hq : W'.os.creator q = W.os.creator q) :
    W'.os.room q = W.os.room q ∧ (channel Pid Item.prio (W.os.room q)).Run (W.os.items q)
      (transfersOn q (l.transfer W)) (W'.os.items q) := by
  cases hst with
  | clientOp hos => exact hos.transfers hq
  | brokerOp _ hos => exact hos.transfers hq
  | @take s q' x l hb hfd hl =>
    simp only [SysLabel.transfer, hb, hfd, Option.map_some]
    exact ⟨rfl, Os.run_take hl⟩
  | _ => exact ⟨rfl, .nil _⟩

theorem WorldStep.sane (hst : WorldStep pc W l W') (hs : W.os.Sane) : W'.os.Sane := by
  have hfits (q : Qid) (hq : W'.os.creator q = W.os.creator q) :
      (W'.os.items q).length ≤ W'.os.room q := by
    obtain ⟨hroom, hrun⟩ := hst.transfers hq
    rw [hroom]
    exact length_le_of_run hrun (hs.fits q)
  cases hst with
  | clientOp hos => exact hos.sane hs
  | brokerOp _ hos => exact hos.sane hs
  | take => exact ⟨fun q => hfits q rfl, hs.blank⟩
  | _ => exact hs

/-- What is written down in a run is what happens on each queue there was. -/
theorem exists_transfers (h : (trafficLts cfg pc).Run X ls X') {p : Pid}
    (hq : X.1.os.creator q = some p) :
    X'.1.os.room q = X.1.os.room q ∧ ∃ ts, X'.2.log q = X.2.log q ++ ts ∧
      (channel Pid Item.prio (X.1.os.room q)).Run (X.1.os.items q) ts (X'.1.os.items q) := by
  induction h with
  | nil => exact ⟨rfl, [], (List.append_nil _).symm, .nil _⟩
  | @cons X X₁ X₂ l ls hst _ ih =>
    obtain ⟨hst, hT⟩ := hst
    have hq₁ : X₁.1.os.creator q = some p := WorldStep.creator hst hq
    obtain ⟨hroom₁, hrun₁⟩ := WorldStep.transfers hst (hq₁.trans hq.symm)
    obtain ⟨hroom, ts, hlog, hrun⟩ := ih hq₁
    rw [hroom₁] at hroom hrun
    refine ⟨hroom, transfersOn q (l.transfer X.1) ++ ts, ?_, hrun₁.append hrun⟩
    rw [hlog, hT]
    exact List.append_assoc ..

end Steps

end Psmq
