import Psmq.Broker.Service
import Psmq.System.Atomicity
import Psmq.System.Evictions

/-!
# What is on the queues of the clients

The broker, among processes that may do anything, is a publish and subscribe
service to the end: what it has published on the queue of a slot is what the
client of the slot gets from the service, since it has joined (`queue_serves`).
A queue is to be opened for one slot only, and topics are to be added to open
slots only (`Orderly`).

What is on a queue is told by the calls of the broker (`Delivered`): what it has
sent to the slot that holds the queue since it was offered (`sinceOffer`).
-/

namespace Psmq

open CMem Prog PrioQueue
open PubSub (Event)

variable {cfg : Config} {pc : PsmqdCfg}

/-! ## What is sent since an offer -/

/-- What is sent after the last offer that is delivered. -/
def sinceOffer (es : List (Sent cfg)) : List (Sent cfg) :=
  es.foldl (fun es e => if e.msg.ctrl.cmd = cmdOpen ∧ e.ok = true then [] else es ++ [e]) []

section SinceOffer

variable {es es' : List (Sent cfg)} {e : Sent cfg}

theorem sinceOffer_of_offer (hcmd : e.msg.ctrl.cmd = cmdOpen) (hok : e.ok = true) :
    sinceOffer (es ++ [e]) = [] := by
  rw [sinceOffer, List.foldl_append, List.foldl_cons, if_pos ⟨hcmd, hok⟩]
  rfl

theorem sinceOffer_append (h : ∀ e ∈ es', ¬(e.msg.ctrl.cmd = cmdOpen ∧ e.ok = true)) :
    sinceOffer (es ++ es') = sinceOffer es ++ es' := by
  induction es' using List.reverseRecOn with
  | nil => simp
  | append_singleton es' e ih =>
    rw [← List.append_assoc, sinceOffer, List.foldl_append, ← sinceOffer, List.foldl_cons,
      List.foldl_nil, if_neg (h e (by simp)), ih fun e he => h e (List.mem_append_left _ he),
      List.append_assoc]

/-- What is sent that is no offer is only a copy of a message if it is published, and delivered. -/
theorem copies_sinceOffer (h : ¬(e.msg.ctrl.cmd = cmdOpen ∧ e.ok = true)) :
    copies (sinceOffer (es ++ [e])) =
      copies (sinceOffer es) ++ if e.msg.ctrl.cmd = cmdPublish ∧ e.ok = true then [e] else [] := by
  rw [sinceOffer_append fun e' he' => List.mem_singleton.1 he' ▸ h, copies, List.filter_append,
    ← copies, List.filter_singleton, Bool.cond_decide]

end SinceOffer

/-! ## What is published on a queue -/

/-- The broker publishes the message. -/
def Item.Published (cfg : Config) (x : Item) : Prop := x.sender = .broker ∧ x.cmd cfg = cmdPublish

instance (x : Item) : Decidable (x.Published cfg) := inferInstanceAs (Decidable (_ ∧ _))

/-- What the broker has published on a queue. -/
def publishedOn (cfg : Config) (q : Qid) (T : Traffic) : List Item :=
  (puts (T.log q)).filter fun x => x.Published cfg

/-- What the broker has published on the queues: nothing on those that have had
    no slot, and, on that of a slot, what it has sent to the slot. -/
structure Delivered (X : World cfg × Traffic) (tr : Trace cfg) (h : Held cfg) : Prop where
  fresh : ∀ q, q ∉ X.2.slotted → publishedOn cfg q X.2 = []
  slots : ∀ k q, h.queue (X.1.os.fds .broker) (.slot k) = some q →
    publishedOn cfg q X.2 = (copies (sinceOffer (sendsTo k tr))).map Sent.item

/-- The messages handled meet the condition `C`, and a queue that is opened has
    had no slot. -/
def Orderly (C : Broker cfg → BrokerLabel cfg → Prop) (X : World cfg × Traffic) (l : SysLabel cfg) :
    Prop :=
  Meets C X.1 l ∧ ∀ e, l = .brokerOp e → ∀ q ∈ openedBy X.1.os e, q ∉ X.2.slotted

section Steps

variable {X : World cfg × Traffic} {W : World cfg} {l : SysLabel cfg} {h : Held cfg} {q : Qid}
  {tr : Trace cfg}

theorem publishedOn_after {T : Traffic} {W W' : World cfg} :
    publishedOn cfg q (T.after W l W') = publishedOn cfg q T ++
      (puts (transfersOn q (l.transfer W))).filter fun x => x.Published cfg := by
  rw [publishedOn, Traffic.after, puts_append, List.filter_append, publishedOn]

/-- A step that publishes nothing, and moves no descriptor of the broker. -/
theorem Delivered.quiet {h' : Held cfg} (hX : Delivered X tr h)
    (hfds : W.os.fds .broker = X.1.os.fds .broker) (hmq : h'.mq = h.mq)
    (hputs : ∀ q, ∀ x ∈ puts (transfersOn q (l.transfer X.1)), x.sender ≠ .broker) :
    Delivered (W, X.2.after X.1 l W) tr h' := by
  have hpub (q : Qid) : publishedOn cfg q (X.2.after X.1 l W) = publishedOn cfg q X.2 := by
    rw [publishedOn_after, List.append_right_eq_self, List.filter_eq_nil_iff]
    exact fun x hx hx' => hputs q x hx (of_decide_eq_true hx').1
  refine ⟨fun q hq => ?_, fun k q hq => ?_⟩
  · rw [hpub]
    refine hX.fresh q fun hmem => hq ?_
    exact List.mem_append_left _ hmem
  · rw [hpub]
    refine hX.slots k q ?_
    rw [Held.queue] at hq ⊢
    rwa [hmq, hfds] at hq

/-- A call that sends nothing. -/
theorem Delivered.other (hX : Delivered X tr h) {job : Job cfg} {o : Op cfg} {r : Op.Res o}
    (hs : job ≠ .stop → h.Sound (X.1.os.fds .broker)) (hpre : jobPre pc h job o)
    (hos : OsStep .broker X.1.os o r W.os)
    (hsends : sends [(⟨o, r⟩ : Event (Op cfg) Op.Res)] = []) :
    Delivered (W, X.2.after X.1 (.brokerOp ⟨o, r⟩) W) (tr ++ [⟨o, r⟩]) (jobNext h job o r) := by
  have hput : putBy .broker X.1.os ⟨o, r⟩ = none := by
    cases o with
    | mqTimedsend => exact absurd hsends (List.cons_ne_nil _ _)
    | mqSend => cases job <;> exact hpre.elim
    | _ => rfl
  have hpub (q : Qid) : publishedOn cfg q (X.2.after X.1 (.brokerOp ⟨o, r⟩) W) =
      publishedOn cfg q X.2 := by
    rw [publishedOn_after, SysLabel.transfer, puts_transferBy, hput]
    simp
  refine ⟨fun q hq => ?_, fun k q hq => ?_⟩
  · rw [hpub]
    exact hX.fresh q fun hmem => hq (List.mem_append_left _ hmem)
  · rw [hpub, sendsTo_append, sendsTo, sendsTo, hsends, List.filter_nil, List.append_nil]
    refine hX.slots k q ?_
    rcases (jobNext_step hos hpre).queue hs hpre hq with
      hq | ⟨ha, -⟩ | ⟨ha, -⟩ | ⟨_, -, hsent, -⟩ | ⟨_, ha, -⟩
    · exact hq
    · cases ha
    · cases ha
    · cases o with
      | mqTimedsend => exact absurd hsends (List.cons_ne_nil _ _)
      | _ => cases hsent
    · cases ha

variable {e : Sent cfg} {os : Os} {fds : ℕ → Option Qid} {j k : Slot cfg}

/-- What is published on a queue by an attempt to send. -/
theorem published_event : (puts (transfersOn q (transferBy .broker os e.event))).filter
      (fun x => x.Published cfg) =
    if os.fd .broker e.mq = some q ∧ e.item.cmd cfg = cmdPublish ∧ e.ok = true then [e.item]
    else [] := by
  obtain ⟨slot, mq, msg, len, prio, timeout, ok⟩ := e
  rw [puts_transferBy]
  cases ok with
  | false => simp [putBy, Sent.event]
  | true =>
    have hpub : (Sent.item ⟨slot, mq, msg, len, prio, timeout, true⟩).Published cfg ↔
        (Sent.item ⟨slot, mq, msg, len, prio, timeout, true⟩).cmd cfg = cmdPublish :=
      and_iff_right rfl
    cases hq : os.fd .broker mq with
    | none => simp [putBy, Sent.event, hq]
    | some q' =>
      simp only [putBy, Sent.event, hq, Option.map_some, Option.filter_some, decide_eq_true_eq,
        Option.some.injEq, and_true]
      by_cases hqq : q' = q
      · rw [if_pos hqq, Option.toList_some, List.map_singleton, List.filter_singleton,
          Bool.cond_decide]
        simp only [hqq, true_and]
        exact if_congr hpub rfl rfl
      · rw [if_neg hqq, if_neg fun h => hqq h.1]
        rfl

/-- Where the broker sends a message: an offer to the queue that is in no slot,
    and another one to that of the slot. -/
theorem Held.MaySend.place {x : Item} {slot : Option (Slot cfg)} {mq : Mqd} {bytes : List UInt8}
    {prio : ℕ} (hm : h.MaySend x slot mq bytes prio) :
    ((received cfg bytes).ctrl.cmd = cmdOpen ∧ mq = h.mq .spare) ∨
      ((received cfg bytes).ctrl.cmd ≠ cmdOpen ∧ ∃ k, slot = some k ∧ mq = h.mq (.slot k)) := by
  cases hm with
  | offer hcmd => exact .inl ⟨hcmd, rfl⟩
  | refuse hcmd => exact .inl ⟨hcmd, rfl⟩
  | close hcmd => exact .inr ⟨by rw [hcmd]; decide, _, rfl, rfl⟩
  | publish hcmd => exact .inr ⟨by rw [hcmd]; decide, _, rfl, rfl⟩
  | reply hcmd => exact .inr ⟨fun hc => hcmd (by simp [hc]), _, rfl, rfl⟩

/-- Sending anything but an offer gives no slot a queue. -/
theorem Held.queue_onSend {cmd : UInt8} {ok : Bool} {slot : Option (Slot cfg)}
    (hcmd : cmd ≠ cmdOpen) (hq : (h.onSend cmd ok slot).queue fds (.slot j) = some q) :
    h.queue fds (.slot j) = some q := by
  cases slot with
  | none => exact hq
  | some k =>
    rw [Held.onSend, if_neg hcmd] at hq
    split_ifs at hq
    · obtain ⟨ha, -⟩ | ⟨-, hq⟩ := Held.queue_move (by simp) hq
      · cases ha
      · exact hq
    · exact hq
    · exact hq
    · exact hq

/-- An offer gives its slot the queue that is in none. -/
theorem Held.queue_onSend_open {ok : Bool}
    (hq : (h.onSend cmdOpen ok (some k)).queue fds (.slot j) = some q) :
    (ok = true ∧ j = k ∧ h.queue fds .spare = some q) ∨ (h.queue fds (.slot j) = some q ∧
      (ok = true → j ≠ k)) := by
  rw [Held.onSend_open] at hq
  split_ifs at hq with hok
  · by_cases hj : j = k
    · rw [hj, Held.queue, Held.move_mq_to (by simp)] at hq
      exact .inl ⟨hok, hj, hq⟩
    · obtain ⟨ha, -⟩ | ⟨-, hq⟩ := Held.queue_move (by simp) hq
      · exact absurd (Place.slot.inj ha) hj
      · exact .inr ⟨hq, fun _ => hj⟩
  · exact .inr ⟨hq, fun h => absurd h hok⟩

/-- A message is sent to the queue that is held in its place. -/
theorem Delivered.send (hX : Delivered X tr h) (hl : h.Lodged (X.1.os.fds .broker) X.2.slotted)
    {s : Broker cfg} {x : Item} (hpre : jobPre pc h (.handle s x) e.event.1)
    (hlen : e.msg.realMsgSize = some e.len) (hfds : W.os.fds .broker = X.1.os.fds .broker) :
    Delivered (W, X.2.after X.1 (.brokerOp e.event) W) (tr ++ [e.event])
      (h.onSend e.msg.ctrl.cmd e.ok e.slot) := by
  have hcmd : e.item.cmd cfg = e.msg.ctrl.cmd := congrArg Ctrl.cmd (recvInto_ctrl _ e.msg hlen)
  have hmay : h.MaySend x e.slot e.mq (e.msg.toBytes.take e.len) e.prio := hpre
  have hplace := hmay.place
  rw [show (received cfg (e.msg.toBytes.take e.len)).ctrl.cmd = _ from hcmd] at hplace
  have hafter (q : Qid) : publishedOn cfg q (X.2.after X.1 (.brokerOp e.event) W) =
      publishedOn cfg q X.2 ++ if X.1.os.fd .broker e.mq = some q ∧ e.msg.ctrl.cmd = cmdPublish ∧
        e.ok = true then [e.item] else [] := by
    rw [publishedOn_after, SysLabel.transfer, published_event, hcmd]
  have hsends (j : Slot cfg) : sendsTo j (tr ++ [e.event]) =
      sendsTo j tr ++ if e.slot = some j then [e] else [] := by
    rw [sendsTo_append, sendsTo, sendsTo, sends_event, sends_nil, List.filter_singleton,
      Bool.cond_decide]
  rcases hplace with ⟨hopen, hmq⟩ | ⟨hopen, k, hslot, hmq⟩
  · -- An offer publishes nothing.
    have hpub (q : Qid) : publishedOn cfg q (X.2.after X.1 (.brokerOp e.event) W) =
        publishedOn cfg q X.2 := by
      rw [hafter, if_neg fun hc => cmd_absurd hopen hc.2.1, List.append_nil]
    refine ⟨fun q hq => ?_, fun j q hq => ?_⟩
    · rw [hpub]
      exact hX.fresh q fun hmem => hq (List.mem_append_left _ hmem)
    · rw [hpub, hsends]
      change (h.onSend _ _ _).queue (W.os.fds .broker) (.slot j) = some q at hq
      rw [hfds, hopen] at hq
      cases hslot : e.slot with
      | none =>
        rw [hslot] at hq
        rw [if_neg (by simp), List.append_nil]
        exact hX.slots j q hq
      | some k =>
        rw [hslot] at hq
        rcases Held.queue_onSend_open hq with ⟨hok, rfl, hspare⟩ | ⟨hold, hne⟩
        · rw [if_pos rfl, sinceOffer_of_offer hopen hok, hX.fresh q (hl.spare q hspare)]
          rfl
        · rw [hX.slots j q hold]
          by_cases hj : k = j
          · have hno : ¬(e.msg.ctrl.cmd = cmdOpen ∧ e.ok = true) := fun hc => hne hc.2 hj.symm
            rw [if_pos (congrArg some hj), copies_sinceOffer hno,
              if_neg fun hc => cmd_absurd hopen hc.1, List.append_nil]
          · rw [if_neg fun hc => hj (Option.some.inj hc), List.append_nil]
  · have hfd : X.1.os.fd .broker e.mq = h.queue (X.1.os.fds .broker) (.slot k) := by
      rw [hmq]
      rfl
    refine ⟨fun q hq => ?_, fun j q hq => ?_⟩
    · have hold : q ∉ X.2.slotted := fun hmem => hq (List.mem_append_left _ hmem)
      have hne : h.queue (X.1.os.fds .broker) (.slot k) ≠ some q := fun hk =>
        hold (hl.places (.slot k) q (by simp) (by simp) hk)
      rw [hafter, hX.fresh q hold, hfd, if_neg fun hc => hne hc.1, List.append_nil]
    · change (h.onSend _ _ _).queue (W.os.fds .broker) (.slot j) = some q at hq
      rw [hfds] at hq
      have hold := Held.queue_onSend hopen hq
      rw [hafter, hsends, hX.slots j q hold, hfd, hslot]
      by_cases hj : k = j
      · subst hj
        rw [if_pos rfl, copies_sinceOffer fun hc => hopen hc.1, List.map_append]
        simp only [hold, true_and, apply_ite (List.map Sent.item), List.map_singleton,
          List.map_nil]
      · have hne : h.queue (X.1.os.fds .broker) (.slot k) ≠ some q := fun hk =>
          hj (Place.slot.inj (hl.inj _ _ q (by simp) (by simp) hk hold))
        rw [if_neg fun hc => hne hc.1, if_neg fun hc => hj (Option.some.inj hc), List.append_nil,
          List.append_nil]

end Steps

/-! ## All along a run -/

/-- What the broker has done, and what it has published on the queues, as long as
    it is not told to stop. -/
structure Delivering (pc : PsmqdCfg) (C : Broker cfg → BrokerLabel cfg → Prop)
    (X : World cfg × Traffic) (ls : List (SysLabel cfg)) (h : Held cfg) : Prop where
  bounded : X.1.os.Bounded cfg
  did : X.1.broker.Did pc C (takesIn ls) (callsIn ls)
  tracks : h.Tracks pc X.1.os X.1.broker
  lodged : h.Lodged (X.1.os.fds .broker) X.2.slotted
  delivered : X.1.broker.Up → Delivered X (callsIn ls) h

namespace Delivering

variable {C : Broker cfg → BrokerLabel cfg → Prop} {X X' : World cfg × Traffic} {W : World cfg}
  {ls : List (SysLabel cfg)} {l : SysLabel cfg} {h h' : Held cfg}

theorem init : Delivering pc C (.start cfg pc, .init) [] (Held.init : Held cfg) where
  bounded _ _ hx := absurd hx List.not_mem_nil
  did := ⟨rfl, rfl, .start⟩
  tracks := .init _
  lodged := .init _
  delivered _ := ⟨fun _ _ => rfl, nofun⟩

theorem callsIn_append (l : SysLabel cfg) : callsIn (ls ++ [l]) = callsIn ls ++ callsIn [l] :=
  List.filterMap_append

/-- A step that makes no call of the broker. -/
theorem quiet (hD : Delivering pc C X ls h) (hst : WorldStep pc X.1 l W) (hl : Orderly C X l)
    (hfds : W.os.fds .broker = X.1.os.fds .broker) (hmq : h'.mq = h.mq)
    (htracks : h'.Tracks pc W.os W.broker) (hup : W.broker.Up → X.1.broker.Up)
    (hcalls : callsIn [l] = []) (hslots : l.slots X.1 = none)
    (hputs : ∀ q, ∀ x ∈ puts (transfersOn q (l.transfer X.1)), x.sender ≠ .broker) :
    Delivering pc C (W, X.2.after X.1 l W) (ls ++ [l]) h' := by
  have hslotted : (X.2.after X.1 l W).slotted = X.2.slotted := by
    rw [Traffic.after, hslots, Option.toList_none, List.append_nil]
  refine ⟨hst.bounded hD.bounded, hst.did hl.1 hD.bounded hD.did, htracks, ?_, fun hW => ?_⟩
  · rw [hslotted, hfds]
    exact hD.lodged.of_mq hmq
  · rw [callsIn_append, hcalls, List.append_nil]
    exact (hD.delivered (hup hW)).quiet hfds hmq hputs

/-- A call of the broker. -/
theorem brokerOp (hD : Delivering pc C X ls h) {job : Job cfg} {tr : Trace cfg} {o : Op cfg}
    {k : Op.Res o → P cfg (Broker cfg)} {r : Op.Res o} {os' : Os}
    (hb : X.1.broker = .busy job tr (.call o k)) (hos : OsStep .broker X.1.os o r os')
    (hl : Orderly C X (.brokerOp ⟨o, r⟩)) :
    Delivering pc C (⟨os', .busy job (tr ++ [⟨o, r⟩]) (k r)⟩, X.2.after X.1 (.brokerOp ⟨o, r⟩)
      ⟨os', .busy job (tr ++ [⟨o, r⟩]) (k r)⟩) (ls ++ [.brokerOp ⟨o, r⟩]) (jobNext h job o r) := by
  have hst : WorldStep pc X.1 (.brokerOp ⟨o, r⟩) ⟨os', .busy job (tr ++ [⟨o, r⟩]) (k r)⟩ :=
    .brokerOp hb hos
  have htracks := hD.tracks
  rw [hb] at htracks
  obtain ⟨hpre, -, htracks'⟩ := htracks.op hos
  refine ⟨hst.bounded hD.bounded, hst.did hl.1 hD.bounded hD.did, htracks',
    hD.lodged.step htracks.sound hpre hos (hl.2 _ rfl), fun hup => ?_⟩
  have hup : job ≠ .stop := hup
  have hX := hD.delivered (by rw [hb]; exact hup)
  rw [callsIn_append]
  by_cases hsends : sends [(⟨o, r⟩ : Event (Op cfg) Op.Res)] = []
  · exact hX.other htracks.sound hpre hos hsends
  · -- The broker only sends as it handles a message, and the whole of what it sends.
    obtain ⟨e, he⟩ := List.exists_mem_of_ne_nil _ hsends
    have hev := List.mem_singleton.1 (mem_sends.1 he)
    rw [Sent.event] at hev
    obtain ⟨rfl, hr⟩ := Sigma.mk.inj_iff.1 hev
    obtain rfl := eq_of_heq hr
    have hfds : os'.fds .broker = X.1.os.fds .broker := by
      generalize e.ok = ok at hos
      cases hos <;> rfl
    cases job with
    | start => exact hpre.elim
    | stop => exact absurd rfl hup
    | handle s x =>
      have hdid := hD.did
      rw [hb] at hdid
      have hlen : e.msg.realMsgSize = some e.len := (hdid.2.2.1.only only_handler).2.1.1
      rw [jobNext_mqTimedsend (recvInto_ctrl _ e.msg hlen)]
      exact hX.send hD.lodged hpre hlen hfds

theorem step (hD : Delivering pc C X ls h) (hst : WorldStep pc X.1 l W) (hl : Orderly C X l) :
    Delivering pc C (W, X.2.after X.1 l W) (ls ++ [l]) (h.along X.1.broker l) := by
  have hst' := hst
  have htracks := hD.tracks
  cases hst with
  | call | «return» => exact hD.quiet hst' hl rfl rfl htracks id rfl rfl nofun
  | @clientOp i o r os' hos =>
    have hfds : os'.fds .broker = X.1.os.fds .broker := hos.fds_of_ne nofun
    refine hD.quiet hst' hl hfds rfl (htracks.of_fds hfds) id rfl rfl fun q x hx => ?_
    rw [sender_of_putBy (mem_puts_transferBy.1 hx)]
    simp
  | @take s q x l hb =>
    rw [hb] at htracks
    refine hD.quiet hst' hl rfl rfl ((htracks.take x).of_fds rfl) (fun _ => ?_) rfl rfl
      fun q' y hy => ?_
    · rw [hb]
      trivial
    · rw [puts_transfer_take] at hy
      exact nomatch hy
  | stop hb =>
    rw [hb] at htracks
    exact hD.quiet hst' hl rfl rfl htracks.stop (fun hup => absurd rfl hup) rfl rfl nofun
  | brokerOp hb hos =>
    rw [hb]
    exact hD.brokerOp hb hos hl
  | @finish job tr s hb =>
    rw [hb] at htracks
    refine hD.quiet hst' hl rfl rfl htracks.finish (fun hup => ?_) rfl rfl nofun
    rw [hb]
    rintro rfl
    exact hup

theorem of_run (hrun : ((trafficLts cfg pc).restrict (Orderly C)).Run (.start cfg pc, .init) ls X) :
    ∃ h, Delivering pc C X ls h := by
  refine hrun.history (R := fun X ls => ∃ h, Delivering pc C X ls h) ?_ ⟨_, init⟩
  rintro ⟨W, T⟩ l ⟨W', T'⟩ ls ⟨h, hD⟩ ⟨⟨hst, hT⟩, hl⟩
  obtain rfl : T' = T.after W l W' := hT
  exact ⟨_, hD.step hst hl⟩

end Delivering

/-! ## Joining -/

section Join

variable {s s' : Broker cfg} {l : BrokerLabel cfg} {k : Slot cfg} {f : Sent cfg}
  {e : Event (Slot cfg) CString CString (List UInt8 × ℕ)}

/-- Only one client is told its descriptor, and is sent nothing else. -/
theorem Open.of_told {msg : PsmqMsg cfg} {tr : Trace cfg} (h : Open s msg tr s')
    (htold : Told k tr) :
    ∃ f, sends tr = [f] ∧ f.slot = some k ∧ f.msg.ctrl.cmd = cmdOpen ∧ f.ok = true := by
  obtain ⟨f, hf, hctrl, hdata, hok⟩ := htold
  cases h with
  | noQueue => exact absurd hf List.not_mem_nil
  | noSlot _ _ hr =>
    obtain rfl := List.mem_singleton.1 hf
    exact absurd (congrArg Ctrl.data (hr.cmd_eq.symm.trans hctrl)) (by decide)
  | noReply _ _ _ _ hno =>
    obtain rfl := List.mem_singleton.1 hf
    exact absurd (hno.symm.trans hok) (by decide)
  | opened _ _ _ hr =>
    obtain rfl := List.mem_singleton.1 hf
    obtain rfl := fdOf_inj (Option.some.inj (hdata.symm.trans (hr.data_zero (by decide))))
    exact ⟨_, rfl, hr.slot_eq, congrArg Ctrl.cmd hctrl, hok⟩

/-- An offer that is delivered tells its descriptor to the client it is sent to. -/
theorem Open.told {msg : PsmqMsg cfg} {tr : Trace cfg} (h : Open s msg tr s')
    (hf : f ∈ sendsTo k tr) (hok : f.ok = true) : Told k tr := by
  obtain ⟨hmem, hslot⟩ := List.mem_filter.1 hf
  have hslot := of_decide_eq_true hslot
  cases h with
  | noQueue => exact absurd hmem List.not_mem_nil
  | noSlot _ _ hr =>
    obtain rfl := List.mem_singleton.1 hmem
    exact absurd (hr.slot_eq.symm.trans hslot) (by simp)
  | noReply _ _ _ _ hno =>
    obtain rfl := List.mem_singleton.1 hmem
    exact absurd (hno.symm.trans hok) (by decide)
  | @opened _ _ fd e _ _ _ hr =>
    obtain rfl := List.mem_singleton.1 hmem
    obtain rfl : fd = k := Option.some.inj (hr.slot_eq.symm.trans hslot)
    exact ⟨e, List.mem_cons_self, hr.cmd_eq, hr.data_zero (by decide), hok⟩

/-- A client that joins is sent its descriptor, and nothing else. -/
theorem Means.sends_join (hm : Means l (.join k)) (hst : BrokerStep pc s l s') :
    ∃ f, sendsTo k l.trace = [f] ∧ f.msg.ctrl.cmd = cmdOpen ∧ f.ok = true := by
  cases hm with
  | join htold =>
    have hcmd := cmd_of_told hst htold
    rcases step_request hst with ⟨-, rfl, -⟩ | ⟨-, hh⟩
    · obtain ⟨f, hf, -⟩ := htold
      exact absurd hf List.not_mem_nil
    · obtain ⟨f, hs, hslot, hf⟩ := (hh.of_cmd.1 hcmd).of_told htold
      refine ⟨f, ?_, hf⟩
      rw [BrokerLabel.trace, sendsTo, hs, List.filter_singleton, decide_eq_true hslot]
      rfl

/-- An offer that is delivered to a client is that client joining. -/
theorem Means.ends_of_offer (hm : Means l e) (hst : BrokerStep pc s l s')
    (hf : f ∈ sendsTo k l.trace) (hcmd : f.msg.ctrl.cmd = cmdOpen) (hok : f.ok = true) :
    e.Ends k := by
  cases l with
  | restart tr =>
    cases hm with
    | reset => trivial
    | subscribe hc | unsubscribe hc => exact hc.elim
  | request bytes prio tr =>
    rcases step_request hst with ⟨-, rfl, -⟩ | ⟨-, hh⟩
    · exact absurd hf List.not_mem_nil
    have hreq : (received cfg bytes).ctrl.cmd = cmdOpen := by
      rcases (hh.slotStep k).cmd_eq hf with hc | ⟨-, hc⟩
      · exact hc.symm.trans hcmd
      · exact cmd_absurd hcmd hc
    have hopen := hh.of_cmd.1 hreq
    have htold := hopen.told hf hok
    cases hm with
    | join htold' =>
      obtain ⟨g, hs, hslot, -⟩ := hopen.of_told htold
      obtain ⟨g', hs', hslot', -⟩ := hopen.of_told htold'
      obtain rfl := List.singleton_inj.1 (hs.symm.trans hs')
      exact Option.some.inj (hslot.symm.trans hslot')
    | leave _ hc => exact cmd_absurd hreq hc
    | subscribe hc | unsubscribe hc => exact cmd_absurd hreq hc.2.1
    | publish _ hc => exact cmd_absurd hreq hc
    | idle _ hno => exact absurd htold (hno k)

end Join

/-! ## The queues and the service -/

/-- What is published is put on a queue, with its topic, its payload and its priority. -/
def Item.Copies (cfg : Config) (x : Item) (y : CString × List UInt8 × ℕ) : Prop :=
  x.Published cfg ∧ Carries (received cfg x.bytes) (some y.1) y.2.1 ∧ x.prio = y.2.2

/-- What is passed on to a client is put on its queue. -/
theorem PassesOn.copies {e : Sent cfg} {y : CString × List UInt8 × ℕ} (h : PassesOn e y) :
    e.item.Copies cfg y := by
  obtain ⟨hcopy, hprio⟩ := h
  obtain ⟨hcmd, hrecv⟩ := hcopy.recvInto (.zero cfg)
  exact ⟨⟨rfl, hcmd⟩, hrecv, hprio⟩

section Queues

variable {s : Broker cfg} {s₀ : Broker cfg} {bl : List (BrokerLabel cfg)} {k : Slot cfg}
  {es es₁ es₂ : List (Event (Slot cfg) CString CString (List UInt8 × ℕ))}
  {X : World cfg × Traffic} {ls : List (SysLabel cfg)}

theorem sendsTo_flatMap : sendsTo k (bl.flatMap BrokerLabel.trace) =
    bl.flatMap fun l => sendsTo k l.trace := by
  induction bl with
  | nil => rfl
  | cons l bl ih => rw [List.flatMap_cons, sendsTo_append, ih, List.flatMap_cons]

/-- What a client is sent since it was offered its slot is what it gets since it has joined. -/
theorem forall₂_sinceOffer {tr₀ : Trace cfg}
    (h : List.Forall₂ (Serves pc) bl (es₁ ++ .join k :: es₂)) (hes₂ : ∀ e ∈ es₂, ¬e.Ends k) :
    List.Forall₂ PassesOn (copies (sinceOffer (sendsTo k (tr₀ ++ bl.flatMap BrokerLabel.trace))))
      (PubSub.inbox k es₂) := by
  have hdrop := List.forall₂_drop_append bl es₁ _ h
  obtain ⟨l, bl₂, ⟨hm, s₁, s₂, hst⟩, hbl₂, hbl⟩ := List.forall₂_cons_right_iff.1 hdrop
  obtain ⟨f, hs, hf⟩ := hm.sends_join hst
  rw [← List.take_append_drop es₁.length bl, hbl, List.flatMap_append, List.flatMap_cons,
    sendsTo_append, sendsTo_append, sendsTo_append, hs, ← List.append_assoc, ← List.append_assoc,
    sinceOffer_append, sinceOffer_of_offer hf.1 hf.2, List.nil_append, sendsTo_flatMap]
  · exact forall₂_inbox hbl₂ k
  · intro f' hf' hoffer
    rw [sendsTo_flatMap] at hf'
    obtain ⟨l', hl', hf'⟩ := List.mem_flatMap.1 hf'
    obtain ⟨e, he, hm', _, _, hst'⟩ := exists_of_mem_forall₂ hbl₂ hl'
    exact hes₂ e he (hm'.ends_of_offer hst' hf' hoffer.1 hoffer.2)

/-- The messages taken are those of the steps. -/
theorem forall₂_takes {ms : List (List UInt8 × ℕ)}
    (hms : bl.map BrokerLabel.message = ms.map some) (h : List.Forall₂ (Serves pc) bl es) :
    List.Forall₂ (fun m e => ∃ tr, Means (.request m.1 m.2 tr) e) ms es := by
  induction h generalizing ms with
  | nil =>
    obtain rfl := List.map_eq_nil_iff.1 hms.symm
    exact .nil
  | @cons l e bl es hl _ ih =>
    obtain ⟨m, ms, rfl, hm, hms⟩ := List.map_eq_cons_iff.1 hms.symm
    refine .cons ?_ (ih hms.symm)
    cases l with
    | restart => exact absurd hm (by simp [BrokerLabel.message])
    | request bytes prio tr =>
      obtain rfl := Option.some.inj hm
      exact ⟨tr, hl.1⟩

/-- Whatever the other processes do, as long as a queue is opened for one slot
    only, and topics are only added to open slots: the messages the broker has
    taken, when it waits for the next one, are events of the service, in the
    same order, and on the queue of a slot it has published what its client gets
    from the service, since it has joined, in the same order, with the topics,
    the payloads and the priorities published. -/
theorem queue_serves (h : ((trafficLts cfg pc).restrict (Orderly SubscribesOpen)).Run
      (.start cfg pc, .init) ls X) (hs : X.1.broker = .idle s) :
    ∃ es, (service cfg).Run (fun _ => none) es s.members ∧
      List.Forall₂ (fun m e => ∃ tr, Means (.request m.1 m.2 tr) e) (takesIn ls) es ∧
      ∀ k q, X.1.os.fd .broker (s.clients k).mq = some q →
        ∃ es₁ es₂, es = es₁ ++ .join k :: es₂ ∧ (∀ e ∈ es₂, ¬e.Ends k) ∧
          List.Forall₂ (Item.Copies cfg) (publishedOn cfg q X.2) (PubSub.inbox k es₂) := by
  obtain ⟨h, hD⟩ := Delivering.of_run h
  have hdid := hD.did
  have hkeeps := hD.tracks.obeys
  rw [hs] at hdid hkeeps
  obtain ⟨tr₀, x₀, bl, hinit, hrun, htakes, hcalls⟩ := hdid
  obtain ⟨es, hes, hserves, -⟩ := exists_service_run ⟨tr₀, x₀, hinit, rfl⟩ hrun
  refine ⟨es, hes, ?_, fun k q hq => ?_⟩
  · exact forall₂_takes htakes hserves
  · have hmem : PubSub.filters k es = some ((s.clients k).topics : Multiset CString) := by
      rw [← PubSub.eq_filters_of_run hes k]
      refine member_of_isOpen fun hnone => ?_
      rw [hnone] at hq
      exact absurd hq (by simp [Os.fd])
    obtain ⟨es₁, es₂, rfl, hends⟩ := PubSub.exists_join hmem
    refine ⟨es₁, es₂, rfl, hends, ?_⟩
    have hqueue : h.queue (X.1.os.fds .broker) (.slot k) = some q := by
      rw [Held.queue, ← hkeeps.2 k]
      exact hq
    have hdelivered := hD.delivered (by rw [hs]; trivial)
    rw [hdelivered.slots k q hqueue, hcalls, List.forall₂_map_left_iff]
    exact (forall₂_sinceOffer hserves hends).imp fun _ _ h => h.copies

end Queues

/-- The clients and the message of the job at hand. -/
def BrokerProc.handled : BrokerProc cfg → Option (Broker cfg × Item)
  | busy (.handle s x) _ _ => some (s, x)
  | _ => none

/-- Topics are only added to open slots, and a queue that is opened has had no slot. -/
def Tidy (X : Sys cfg × Traffic) : SysLabel cfg → Prop
  | .finish => ∀ b ∈ X.1.broker.handled,
      ∀ k ∈ slotOf cfg (b.2.data cfg), b.2.cmd cfg = cmdSubscribe → b.1.IsOpen k
  | .brokerOp e => ∀ q ∈ openedBy X.1.os e, q ∉ X.2.slotted
  | _ => True

instance (X : Sys cfg × Traffic) : (l : SysLabel cfg) → Decidable (Tidy X l)
  | .finish => inferInstanceAs (Decidable (∀ b ∈ X.1.broker.handled,
      ∀ k ∈ slotOf cfg (b.2.data cfg), b.2.cmd cfg = cmdSubscribe → b.1.IsOpen k))
  | .brokerOp e => inferInstanceAs (Decidable (∀ q ∈ openedBy X.1.os e, q ∉ X.2.slotted))
  | .call .. | .clientOp .. | .return _ | .take _ | .stop => .isTrue trivial

theorem Tidy.orderly {X : Sys cfg × Traffic} {l : SysLabel cfg} (h : Tidy X l) :
    Orderly SubscribesOpen (X.1.world, X.2) l := by
  refine ⟨fun s x tr s' hl hb k hk => ?_, fun e hl => ?_⟩
  · subst hl
    have hjob : X.1.broker.handled = some (s, x) := by
      rw [show X.1.broker = _ from hb]
      rfl
    exact h (s, x) hjob k hk.2.2.1 hk.2.1
  · subst hl
    exact h

theorem run_orderly {X X' : Sys cfg × Traffic}
    (h : (((sysLts cfg pc names).watch .init Traffic.sysAfter).restrict Tidy).Run X ls X') :
    ((trafficLts cfg pc).restrict (Orderly SubscribesOpen)).Run (X.1.world, X.2) ls
      (X'.1.world, X'.2) := by
  refine h.map (f := fun X => (X.1.world, X.2)) fun X l X' hst => ?_
  exact ⟨⟨SysStep.world hst.1.1, hst.1.2⟩, hst.2.orderly⟩

/-- The client 1 subscribes to a topic, and the client 0 publishes a message on it. -/
def serving : List (Turn smallest) :=
  List.replicate 2 .broker ++ connecting 0 nameA 10 ++ connecting 1 nameB 10 ++
    requesting 1 (.subscribe (some nameB)) ++ List.replicate 4 .broker ++
    requesting 0 (.publish (some nameB) none 0 1) ++ List.replicate 3 .broker

/-- The message published is on the queue of the client 1, that gets it from the service. -/
theorem queue_serves_one : ∃ (X : World smallest × Traffic) (ls : List (SysLabel smallest))
    (s : Broker smallest) (q : Qid)
    (es₁ es₂ : List (Event (Slot smallest) CString CString (List UInt8 × ℕ))),
    (trafficLts smallest psmqdCfgInit).Run (.start smallest psmqdCfgInit, .init) ls X ∧
    X.1.broker = .idle s ∧ publishedOn smallest q X.2 ≠ [] ∧
    (service smallest).Run (fun _ => none) (es₁ ++ .join 1 :: es₂) s.members ∧
    List.Forall₂ (Item.Copies smallest) (publishedOn smallest q X.2) (PubSub.inbox 1 es₂) := by
  obtain ⟨X, hX, s, hs, q, hq, hpub⟩ :
      ∃ X ∈ moves psmqdCfgInit twoNames Traffic.sysAfter Tidy (serving.map .turn)
        (.start smallest psmqdCfgInit, .init), ∃ s ∈ X.1.broker.waiting,
        ∃ q ∈ X.1.os.fd .broker (s.clients 1).mq, publishedOn smallest q X.2 ≠ [] := by
    decide +kernel
  have hidle : X.1.broker = .idle s := BrokerProc.eq_of_waiting hs
  obtain ⟨ls, hrun⟩ := run_of_moves hX
  have hrun' := run_orderly hrun
  obtain ⟨es, hes, -, hqueues⟩ := queue_serves hrun' hidle
  obtain ⟨es₁, es₂, rfl, -, hcopies⟩ := hqueues 1 q hq
  exact ⟨_, ls, s, q, es₁, es₂, hrun'.of_restrict, hidle, hpub, hes, hcopies⟩

end Psmq
