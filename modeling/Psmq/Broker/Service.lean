import Psmq.Broker.Losses
import Psmq.Broker.Subscriptions
import Psmq.Lib.PubSub
import Psmq.Sub.Receiving
import Mathlib.Data.Fintype.Basic

/-!
# The service of the broker

The broker is a publish and subscribe service: its members are the clients of
the open slots, with their subscriptions, and what is published on a topic is
for the clients with a subscription it matches.

Every run in which topics are only added to open slots (`SubscribesOpen`) is a
run of the service, event for event, in which every client is sent what it gets
from the service (`broker_serves`). So a client is only sent what matches its
subscriptions, those made since it was given its slot (`delivered_subscribed`).
-/

namespace Psmq

open CMem Prog
open PubSub (Event)

variable {cfg : Config} {pc : PsmqdCfg}

/-- The service, with the payloads published, and their priorities. -/
abbrev service (cfg : Config) :
    Lts (PubSub.State (Slot cfg) CString) (Event (Slot cfg) CString CString (List UInt8 × ℕ)) :=
  PubSub.lts (List UInt8 × ℕ) fun topic node => TopicMatches cfg topic node

/-- The subscriptions of a client, if there is one. -/
def Client.member (c : Client) : Option (Multiset CString) :=
  if c.mq = none then none else some c.topics

/-- The clients of the open slots, with their subscriptions. -/
def Broker.members (s : Broker cfg) : PubSub.State (Slot cfg) CString :=
  fun k => (s.clients k).member

/-! ## Serving a client -/

/-- A client was told to be closed. -/
def ToldClosed (es : List (Sent cfg)) : Prop := ∃ e ∈ es, e.msg.ctrl.cmd = cmdClose

instance (es : List (Sent cfg)) : Decidable (ToldClosed es) :=
  inferInstanceAs (Decidable (∃ e ∈ es, _))

/-- What becomes of a client that is served what is published. -/
inductive Outcome (wanted : Prop) (c : Client) (es : List (Sent cfg)) (c' : Client) : Prop
  | unwanted : ¬wanted → copies es = [] → failures es = [] → ¬ToldClosed es → c'.member = c.member →
      Outcome wanted c es c'
  | got : wanted → copies es ≠ [] → ¬ToldClosed es → c'.member = c.member →
      Outcome wanted c es c'
  | missed : wanted → copies es = [] → failures es ≠ [] → ¬ToldClosed es → c'.member = c.member →
      Outcome wanted c es c'
  | dropped : wanted → copies es = [] → failures es ≠ [] → ToldClosed es → c'.member = none →
      Outcome wanted c es c'

section Serve

variable {topic : CString} {payload : Ptr} {paylen prio : ℕ} {fd : Slot cfg}
  {nodes : List CString} {c c' : Client} {tr : Trace cfg}

theorem not_toldClosed_singleton {e : Sent cfg} (h : e.msg.ctrl.cmd = cmdPublish) :
    ¬ToldClosed [e] := by
  rintro ⟨e', he', hc⟩
  obtain rfl := List.mem_singleton.1 he'
  exact cmd_absurd h hc

theorem toldClosed_cons {e : Sent cfg} {es : List (Sent cfg)} (h : e.msg.ctrl.cmd = cmdPublish) :
    ToldClosed (e :: es) ↔ ToldClosed es := by
  rw [ToldClosed, List.exists_mem_cons_iff, ToldClosed]
  exact or_iff_right fun hc => cmd_absurd h hc

/-- A client is served what is published if it wants it. -/
theorem Serve.outcome (h : Serve topic payload paylen prio fd nodes c tr c') :
    Outcome (∃ node ∈ nodes, TopicMatches cfg topic node) c (sends tr) c' := by
  induction h with
  | done => exact .unwanted (by simp) rfl rfl (by simp [ToldClosed]) rfl
  | @skip node nodes _ _ _ hno _ ih =>
    have hiff : (∃ n ∈ node :: nodes, TopicMatches cfg topic n) ↔
        ∃ n ∈ nodes, TopicMatches cfg topic n := by
      rw [List.exists_mem_cons_iff]
      exact or_iff_right (not_topicMatches hno)
    rwa [hiff]
  | sent hm he hok =>
    have hcmd := congrArg Ctrl.cmd he.cmd_eq
    exact .got ⟨_, List.mem_cons_self, hm⟩ (by simp [copies, hcmd, hok])
      (not_toldClosed_singleton hcmd) rfl
  | @missed node nodes _ _ e tr hm he hok _ _ ih =>
    have hcmd : e.msg.ctrl.cmd = cmdPublish := congrArg Ctrl.cmd he.cmd_eq
    have hwant : ∃ n ∈ node :: nodes, TopicMatches cfg topic n := ⟨_, List.mem_cons_self, hm⟩
    rw [sends_event]
    -- A later attempt may succeed, and has the last word.
    have hcopies : copies (e :: sends tr) = copies (sends tr) := copies_cons_of_failed _ hok
    have hfail : failures (e :: sends tr) ≠ [] := by
      rw [failures_cons_of_failed _ hcmd hok]
      exact List.cons_ne_nil _ _
    cases ih with
    | unwanted _ h₁ _ h₂ h₃ =>
      exact .missed hwant (hcopies.trans h₁) hfail (by rwa [toldClosed_cons hcmd]) h₃
    | got _ h₁ h₂ h₃ => exact .got hwant (by rwa [hcopies]) (by rwa [toldClosed_cons hcmd]) h₃
    | missed _ h₁ _ h₂ h₃ =>
      exact .missed hwant (hcopies.trans h₁) hfail (by rwa [toldClosed_cons hcmd]) h₃
    | dropped _ h₁ _ h₂ h₃ =>
      exact .dropped hwant (hcopies.trans h₁) hfail ((toldClosed_cons hcmd).2 h₂) h₃
  | evicted hm he hok _ hc =>
    have hcmd := congrArg Ctrl.cmd he.cmd_eq
    obtain ⟨e', he', hs, rfl⟩ := hc.spec
    rw [sends_event, sends_mqTimedreceive]
    refine .dropped ⟨_, List.mem_cons_self, hm⟩ ?_ ?_ ?_ rfl
    · rw [copies_cons_of_failed _ hok, copies_eq_nil_of_close hc]
    · rw [failures_cons_of_failed _ hcmd hok]
      exact List.cons_ne_nil _ _
    · exact ⟨e', by simp [hs], congrArg Ctrl.cmd he'.cmd_eq⟩

end Serve

/-! ## The events of a step -/

/-- Who is sent a message. -/
def gotIn (tr : Trace cfg) : Finset (Slot cfg) :=
  Finset.univ.filter fun k => copies (sendsTo k tr) ≠ []

/-- Who is not, though it was attempted. -/
def missedIn (tr : Trace cfg) : Finset (Slot cfg) :=
  Finset.univ.filter fun k => copies (sendsTo k tr) = [] ∧ failures (sendsTo k tr) ≠ []

/-- Who is told to be closed. -/
def droppedIn (tr : Trace cfg) : Finset (Slot cfg) :=
  Finset.univ.filter fun k => ToldClosed (sendsTo k tr)

/-- What a step of the broker is for the service. -/
inductive Means : BrokerLabel cfg → Event (Slot cfg) CString CString (List UInt8 × ℕ) → Prop
  /-- A client is told the descriptor it is given. -/
  | join {bytes : List UInt8} {prio : ℕ} {tr : Trace cfg} {k : Slot cfg} : Told k tr →
      Means (.request bytes prio tr) (.join k)
  | leave {bytes : List UInt8} {prio : ℕ} {tr : Trace cfg} {k : Slot cfg} :
      Accepted (received cfg bytes) → (received cfg bytes).ctrl.cmd = cmdClose →
      slotOf cfg (received cfg bytes).ctrl.data = some k → Means (.request bytes prio tr) (.leave k)
  | subscribe {l : BrokerLabel cfg} {k : Slot cfg} {t : CString} : Confirms cmdSubscribe k t l →
      Means l (.subscribe k t)
  | unsubscribe {l : BrokerLabel cfg} {k : Slot cfg} {t : CString} :
      Confirms cmdUnsubscribe k t l → Means l (.unsubscribe k t)
  | publish {bytes body : List UInt8} {prio : ℕ} {tr : Trace cfg} {topic : CString} :
      Accepted (received cfg bytes) → (received cfg bytes).ctrl.cmd = cmdPublish →
      Carries (received cfg bytes) (some topic) body → Means (.request bytes prio tr)
        (.publish topic (body, prio) (gotIn tr) (missedIn tr) (droppedIn tr))
  | reset {tr : Trace cfg} : Means (.restart tr) .reset
  /-- The request is none of these, or is dropped or refused. -/
  | idle {bytes : List UInt8} {prio : ℕ} {tr : Trace cfg} :
      (Accepted (received cfg bytes) → (received cfg bytes).ctrl.cmd ∉ [cmdClose, cmdPublish]) →
      (∀ k, ¬Told k tr) →
      (∀ cmd ∈ [cmdSubscribe, cmdUnsubscribe], ∀ k t,
        ¬Confirms cmd k t (.request bytes prio tr)) → Means (.request bytes prio tr) .idle

section Step

variable {s s' : Broker cfg} {l : BrokerLabel cfg}

theorem member_of_not_isOpen {k : Slot cfg} (h : ¬s.IsOpen k) : s.members k = none :=
  if_pos (not_not.1 h)

theorem member_of_isOpen {k : Slot cfg} (h : s.IsOpen k) :
    s.members k = some ((s.clients k).topics : Multiset CString) :=
  if_neg h

theorem members_set_of_ne {fd k : Slot cfg} (h : k ≠ fd) (c : Client) :
    (s.set fd c).members k = s.members k :=
  congrArg Client.member (Broker.set_clients_of_ne _ h c)

theorem members_set_self (fd : Slot cfg) (c : Client) : (s.set fd c).members fd = c.member :=
  congrArg Client.member (Broker.set_clients_self _ _ _)

/-- A change of one slot. -/
theorem members_set (fd : Slot cfg) {c : Client}
    {e : Event (Slot cfg) CString CString (List UInt8 × ℕ)}
    (hself : c.member = e.next fd (s.members fd))
    (hne : ∀ k, k ≠ fd → e.next k (s.members k) = s.members k) :
    (s.set fd c).members = fun k => e.next k (s.members k) := by
  funext k
  by_cases hk : k = fd
  · subst hk
    rw [members_set_self, hself]
  · rw [members_set_of_ne hk, hne k hk]

theorem member_congr {c c' : Client} (hmq : c'.mq = c.mq) (ht : c'.topics = c.topics) :
    c'.member = c.member := by
  rw [Client.member, hmq, ht, Client.member]

section Request

variable {bytes : List UInt8} {prio : ℕ} {tr : Trace cfg}

/-- A request other than open tells no one of a descriptor. -/
theorem not_told (h : Handle s (received cfg bytes) prio tr s')
    (hcmd : (received cfg bytes).ctrl.cmd ≠ cmdOpen) (k : Slot cfg) : ¬Told k tr := by
  rintro ⟨e, he, hctrl, -⟩
  exact h.cmd_ne_open hcmd he (congrArg Ctrl.cmd hctrl)

/-- A request other than these confirms nothing. -/
theorem not_confirms (hcmd : (received cfg bytes).ctrl.cmd ∉ [cmdSubscribe, cmdUnsubscribe]) :
    ∀ cmd ∈ [cmdSubscribe, cmdUnsubscribe], ∀ (k : Slot cfg) t,
      ¬Confirms cmd k t (.request bytes prio tr) :=
  fun _ hmem _ _ h => hcmd (h.2.1 ▸ hmem)

/-- An open request is a client joining, if it is told its descriptor. -/
theorem Open.serves (hcmd : (received cfg bytes).ctrl.cmd = cmdOpen)
    (h : Open s (received cfg bytes) tr s') (hclean : FreeClean s) :
    ∃ e, (service cfg).step s.members e s'.members ∧ Means (.request bytes prio tr) e := by
  have hidle : (∀ k, ¬Told k tr) → Means (.request bytes prio tr) .idle := fun hno =>
    .idle (fun _ => by rw [hcmd]; decide) hno (not_confirms (by rw [hcmd]; decide))
  cases h with
  | noQueue =>
    refine ⟨.idle, ⟨trivial, rfl⟩, hidle ?_⟩
    rintro k ⟨e, he, -⟩
    exact absurd he List.not_mem_nil
  | noSlot _ _ hr =>
    refine ⟨.idle, ⟨trivial, rfl⟩, hidle ?_⟩
    rintro k ⟨e, he, hctrl, -⟩
    obtain rfl := List.mem_singleton.1 he
    exact absurd (congrArg Ctrl.data (hr.cmd_eq.symm.trans hctrl)) (by decide)
  | noReply _ _ _ hr hok =>
    refine ⟨.idle, ⟨trivial, rfl⟩, hidle ?_⟩
    rintro k ⟨e, he, -, -, htold⟩
    obtain rfl := List.mem_singleton.1 he
    exact absurd (hok.symm.trans htold) (by decide)
  | @opened _ qc fd e _ hfree _ hr hok =>
    refine ⟨.join fd, ⟨member_of_not_isOpen hfree, ?_⟩, .join ⟨e, ?_, hr.cmd_eq, ?_, hok⟩⟩
    · refine members_set fd ?_ fun k hk => if_neg hk
      rw [Event.next, if_pos rfl, Client.member, if_neg (Option.some_ne_none _), hclean fd hfree]
      rfl
    · exact List.mem_singleton_self e
    · exact hr.data_zero (by decide)

/-- A request to subscribe to a topic is one if it is confirmed. -/
theorem Subscribe.serves (ha : Accepted (received cfg bytes))
    (hcmd : (received cfg bytes).ctrl.cmd = cmdSubscribe) {fd : Slot cfg} {stopic : CString}
    {c : Client} (hfd : slotOf cfg (received cfg bytes).ctrl.data = some fd)
    (ht : str (received cfg bytes).data.bytes = some stopic)
    (h : Subscribe (received cfg bytes) stopic fd (s.clients fd) tr c)
    (hst : Handle s (received cfg bytes) prio tr (s.set fd c)) (hclean : FreeClean (s.set fd c)) :
    ∃ e, (service cfg).step s.members e (s.set fd c).members ∧
      Means (.request bytes prio tr) e := by
  obtain ⟨e, he, hdata⟩ := h.answered
  have hconfirms : ∀ {k t}, Confirms cmdSubscribe k t (.request bytes prio tr) ↔
      k = fd ∧ t = stopic ∧ e.msg.ctrl.data = 0 := he.confirms_iff ha hcmd hfd ht
  have hmq := h.topics_eq.1
  rcases hdata with ⟨h0, hc⟩ | ⟨hne, hc⟩
  · have htopics : c.topics = tlInsert (s.clients fd).topics stopic := by rw [hc]
    -- Topics are not added to the free slots.
    have ho : s.IsOpen fd := fun hfree => by
      have hnil := hclean fd fun ho => ho (by rw [Broker.set_clients_self, hmq, hfree])
      rw [Broker.set_clients_self, htopics] at hnil
      exact tlInsert_ne_nil _ _ hnil
    refine ⟨.subscribe fd stopic, ⟨?_, ?_⟩, .subscribe (hconfirms.2 ⟨rfl, rfl, h0⟩)⟩
    · exact fun hnone => absurd ((member_of_isOpen ho).symm.trans hnone) (Option.some_ne_none _)
    · refine members_set fd ?_ fun k hk => if_neg hk
      rw [Event.next, if_pos rfl, member_of_isOpen ho, Client.member, hmq, if_neg ho, htopics]
      exact congrArg some (Multiset.coe_eq_coe.2 (tlInsert_perm _ _))
  · have htopics : c.topics = (s.clients fd).topics := by rw [hc]
    refine ⟨.idle, ⟨trivial, members_set fd (member_congr hmq htopics) fun _ _ => rfl⟩, ?_⟩
    refine .idle (fun _ => by rw [hcmd]; decide) (not_told hst (by rw [hcmd]; decide)) ?_
    intro cmd hmem k t hconf
    obtain rfl : cmd = cmdSubscribe := hconf.2.1.symm.trans hcmd
    exact hne (hconfirms.1 hconf).2.2

/-- A request to unsubscribe from a topic is one if it is confirmed. -/
theorem Unsubscribe.serves (ha : Accepted (received cfg bytes))
    (hcmd : (received cfg bytes).ctrl.cmd = cmdUnsubscribe) {fd : Slot cfg} {utopic : CString}
    {c : Client} (hfd : slotOf cfg (received cfg bytes).ctrl.data = some fd)
    (ht : str (received cfg bytes).data.bytes = some utopic)
    (h : Unsubscribe utopic fd (s.clients fd) tr c)
    (hst : Handle s (received cfg bytes) prio tr (s.set fd c)) (hclean : FreeClean s) :
    ∃ e, (service cfg).step s.members e (s.set fd c).members ∧
      Means (.request bytes prio tr) e := by
  obtain ⟨e, he, hdata⟩ := h.answered
  have hconfirms : ∀ {k t}, Confirms cmdUnsubscribe k t (.request bytes prio tr) ↔
      k = fd ∧ t = utopic ∧ e.msg.ctrl.data = 0 := he.confirms_iff ha hcmd hfd ht
  rcases hdata with ⟨h0, hmem, hc⟩ | ⟨hne, hc⟩
  · have ho : s.IsOpen fd := by
      by_contra hfree
      rw [hclean fd hfree] at hmem
      exact List.not_mem_nil hmem
    refine ⟨.unsubscribe fd utopic, ⟨⟨_, member_of_isOpen ho, hmem⟩, ?_⟩,
      .unsubscribe (hconfirms.2 ⟨rfl, rfl, h0⟩)⟩
    refine members_set fd ?_ fun k hk => if_neg hk
    rw [Event.next, if_pos rfl, member_of_isOpen ho, hc, Client.member, if_neg ho]
    rfl
  · refine ⟨.idle, ⟨trivial, members_set fd (member_congr ?_ ?_) fun _ _ => rfl⟩, ?_⟩
    · rw [hc]
    · rw [hc]
    refine .idle (fun _ => by rw [hcmd]; decide) (not_told hst (by rw [hcmd]; decide)) ?_
    intro cmd hmem k t hconf
    obtain rfl : cmd = cmdUnsubscribe := hconf.2.1.symm.trans hcmd
    exact hne (hconfirms.1 hconf).2.2

/-- What becomes of a slot, open or free, when a message is published. -/
theorem ServeAll.outcome {topic : CString} {payload : Ptr} {paylen : ℕ}
    (h : ServeAll topic payload paylen prio (List.finRange cfg.maxClients) s tr s') (k : Slot cfg) :
    Outcome (PubSub.Wants (fun topic node => TopicMatches cfg topic node) s.members topic k)
      (s.clients k) (sendsTo k tr) (s'.clients k) := by
  rcases h.slot Serve.onlyTo (List.nodup_finRange _) k with ⟨-, ho, tr', hs, hc⟩ | ⟨hfree, hs, hc⟩
  · have hwants : PubSub.Wants (fun topic node => TopicMatches cfg topic node) s.members topic k ↔
        ∃ node ∈ (s.clients k).topics, TopicMatches cfg topic node := by
      rw [PubSub.Wants, member_of_isOpen ho]
      simp
    rw [hs, hwants]
    exact hc.outcome
  · have hno := member_of_not_isOpen (hfree (List.mem_finRange k))
    rw [hs, hc]
    refine .unwanted ?_ rfl rfl (by simp [ToldClosed]) rfl
    rintro ⟨fs, hfs, -⟩
    exact absurd (hno.symm.trans hfs) (by simp)

/-- A publish request is a publication. -/
theorem ServeAll.serves {topic : CString} (ha : Accepted (received cfg bytes))
    (hcmd : (received cfg bytes).ctrl.cmd = cmdPublish)
    (ht : str (received cfg bytes).data.bytes = some topic)
    (h : ServeAll topic (payloadOf (received cfg bytes) topic) (received cfg bytes).paylen.toNat
      prio (List.finRange cfg.maxClients) s tr s') :
    ∃ e, (service cfg).step s.members e s'.members ∧ Means (.request bytes prio tr) e := by
  have hmem : ∀ k, (k ∈ gotIn tr ↔ copies (sendsTo k tr) ≠ []) ∧
      (k ∈ missedIn tr ↔ copies (sendsTo k tr) = [] ∧ failures (sendsTo k tr) ≠ []) ∧
      (k ∈ droppedIn tr ↔ ToldClosed (sendsTo k tr)) := fun k => by
    simp [gotIn, missedIn, droppedIn]
  refine ⟨.publish topic (_, prio) (gotIn tr) (missedIn tr) (droppedIn tr),
    ⟨⟨fun k => ?_, fun k hgot hmissed => ?_, fun k hdropped => ?_⟩, ?_⟩,
    .publish ha hcmd (carries_of_accepted ha ht)⟩
  · obtain ⟨hgot, hmissed, -⟩ := hmem k
    rw [hgot, hmissed]
    cases h.outcome k with
    | unwanted hno h₁ h₂ => simp [hno, h₁, h₂]
    | got hw h₁ => simp [hw, h₁]
    | missed hw h₁ h₂ => simp [hw, h₁, h₂]
    | dropped hw h₁ h₂ => simp [hw, h₁, h₂]
  · exact (hmem k).1.1 hgot ((hmem k).2.1.1 hmissed).1
  · rw [(hmem k).2.2] at hdropped
    rw [(hmem k).2.1]
    cases h.outcome k with
    | dropped _ h₁ h₂ => exact ⟨h₁, h₂⟩
    | unwanted _ _ _ hno => exact absurd hdropped hno
    | got _ _ hno => exact absurd hdropped hno
    | missed _ _ _ hno => exact absurd hdropped hno
  · funext k
    have hdropped := (hmem k).2.2
    rw [Event.next]
    cases h.outcome k with
    | dropped _ _ _ htold hc => rw [if_pos (hdropped.2 htold)]; exact hc
    | unwanted _ _ _ hno hc => rw [if_neg fun hk => hno (hdropped.1 hk)]; exact hc
    | got _ _ hno hc => rw [if_neg fun hk => hno (hdropped.1 hk)]; exact hc
    | missed _ _ _ hno hc => rw [if_neg fun hk => hno (hdropped.1 hk)]; exact hc

end Request

/-- Every step is an event of the service. -/
theorem step_serves (h : BrokerStep pc s l s') (hclean : FreeClean s) (hopen : SubscribesOpen s l) :
    ∃ e, (service cfg).step s.members e s'.members ∧ Means l e := by
  have hclean' := (freeClean_iff_subscribesOpen h hclean).2 hopen
  cases l with
  | restart tr =>
    refine ⟨.reset, ⟨trivial, ?_⟩, .reset⟩
    funext k
    refine member_of_not_isOpen fun ho => ?_
    rcases step_restart_slot h k with ⟨-, e, -, -, hc⟩ | ⟨hfree, -, hc⟩
    · exact ho (by rw [hc]; rfl)
    · rw [Broker.IsOpen, hc] at ho
      exact hfree ho
  | request bytes prio tr =>
    rcases step_request h with ⟨hna, rfl, rfl⟩ | ⟨ha, hh⟩
    · refine ⟨.idle, ⟨trivial, rfl⟩, .idle (fun ha => absurd ha hna) ?_ ?_⟩
      · rintro k ⟨e, he, -⟩
        exact absurd he List.not_mem_nil
      · exact fun _ _ _ _ hc => hna hc.1
    have hother : ∀ {cmd}, (received cfg bytes).ctrl.cmd = cmd → cmd ∉ [cmdClose, cmdPublish] →
        cmd ≠ cmdOpen → cmd ∉ [cmdSubscribe, cmdUnsubscribe] →
        Means (.request bytes prio tr) .idle := by
      rintro cmd rfl h₁ h₂ h₃
      exact .idle (fun _ => h₁) (not_told hh h₂) (not_confirms h₃)
    cases hh with
    | opening hcmd h => exact h.serves hcmd hclean
    | @closing c tr fd hcmd hfd hc =>
      obtain ⟨e, -, -, rfl⟩ := hc.spec
      refine ⟨.leave fd, ⟨trivial, members_set fd ?_ fun k hk => if_neg hk⟩, .leave ha hcmd hfd⟩
      rw [Event.next, if_pos rfl]
      rfl
    | subscribing hcmd hfd ht hc =>
      exact hc.serves ha hcmd hfd ht (.subscribing hcmd hfd ht hc) hclean'
    | unsubscribing hcmd hfd ht hc =>
      exact hc.serves ha hcmd hfd ht (.unsubscribing hcmd hfd ht hc) hclean
    | publishing hcmd ht h => exact h.serves ha hcmd ht
    | ioctl hcmd _ _ hc =>
      refine ⟨.idle, ⟨trivial, members_set _ ?_ fun _ _ => rfl⟩,
        hother hcmd (by decide) (by decide) (by decide)⟩
      cases hc <;> rfl
    | unknown hno =>
      simp only [List.mem_cons, not_or] at hno
      obtain ⟨h₁, h₂, h₃, h₄, h₅, -⟩ := hno
      exact ⟨.idle, ⟨trivial, rfl⟩, hother rfl (by simp [h₂, h₅]) h₁ (by simp [h₃, h₄])⟩

/-- A client is told its descriptor when it opens. -/
theorem cmd_of_told {bytes : List UInt8} {prio : ℕ} {tr : Trace cfg} {k : Slot cfg}
    (h : BrokerStep pc s (.request bytes prio tr) s') (htold : Told k tr) :
    (received cfg bytes).ctrl.cmd = cmdOpen := by
  by_contra hne
  rcases step_request h with ⟨-, rfl, -⟩ | ⟨-, hh⟩
  · obtain ⟨e, he, -⟩ := htold
    exact List.not_mem_nil he
  · exact not_told hh hne k htold

/-- A step that frees a slot ends the membership of its client. -/
theorem Means.ends {e : Event (Slot cfg) CString CString (List UInt8 × ℕ)} {k : Slot cfg}
    (hm : Means l e) (h : BrokerStep pc s l s') (hl : Frees k l) : e.Ends k := by
  cases hm with
  | join htold =>
    have hcmd := cmd_of_told h htold
    rcases hl with ⟨-, hc, -⟩ | ⟨hc, -⟩ <;> exact cmd_absurd hcmd hc
  | leave _ hcmd hfd =>
    rcases hl with ⟨-, -, hk⟩ | ⟨hc, -⟩
    · exact Option.mem_unique hk hfd
    · exact cmd_absurd hcmd hc
  | subscribe hc | unsubscribe hc =>
    cases l with
    | restart tr => exact hc.elim
    | request bytes prio tr =>
      rcases hl with ⟨-, hcmd, -⟩ | ⟨hcmd, -⟩ <;> exact cmd_absurd hc.2.1 hcmd
  | publish _ hcmd =>
    rcases hl with ⟨-, hc, -⟩ | ⟨-, htold⟩
    · exact cmd_absurd hcmd hc
    · exact Finset.mem_filter.2 ⟨Finset.mem_univ k, htold⟩
  | reset => trivial
  | idle hno =>
    rcases hl with ⟨ha, hc, -⟩ | ⟨hc, e, he, -⟩
    · exact hno ha (by simp [hc])
    · rcases step_request h with ⟨-, rfl, -⟩ | ⟨ha, -⟩
      · exact List.not_mem_nil he
      · exact hno ha (by simp [hc])

/-! ## What the clients get -/

/-- An attempt that sends what is published, with its topic, its payload and its priority. -/
def PassesOn (e : Sent cfg) (x : CString × List UInt8 × ℕ) : Prop :=
  CopyOf x.1 x.2.1 e ∧ e.prio = x.2.2

/-- A client is sent one copy at most in a step. -/
theorem length_copies_le (h : BrokerStep pc s l s') (k : Slot cfg) :
    (copies (sendsTo k l.trace)).length ≤ 1 := by
  have hle : ∀ {es : List (Sent cfg)}, es.length ≤ 1 → (copies es).length ≤ 1 := fun hlen =>
    (List.length_filter_le _ _).trans hlen
  cases l with
  | restart tr =>
    rcases step_restart_slot h k with ⟨-, e, -, hs, -⟩ | ⟨-, hs, -⟩ <;>
    · refine hle (le_of_eq_of_le (congrArg List.length hs) ?_)
      simp
  | request bytes prio tr =>
    rcases step_request h with ⟨-, rfl, -⟩ | ⟨-, hh⟩
    · exact Nat.zero_le 1
    by_cases hpub : (received cfg bytes).ctrl.cmd = cmdPublish
    · obtain ⟨topic, -, hall⟩ := hh.of_cmd.2.2.2.2.1 hpub
      rcases hall.slot Serve.onlyTo (List.nodup_finRange _) k with ⟨-, -, tr', hs, hc⟩ | ⟨-, hs, -⟩
      · exact (congrArg (fun es => (copies es).length ≤ 1) hs).mpr hc.length_copies_le
      · exact (congrArg (fun es => (copies es).length ≤ 1) hs).mpr (Nat.zero_le 1)
    · -- What is sent is no copy of a message.
      have hnil : copies (sendsTo k tr) = [] := List.filter_eq_nil_iff.2 fun e he hc => by
        rcases (hh.slotStep k).cmd_eq he with hcmd | ⟨hcmd, -⟩
        · exact hpub (hcmd.symm.trans (of_decide_eq_true hc).1)
        · exact hpub hcmd
      exact (congrArg List.length hnil).trans_le (Nat.zero_le 1)

/-- The copies sent in a step are what the clients get in the event. -/
theorem forall₂_passesOn {e : Event (Slot cfg) CString CString (List UInt8 × ℕ)}
    (h : BrokerStep pc s l s') (hm : Means l e) (k : Slot cfg) :
    List.Forall₂ PassesOn (copies (sendsTo k l.trace)) (PubSub.inbox k [e]) := by
  -- What is sent is a copy of what is published in the step.
  have hsent : ∀ e' ∈ copies (sendsTo k l.trace), ∃ topic body,
      PublishedIn [l] e'.prio topic body ∧ CopyOf topic body e' := fun e' he' => by
    obtain ⟨hmem, hcmd, -⟩ := mem_copies.1 he'
    exact (step_sent h hmem).resolve_left fun hno => hno.1 hcmd
  -- So nothing is if it is no publish request.
  have hnone : (∀ bytes prio tr, l = .request bytes prio tr → Accepted (received cfg bytes) →
      (received cfg bytes).ctrl.cmd ≠ cmdPublish) → copies (sendsTo k l.trace) = [] := fun hno => by
    refine List.eq_nil_iff_forall_not_mem.2 fun e' he' => ?_
    obtain ⟨topic, body, ⟨bytes, tr, hl, ha, hcmd, -⟩, -⟩ := hsent e' he'
    exact hno _ _ _ (List.mem_singleton.1 hl).symm ha hcmd
  have hcmd : ∀ {cmd bytes prio tr}, l = .request bytes prio tr →
      (received cfg bytes).ctrl.cmd = cmd → cmd ≠ cmdPublish →
      copies (sendsTo k l.trace) = [] := by
    rintro cmd bytes prio tr rfl rfl hne
    refine hnone fun bytes' prio' tr' hl _ => ?_
    injection hl with hb
    exact hb ▸ hne
  cases hm with
  | @join bytes prio tr j htold =>
    rw [hcmd rfl (cmd_of_told h htold) (by decide)]
    exact .nil
  | leave _ hclose =>
    rw [hcmd rfl hclose (by decide)]
    exact .nil
  | subscribe hc | unsubscribe hc =>
    cases l with
    | restart tr => exact hc.elim
    | request bytes prio tr =>
      rw [hcmd rfl hc.2.1 (by decide)]
      exact .nil
  | @publish bytes body prio tr topic ha hpub hcarry =>
    have hgot : k ∈ gotIn tr ↔ copies (sendsTo k tr) ≠ [] := by simp [gotIn]
    have hinbox : PubSub.inbox (F := CString) k [.publish topic (body, prio) (gotIn tr)
        (missedIn tr) (droppedIn tr)] = if k ∈ gotIn tr then [(topic, body, prio)] else [] := by
      by_cases hk : k ∈ gotIn tr <;> simp [PubSub.inbox, hk]
    rw [hinbox]
    match hcopies : copies (sendsTo k tr), length_copies_le h k with
    | [], _ =>
      rw [if_neg fun hk => hgot.1 hk hcopies]
      exact .nil
    | [e'], _ =>
      rw [if_pos (hgot.2 (by simp [hcopies]))]
      refine .cons ?_ .nil
      obtain ⟨topic', body', ⟨bytes', tr', hl, -, -, hcarry'⟩, hcopy⟩ :=
        hsent e' (hcopies ▸ List.mem_singleton_self e')
      injection List.mem_singleton.1 hl with hb hp
      rw [hb] at hcarry'
      obtain ⟨rfl, rfl⟩ := hcarry.unique hcarry'
      exact ⟨hcopy, hp⟩
    | _ :: _ :: _, hlen => exact absurd hlen (by simp)
  | reset =>
    rw [hnone fun bytes prio tr hl => nomatch hl]
    exact .nil
  | idle hno =>
    rw [hnone fun bytes prio tr hl ha hpub => ?_]
    · exact .nil
    · injection hl with hb
      subst hb
      exact hno ha (by rw [hpub]; decide)

end Step

/-! ## Runs -/

section Runs

variable {s₀ s : Broker cfg} {ls : List (BrokerLabel cfg)}

/-- A step of the broker, and what it is for the service. -/
def Serves (pc : PsmqdCfg) (l : BrokerLabel cfg)
    (e : Event (Slot cfg) CString CString (List UInt8 × ℕ)) : Prop :=
  Means l e ∧ ∃ s s', BrokerStep pc s l s'

/-- The service runs as the broker does. -/
theorem exists_service_run (h₀ : (brokerLts cfg pc).init s₀)
    (h : ((brokerLts cfg pc).restrict SubscribesOpen).Run s₀ ls s) :
    ∃ es, (service cfg).Run (fun _ => none) es s.members ∧ List.Forall₂ (Serves pc) ls es ∧
      FreeClean s := by
  have hinit : (fun _ => none) = s₀.members ∧ FreeClean s₀ := by
    refine ⟨funext fun k => ?_, fun k _ => ?_⟩
    · rw [Broker.members, brokerLts_init h₀]
      rfl
    · rw [brokerLts_init h₀]
  obtain ⟨es, m, hrun, hls, rfl, hclean⟩ := h.refines (N := service cfg) (Q := Serves pc)
    (R := fun s m => m = s.members ∧ FreeClean s) (fun s m l s' hs hst => by
      obtain ⟨rfl, hclean⟩ := hs
      obtain ⟨hst, hopen⟩ := hst
      obtain ⟨e, hstep, hm⟩ := step_serves hst hclean hopen
      exact ⟨e, _, hstep, ⟨hm, s, s', hst⟩, rfl,
        (freeClean_iff_subscribesOpen hst hclean).2 hopen⟩) hinit
  exact ⟨es, hrun, hls, hclean⟩

theorem exists_of_mem_forall₂ {A B : Type*} {R : A → B → Prop} {as : List A} {bs : List B}
    (h : List.Forall₂ R as bs) {a : A} (ha : a ∈ as) : ∃ b ∈ bs, R a b := by
  induction h with
  | nil => exact absurd ha List.not_mem_nil
  | cons hab _ ih =>
    rcases List.mem_cons.1 ha with rfl | ha
    · exact ⟨_, List.mem_cons_self, hab⟩
    · obtain ⟨b, hb, hab⟩ := ih ha
      exact ⟨b, List.mem_cons_of_mem _ hb, hab⟩

/-- What is sent in a run is what the clients get. -/
theorem forall₂_inbox {es : List (Event (Slot cfg) CString CString (List UInt8 × ℕ))}
    (h : List.Forall₂ (Serves pc) ls es) (k : Slot cfg) :
    List.Forall₂ PassesOn (copies (ls.flatMap fun l => sendsTo k l.trace)) (PubSub.inbox k es) := by
  induction h with
  | nil => exact .nil
  | cons hl _ ih =>
    obtain ⟨hm, s, s', hst⟩ := hl
    rw [List.flatMap_cons, copies, List.filter_append, PubSub.inbox_cons]
    exact List.rel_append (forall₂_passesOn hst hm k) ih

/-- Every run of the broker, in which topics are only added to open slots, is a
    run of the service: the clients join, leave and subscribe as they are told,
    every publication is for the clients with a subscription it matches, at the
    time, and every client is sent what it gets from the service, in the same
    order, with the topics, the payloads and the priorities published. -/
theorem broker_serves (h₀ : (brokerLts cfg pc).init s₀)
    (h : ((brokerLts cfg pc).restrict SubscribesOpen).Run s₀ ls s) :
    ∃ es, (service cfg).Run (fun _ => none) es s.members ∧ List.Forall₂ Means ls es ∧
      ∀ k, List.Forall₂ PassesOn (copies (ls.flatMap fun l => sendsTo k l.trace))
        (PubSub.inbox k es) := by
  obtain ⟨es, hrun, hls, -⟩ := exists_service_run h₀ h
  exact ⟨es, hrun, hls.imp fun _ _ hl => hl.1, forall₂_inbox hls⟩

/-- A client opens `/c`, subscribes to `/a`, and is sent what is published on it. -/
theorem exists_served_run : ∃ (s : Broker smallest) (ls : List (BrokerLabel smallest))
    (l : BrokerLabel smallest),
    ((brokerLts smallest psmqdCfgInit).restrict SubscribesOpen).Run (started smallest)
      (ls ++ [l]) s ∧ copies (sendsTo 0 l.trace) ≠ [] := by
  obtain ⟨tr₁, s₁, tr₂, s₂, tr₃, s₃, h₁, h₂, h₃, hq₁, hq₂, ho, hcopies⟩ :
      ∃ tr₁ s₁ tr₂ s₂ tr₃ s₃,
        eval (answers smallest true) []
          (brokerStart (started smallest) [111, 0, 0, 0, 47, 99, 0] 0) = some (tr₁, s₁) ∧
        eval (answers smallest true) [] (brokerStart s₁ [115, 0, 0, 0, 47, 97, 0] 0) =
          some (tr₂, s₂) ∧
        eval (answers smallest true) [] (brokerStart s₂ [112, 0, 1, 0, 47, 97, 0, 9] 1) =
          some (tr₃, s₃) ∧
        s₁.qctrl ≠ none ∧ s₂.qctrl ≠ none ∧ s₁.IsOpen 0 ∧ copies (sendsTo 0 tr₃) ≠ [] :=
    ⟨_, _, _, _, _, _, rfl, rfl, rfl, by decide, by decide, by decide, by decide⟩
  refine ⟨s₃, [.request [111, 0, 0, 0, 47, 99, 0] 0 tr₁, .request [115, 0, 0, 0, 47, 97, 0] 0 tr₂],
    .request [112, 0, 1, 0, 47, 97, 0, 9] 1 tr₃, ?_, hcopies⟩
  refine .cons ⟨.request (by decide) (by decide) (exec_of_eval h₁), ?_⟩
    (.cons ⟨.request hq₁ (by decide) (exec_of_eval h₂), ?_⟩
      (.cons ⟨.request hq₂ (by decide) (exec_of_eval h₃), ?_⟩ (.nil _)))
  · exact fun k hk => absurd hk.2.1 (by decide)
  · intro k hk
    obtain rfl : 0 = k := Option.some.inj (show some 0 = some k from hk.2.2.1)
    exact ho
  · exact fun k hk => absurd hk.2.1 (by decide)

/-- A client that gets a message. -/
theorem broker_serves_one : ∃ (s : Broker smallest) (ls : List (BrokerLabel smallest))
    (es : List (Event (Slot smallest) CString CString (List UInt8 × ℕ))),
    copies (ls.flatMap fun l => sendsTo 0 l.trace) ≠ [] ∧
    (service smallest).Run (fun _ => none) es s.members ∧ List.Forall₂ Means ls es ∧
    ∀ k, List.Forall₂ PassesOn (copies (ls.flatMap fun l => sendsTo k l.trace))
      (PubSub.inbox k es) := by
  obtain ⟨s, ls, l, hrun, hcopies⟩ := exists_served_run
  obtain ⟨es, h⟩ := broker_serves (started_init _) hrun
  refine ⟨s, ls ++ [l], es, ?_, h⟩
  rw [List.flatMap_append, copies, List.filter_append, List.flatMap_singleton]
  exact fun hnil => hcopies (List.append_eq_nil_iff.1 hnil).2

/-- Every copy a client is sent is of a message that matches a topic it was
    confirmed to be subscribed to, before it was published, and since it was
    given its slot: no step since then has freed it. -/
theorem delivered_subscribed {l : BrokerLabel cfg} (h₀ : (brokerLts cfg pc).init s₀)
    (h : ((brokerLts cfg pc).restrict SubscribesOpen).Run s₀ (ls ++ [l]) s) {k : Slot cfg}
    {e : Sent cfg} (he : e ∈ copies (sendsTo k l.trace)) :
    ∃ topic body node ls₁ l' ls₂, PublishedIn [l] e.prio topic body ∧ CopyOf topic body e ∧
      TopicMatches cfg topic node ∧ ls = ls₁ ++ l' :: ls₂ ∧ Confirms cmdSubscribe k node l' ∧
      ∀ l'' ∈ ls₂, ¬Frees k l'' := by
  obtain ⟨s₁, h₁, h₂⟩ := Lts.run_append_iff.1 h
  obtain ⟨s₂, ⟨hst, hopen⟩, -⟩ := Lts.run_cons_iff.1 h₂
  obtain ⟨es, hrun, hls, hclean⟩ := exists_service_run h₀ h₁
  obtain ⟨ev, hev, hm⟩ := step_serves hst hclean hopen
  -- The copy is what the client gets from the service.
  obtain ⟨x, hx, hpass⟩ : ∃ x ∈ PubSub.inbox k [ev], PassesOn e x :=
    exists_of_mem_forall₂ (forall₂_passesOn hst hm k) he
  obtain ⟨ev', hmem, hgot⟩ := List.mem_filterMap.1 hx
  obtain rfl := List.mem_singleton.1 hmem
  cases hm with
  | @publish bytes body prio tr topic ha hcmd hcarry =>
    simp only [Option.ite_none_right_eq_some, Option.some.injEq] at hgot
    obtain ⟨hk, rfl⟩ := hgot
    obtain ⟨node, es₁, es₂, rfl, hmatch, hends⟩ :=
      PubSub.exists_subscribe (hrun.append (.cons hev (.nil _))) hk
    -- The steps of these events.
    have hdrop := List.forall₂_drop_append ls es₁ _ hls
    obtain ⟨l', ls₂, hl', hls₂, hdrop⟩ := List.forall₂_cons_right_iff.1 hdrop
    refine ⟨topic, body, node, ls.take es₁.length, l', ls₂,
      ⟨bytes, tr, by rw [hpass.2]; exact List.mem_singleton_self _, ha, hcmd, hcarry⟩, hpass.1,
      hmatch, ?_, ?_, ?_⟩
    · rw [← hdrop, List.take_append_drop]
    · cases hl'.1 with
      | subscribe hc => exact hc
    · intro l'' hl'' hfrees
      obtain ⟨ev, hev, hm, _, _, hst⟩ := exists_of_mem_forall₂ hls₂ hl''
      exact hends ev hev (hm.ends hst hfrees)
  | _ => exact absurd hgot (by simp)

/-- The same client, which had subscribed. -/
theorem delivered_subscribed_one : ∃ (s : Broker smallest) (ls : List (BrokerLabel smallest))
    (l : BrokerLabel smallest) (e : Sent smallest),
    (brokerLts smallest psmqdCfgInit).Run (started smallest) (ls ++ [l]) s ∧
    e ∈ copies (sendsTo 0 l.trace) ∧
    ∃ topic body node ls₁ l' ls₂, PublishedIn [l] e.prio topic body ∧ CopyOf topic body e ∧
      TopicMatches smallest topic node ∧ ls = ls₁ ++ l' :: ls₂ ∧
      Confirms cmdSubscribe 0 node l' ∧ ∀ l'' ∈ ls₂, ¬Frees 0 l'' := by
  obtain ⟨s, ls, l, hrun, hcopies⟩ := exists_served_run
  obtain ⟨e, he⟩ := List.exists_mem_of_ne_nil _ hcopies
  exact ⟨s, ls, l, e, hrun.of_restrict, he, delivered_subscribed (started_init _) hrun he⟩

end Runs

end Psmq
