import Psmq.Broker.Run
import Mathlib.Data.Fintype.Card

/-!
# Slots

How the slots are given to clients, and taken back. A slot is given by telling
its descriptor to a client (`Answered`), and freed by a close request carrying
it, by the eviction of its client, or by stopping the broker (`Frees`). In
between it holds the queue opened for the client, and its descriptor is not
told to another (`holds_of_run`).

An open request that does not end with a client told its descriptor (`Told`)
leaves the broker as it was (`Open.eq_of_not_told`).
-/

namespace Psmq

open CMem Prog

variable {cfg : Config} {pc : PsmqdCfg}

/-! ## Commands of the messages sent -/

theorem Serve.cmd_eq {topic : CString} {payload : Ptr} {paylen prio : ℕ} {fd : Slot cfg}
    {nodes : List CString} {c c' : Client} {tr : Trace cfg}
    (h : Serve topic payload paylen prio fd nodes c tr c') {e : Sent cfg} (he : e ∈ sends tr) :
    e.msg.ctrl.cmd = cmdPublish ∨ e.msg.ctrl.cmd = cmdClose := by
  rcases h.spec with ⟨-, hes⟩ | ⟨es, e', hs, hes, he', -⟩
  · exact .inl (by rw [hes e he])
  · rcases List.mem_append.1 (hs ▸ he) with he | he
    · exact .inl (by rw [hes e he])
    · exact .inr (by rw [List.mem_singleton.1 he, he'])

/-- A message sent to a slot has the command of the request handled, or tells
    the client of its eviction. -/
theorem SlotStep.cmd_eq {s : Broker cfg} {msg : PsmqMsg cfg} {prio : ℕ} {k : Slot cfg}
    {tr : Trace cfg} {c : Client} (h : SlotStep s msg prio k tr c) {e : Sent cfg}
    (he : e ∈ sendsTo k tr) : e.msg.ctrl.cmd = msg.ctrl.cmd ∨
      (msg.ctrl.cmd = cmdPublish ∧ e.msg.ctrl.cmd = cmdClose) := by
  have hmem : e ∈ sends tr := List.mem_of_mem_filter he
  cases h with
  | idle hs => exact absurd (hs ▸ he) List.not_mem_nil
  | opened hcmd _ hr _ hs =>
    obtain rfl := List.mem_singleton.1 (hs ▸ he)
    exact .inl (by rw [hr.cmd_eq, hcmd])
  | noReply hcmd _ hr _ hs =>
    obtain rfl := List.mem_singleton.1 (hs ▸ he)
    exact .inl (by rw [hr.cmd_eq, hcmd])
  | closed hcmd _ h =>
    obtain ⟨e', he', hs, -⟩ := h.spec
    obtain rfl := List.mem_singleton.1 (hs ▸ hmem)
    exact .inl (by rw [he'.cmd_eq, hcmd])
  | subscribed hcmd _ _ h =>
    rcases h with ⟨_, _, hr⟩ | ⟨_, hr⟩ | ⟨_, hr⟩ <;>
    · obtain rfl := List.mem_singleton.1 hmem
      exact .inl (by rw [hr.cmd_eq, hcmd])
  | unsubscribed hcmd _ _ h =>
    rcases h with ⟨_, hr⟩ | ⟨_, hr⟩ <;>
    · obtain rfl := List.mem_singleton.1 hmem
      exact .inl (by rw [hr.cmd_eq, hcmd])
  | served hcmd _ _ hs h =>
    rw [hs] at he
    exact (h.cmd_eq he).imp (fun h => h.trans hcmd.symm) fun h => ⟨hcmd, h⟩
  | ioctl hcmd _ _ h =>
    rcases h with ⟨_, hr⟩ | ⟨_, _, _, _, hr⟩ | ⟨_, _, _, hr⟩ | ⟨_, _, hr⟩ <;>
    · obtain rfl := List.mem_singleton.1 hmem
      exact .inl (by rw [hr.cmd_eq, hcmd])

theorem OnlyTo.mem_sendsTo {fd : Slot cfg} {tr : Trace cfg} (h : OnlyTo fd tr) {e : Sent cfg}
    (he : e ∈ sends tr) : e ∈ sendsTo fd tr := by
  rwa [h.sendsTo_self]

theorem Sweep.exists_mem_sendsTo {R : Slot cfg → Client → Trace cfg → Client → Prop}
    (honly : ∀ {fd c tr c'}, R fd c tr c' → OnlyTo fd tr) {fds : List (Slot cfg)}
    {s s' : Broker cfg} {tr : Trace cfg} (h : Sweep R fds s tr s') {e : Sent cfg}
    (he : e ∈ sends tr) : ∃ k, e ∈ sendsTo k tr := by
  induction h with
  | done => exact absurd he List.not_mem_nil
  | free _ _ ih => exact ih he
  | @visit fd _ _ _ _ tr₁ tr₂ _ hr _ ih =>
    simp only [sendsTo_append, List.mem_append]
    rcases List.mem_append.1 (sends_append tr₁ tr₂ ▸ he) with he | he
    · exact ⟨fd, .inl ((honly hr).mem_sendsTo he)⟩
    · exact (ih he).imp fun _ => .inr

/-- Everything sent while a request other than open is handled is sent to some slot. -/
theorem Handle.exists_mem_sendsTo {s s' : Broker cfg} {msg : PsmqMsg cfg} {prio : ℕ}
    {tr : Trace cfg} (h : Handle s msg prio tr s') (hcmd : msg.ctrl.cmd ≠ cmdOpen) {e : Sent cfg}
    (he : e ∈ sends tr) : ∃ k, e ∈ sendsTo k tr := by
  cases h with
  | opening h => exact absurd h hcmd
  | closing _ _ h => exact ⟨_, h.onlyTo.mem_sendsTo he⟩
  | subscribing _ _ _ h => exact ⟨_, h.onlyTo.mem_sendsTo he⟩
  | unsubscribing _ _ _ h => exact ⟨_, h.onlyTo.mem_sendsTo he⟩
  | publishing _ _ h => exact h.exists_mem_sendsTo Serve.onlyTo he
  | ioctl _ _ _ h => exact ⟨_, h.onlyTo.mem_sendsTo he⟩
  | unknown => exact absurd he List.not_mem_nil

/-- Only open requests are replied to with `PSMQ_CTRL_CMD_OPEN`. -/
theorem Handle.cmd_ne_open {s s' : Broker cfg} {msg : PsmqMsg cfg} {prio : ℕ}
    {tr : Trace cfg} (h : Handle s msg prio tr s') (hcmd : msg.ctrl.cmd ≠ cmdOpen) {e : Sent cfg}
    (he : e ∈ sends tr) : e.msg.ctrl.cmd ≠ cmdOpen := by
  obtain ⟨k, hk⟩ := h.exists_mem_sendsTo hcmd he
  rcases (h.slotStep k).cmd_eq hk with h | ⟨-, h⟩ <;> rw [h]
  · exact hcmd
  · decide

/-! ## Giving slots -/

/-- An open request is answered with the descriptor of the slot `k`, be the
    answer delivered or not. -/
def Answered (k : Slot cfg) (tr : Trace cfg) : Prop :=
  ∃ e ∈ sends tr, e.msg.ctrl = ⟨cmdOpen, 0⟩ ∧ e.msg.data.bytes[0]? = some (fdOf k)

/-- A client is told that it has the slot `k`. -/
def Told (k : Slot cfg) (tr : Trace cfg) : Prop :=
  ∃ e ∈ sends tr, e.msg.ctrl = ⟨cmdOpen, 0⟩ ∧ e.msg.data.bytes[0]? = some (fdOf k) ∧ e.ok = true

theorem fdOf_inj {k fd : Slot cfg} (h : fdOf k = fdOf fd) : k = fd := by
  simpa using congrArg (slotOf cfg) h

/-- The first byte of the data of a reply is that of its payload, if it has no topic. -/
theorem IsReplyMq.data_zero {slot : Option (Slot cfg)} {mq : Mqd} {cmd data b : UInt8}
    {rest : Ptr} {paylen prio : ℕ} {timeout : UInt16} {e : Sent cfg} (hlen : paylen ≠ 0)
    (h : IsReplyMq slot mq cmd data none (some (b :: rest)) paylen prio timeout e) :
    e.msg.data.bytes[0]? = some b := by
  obtain ⟨n, rfl⟩ := Nat.exists_eq_succ_of_ne_zero hlen
  rw [(replyMsg_eq_some h.msg_eq).2.2]
  rfl

/-- The reply giving the slot `fd` answers with the slot `fd`. -/
theorem eq_of_answered {k fd : Slot cfg} {slot : Option (Slot cfg)} {mq : Mqd} {prio : ℕ}
    {timeout : UInt16} {e : Sent cfg}
    (h : IsReplyMq slot mq cmdOpen 0 none (some [fdOf fd]) 1 prio timeout e)
    (hk : e.msg.data.bytes[0]? = some (fdOf k)) : k = fd :=
  fdOf_inj (Option.some.inj (hk.symm.trans (h.data_zero (by decide))))

theorem Open.not_isOpen {s s' : Broker cfg} {msg : PsmqMsg cfg} {tr : Trace cfg}
    (h : Open s msg tr s') {k : Slot cfg} (hk : Answered k tr) : ¬s.IsOpen k := by
  obtain ⟨e, he, hctrl, hfd⟩ := hk
  rcases h with _ | ⟨_, _, hr⟩ | ⟨_, hfree, _, hr, _⟩ | ⟨_, hfree, _, hr, _⟩
  · exact absurd he List.not_mem_nil
  · obtain rfl := List.mem_singleton.1 he
    exact absurd (hr.cmd_eq.symm.trans hctrl) (by decide)
  all_goals
    obtain rfl := List.mem_singleton.1 he
    exact eq_of_answered hr hfd ▸ hfree

/-- A slot is only given when it is free. -/
theorem not_isOpen_of_answered {s s' : Broker cfg} {bytes : List UInt8} {prio : ℕ}
    {tr : Trace cfg} (h : BrokerStep pc s (.request bytes prio tr) s') {k : Slot cfg}
    (hk : Answered k tr) : ¬s.IsOpen k := by
  rcases step_request h with ⟨-, rfl, -⟩ | ⟨-, h⟩
  · obtain ⟨e, he, -⟩ := hk
    exact absurd he List.not_mem_nil
  · by_cases hcmd : (received cfg bytes).ctrl.cmd = cmdOpen
    · exact (h.of_cmd.1 hcmd).not_isOpen hk
    · obtain ⟨e, he, hctrl, -⟩ := hk
      exact absurd (congrArg Ctrl.cmd hctrl) (h.cmd_ne_open hcmd he)

/-! ## Keeping slots -/

/-- The steps freeing the slot `k`: a close request carrying it, a publish
    evicting its client, which is told so, and a restart of the broker. -/
def Frees (k : Slot cfg) : BrokerLabel cfg → Prop
  | .request bytes _ tr =>
    (Accepted (received cfg bytes) ∧ (received cfg bytes).ctrl.cmd = cmdClose ∧
      slotOf cfg (received cfg bytes).ctrl.data = some k) ∨
    ((received cfg bytes).ctrl.cmd = cmdPublish ∧
      ∃ e ∈ sendsTo k tr, e.msg.ctrl.cmd = cmdClose)
  | .restart _ => True

/-- A client being served keeps its queue, unless it is told that it is closed. -/
theorem Serve.mq_eq {topic : CString} {payload : Ptr} {paylen prio : ℕ} {fd : Slot cfg}
    {nodes : List CString} {c c' : Client} {tr : Trace cfg}
    (h : Serve topic payload paylen prio fd nodes c tr c') :
    c'.mq = c.mq ∨ ∃ e ∈ sends tr, e.msg.ctrl.cmd = cmdClose := by
  rcases h.spec with ⟨hc, -⟩ | ⟨es, e, hs, -, he, -⟩
  · exact .inl (by rw [hc])
  · exact .inr ⟨e, by simp [hs], by rw [he]⟩

/-- A step keeps the queue of an open slot it does not free. -/
theorem mq_eq_of_not_frees {s s' : Broker cfg} {l : BrokerLabel cfg} {k : Slot cfg}
    (h : BrokerStep pc s l s') (ho : s.IsOpen k) (hl : ¬Frees k l) :
    (s'.clients k).mq = (s.clients k).mq := by
  cases l with
  | restart tr => exact absurd trivial hl
  | request bytes prio tr =>
    rcases step_request h with ⟨-, -, rfl⟩ | ⟨ha, h⟩
    · rfl
    rw [Frees, not_or] at hl
    generalize hc : s'.clients k = c
    cases hc ▸ h.slotStep k with
    | idle => rfl
    | opened _ hfree => exact absurd ho hfree
    | noReply => rfl
    | closed hcmd hfd => exact absurd ⟨ha, hcmd, hfd⟩ hl.1
    | subscribed _ _ _ h => cases h <;> rfl
    | unsubscribed _ _ _ h => cases h <;> rfl
    | served hcmd _ _ hs h => exact h.mq_eq.resolve_right fun he => hl.2 ⟨hcmd, hs ▸ he⟩
    | ioctl _ _ _ h => cases h <;> rfl

/-- A slot stays open, with its queue, and is not given again, until it is freed. -/
theorem holds_of_run {s s' : Broker cfg} {ls : List (BrokerLabel cfg)} {k : Slot cfg}
    (h : (brokerLts cfg pc).Run s ls s') (ho : s.IsOpen k) (hls : ∀ l ∈ ls, ¬Frees k l) :
    (s'.clients k).mq = (s.clients k).mq ∧ ∀ l ∈ ls, ¬Answered k l.trace := by
  induction h with
  | nil => exact ⟨rfl, fun l hl => absurd hl List.not_mem_nil⟩
  | @cons s s₁ s₂ l ls hst _ ih =>
    rw [List.forall_mem_cons] at hls
    have hmq := mq_eq_of_not_frees hst ho hls.1
    obtain ⟨hmq', hans⟩ := ih (by rwa [Broker.IsOpen, hmq]) hls.2
    refine ⟨hmq'.trans hmq, List.forall_mem_cons.2 ⟨fun hk => ?_, hans⟩⟩
    cases l with
    | restart tr => exact hls.1 trivial
    | request bytes prio tr => exact not_isOpen_of_answered hst hk ho

/-! ## Open requests -/

/-- An open request is answered by `e`: the queue it names is opened, with the
    handle `qc`, and nothing but `e` is sent, on this queue. -/
structure AnsweredBy (msg : PsmqMsg cfg) (tr : Trace cfg) (qc : ℕ) (e : Sent cfg) : Prop where
  opens : ∃ qname, str msg.data.bytes = some qname ∧
    tr.head? = some ⟨.mqOpen qname clientFlags, .ok qc⟩
  sends_eq : sends tr = [e]
  mq_eq : e.mq = some qc

/-- An open request is answered, as soon as its queue can be opened: the client
    is told that there is no slot, if it is so, or the descriptor of the first
    free one. -/
theorem Open.answered {s s' : Broker cfg} {msg : PsmqMsg cfg} {tr : Trace cfg}
    (h : Open s msg tr s') :
    (∃ qname err, str msg.data.bytes = some qname ∧
      tr = [⟨.mqOpen qname clientFlags, .error err⟩]) ∨
    ∃ qc e, AnsweredBy msg tr qc e ∧
      (((∀ k, s.IsOpen k) ∧ e.msg.ctrl = ⟨cmdOpen, UInt8.ofNat ENOSPC⟩) ∨
        ∃ k, ¬s.IsOpen k ∧ (∀ j < k, s.IsOpen j) ∧ e.msg.ctrl = ⟨cmdOpen, 0⟩ ∧
          e.msg.data.bytes[0]? = some (fdOf k)) := by
  rcases h with hq | ⟨hq, hall, hr⟩ | ⟨hq, hfree, hlt, hr, -⟩ | ⟨hq, hfree, hlt, hr, -⟩
  · exact .inl ⟨_, _, hq, rfl⟩
  · exact .inr ⟨_, _, ⟨⟨_, hq, rfl⟩, rfl, hr.mq_eq⟩, .inl ⟨hall, hr.cmd_eq⟩⟩
  all_goals exact .inr ⟨_, _, ⟨⟨_, hq, rfl⟩, rfl, hr.mq_eq⟩,
    .inr ⟨_, hfree, hlt, hr.cmd_eq, hr.data_zero (by decide)⟩⟩

/-- A client told that it has a slot has the first free one, as it was but for
    its queue, which is the one it named. -/
theorem clients_eq_of_told {s s' : Broker cfg} {bytes : List UInt8} {prio : ℕ} {tr : Trace cfg}
    (h : BrokerStep pc s (.request bytes prio tr) s') {k : Slot cfg} (hk : Told k tr) :
    ¬s.IsOpen k ∧ (∀ j < k, s.IsOpen j) ∧ ∃ qc e, AnsweredBy (received cfg bytes) tr qc e ∧
      s'.clients k = { s.clients k with mq := some qc } := by
  obtain ⟨e, he, hctrl, hfd, hok⟩ := hk
  rcases step_request h with ⟨-, rfl, -⟩ | ⟨-, h⟩
  · exact absurd he List.not_mem_nil
  -- Only an open request is answered so.
  have hcmd : (received cfg bytes).ctrl.cmd = cmdOpen := by
    by_contra hne
    exact h.cmd_ne_open hne he (congrArg Ctrl.cmd hctrl)
  rcases h.of_cmd.1 hcmd with _ | ⟨_, _, hr⟩ | ⟨hq, hfree, hlt, hr, _⟩ | ⟨_, hfree, _, hr, hko⟩
  · exact absurd he List.not_mem_nil
  · obtain rfl := List.mem_singleton.1 he
    exact absurd (hr.cmd_eq.symm.trans hctrl) (by decide)
  · obtain rfl := List.mem_singleton.1 he
    obtain rfl := eq_of_answered hr hfd
    exact ⟨hfree, hlt, _, _, ⟨⟨_, hq, rfl⟩, rfl, hr.mq_eq⟩, s.set_clients_self _ _⟩
  · -- The client could not be told, and its slot was given up.
    obtain rfl := List.mem_singleton.1 he
    exact absurd hok (by rw [hko]; decide)

/-- The memory is as it was unless the client is told its descriptor. -/
theorem Open.eq_of_not_told {s s' : Broker cfg} {msg : PsmqMsg cfg} {tr : Trace cfg}
    (h : Open s msg tr s') (hk : ∀ k, ¬Told k tr) : s' = s := by
  rcases h with _ | ⟨_, _, hr⟩ | @⟨_, _, fd, e, _, hfree, _, hr, hok⟩ | _
  · rfl
  · rfl
  · exact absurd ⟨e, List.mem_cons_self, hr.cmd_eq, hr.data_zero (by decide), hok⟩ (hk fd)
  · rfl

/-! ## The clients admitted -/

/-- The client told that it has the slot `k`, at the step `i`, has it still at
    the end of the run: no step since then has freed it. -/
def Admitted (ls : List (BrokerLabel cfg)) (i : ℕ) (k : Slot cfg) : Prop :=
  (∃ bytes prio tr, ls[i]? = some (.request bytes prio tr) ∧ Told k tr) ∧
    ∀ j, i < j → ∀ l ∈ ls[j]?, ¬Frees k l

theorem Told.answered {k : Slot cfg} {tr : Trace cfg} (h : Told k tr) : Answered k tr := by
  obtain ⟨e, he, hctrl, hfd, -⟩ := h
  exact ⟨e, he, hctrl, hfd⟩

/-- A client told that it has a slot has opened it. -/
theorem isOpen_of_told {s s' : Broker cfg} {bytes : List UInt8} {prio : ℕ} {tr : Trace cfg}
    (h : BrokerStep pc s (.request bytes prio tr) s') {k : Slot cfg} (hk : Told k tr) :
    s'.IsOpen k := by
  obtain ⟨-, -, qc, e, -, hc⟩ := clients_eq_of_told h hk
  rw [Broker.IsOpen, hc]
  exact Option.some_ne_none _

/-- A slot is not given to a client while another one has it. -/
theorem Admitted.not_lt {s s' : Broker cfg} {ls : List (BrokerLabel cfg)}
    (hrun : (brokerLts cfg pc).Run s ls s') {i j : ℕ} {k : Slot cfg} (hi : Admitted ls i k)
    (hj : Admitted ls j k) : ¬i < j := by
  intro hlt
  obtain ⟨⟨bytes, prio, tr, hget, htold⟩, hkeep⟩ := hi
  obtain ⟨⟨bytes', prio', tr', hget', htold'⟩, -⟩ := hj
  -- The run is cut after the step that admits the first client.
  have hcut : ls = ls.take i ++ .request bytes prio tr :: ls.drop (i + 1) := by
    obtain ⟨hlen, hl⟩ := List.getElem?_eq_some_iff.1 hget
    rw [← hl, List.getElem_cons_drop, List.take_append_drop]
  rw [hcut] at hrun
  obtain ⟨s₁, -, hrun⟩ := Lts.run_append_iff.1 hrun
  obtain ⟨s₂, hst, hrun⟩ := Lts.run_cons_iff.1 hrun
  obtain ⟨-, hans⟩ := holds_of_run hrun (isOpen_of_told hst htold) fun l hl => by
    obtain ⟨n, hn⟩ := List.mem_iff_getElem?.1 hl
    rw [List.getElem?_drop] at hn
    exact hkeep (i + 1 + n) (by omega) l hn
  refine hans (.request bytes' prio' tr') (List.mem_of_getElem? (i := j - (i + 1)) ?_)
    htold'.answered
  rwa [List.getElem?_drop, Nat.add_sub_cancel' hlt]

/-- The clients admitted have different slots: there are no more clients than slots. -/
theorem card_admitted_le {s s' : Broker cfg} {ls : List (BrokerLabel cfg)}
    (hrun : (brokerLts cfg pc).Run s ls s') {is : Finset ℕ} (his : ∀ i ∈ is, ∃ k, Admitted ls i k) :
    is.card ≤ cfg.maxClients := by
  choose f hf using fun i : is => his i i.2
  have hinj : Function.Injective f := by
    intro i j hij
    have hj : Admitted ls j (f i) := by
      rw [hij]
      exact hf j
    rcases lt_trichotomy i.1 j.1 with hlt | heq | hlt
    · exact absurd hlt ((hf i).not_lt hrun hj)
    · exact Subtype.ext heq
    · exact absurd hlt (hj.not_lt hrun (hf i))
  simpa using Fintype.card_le_of_injective f hinj

/-- How slots are allocated, from any state on.

    An open request is answered on the queue it names, as soon as this queue can
    be opened: with `ENOSPC` exactly when all the slots are used, which the
    value `UCHAR_MAX`, of no slot, stands for, and else with the descriptor of
    the first free slot. A descriptor is only given when its slot is free. Once
    a client is told it, its slot has the queue opened for the client, keeps it,
    and is not given again, until it is freed, so that there are never more
    clients admitted than slots. A request after which no client is told a
    descriptor changes nothing, if it is an open one. -/
theorem slot_allocation (pc : PsmqdCfg) (s : Broker cfg) :
    (∀ bytes prio tr s', BrokerStep pc s (.request bytes prio tr) s' →
      Accepted (received cfg bytes) → (received cfg bytes).ctrl.cmd = cmdOpen →
      (∃ qname err, str (received cfg bytes).data.bytes = some qname ∧
        tr = [⟨.mqOpen qname clientFlags, .error err⟩]) ∨
      ∃ qc e, AnsweredBy (received cfg bytes) tr qc e ∧
        (e.msg.ctrl = ⟨cmdOpen, UInt8.ofNat ENOSPC⟩ ↔ ∀ k, s.IsOpen k) ∧
        ((∃ k, ¬s.IsOpen k) → ∃ k, ¬s.IsOpen k ∧ (∀ j < k, s.IsOpen j) ∧
          e.msg.ctrl = ⟨cmdOpen, 0⟩ ∧ e.msg.data.bytes[0]? = some (fdOf k))) ∧
    (brokerGetFreeClient s = UInt8.ofNat ucharMax ↔ ∀ k, s.IsOpen k) ∧
    (∀ k : Slot cfg, fdOf k ≠ UInt8.ofNat ucharMax) ∧
    (∀ k bytes prio tr s', BrokerStep pc s (.request bytes prio tr) s' → Answered k tr →
      ¬s.IsOpen k) ∧
    (∀ k bytes prio tr s₁, BrokerStep pc s (.request bytes prio tr) s₁ → Told k tr →
      (∃ qc e, AnsweredBy (received cfg bytes) tr qc e ∧ (s₁.clients k).mq = some qc) ∧
      ∀ ls s₂, (brokerLts cfg pc).Run s₁ ls s₂ → (∀ l ∈ ls, ¬Frees k l) →
        (s₂.clients k).mq = (s₁.clients k).mq ∧ ∀ l ∈ ls, ¬Answered k l.trace) ∧
    (∀ ls s', (brokerLts cfg pc).Run s ls s' →
      ∀ is : Finset ℕ, (∀ i ∈ is, ∃ k, Admitted ls i k) → is.card ≤ cfg.maxClients) ∧
    (∀ bytes prio tr s', BrokerStep pc s (.request bytes prio tr) s' →
      (received cfg bytes).ctrl.cmd = cmdOpen → (∀ k, ¬Told k tr) → s' = s) := by
  refine ⟨fun bytes prio tr s' h ha hcmd => ?_, ?_, fdOf_ne_ucharMax,
    fun k bytes prio tr s' h hk => not_isOpen_of_answered h hk,
    fun k bytes prio tr s₁ h hk => ⟨?_, fun ls s₂ hrun hls => ?_⟩,
    fun ls s' hrun is his => card_admitted_le hrun his, fun bytes prio tr s' h hcmd hk => ?_⟩
  · obtain ⟨-, h⟩ := (step_request h).resolve_left fun h => h.1 ha
    rcases (h.of_cmd.1 hcmd).answered with hq | ⟨qc, e, he, ⟨hall, hctrl⟩ | hfree⟩
    · exact .inl hq
    · refine .inr ⟨qc, e, he, iff_of_true hctrl hall, ?_⟩
      rintro ⟨k, hk⟩
      exact absurd (hall k) hk
    · refine .inr ⟨qc, e, he, iff_of_false (fun hno => ?_) fun hall => ?_, fun _ => hfree⟩
      · obtain ⟨k, -, -, hctrl, -⟩ := hfree
        exact absurd (hno.symm.trans hctrl) (by decide)
      · obtain ⟨k, hk, -⟩ := hfree
        exact hk (hall k)
  · rcases brokerGetFreeClient_spec s with ⟨hf, hall⟩ | ⟨fd, hf, hfd, -⟩
    · exact iff_of_true hf hall
    · exact iff_of_false (hf ▸ fdOf_ne_ucharMax fd) fun h => hfd (h fd)
  · obtain ⟨-, -, qc, e, he, hc⟩ := clients_eq_of_told h hk
    exact ⟨qc, e, he, by rw [hc]⟩
  · exact holds_of_run hrun (isOpen_of_told h hk) hls
  · rcases step_request h with ⟨-, -, rfl⟩ | ⟨-, h⟩
    · rfl
    · exact (h.of_cmd.1 hcmd).eq_of_not_told hk

/-- Results for the calls: a queue is opened with the handle `qc`, and all succeed. -/
def opensAs (cfg : Config) (qc : ℕ) : Trace cfg → (o : Op cfg) → Op.Res o
  | _, .mqOpen _ _ => .ok qc
  | past, o => answers cfg true past o

/-- Two clients open `/a` and `/b`, and have all the slots: a third one, that
    opens `/c`, is told so, until the first one closes. -/
theorem slot_allocation_reused : ∃ (s₁ s₂ s₃ s₄ s₅ : Broker smallest)
    (tr₁ tr₂ tr₃ tr₄ tr₅ : Trace smallest),
    BrokerStep psmqdCfgInit (started smallest) (.request [111, 0, 0, 0, 47, 97, 0] 0 tr₁) s₁ ∧
    BrokerStep psmqdCfgInit s₁ (.request [111, 0, 0, 0, 47, 98, 0] 0 tr₂) s₂ ∧
    BrokerStep psmqdCfgInit s₂ (.request [111, 0, 0, 0, 47, 99, 0] 0 tr₃) s₃ ∧
    BrokerStep psmqdCfgInit s₃ (.request [99, 0, 0, 0, 0] 0 tr₄) s₄ ∧
    BrokerStep psmqdCfgInit s₄ (.request [111, 0, 0, 0, 47, 99, 0] 0 tr₅) s₅ ∧
    Told 0 tr₁ ∧ Told 1 tr₂ ∧ Told 0 tr₅ ∧
    (∃ qc e, AnsweredBy (received smallest [111, 0, 0, 0, 47, 99, 0]) tr₃ qc e ∧
      e.msg.ctrl = ⟨cmdOpen, UInt8.ofNat ENOSPC⟩) ∧ s₃ = s₂ ∧
    (s₁.clients 0).mq = some 5 ∧ (s₃.clients 0).mq = (s₁.clients 0).mq ∧
    ¬s₄.IsOpen 0 ∧ ∃ qc e, AnsweredBy (received smallest [111, 0, 0, 0, 47, 99, 0]) tr₅ qc e ∧
      (s₅.clients 0).mq = some qc := by
  obtain ⟨tr₁, s₁, tr₂, s₂, tr₃, s₃, tr₄, s₄, tr₅, s₅, h₁, h₂, h₃, h₄, h₅, hq₁, hq₂, hq₃, hq₄, hmq,
      hall, htold₁, htold₂, hno₃, htold₅, hsent⟩ : ∃ tr₁ s₁ tr₂ s₂ tr₃ s₃ tr₄ s₄ tr₅ s₅,
      eval (opensAs smallest 5) [] (brokerStart (started smallest) [111, 0, 0, 0, 47, 97, 0] 0) =
        some (tr₁, s₁) ∧
      eval (opensAs smallest 6) [] (brokerStart s₁ [111, 0, 0, 0, 47, 98, 0] 0) =
        some (tr₂, s₂) ∧
      eval (opensAs smallest 7) [] (brokerStart s₂ [111, 0, 0, 0, 47, 99, 0] 0) =
        some (tr₃, s₃) ∧
      eval (opensAs smallest 8) [] (brokerStart s₃ [99, 0, 0, 0, 0] 0) = some (tr₄, s₄) ∧
      eval (opensAs smallest 9) [] (brokerStart s₄ [111, 0, 0, 0, 47, 99, 0] 0) =
        some (tr₅, s₅) ∧
      s₁.qctrl ≠ none ∧ s₂.qctrl ≠ none ∧ s₃.qctrl ≠ none ∧ s₄.qctrl ≠ none ∧
      (s₁.clients 0).mq = some 5 ∧ (∀ k, s₂.IsOpen k) ∧
      (∃ e ∈ sends tr₁, e.msg.ctrl = ⟨cmdOpen, 0⟩ ∧
        e.msg.data.bytes[0]? = some (fdOf (0 : Slot smallest)) ∧ e.ok = true) ∧
      (∃ e ∈ sends tr₂, e.msg.ctrl = ⟨cmdOpen, 0⟩ ∧
        e.msg.data.bytes[0]? = some (fdOf (1 : Slot smallest)) ∧ e.ok = true) ∧
      (∀ e ∈ sends tr₃, e.msg.ctrl ≠ ⟨cmdOpen, 0⟩) ∧
      (∃ e ∈ sends tr₅, e.msg.ctrl = ⟨cmdOpen, 0⟩ ∧
        e.msg.data.bytes[0]? = some (fdOf (0 : Slot smallest)) ∧ e.ok = true) ∧
      sends tr₃ ≠ [] :=
    ⟨_, _, _, _, _, _, _, _, _, _, rfl, rfl, rfl, rfl, rfl, by decide, by decide, by decide,
      by decide, by decide, by decide, by decide, by decide, by decide, by decide, by decide⟩
  have hst₁ : BrokerStep psmqdCfgInit (started smallest)
      (.request [111, 0, 0, 0, 47, 97, 0] 0 tr₁) s₁ :=
    .request (by decide) (by decide) (exec_of_eval h₁)
  have hst₂ : BrokerStep psmqdCfgInit s₁ (.request [111, 0, 0, 0, 47, 98, 0] 0 tr₂) s₂ :=
    .request hq₁ (by decide) (exec_of_eval h₂)
  have hst₃ : BrokerStep psmqdCfgInit s₂ (.request [111, 0, 0, 0, 47, 99, 0] 0 tr₃) s₃ :=
    .request hq₂ (by decide) (exec_of_eval h₃)
  have hst₄ : BrokerStep psmqdCfgInit s₃ (.request [99, 0, 0, 0, 0] 0 tr₄) s₄ :=
    .request hq₃ (by decide) (exec_of_eval h₄)
  have hst₅ : BrokerStep psmqdCfgInit s₄ (.request [111, 0, 0, 0, 47, 99, 0] 0 tr₅) s₅ :=
    .request hq₄ (by decide) (exec_of_eval h₅)
  obtain ⟨-, -, -, -, hgiven, -, -⟩ := slot_allocation psmqdCfgInit (started smallest)
  obtain ⟨hanswer, -, -, -, -, -, hsame⟩ := slot_allocation psmqdCfgInit s₂
  obtain ⟨-, -, -, hfree, hgiven', -, -⟩ := slot_allocation psmqdCfgInit s₄
  have hrefused : ∃ qc e, AnsweredBy (received smallest [111, 0, 0, 0, 47, 99, 0]) tr₃ qc e ∧
      e.msg.ctrl = ⟨cmdOpen, UInt8.ofNat ENOSPC⟩ := by
    have ha : Accepted (received smallest [111, 0, 0, 0, 47, 99, 0]) :=
      ⟨⟨[47, 99], by decide⟩, by decide, by decide, by decide⟩
    rcases hanswer _ _ _ _ hst₃ ha (by decide) with ⟨_, _, -, herr⟩ | ⟨qc, e, he, hiff, -⟩
    · exact absurd (by rw [herr]; rfl) hsent
    · exact ⟨qc, e, he, hiff.2 hall⟩
  have hs₃ : s₃ = s₂ := hsame _ _ _ _ hst₃ (by decide) fun k ⟨e, he, hctrl, _⟩ => hno₃ e he hctrl
  -- The first client keeps its slot while the two others ask for one.
  have hkeep : ∀ l ∈ [BrokerLabel.request [111, 0, 0, 0, 47, 98, 0] 0 tr₂,
      .request [111, 0, 0, 0, 47, 99, 0] 0 tr₃], ¬Frees 0 l := by
    simp only [List.forall_mem_cons, Frees]
    exact ⟨by rintro (⟨-, h, -⟩ | ⟨h, -⟩) <;> exact absurd h (by decide),
      by rintro (⟨-, h, -⟩ | ⟨h, -⟩) <;> exact absurd h (by decide), by simp⟩
  have hheld := ((hgiven _ _ _ _ _ hst₁ htold₁).2 _ _ (.cons hst₂ (.cons hst₃ (.nil s₃)))
    hkeep).1
  exact ⟨s₁, s₂, s₃, s₄, s₅, tr₁, tr₂, tr₃, tr₄, tr₅, hst₁, hst₂, hst₃, hst₄, hst₅, htold₁, htold₂,
    htold₅, hrefused, hs₃, hmq, hheld, hfree _ _ _ _ _ hst₅ (Told.answered htold₅),
    (hgiven' _ _ _ _ _ hst₅ htold₅).1⟩

end Psmq
