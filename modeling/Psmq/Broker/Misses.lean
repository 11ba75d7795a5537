import Psmq.Broker.Run

/-!
# Missed messages

A client that misses ten messages in a row is to be dropped. The broker counts
the messages a client has missed since the last one it got (`inARow`, in a
counter of one byte), published ones and replies alike, but compares the
counter with its limit only when a published message cannot be sent.

* In the runs in which no reply is the tenth message missed in a row
  (`RepliesBelow`), a client is out of its slot after the step in which it
  misses the tenth, whatever is sent to it afterwards in this step, such as the
  notice that it is closed (`MissesTenth`). No open slot has missed ten
  messages, and the counter is at least their number: it does not wrap
  (`missed_ten_dropped`).
* A step keeps the counters below the limit exactly when it meets this
  condition; a client that only gets replies stays in its slot, whatever it
  misses (`ten_missed_replies`).
-/

namespace Psmq

open CMem Prog

variable {cfg : Config} {pc : PsmqdCfg}

/-! ## Messages missed in a row -/

/-- How many messages in a row are missed after the attempts `es`, `n` being
    missed before them. -/
def inARow (n : ℕ) (es : List (Sent cfg)) : ℕ := es.foldl (fun n e => if e.ok then 0 else n + 1) n

@[simp] theorem inARow_nil (n : ℕ) : inARow n ([] : List (Sent cfg)) = n := rfl

@[simp] theorem inARow_cons (n : ℕ) (e : Sent cfg) (es : List (Sent cfg)) :
    inARow n (e :: es) = inARow (if e.ok then 0 else n + 1) es := rfl

/-- How many messages in a row the client in the slot `k` has missed in a run. -/
def missedInRun (k : Slot cfg) (ls : List (BrokerLabel cfg)) : ℕ :=
  ls.foldl (fun n l => inARow n (sendsTo k l.trace)) 0

/-- Ten messages in a row are missed at some point of the attempts `es`, `n`
    being missed before them. -/
def MissesTenth (n : ℕ) (es : List (Sent cfg)) : Prop := ∃ es₁, es₁ <+: es ∧ 10 ≤ inARow n es₁

theorem missesTenth_nil_iff {n : ℕ} : MissesTenth n ([] : List (Sent cfg)) ↔ 10 ≤ n := by
  simp [MissesTenth]

theorem missesTenth_cons_iff {n : ℕ} {e : Sent cfg} {es : List (Sent cfg)} :
    MissesTenth n (e :: es) ↔ 10 ≤ n ∨ MissesTenth (if e.ok then 0 else n + 1) es := by
  constructor
  · rintro ⟨es₁, hpre, hle⟩
    rcases List.prefix_cons_iff.1 hpre with rfl | ⟨es₂, rfl, hpre'⟩
    · exact .inl hle
    · exact .inr ⟨es₂, hpre', hle⟩
  · rintro (hle | ⟨es₁, hpre, hle⟩)
    · exact ⟨[], List.nil_prefix, hle⟩
    · exact ⟨e :: es₁, (List.prefix_cons_inj e).2 hpre, hle⟩

/-- A request of the client in the slot `k` that is answered by a reply. -/
def AsksReply (msg : PsmqMsg cfg) (k : Slot cfg) : Prop :=
  msg.ctrl.cmd ∈ [cmdSubscribe, cmdUnsubscribe, cmdIoctl] ∧ slotOf cfg msg.ctrl.data = some k

instance (msg : PsmqMsg cfg) (k : Slot cfg) : Decidable (AsksReply msg k) :=
  inferInstanceAs (Decidable (_ ∧ _))

/-- No reply is the tenth message in a row that its client misses. -/
def RepliesBelow (s : Broker cfg) : BrokerLabel cfg → Prop
  | .request bytes _ tr => ∀ k, AsksReply (received cfg bytes) k →
      (∃ e ∈ sendsTo k tr, e.ok = false) → (s.clients k).missedPubs.toNat + 1 < 10
  | .restart _ => True

instance (s : Broker cfg) : (l : BrokerLabel cfg) → Decidable (RepliesBelow s l)
  | .request bytes _ tr => inferInstanceAs (Decidable (∀ k, AsksReply (received cfg bytes) k →
      (∃ e ∈ sendsTo k tr, e.ok = false) → (s.clients k).missedPubs.toNat + 1 < 10))
  | .restart _ => .isTrue trivial

/-! ## The counter -/

/-- The counter after one more message is missed, below its limit. -/
theorem toNat_add_one {n : UInt8} (h : n.toNat < 10) : (n + 1).toNat = n.toNat + 1 := by
  have h1 : (1 : UInt8).toNat = 1 := rfl
  rw [UInt8.toNat_add, h1]
  omega

theorem maxMissedPubs_le_iff {n : UInt8} : maxMissedPubs ≤ n ↔ 10 ≤ n.toNat := UInt8.le_iff_toNat_le

theorem toNat_sent {c : Client} (h : c.missedPubs.toNat < 10) (ok : Bool) :
    (c.sent ok).missedPubs.toNat = if ok then 0 else c.missedPubs.toNat + 1 := by
  cases ok with
  | true => rfl
  | false => exact toNat_add_one h

theorem toNat_closed_lt (c : Client) (ok : Bool) : (c.closed ok).missedPubs.toNat < 10 := by
  cases ok
  · exact (by decide : (1 : UInt8).toNat < 10)
  · exact (by decide : (0 : UInt8).toNat < 10)

/-- A client being served is closed, or stays below the limit, and misses less
    than ten messages in a row all along. -/
theorem Serve.missedPubs_le {topic : CString} {payload : Ptr} {paylen prio : ℕ} {fd : Slot cfg}
    {nodes : List CString} {c c' : Client} {tr : Trace cfg}
    (h : Serve topic payload paylen prio fd nodes c tr c') (hmax : c.missedPubs.toNat < 10) {n : ℕ}
    (hn : n ≤ c.missedPubs.toNat) :
    c'.missedPubs.toNat < 10 ∧ (c'.mq ≠ none →
      inARow n (sends tr) ≤ c'.missedPubs.toNat ∧ ¬MissesTenth n (sends tr)) := by
  have hlt₀ : n < 10 := hn.trans_lt hmax
  induction h generalizing n with
  | done => exact ⟨hmax, fun _ => ⟨hn, fun ht => (missesTenth_nil_iff.1 ht).not_gt hlt₀⟩⟩
  | skip _ _ ih => exact ih hmax hn hlt₀
  | @sent _ _ c e _ _ hok =>
    refine ⟨Nat.succ_pos 9, fun _ => ⟨by simp [hok], fun ht => ?_⟩⟩
    rcases missesTenth_cons_iff.1 ht with hten | ht
    · exact hten.not_gt hlt₀
    · rw [hok, if_pos rfl] at ht
      exact absurd (missesTenth_nil_iff.1 ht) (by decide)
  | @missed _ _ c _ e _ _ _ hok hlt _ ih =>
    -- One more message is missed, and the limit is not reached.
    have hc := toNat_sent hmax false
    rw [maxMissedPubs_le_iff, toNat_add_one hmax] at hlt
    simp only [Bool.false_eq_true, if_false] at hc
    obtain ⟨hlt', hle⟩ := ih (n := n + 1) (by omega) (by omega) (by omega)
    refine ⟨hlt', fun ho => ?_⟩
    obtain ⟨hrow, hno⟩ := hle ho
    rw [sends_event, inARow_cons, missesTenth_cons_iff, hok, if_neg Bool.false_ne_true]
    exact ⟨hrow, fun ht => ht.elim hlt₀.not_ge hno⟩
  | evicted _ _ _ _ hc =>
    obtain ⟨e', -, -, rfl⟩ := hc.spec
    exact ⟨toNat_closed_lt _ _, fun h => absurd rfl h⟩

/-! ## What a step does to the counter -/

theorem Subscribe.counted {msg : PsmqMsg cfg} {stopic : CString} {fd : Slot cfg} {c c' : Client}
    {tr : Trace cfg} (h : Subscribe msg stopic fd c tr c') :
    ∃ e, sends tr = [e] ∧ c'.missedPubs = (c.sent e.ok).missedPubs ∧ c'.mq = c.mq := by
  cases h <;> exact ⟨_, rfl, rfl, rfl⟩

theorem Unsubscribe.counted {utopic : CString} {fd : Slot cfg} {c c' : Client} {tr : Trace cfg}
    (h : Unsubscribe utopic fd c tr c') :
    ∃ e, sends tr = [e] ∧ c'.missedPubs = (c.sent e.ok).missedPubs ∧ c'.mq = c.mq := by
  cases h <;> exact ⟨_, rfl, rfl, rfl⟩

theorem Ioctl.counted {msg : PsmqMsg cfg} {req : UInt8} {fd : Slot cfg} {c c' : Client}
    {tr : Trace cfg} (h : Ioctl msg req fd c tr c') :
    ∃ e, sends tr = [e] ∧ c'.missedPubs = (c.sent e.ok).missedPubs ∧ c'.mq = c.mq := by
  cases h <;> exact ⟨_, rfl, rfl, rfl⟩

/-- A request is answered by a reply, which is counted whatever the limit; or
    it leaves the counter below its limit, and the client, if it is still
    there, with at most as many messages missed as it says, and less than ten
    in a row all along. -/
theorem SlotStep.counted {s : Broker cfg} {msg : PsmqMsg cfg} {prio : ℕ} {k : Slot cfg}
    {tr : Trace cfg} {c : Client} (h : SlotStep s msg prio k tr c)
    (hmax : (s.clients k).missedPubs.toNat < 10) {n : ℕ}
    (hn : s.IsOpen k → n ≤ (s.clients k).missedPubs.toNat) :
    (AsksReply msg k ∧ ∃ e, sendsTo k tr = [e] ∧
      c.missedPubs = ((s.clients k).sent e.ok).missedPubs ∧ c.mq = (s.clients k).mq) ∨
    ((AsksReply msg k → sendsTo k tr = []) ∧ c.missedPubs.toNat < 10 ∧
      (c.mq ≠ none → inARow n (sendsTo k tr) ≤ c.missedPubs.toNat ∧
        (s.IsOpen k → ¬MissesTenth n (sendsTo k tr)))) := by
  -- The requests with these commands are not answered so.
  have hno : msg.ctrl.cmd ∈ [cmdOpen, cmdClose, cmdPublish] → AsksReply msg k →
      sendsTo k tr = [] := fun hmem hask => by
    obtain ⟨hcmd, -⟩ := hask
    simp only [List.mem_cons, List.not_mem_nil, or_false] at hmem hcmd
    rcases hmem with hm | hm | hm <;> rcases hcmd with hc | hc | hc <;> exact cmd_absurd hm hc
  cases h with
  | idle hs =>
    refine .inr ⟨fun _ => hs, hmax, fun ho => ?_⟩
    rw [hs, missesTenth_nil_iff]
    exact ⟨hn ho, fun _ hten => hten.not_gt ((hn ho).trans_lt hmax)⟩
  | opened hcmd hfree _ hok hs =>
    exact .inr ⟨hno (by simp [hcmd]), hmax, fun _ => ⟨by simp [hs, hok], fun ho => absurd ho hfree⟩⟩
  | noReply hcmd hfree _ _ _ => exact .inr ⟨hno (by simp [hcmd]), hmax, fun ho => absurd ho hfree⟩
  | closed hcmd _ h =>
    obtain ⟨e, -, -, rfl⟩ := h.spec
    exact .inr ⟨hno (by simp [hcmd]), toNat_closed_lt _ _, fun ho => absurd rfl ho⟩
  | subscribed hcmd hfd _ h =>
    obtain ⟨e, hs, hc⟩ := h.counted
    exact .inl ⟨⟨by simp [hcmd], hfd⟩, e, h.onlyTo.sendsTo_self.trans hs, hc⟩
  | unsubscribed hcmd hfd _ h =>
    obtain ⟨e, hs, hc⟩ := h.counted
    exact .inl ⟨⟨by simp [hcmd], hfd⟩, e, h.onlyTo.sendsTo_self.trans hs, hc⟩
  | served hcmd _ ho hs h =>
    obtain ⟨hlt, hle⟩ := h.missedPubs_le hmax (hn ho)
    exact .inr ⟨hno (by simp [hcmd]), hlt, fun ho' => hs ▸ ⟨(hle ho').1, fun _ => (hle ho').2⟩⟩
  | ioctl hcmd hfd _ h =>
    obtain ⟨e, hs, hc⟩ := h.counted
    exact .inl ⟨⟨by simp [hcmd], hfd⟩, e, h.onlyTo.sendsTo_self.trans hs, hc⟩

/-- A step leaves the counter below its limit when no reply is one message too
    many. It is then at least the number of messages missed, and a client that
    keeps its slot does not miss ten in a row. -/
theorem missed_of_step {s s' : Broker cfg} {l : BrokerLabel cfg} {k : Slot cfg}
    (h : BrokerStep pc s l s') (hmax : (s.clients k).missedPubs.toNat < 10) {n : ℕ}
    (hn : s.IsOpen k → n ≤ (s.clients k).missedPubs.toNat) (hl : RepliesBelow s l) :
    (s'.clients k).missedPubs.toNat < 10 ∧
      (s'.IsOpen k → inARow n (sendsTo k l.trace) ≤ (s'.clients k).missedPubs.toNat ∧
        (s.IsOpen k → ¬MissesTenth n (sendsTo k l.trace))) := by
  cases l with
  | restart tr =>
    rcases step_restart_slot h k with ⟨-, e, -, -, hc⟩ | ⟨hfree, -, hc⟩ <;> rw [Broker.IsOpen, hc]
    · exact ⟨toNat_closed_lt _ _, fun ho => absurd rfl ho⟩
    · exact ⟨hmax, fun ho => absurd ho hfree⟩
  | request bytes prio tr =>
    rcases (step_request_slot h k).counted hmax hn with ⟨hask, e, hs, hc, hmq⟩ | ⟨-, h⟩
    · have hlt : e.ok = false → (s.clients k).missedPubs.toNat + 1 < 10 := fun hok =>
        hl k hask ⟨e, by simp [hs], hok⟩
      rw [Broker.IsOpen, hmq, hc, toNat_sent hmax, BrokerLabel.trace, hs, missesTenth_cons_iff,
        missesTenth_nil_iff, inARow_cons, inARow_nil]
      cases hok : e.ok with
      | true =>
        refine ⟨Nat.succ_pos 9, fun ho => ⟨Nat.zero_le _, fun _ hten => ?_⟩⟩
        have := hn ho
        simp only [if_true] at hten
        omega
      | false =>
        have := hlt hok
        simp only [Bool.false_eq_true, if_false]
        refine ⟨this, fun ho => ?_⟩
        have := hn ho
        exact ⟨by omega, fun _ hten => by omega⟩
    · exact h

/-- A step keeps all the counters below the limit exactly when no reply is one
    message too many. -/
theorem missedPubs_lt_iff {s s' : Broker cfg} {l : BrokerLabel cfg} (h : BrokerStep pc s l s')
    (hmax : ∀ k, (s.clients k).missedPubs.toNat < 10) :
    (∀ k, (s'.clients k).missedPubs.toNat < 10) ↔ RepliesBelow s l := by
  refine ⟨fun h' => ?_, fun hl k => (missed_of_step (n := 0) h (hmax k)
    (fun _ => Nat.zero_le _) hl).1⟩
  cases l with
  | restart tr => exact trivial
  | request bytes prio tr =>
    rintro k hask ⟨e, he, hok⟩
    rcases (step_request_slot h k).counted (n := 0) (hmax k) (fun _ => Nat.zero_le _) with
      ⟨-, e', hs, hc, -⟩ | ⟨hno, -⟩
    · obtain rfl := List.mem_singleton.1 (hs ▸ he)
      have hlt := h' k
      rw [hc, toNat_sent (hmax k), hok] at hlt
      simpa using hlt
    · exact absurd (hno hask ▸ he) List.not_mem_nil

/-- In the runs in which no reply is the tenth message missed in a row, a client
    is dropped when it misses ten: the step in which it misses the tenth leaves
    its slot free. Between the steps, the counter of an open slot is below its
    limit, and at least the number of messages missed. A step keeps all the
    counters below the limit exactly when no reply is one message too many. -/
theorem missed_ten_dropped {s₀ s : Broker cfg} {ls : List (BrokerLabel cfg)}
    (h₀ : (brokerLts cfg pc).init s₀) (h : ((brokerLts cfg pc).restrict RepliesBelow).Run s₀ ls s) :
    (∀ l s', BrokerStep pc s l s' → RepliesBelow s l → ∀ k, s.IsOpen k →
      MissesTenth (missedInRun k ls) (sendsTo k l.trace) → ¬s'.IsOpen k) ∧
    (∀ k, s.IsOpen k → missedInRun k ls ≤ (s.clients k).missedPubs.toNat ∧
      (s.clients k).missedPubs.toNat < 10) ∧
    (∀ l s', BrokerStep pc s l s' →
      ((∀ k, (s'.clients k).missedPubs.toNat < 10) ↔ RepliesBelow s l)) := by
  have key : ∀ k, (∀ j, (s.clients j).missedPubs.toNat < 10) ∧
      (s.IsOpen k → missedInRun k ls ≤ (s.clients k).missedPubs.toNat) := fun k => by
    refine h.foldl (g := fun n l => inARow n (sendsTo k l.trace)) (a := 0)
      (R := fun s n => (∀ j, (s.clients j).missedPubs.toNat < 10) ∧
        (s.IsOpen k → n ≤ (s.clients k).missedPubs.toNat))
      (fun s l s' n hs hst => ?_) ⟨fun j => ?_, fun _ => Nat.zero_le _⟩
    · exact ⟨(missedPubs_lt_iff hst.1 hs.1).2 hst.2, fun ho =>
        ((missed_of_step hst.1 (hs.1 k) hs.2 hst.2).2 ho).1⟩
    · rw [brokerLts_init h₀]
      exact Nat.succ_pos 9
  have hmax : ∀ k, (s.clients k).missedPubs.toNat < 10 := fun k => (key k).1 k
  refine ⟨fun l s' hst hl k ho hten ho' => ?_, fun k ho => ⟨(key k).2 ho, hmax k⟩,
    fun l s' hst => missedPubs_lt_iff hst hmax⟩
  exact ((missed_of_step hst (hmax k) (key k).2 hl).2 ho').2 ho hten

/-- A client that opens `/c` and subscribes to `/a`, and misses ten messages
    published there: it gets the notice that it is closed, and is dropped. -/
theorem missed_ten_dropped_publishes : ∃ (s s' : Broker smallest)
    (ls : List (BrokerLabel smallest)) (l : BrokerLabel smallest),
    ((brokerLts smallest psmqdCfgInit).restrict RepliesBelow).Run (started smallest) ls s ∧
    BrokerStep psmqdCfgInit s l s' ∧ s.IsOpen 0 ∧ missedInRun 0 ls = 9 ∧
    MissesTenth 9 (sendsTo 0 l.trace) ∧ missedInRun 0 (ls ++ [l]) = 0 ∧
    (s.clients 0).missedPubs.toNat < 10 ∧ ¬s'.IsOpen 0 ∧
    ∀ k, (s'.clients k).missedPubs.toNat < 10 := by
  obtain ⟨ls, s, tr, s', h, h', hmeets, hq, ho, hnine, hl, hes, hzero⟩ : ∃ ls s tr s',
      feedRun (publishesLost smallest) (([111, 0, 0, 0, 47, 99, 0], 0) ::
        ([115, 0, 0, 0, 47, 97, 0], 0) :: List.replicate 9 ([112, 0, 0, 0, 47, 97, 0], 0))
          (started smallest) = some (ls, s) ∧
      eval (publishesLost smallest) [] (brokerStart s [112, 0, 0, 0, 47, 97, 0] 0) =
        some (tr, s') ∧
      feedMeets RepliesBelow (publishesLost smallest) (([111, 0, 0, 0, 47, 99, 0], 0) ::
        ([115, 0, 0, 0, 47, 97, 0], 0) :: List.replicate 9 ([112, 0, 0, 0, 47, 97, 0], 0))
          (started smallest) = true ∧
      s.qctrl ≠ none ∧ s.IsOpen 0 ∧ missedInRun 0 ls = 9 ∧
      RepliesBelow s (.request [112, 0, 0, 0, 47, 97, 0] 0 tr) ∧
      (sendsTo 0 tr).map Sent.ok = [false, true] ∧
      missedInRun 0 (ls ++ [.request [112, 0, 0, 0, 47, 97, 0] 0 tr]) = 0 :=
    ⟨_, _, _, _, rfl, rfl, by decide, by decide, by decide, by decide, by decide, by decide,
      by decide⟩
  have hrun : ((brokerLts smallest psmqdCfgInit).restrict RepliesBelow).Run _ ls s :=
    restrict_run_of_feedRun h (by decide) hmeets
  have hstep : BrokerStep psmqdCfgInit s (.request [112, 0, 0, 0, 47, 97, 0] 0 tr) s' :=
    .request hq (by decide) (exec_of_eval h')
  have hten : MissesTenth 9 (sendsTo 0 tr) := by
    obtain ⟨e, es, hsent, hok, -⟩ := List.map_eq_cons_iff.1 hes
    exact ⟨[e], hsent ▸ ⟨es, rfl⟩, by simp [hok]⟩
  obtain ⟨hdrop, hlt, hkeep⟩ := missed_ten_dropped (started_init psmqdCfgInit) hrun
  exact ⟨s, s', ls, _, hrun, hstep, ho, hnine, hten, hzero, (hlt 0 ho).2,
    hdrop _ _ hstep hl 0 ho (hnine.symm ▸ hten), (hkeep _ _ hstep).2 hl⟩

/-- A client that opens `/c`, and misses the replies to ten unknown ioctls,
    stays in its slot, its counter at the limit. -/
theorem ten_missed_replies : ∃ (s : Broker smallest) (ls : List (BrokerLabel smallest)),
    (brokerLts smallest psmqdCfgInit).init (started smallest) ∧
    (brokerLts smallest psmqdCfgInit).Run (started smallest) ls s ∧
    missedInRun 0 ls = 10 ∧ s.IsOpen 0 ∧ (s.clients 0).missedPubs = maxMissedPubs := by
  obtain ⟨ls₁, s₁, ls₂, s₂, h₁, h₂, hrow, ho, hmissed⟩ : ∃ ls₁ s₁ ls₂ s₂,
      feedRun (answers smallest true) [([111, 0, 0, 0, 47, 99, 0], 0)] (started smallest) =
        some (ls₁, s₁) ∧
      feedRun (answers smallest false) (List.replicate 10 ([105, 0, 1, 0, 9], 0)) s₁ =
        some (ls₂, s₂) ∧
      missedInRun 0 (ls₁ ++ ls₂) = 10 ∧ s₂.IsOpen 0 ∧
      (s₂.clients 0).missedPubs = maxMissedPubs :=
    ⟨_, _, _, _, rfl, rfl, by decide, by decide, by decide⟩
  obtain ⟨hrun₁, hq⟩ : (brokerLts smallest psmqdCfgInit).Run _ _ _ ∧ _ :=
    run_of_feedRun h₁ (by decide)
  exact ⟨s₂, _, started_init _, hrun₁.append (run_of_feedRun h₂ hq).1, hrow, ho, hmissed⟩

end Psmq
