import Psmq.Daemon
import Mathlib.Data.ENat.Basic
import Mathlib.Algebra.BigOperators.Fin

/-!
# How long the broker waits

The broker handles one message at a time. While it does, it only waits to send
to its clients, up to the timeout each has asked for (`Op.wait`):

* a client is sent at most 12 messages (`Serve.length_le`): those of a publish
  that fail before it is evicted, and the close message. There are 11 of the
  first, not 10, if its counter of missed messages is to wrap;
* so that, while no client asks for more than `T` milliseconds, what is sent
  before a message keeps it waiting at most `12 * T` for each of the slots and
  each of the messages (`waiting_bounded`).
-/

namespace Psmq

open CMem Prog

variable {cfg : Config}

/-- The time a call may take, in milliseconds, on a queue that is open. -/
def Op.wait : Op cfg → ℕ∞
  | mqSend _ _ _ _ _ => ⊤
  | mqReceive _ => ⊤
  | mqTimedsend _ mq _ _ _ timeout => if mq = none then 0 else (timeout.toNat : ℕ)
  | mqTimedreceive mq ms => if mq = none then 0 else (ms : ℕ)
  | _ => 0

/-- The time some calls may take. -/
def waited (tr : Trace cfg) : ℕ∞ := (tr.map fun e => e.1.wait).sum

theorem waited_append (tr₁ tr₂ : Trace cfg) : waited (tr₁ ++ tr₂) = waited tr₁ + waited tr₂ := by
  simp [waited]

/-- The time an attempt to send may take. -/
def Sent.wait (e : Sent cfg) : ℕ := if e.mq = none then 0 else e.timeout.toNat

/-- The call does not wait, but to send to a client. -/
def Op.Prompt : Op cfg → Prop
  | mqTimedsend _ _ _ _ _ _ => True
  | o => o.wait = 0

/-- Only the attempts to send wait. -/
theorem waited_of_prompt {tr : Trace cfg} (h : ∀ e ∈ tr, e.1.Prompt) :
    waited tr = (((sends tr).map Sent.wait).sum : ℕ) := by
  induction tr with
  | nil => rfl
  | cons e tr ih =>
    obtain ⟨he, htr⟩ := List.forall_mem_cons.1 h
    obtain ⟨o, r⟩ := e
    rw [waited, List.map_cons, List.sum_cons, ← waited, ih htr]
    cases o with
    | mqTimedsend slot mq msg len prio timeout =>
      have hsends : sends (⟨.mqTimedsend slot mq msg len prio timeout, r⟩ :: tr) =
        ⟨slot, mq, msg, len, prio, timeout, r⟩ :: sends tr := rfl
      rw [hsends, List.map_cons, List.sum_cons, Nat.cast_add, Sent.wait, Op.wait]
      split <;> simp
    | _ => rw [show Op.wait _ = 0 from he, zero_add]; rfl

/-! ## One slot -/

/-- The time each attempt to send to a client may take, the client being `c'` in the end. -/
def limit (c c' : Client) : ℕ :=
  if c.mq = none then 0 else max c.replyTimeout.toNat c'.replyTimeout.toNat

theorem IsReplyMq.wait_eq {slot : Option (Slot cfg)} {mq : Mqd} {cmd data : UInt8}
    {topic : Option CString} {payload : Option Ptr} {paylen prio : ℕ} {timeout : UInt16}
    {e : Sent cfg} (h : IsReplyMq slot mq cmd data topic payload paylen prio timeout e) :
    e.wait = if mq = none then 0 else timeout.toNat := by
  rw [Sent.wait, h.mq_eq, h.timeout_eq]

/-- The attempts to send a message to a client, if they all fail, with these
    messages missed before. -/
def patience (missedPubs : UInt8) : ℕ :=
  if missedPubs = 255 then 11 else max 1 (10 - missedPubs.toNat)

theorem patience_le (m : UInt8) : patience m ≤ 11 := by
  rw [patience]
  split
  · exact le_rfl
  · omega

theorem one_le_patience (m : UInt8) : 1 ≤ patience m := by
  rw [patience]
  split
  · decide
  · exact le_max_left _ _

theorem patience_add_one {m : UInt8} (h : ¬maxMissedPubs ≤ m + 1) :
    patience (m + 1) + 1 ≤ patience m := by
  have hmax : maxMissedPubs.toNat = 10 := rfl
  rw [UInt8.le_iff_toNat_le, hmax, not_le] at h
  by_cases hm : m = 255
  · subst hm
    decide
  · have hlt : m.toNat < 255 := by
      have hne : m.toNat ≠ 255 := fun h => hm (UInt8.toNat_inj.1 h)
      have := m.toNat_lt
      omega
    have h1 : (1 : UInt8).toNat = 1 := rfl
    have hadd : (m + 1).toNat = m.toNat + 1 := by
      rw [UInt8.toNat_add, h1]
      omega
    have hne : m + 1 ≠ 255 := fun h' => by
      rw [h'] at h
      exact absurd h (by decide)
    rw [patience, if_neg hne, patience, if_neg hm, hadd]
    omega

section Serve

variable {topic : CString} {payload : Ptr} {paylen prio : ℕ} {fd : Slot cfg}
  {nodes : List CString} {c c' : Client} {tr : Trace cfg}

/-- Serving a client makes a few attempts to send to it. -/
theorem Serve.length_le (h : Serve topic payload paylen prio fd nodes c tr c') :
    (sends tr).length ≤ patience c.missedPubs + 1 := by
  induction h with
  | done => exact Nat.zero_le _
  | skip _ _ ih => exact ih
  | sent => exact Nat.le_add_left 1 _
  | @missed _ _ c _ _ _ _ _ _ hmax _ ih =>
    have hle : (sends _).length ≤ patience (c.missedPubs + 1) + 1 := ih
    have := patience_add_one hmax
    rw [sends_event, List.length_cons]
    omega
  | @evicted _ _ c _ _ _ _ _ _ _ _ hc =>
    obtain ⟨e', -, hs, -⟩ := hc.spec
    have := one_le_patience c.missedPubs
    rw [sends_event, sends_mqTimedreceive, hs, List.length_cons, List.length_singleton]
    omega

/-- Each attempt waits up to the timeout of the client. -/
theorem Serve.wait_eq (h : Serve topic payload paylen prio fd nodes c tr c') {e : Sent cfg}
    (he : e ∈ sends tr) : e.wait = if c.mq = none then 0 else c.replyTimeout.toNat := by
  induction h with
  | done => exact absurd he List.not_mem_nil
  | skip _ _ ih => exact ih he
  | sent _ hr => exact List.mem_singleton.1 he ▸ hr.wait_eq
  | missed _ hr _ _ _ ih =>
    rcases List.mem_cons.1 he with rfl | he
    · exact hr.wait_eq
    · exact ih he
  | evicted _ hr _ _ hc =>
    rcases List.mem_cons.1 he with rfl | he
    · exact hr.wait_eq
    · obtain ⟨e', he', hs, -⟩ := hc.spec
      obtain rfl := List.mem_singleton.1 (hs ▸ he : e ∈ [e'])
      exact he'.wait_eq

end Serve

/-- Some attempts are few, and each of them waits within the limit. -/
def Within (limit : ℕ) (es : List (Sent cfg)) : Prop := es.length ≤ 12 ∧ ∀ e ∈ es, e.wait ≤ limit

theorem within_nil {n : ℕ} : Within n ([] : List (Sent cfg)) :=
  ⟨by simp, fun _ he => absurd he List.not_mem_nil⟩

theorem within_singleton {n : ℕ} {e : Sent cfg} (h : e.wait ≤ n) : Within n [e] :=
  ⟨by simp, fun _ he => List.mem_singleton.1 he ▸ h⟩

theorem Within.sum_le {n : ℕ} {es : List (Sent cfg)} (h : Within n es) :
    (es.map Sent.wait).sum ≤ 12 * n := by
  have hle : (es.map Sent.wait).sum ≤ (es.map Sent.wait).length • n :=
    List.sum_le_card_nsmul _ _ fun w hw => by
      obtain ⟨e, he, rfl⟩ := List.mem_map.1 hw
      exact h.2 e he
  rw [List.length_map, smul_eq_mul] at hle
  exact hle.trans (Nat.mul_le_mul_right _ h.1)

/-- A reply to a client waits up to the timeout it has, or is given. -/
theorem IsReplyMq.wait_le {k : Slot cfg} {c c' : Client} {cmd data : UInt8}
    {topic : Option CString} {payload : Option Ptr} {paylen prio : ℕ} {timeout : UInt16}
    {e : Sent cfg}
    (h : IsReplyMq (some k) c.mq cmd data topic payload paylen prio timeout e)
    (ht : timeout = c.replyTimeout ∨ timeout = c'.replyTimeout) : e.wait ≤ limit c c' := by
  rw [h.wait_eq, limit]
  split
  · exact le_rfl
  · rcases ht with rfl | rfl
    · exact le_max_left _ _
    · exact le_max_right _ _

/-- What handling a request sends to a slot. -/
theorem SlotStep.within {s : Broker cfg} {msg : PsmqMsg cfg} {prio : ℕ} {k : Slot cfg}
    {tr : Trace cfg} {c' : Client} (h : SlotStep s msg prio k tr c') :
    Within (limit (s.clients k) c') (sendsTo k tr) := by
  -- A single reply, sent for the slot.
  have hone : ∀ {e : Sent cfg}, OnlyTo k tr → sends tr = [e] → e.wait ≤ limit (s.clients k) c' →
      Within (limit (s.clients k) c') (sendsTo k tr) := fun honly hs he => by
    rw [honly.sendsTo_self, hs]
    exact within_singleton he
  cases h with
  | idle hs => exact hs ▸ within_nil
  | opened _ _ he _ hs | noReply _ _ he _ hs =>
    rw [hs]
    refine within_singleton ?_
    rw [he.wait_eq, if_neg (Option.some_ne_none _)]
    exact Nat.zero_le _
  | closed _ _ hc =>
    obtain ⟨e, he, hs, rfl⟩ := hc.spec
    exact hone hc.onlyTo hs (he.wait_le (.inl rfl))
  | subscribed _ _ _ hc =>
    have honly := hc.onlyTo
    cases hc with
    | refused _ _ he => exact hone honly rfl (he.wait_le (.inl rfl))
    | noMemory _ he => exact hone honly rfl (he.wait_le (.inl rfl))
    | added _ he => exact hone honly rfl (he.wait_le (.inl rfl))
  | unsubscribed _ _ _ hc =>
    have honly := hc.onlyTo
    cases hc with
    | absent _ he => exact hone honly rfl (he.wait_le (.inl rfl))
    | removed _ he => exact hone honly rfl (he.wait_le (.inl rfl))
  | served _ _ _ hs hc =>
    rw [hs]
    refine ⟨hc.length_le.trans (Nat.succ_le_succ (patience_le _)), fun e he => ?_⟩
    rw [hc.wait_eq he, limit]
    split
    · exact le_rfl
    · exact le_max_left _ _
  | ioctl _ _ _ hc =>
    have honly := hc.onlyTo
    cases hc with
    | noRequest _ he => exact hone honly rfl (he.wait_le (.inl rfl))
    | badData _ _ _ _ he => exact hone honly rfl (he.wait_le (.inl rfl))
    | @set _ timeout _ _ _ he =>
      have hreply : IsReplyMq (some k) (s.clients k).mq _ _ _ _ _ _ timeout _ := he
      exact hone honly rfl (hreply.wait_le (.inr rfl))
    | badRequest _ _ he => exact hone honly rfl (he.wait_le (.inl rfl))

/-! ## All the slots -/

/-- The attempts to send are those to each of the slots, and those for none. -/
theorem sum_slots (f : Sent cfg → ℕ) (es : List (Sent cfg)) :
    (es.map f).sum = ((es.filter fun e => e.slot = none).map f).sum +
      ∑ k, ((es.filter fun e => e.slot = some k).map f).sum := by
  induction es with
  | nil => simp
  | cons e es ih =>
    rw [List.map_cons, List.sum_cons, ih]
    -- The attempt is counted once.
    have hcons : ∀ o : Option (Slot cfg), (((e :: es).filter fun e => e.slot = o).map f).sum =
        (if e.slot = o then f e else 0) + ((es.filter fun e => e.slot = o).map f).sum := by
      intro o
      by_cases ho : e.slot = o <;> simp [ho]
    simp only [hcons, Finset.sum_add_distrib]
    cases e.slot with
    | none => simp [add_assoc]
    | some k => simp [add_left_comm]

/-- What is sent for no slot is the refusal of a client, that is not waited for. -/
theorem Handle.wait_eq_zero {s s' : Broker cfg} {msg : PsmqMsg cfg} {prio : ℕ} {tr : Trace cfg}
    (h : Handle s msg prio tr s') {e : Sent cfg} (he : e ∈ sends tr) (hslot : e.slot = none) :
    e.wait = 0 := by
  have honly : ∀ {k tr'}, OnlyTo k tr' → e ∈ sends tr' → e.wait = 0 := fun ho hmem =>
    absurd ((ho e hmem).symm.trans hslot) (Option.some_ne_none _)
  cases h with
  | opening _ h =>
    cases h with
    | noQueue => exact absurd he List.not_mem_nil
    | noSlot _ _ hr =>
      obtain rfl := List.mem_singleton.1 he
      rw [hr.wait_eq, if_neg (Option.some_ne_none _)]
      rfl
    | opened _ _ _ hr => exact honly (onlyTo_event hr.slot_eq) he
    | noReply _ _ _ hr =>
      obtain rfl := List.mem_singleton.1 he
      exact absurd (hr.slot_eq.symm.trans hslot) (Option.some_ne_none _)
  | closing _ _ h => exact honly h.onlyTo he
  | subscribing _ _ _ h => exact honly h.onlyTo he
  | unsubscribing _ _ _ h => exact honly h.onlyTo he
  | publishing _ _ h =>
    obtain ⟨k, c, tr', c', hc, hmem⟩ := h.exists_of_mem he
    exact honly hc.onlyTo hmem
  | ioctl _ _ _ h => exact honly h.onlyTo he
  | unknown => exact absurd he List.not_mem_nil

theorem sum_wait_eq_zero {es : List (Sent cfg)} (h : ∀ e ∈ es, e.slot = none → e.wait = 0) :
    ((es.filter fun e => e.slot = none).map Sent.wait).sum = 0 :=
  List.sum_eq_zero fun w hw => by
    obtain ⟨e, he, rfl⟩ := List.mem_map.1 hw
    obtain ⟨hmem, hslot⟩ := List.mem_filter.1 he
    exact h e hmem (of_decide_eq_true hslot)

/-- The time some attempts take is bounded slot by slot. -/
theorem sum_wait_le {tr : Trace cfg} {limit : Slot cfg → ℕ}
    (hnone : ∀ e ∈ sends tr, e.slot = none → e.wait = 0)
    (hslot : ∀ k, Within (limit k) (sendsTo k tr)) :
    ((sends tr).map Sent.wait).sum ≤ 12 * ∑ k, limit k := by
  rw [sum_slots, sum_wait_eq_zero hnone, zero_add, Finset.mul_sum]
  exact Finset.sum_le_sum fun k _ => (hslot k).sum_le

/-! ## Steps -/

section Prompt

variable {pc : PsmqdCfg} {s : Broker cfg}

theorem Op.ofHandler.prompt {copy : PsmqMsg cfg → Prop} {o : Op cfg} (h : o.ofHandler copy) :
    o.Prompt := by
  cases o with
  | mqTimedreceive mq ms =>
    obtain rfl : ms = 0 := h
    exact ite_self _
  | mqTimedsend => trivial
  | mqOpen | mqClose | malloc => rfl
  | _ => exact h.elim

theorem only_cleanupClients {fds : List (Slot cfg)} :
    (cleanupClients fds s).Only (Op.ofHandler fun _ => True) := by
  induction fds generalizing s with
  | nil => trivial
  | cons fd fds ih => exact .ite ih (only_brokerClose.bind fun _ => ih)

theorem only_brokerCleanup : (brokerCleanup pc s).Only Op.Prompt :=
  (only_cleanupClients.mono fun _ => Op.ofHandler.prompt).bind fun _ =>
    only_perform_bind rfl fun _ => only_perform_bind rfl fun _ => trivial

theorem only_brokerOpenCtrl {tries : ℕ} : (brokerOpenCtrl pc tries : P cfg _).Only Op.Prompt := by
  induction tries with
  | zero => trivial
  | succ tries ih =>
    refine only_perform_bind rfl fun r => ?_
    cases r with
    | ok mq => trivial
    | error e => exact ih

theorem only_brokerInit : (brokerInit pc s).Only Op.Prompt := by
  have hopen : ∀ s' : Broker cfg, (brokerOpenCtrl pc 10 >>= fun qctrl =>
      if qctrl = none then return ({ s' with qctrl := qctrl }, (-1 : ℤ))
      else return ({ s' with qctrl := qctrl }, 0) : P cfg _).Only Op.Prompt := fun s' =>
    only_brokerOpenCtrl.bind fun _ => .ite trivial trivial
  exact .ite (only_perform_bind rfl fun _ => hopen _) (hopen _)

end Prompt

section Step

variable {pc : PsmqdCfg} {s s' : Broker cfg} {l : BrokerLabel cfg}

theorem prompt_of_step (h : BrokerStep pc s l s') : ∀ e ∈ l.trace, e.1.Prompt := by
  cases h with
  | request _ _ h => exact fun e he => (only_handler.exec h e he).prompt
  | restart h₁ h₂ =>
    exact fun e he => (List.mem_append.1 he).elim (only_brokerCleanup.exec h₁ e)
      (only_brokerInit.exec h₂ e)

theorem within_of_step (h : BrokerStep pc s l s') (k : Slot cfg) :
    Within (limit (s.clients k) (s'.clients k)) (sendsTo k l.trace) := by
  cases l with
  | request bytes prio tr => exact (step_request_slot h k).within
  | restart tr =>
    rcases step_restart_slot h k with ⟨-, e, he, hk, -⟩ | ⟨-, hk, -⟩
    · exact (congrArg _ hk).mpr (within_singleton (he.wait_le (.inl rfl)))
    · exact (congrArg _ hk).mpr within_nil

theorem wait_eq_zero_of_step (h : BrokerStep pc s l s') {e : Sent cfg} (he : e ∈ sends l.trace)
    (hslot : e.slot = none) : e.wait = 0 := by
  cases h with
  | request _ _ h =>
    rcases exec_brokerStart h with _ | ⟨-, hh⟩
    · exact absurd he List.not_mem_nil
    · exact hh.wait_eq_zero he hslot
  | @restart tr₁ tr₂ x y h₁ h₂ =>
    obtain ⟨tr', hc, hs⟩ := exec_brokerCleanup h₁
    have hmem : e ∈ sends tr' := by
      rwa [BrokerLabel.trace, sends_append, hs, (exec_brokerInit h₂).2, List.append_nil] at he
    obtain ⟨k, c, tr₀, c', hclose, hmem⟩ := hc.exists_of_mem hmem
    exact absurd ((hclose.onlyTo e hmem).symm.trans hslot) (Option.some_ne_none _)

/-- A step waits for the clients of the open slots. -/
theorem step_waited_le (h : BrokerStep pc s l s') :
    waited l.trace ≤ (12 * ∑ k, limit (s.clients k) (s'.clients k) : ℕ) := by
  rw [waited_of_prompt (prompt_of_step h), Nat.cast_le]
  exact sum_wait_le (fun e he => wait_eq_zero_of_step h he) (within_of_step h)

/-! ## Runs -/

/-- A message asks for a timeout of at most `T` milliseconds, if it asks for one. -/
def Asks (cfg : Config) (T : ℕ) (bytes : List UInt8) : Prop :=
  (received cfg bytes).ctrl.cmd = cmdIoctl →
    ∀ timeout ∈ loadU16 cfg.bigEndian ((received cfg bytes).data.bytes.drop 1), timeout.toNat ≤ T

instance (T : ℕ) (bytes : List UInt8) : Decidable (Asks cfg T bytes) :=
  @instDecidableForall _ _ _ (Option.decidableForallMem _)

/-- The timeouts are changed by ioctl requests only. -/
theorem SlotStep.replyTimeout_le {msg : PsmqMsg cfg} {prio : ℕ} {k : Slot cfg} {tr : Trace cfg}
    {c' : Client} {T : ℕ} (h : SlotStep s msg prio k tr c')
    (hT : (s.clients k).replyTimeout.toNat ≤ T)
    (hask : msg.ctrl.cmd = cmdIoctl →
      ∀ timeout ∈ loadU16 cfg.bigEndian (msg.data.bytes.drop 1), timeout.toNat ≤ T) :
    c'.replyTimeout.toNat ≤ T := by
  cases h with
  | idle | opened | noReply => exact hT
  | closed _ _ hc =>
    obtain ⟨e, -, -, rfl⟩ := hc.spec
    exact hT
  | subscribed _ _ _ hc => cases hc <;> exact hT
  | unsubscribed _ _ _ hc => cases hc <;> exact hT
  | served _ _ _ _ hc =>
    rcases hc.spec with ⟨hc, -⟩ | ⟨es, e, -, -, -, rfl⟩
    · rw [hc]
      exact hT
    · exact hT
  | ioctl hcmd _ _ hc =>
    cases hc with
    | set _ _ ht => exact hask hcmd _ ht
    | _ => exact hT

theorem step_replyTimeout_le {T : ℕ} (h : BrokerStep pc s l s')
    (hT : ∀ k, (s.clients k).replyTimeout.toNat ≤ T)
    (hask : ∀ bytes prio tr, l = .request bytes prio tr → Asks cfg T bytes) (k : Slot cfg) :
    (s'.clients k).replyTimeout.toNat ≤ T := by
  cases l with
  | request bytes prio tr =>
    exact (step_request_slot h k).replyTimeout_le (hT k) (hask bytes prio tr rfl)
  | restart tr =>
    rcases step_restart_slot h k with ⟨-, e, -, -, hc⟩ | ⟨-, -, hc⟩ <;>
    · rw [hc]
      exact hT k

end Step

theorem limit_le {c c' : Client} {T : ℕ} (h : c.replyTimeout.toNat ≤ T)
    (h' : c'.replyTimeout.toNat ≤ T) : limit c c' ≤ T := by
  rw [limit]
  split
  · exact Nat.zero_le _
  · exact max_le h h'

/-- While no client asks for a timeout of more than `T` milliseconds, the broker
    never waits without a limit, and a message that comes after some others on its
    control queue is handled after it has waited at most `12 * T` milliseconds for
    each slot and each of them. -/
theorem waiting_bounded {pc : PsmqdCfg} {T : ℕ} {s s' : Broker cfg} {ls : List (BrokerLabel cfg)}
    (hrun : (brokerLts cfg pc).Run s ls s') (hT : ∀ k, (s.clients k).replyTimeout.toNat ≤ T)
    (hask : ∀ bytes prio tr, .request bytes prio tr ∈ ls → Asks cfg T bytes) :
    waited (ls.flatMap BrokerLabel.trace) ≤ (ls.length * (12 * (cfg.maxClients * T)) : ℕ) := by
  induction hrun with
  | nil s => simp [waited]
  | @cons s s₁ s₂ l ls hst _ ih =>
    have hT₁ := step_replyTimeout_le hst hT fun bytes prio tr hl =>
      hask bytes prio tr (hl ▸ List.mem_cons_self)
    have hstep : waited l.trace ≤ (12 * (cfg.maxClients * T) : ℕ) := by
      refine (step_waited_le hst).trans (Nat.cast_le.2 (Nat.mul_le_mul_left _ ?_))
      have hsum := Finset.sum_le_card_nsmul Finset.univ
        (fun k => limit (s.clients k) (s₁.clients k)) T fun k _ => limit_le (hT k) (hT₁ k)
      rwa [Finset.card_univ, Fintype.card_fin, smul_eq_mul] at hsum
    have hrest := ih hT₁ fun bytes prio tr hl => hask bytes prio tr (List.mem_cons_of_mem _ hl)
    rw [List.flatMap_cons, waited_append, List.length_cons, Nat.succ_mul, Nat.cast_add, add_comm]
    exact add_le_add hrest hstep

/-- A client asks for 200 milliseconds, and subscribes to `/a`: none of the replies
    reaches it, nor what is published there. -/
theorem waiting_bounded_slow : ∃ (s : Broker smallest) (ls : List (BrokerLabel smallest)),
    (brokerLts smallest psmqdCfgInit).Run (started smallest) ls s ∧
    ((sends (ls.flatMap BrokerLabel.trace)).map Sent.wait).sum = 600 ∧
    waited (ls.flatMap BrokerLabel.trace) ≤
      (ls.length * (12 * (smallest.maxClients * 200)) : ℕ) := by
  obtain ⟨s₁, ls₁, s₂, ls₂, h₁, h₂, hwait⟩ : ∃ s₁ ls₁ s₂ ls₂,
      feedRun (answers smallest true) [([111, 0, 0, 0, 47, 99, 0], 0)] (started smallest) =
        some (ls₁, s₁) ∧
      feedRun (answers smallest false) [([105, 0, 3, 0, 1, 200, 0], 0),
        ([115, 0, 0, 0, 47, 97, 0], 0), ([112, 0, 0, 0, 47, 97, 0], 0)] s₁ = some (ls₂, s₂) ∧
      ((sends ((ls₁ ++ ls₂).flatMap BrokerLabel.trace)).map Sent.wait).sum = 600 :=
    ⟨_, _, _, _, rfl, rfl, by decide⟩
  obtain ⟨hrun₁, hq⟩ : (brokerLts smallest psmqdCfgInit).Run _ _ _ ∧ _ :=
    run_of_feedRun h₁ (by decide)
  have hasks : ∀ m ∈ [(([111, 0, 0, 0, 47, 99, 0] : List UInt8), 0), ([105, 0, 3, 0, 1, 200, 0], 0),
      ([115, 0, 0, 0, 47, 97, 0], 0), ([112, 0, 0, 0, 47, 97, 0], 0)],
      Asks smallest 200 m.1 := by decide
  have hrun := hrun₁.append (run_of_feedRun h₂ hq).1
  refine ⟨s₂, ls₁ ++ ls₂, hrun, hwait, waiting_bounded hrun (fun _ => Nat.zero_le _) ?_⟩
  intro bytes prio tr hl
  have hmem : (bytes, prio) ∈ [(([111, 0, 0, 0, 47, 99, 0] : List UInt8), 0),
      ([105, 0, 3, 0, 1, 200, 0], 0), ([115, 0, 0, 0, 47, 97, 0], 0),
      ([112, 0, 0, 0, 47, 97, 0], 0)] := by
    rcases List.mem_append.1 hl with hl | hl
    · obtain ⟨b, p, tr', hmsg, he⟩ := mem_of_feedRun h₁ hl
      injection he with hb hp
      rw [hb, hp]
      exact List.mem_append_left _ hmsg
    · obtain ⟨b, p, tr', hmsg, he⟩ := mem_of_feedRun h₂ hl
      injection he with hb hp
      rw [hb, hp]
      exact List.mem_append_right [_] hmsg
  exact hasks _ hmem

end Psmq
