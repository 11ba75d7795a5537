import Psmq.Broker.Run

/-!
# Evictions

What a publish does to the clients that it cannot be sent to, call by call. A
client is evicted when an attempt to send it the message fails and leaves its
counter at the limit (`Overruns`), and only then. Its eviction is the last
thing done for it, in three calls that follow one another: a message is
received from its queue, to make room, the close message is sent, and the queue
is closed (`Serve.calls`).

The calls made for a client are made in one go, on its queue
(`Sweep.split`): a publish is, for every slot, nothing but the attempts to send
to its client, which are counted, and its eviction (`exec_publish_swept`).
-/

namespace Psmq

open CMem Prog

variable {cfg : Config}

/-! ## The counter -/

/-- The client after some attempts to send to it. -/
def Client.after (c : Client) (es : List (Sent cfg)) : Client :=
  es.foldl (fun c e => c.sent e.ok) c

@[simp] theorem Client.after_nil (c : Client) : c.after ([] : List (Sent cfg)) = c := rfl

@[simp] theorem Client.after_cons (c : Client) (e : Sent cfg) (es : List (Sent cfg)) :
    c.after (e :: es) = (c.sent e.ok).after es := rfl

@[simp] theorem Client.after_mq (c : Client) (es : List (Sent cfg)) : (c.after es).mq = c.mq := by
  induction es generalizing c with
  | nil => rfl
  | cons e es ih => rw [after_cons, ih, sent_mq]

/-- An attempt to send a published message to the client fails, and leaves its
    counter at the limit. -/
def Overruns (c : Client) (es : List (Sent cfg)) : Prop :=
  ∃ es₁ e es₂, es = es₁ ++ e :: es₂ ∧ e.msg.ctrl.cmd = cmdPublish ∧ e.ok = false ∧
    maxMissedPubs ≤ (c.after (es₁ ++ [e])).missedPubs

theorem not_overruns_nil (c : Client) : ¬Overruns c ([] : List (Sent cfg)) := by
  rintro ⟨es₁, e, es₂, h, -⟩
  simp at h

theorem overruns_cons_iff {c : Client} {e : Sent cfg} {es : List (Sent cfg)} :
    Overruns c (e :: es) ↔
      (e.msg.ctrl.cmd = cmdPublish ∧ e.ok = false ∧ maxMissedPubs ≤ (c.sent e.ok).missedPubs) ∨
      Overruns (c.sent e.ok) es := by
  constructor
  · rintro ⟨es₁, e', es₂, h, hcmd, hko, hmax⟩
    cases es₁ with
    | nil =>
      obtain ⟨rfl, rfl⟩ := List.cons.inj h
      exact .inl ⟨hcmd, hko, hmax⟩
    | cons e₁ es₁ =>
      obtain ⟨rfl, rfl⟩ := List.cons.inj h
      exact .inr ⟨es₁, e', es₂, rfl, hcmd, hko, hmax⟩
  · rintro (⟨hcmd, hko, hmax⟩ | ⟨es₁, e', es₂, rfl, hcmd, hko, hmax⟩)
    · exact ⟨[], e, es, rfl, hcmd, hko, hmax⟩
    · exact ⟨e :: es₁, e', es₂, rfl, hcmd, hko, hmax⟩

theorem Overruns.append {c : Client} {es : List (Sent cfg)} (h : Overruns c es)
    (es' : List (Sent cfg)) : Overruns c (es ++ es') := by
  obtain ⟨es₁, e, es₂, rfl, h⟩ := h
  exact ⟨es₁, e, es₂ ++ es', by simp, h⟩

theorem mem_sends {tr : Trace cfg} {e : Sent cfg} : e ∈ sends tr ↔ e.event ∈ tr := by
  rw [sends, List.mem_filterMap]
  constructor
  · rintro ⟨⟨o, r⟩, he, hsent⟩
    cases o with
    | mqTimedsend => exact Option.some.inj hsent ▸ he
    | _ => exact nomatch hsent
  · exact fun he => ⟨e.event, he, rfl⟩

@[simp] theorem sends_map_event (es : List (Sent cfg)) : sends (es.map Sent.event) = es := by
  induction es with
  | nil => rfl
  | cons e es ih => rw [List.map_cons, sends_event, ih]

/-! ## Serving a client -/

/-- The descriptor a call sends to, receives from or closes. -/
def Op.target : Op cfg → Mqd
  | .mqClose mq => mq
  | .mqSend _ mq _ _ _ => mq
  | .mqTimedsend _ mq _ _ _ _ => mq
  | .mqReceive mq => mq
  | .mqTimedreceive mq _ => mq
  | _ => none

@[simp] theorem Sent.target_event (e : Sent cfg) : e.event.1.target = e.mq := rfl

section Serve

variable {topic : CString} {payload : Ptr} {paylen prio : ℕ} {fd : Slot cfg}
  {nodes : List CString} {c c' : Client} {tr : Trace cfg}

/-- Serving a client is attempts to send to it, which are counted, and, if one
    is one too many, its eviction, after it. -/
theorem Serve.calls (h : Serve topic payload paylen prio fd nodes c tr c') :
    (c' = c.after (sends tr) ∧ ¬Overruns c (sends tr)) ∨
    ∃ es x f r, tr = es.map Sent.event ++
        [⟨.mqTimedreceive c.mq 0, x⟩, f.event, ⟨.mqClose c.mq, r⟩] ∧
      (∀ e ∈ es, e.ok = false) ∧ Overruns c es ∧
      IsReply fd (c.after es) cmdClose 0 none none 0 0 f ∧ c' = (c.after es).closed f.ok := by
  induction h with
  | done => exact .inl ⟨rfl, not_overruns_nil _⟩
  | skip _ _ ih => exact ih
  | @sent _ _ c e _ _ hok =>
    refine .inl ⟨by rw [sends_event, Client.after_cons, hok]; rfl, ?_⟩
    rw [sends_event, overruns_cons_iff, sends_nil, hok]
    rintro (⟨-, h, -⟩ | h)
    · exact nomatch h
    · exact not_overruns_nil _ h
  | @missed _ _ c _ e tr _ _ hko hlt _ ih =>
    -- The attempt is counted, and the others follow.
    rcases ih with ⟨hc, hno⟩ | ⟨es, x, f, r, rfl, hes, hover, hf, hc⟩
    · refine .inl ⟨by rw [sends_event, Client.after_cons, hko, hc], ?_⟩
      rw [sends_event, overruns_cons_iff, hko]
      rintro (⟨-, -, h⟩ | h)
      · exact hlt h
      · exact hno h
    · refine .inr ⟨e :: es, x, f, r, rfl, ?_, ?_, ?_, ?_⟩
      · exact List.forall_mem_cons.2 ⟨hko, hes⟩
      · exact overruns_cons_iff.2 (.inr (by rwa [hko]))
      · rwa [Client.after_cons, hko]
      · rwa [Client.after_cons, hko]
  | @evicted _ _ c _ e _ x _ he hko hmax hclose =>
    cases hclose with
    | @intro f r hf =>
      refine .inr ⟨[e], x, f, r, rfl, ?_, overruns_cons_iff.2 (.inl ?_), ?_, ?_⟩
      · exact List.forall_mem_singleton.2 hko
      · rw [hko]
        exact ⟨congrArg Ctrl.cmd he.cmd_eq, rfl, hmax⟩
      · rwa [Client.after_cons, hko]
      · rw [Client.after_cons, hko, Client.after_nil]

/-- A client is served on its queue. -/
theorem Serve.target (h : Serve topic payload paylen prio fd nodes c tr c')
    {e : Event (Op cfg) Op.Res} (he : e ∈ tr) : e.1.target = c.mq := by
  induction h with
  | done => exact absurd he List.not_mem_nil
  | skip _ _ ih => exact ih he
  | sent _ hr =>
    obtain rfl := List.mem_singleton.1 he
    exact hr.mq_eq
  | missed _ hr _ _ _ ih =>
    rcases List.mem_cons.1 he with rfl | he
    · exact hr.mq_eq
    · exact ih he
  | evicted _ hr _ _ hc =>
    cases hc with
    | intro hf =>
      simp only [List.mem_cons, List.not_mem_nil, or_false] at he
      rcases he with rfl | rfl | rfl | rfl
      · exact hr.mq_eq
      · rfl
      · exact hf.mq_eq
      · rfl

end Serve

/-! ## Going through the slots -/

section Sweep

variable {R : Slot cfg → Client → Trace cfg → Client → Prop} {fds : List (Slot cfg)}
  {s s' : Broker cfg} {tr : Trace cfg} {j k fd : Slot cfg} {e : Event (Op cfg) Op.Res}

/-- The call `e` is one of those made for the client in the slot `j`. -/
def CallFor (R : Slot cfg → Client → Trace cfg → Client → Prop) (s : Broker cfg) (j : Slot cfg)
    (e : Event (Op cfg) Op.Res) : Prop :=
  s.IsOpen j ∧ ∃ tr c, R j (s.clients j) tr c ∧ e ∈ tr

theorem callFor_set_iff (hj : j ≠ fd) {c : Client} :
    CallFor R (s.set fd c) j e ↔ CallFor R s j e := by
  rw [CallFor, CallFor, Broker.IsOpen, Broker.IsOpen, Broker.set_clients_of_ne _ hj]

theorem Sweep.clients_eq (h : Sweep R fds s tr s') (hk : k ∉ fds) : s'.clients k = s.clients k := by
  induction h with
  | done => rfl
  | free _ _ ih => exact ih fun h => hk (List.mem_cons_of_mem _ h)
  | visit _ _ _ ih =>
    rw [List.mem_cons, not_or] at hk
    rw [ih hk.2, Broker.set_clients_of_ne _ hk.1]

/-- A call is made for one of the clients. -/
theorem Sweep.exists_callFor (h : Sweep R fds s tr s') (hnd : fds.Nodup) (he : e ∈ tr) :
    ∃ j ∈ fds, CallFor R s j e := by
  induction h with
  | done => exact absurd he List.not_mem_nil
  | free _ _ ih =>
    obtain ⟨j, hj, h⟩ := ih (List.nodup_cons.1 hnd).2 he
    exact ⟨j, List.mem_cons_of_mem _ hj, h⟩
  | @visit fd _ _ _ c _ _ hfd hc _ ih =>
    rw [List.nodup_cons] at hnd
    rcases List.mem_append.1 he with he | he
    · exact ⟨fd, List.mem_cons_self, hfd, _, c, hc, he⟩
    · obtain ⟨j, hj, h⟩ := ih hnd.2 he
      exact ⟨j, List.mem_cons_of_mem _ hj, (callFor_set_iff (ne_of_mem_of_not_mem hj hnd.1)).1 h⟩

/-- The calls for a client are made in one go, among those for the others. -/
theorem Sweep.split (h : Sweep R fds s tr s') (hnd : fds.Nodup) (hk : k ∈ fds)
    (ho : s.IsOpen k) : ∃ tr₁ tr' tr₂, tr = tr₁ ++ tr' ++ tr₂ ∧
      R k (s.clients k) tr' (s'.clients k) ∧
      ∀ e ∈ tr₁ ++ tr₂, ∃ j ∈ fds, j ≠ k ∧ CallFor R s j e := by
  induction h with
  | done => exact absurd hk List.not_mem_nil
  | @free fd _ _ _ _ hfd _ ih =>
    rcases List.mem_cons.1 hk with rfl | hk
    · exact absurd ho hfd
    · obtain ⟨tr₁, tr', tr₂, htr, hR, hothers⟩ := ih (List.nodup_cons.1 hnd).2 hk ho
      exact ⟨tr₁, tr', tr₂, htr, hR, fun e he =>
        (hothers e he).imp fun _ h => ⟨List.mem_cons_of_mem _ h.1, h.2⟩⟩
  | @visit fd fds s s' c tr₁ tr₂ hfd hc hrest ih =>
    rw [List.nodup_cons] at hnd
    have hne {j : Slot cfg} (hj : j ∈ fds) : j ≠ fd := ne_of_mem_of_not_mem hj hnd.1
    by_cases hkfd : k = fd
    · subst hkfd
      refine ⟨[], tr₁, tr₂, rfl, ?_, fun e he => ?_⟩
      · rwa [hrest.clients_eq hnd.1, Broker.set_clients_self]
      · obtain ⟨j, hj, h⟩ := hrest.exists_callFor hnd.2 he
        exact ⟨j, List.mem_cons_of_mem _ hj, hne hj, (callFor_set_iff (hne hj)).1 h⟩
    · have hset : (s.set fd c).clients k = s.clients k := Broker.set_clients_of_ne _ hkfd _
      have ho' : (s.set fd c).IsOpen k := by rwa [Broker.IsOpen, hset]
      obtain ⟨tr₃, tr', tr₄, rfl, hR, hothers⟩ :=
        ih hnd.2 ((List.mem_cons.1 hk).resolve_left hkfd) ho'
      refine ⟨tr₁ ++ tr₃, tr', tr₄, by simp, hset ▸ hR, fun e he => ?_⟩
      rw [List.append_assoc] at he
      rcases List.mem_append.1 he with he | he
      · exact ⟨fd, List.mem_cons_self, Ne.symm hkfd, hfd, tr₁, c, hc, he⟩
      · obtain ⟨j, hj, hjk, h⟩ := hothers e he
        exact ⟨j, List.mem_cons_of_mem _ hj, hjk, (callFor_set_iff (hne hj)).1 h⟩

/-- What is sent for the other clients is not sent to this one. -/
theorem sendsTo_eq_nil (honly : ∀ {fd c tr c'}, R fd c tr c' → OnlyTo fd tr)
    (hothers : ∀ e ∈ tr, ∃ j ∈ fds, j ≠ k ∧ CallFor R s j e) : sendsTo k tr = [] := by
  refine List.filter_eq_nil_iff.2 fun e he => ?_
  obtain ⟨j, -, hjk, -, tr', c, hR, he'⟩ := hothers e.event (mem_sends.1 he)
  simpa [honly hR e (mem_sends.2 he')] using hjk

end Sweep

/-! ## Publishing -/

/-- The slot `k` is taken from its client. -/
def Freed (s s' : Broker cfg) (k : Slot cfg) : Prop := s.IsOpen k ∧ ¬s'.IsOpen k

instance (s s' : Broker cfg) (k : Slot cfg) : Decidable (Freed s s' k) :=
  inferInstanceAs (Decidable (_ ∧ _))

/-- What a publish does to a slot: the attempts to send to its client are
    counted, and none is one too many; or its client is evicted, by calls that
    follow one another, and no other one is made on its queue. -/
inductive Swept (s : Broker cfg) (k : Slot cfg) (tr : Trace cfg) : Client → Prop
  | kept : ¬Overruns (s.clients k) (sendsTo k tr) →
      Swept s k tr ((s.clients k).after (sendsTo k tr))
  | evicted {es : List (Sent cfg)} {x : Except Errno (List UInt8 × ℕ)} {f : Sent cfg}
      {r : Option Errno} {tr₁ tr₂ : Trace cfg} : s.IsOpen k →
      tr = tr₁ ++ es.map Sent.event ++ [⟨.mqTimedreceive (s.clients k).mq 0, x⟩, f.event,
        ⟨.mqClose (s.clients k).mq, r⟩] ++ tr₂ →
      (∀ e ∈ es, e.ok = false) → Overruns (s.clients k) (sendsTo k tr) →
      IsReply k ((s.clients k).after es) cmdClose 0 none none 0 0 f →
      (∀ e ∈ tr₁ ++ tr₂, ∃ j, j ≠ k ∧ s.IsOpen j ∧ e.1.target = (s.clients j).mq) →
      Swept s k tr (((s.clients k).after es).closed f.ok)

theorem exec_publish_swept {s s' : Broker cfg} {bytes : List UInt8} {prio : ℕ} {tr : Trace cfg}
    (h : Exec (brokerStart s bytes prio) tr s')
    (hcmd : (received cfg bytes).ctrl.cmd = cmdPublish) (k : Slot cfg) :
    Swept s k tr (s'.clients k) := by
  have hkept (hsends : sendsTo k tr = []) (hc : s'.clients k = s.clients k) :
      Swept s k tr (s'.clients k) := by
    have hkept : Swept s k tr ((s.clients k).after (sendsTo k tr)) :=
      .kept (by rw [hsends]; exact not_overruns_nil _)
    rwa [hsends, Client.after_nil, ← hc] at hkept
  rcases exec_brokerStart h with _ | ⟨-, hh⟩
  · exact hkept rfl rfl
  obtain ⟨topic, -, hall⟩ := hh.of_cmd.2.2.2.2.1 hcmd
  by_cases ho : s.IsOpen k
  · obtain ⟨tr₁, tr', tr₂, rfl, hserve, hothers⟩ :=
      hall.split (List.nodup_finRange _) (List.mem_finRange k) ho
    rw [List.forall_mem_append] at hothers
    have hsends : sendsTo k (tr₁ ++ tr' ++ tr₂) = sends tr' := by
      rw [sendsTo_append, sendsTo_append, sendsTo_eq_nil Serve.onlyTo hothers.1,
        sendsTo_eq_nil Serve.onlyTo hothers.2, hserve.onlyTo.sendsTo_self, List.nil_append,
        List.append_nil]
    rcases hserve.calls with ⟨hc, hno⟩ | ⟨es, x, f, r, rfl, hes, hover, hf, hc⟩
    · rw [hc, ← hsends]
      exact .kept (hsends ▸ hno)
    · rw [hc]
      refine .evicted ho (by rw [← List.append_assoc]) hes ?_ hf fun e he => ?_
      · rw [hsends, sends_append, sends_map_event]
        exact hover.append _
      · obtain ⟨j, -, hjk, hj, tr'', c, hR, he'⟩ := List.forall_mem_append.2 hothers e he
        exact ⟨j, hjk, hj, hR.target he'⟩
  · rcases hall.slot Serve.onlyTo (List.nodup_finRange _) k with ⟨-, ho', -⟩ | ⟨-, hs, hc⟩
    · exact absurd ho' ho
    · exact hkept hs hc

section Swept

variable {s s' : Broker cfg} {k : Slot cfg} {tr : Trace cfg}

/-- A client is evicted exactly when an attempt is one too many. -/
theorem Swept.freed_iff (h : Swept s k tr (s'.clients k)) :
    Freed s s' k ↔ s.IsOpen k ∧ Overruns (s.clients k) (sendsTo k tr) := by
  rw [Freed, and_congr_right_iff]
  intro ho
  generalize hc : s'.clients k = c at h
  rw [Broker.IsOpen, hc]
  cases h with
  | kept hno => exact iff_of_false (not_not.2 (by rwa [Client.after_mq])) hno
  | evicted _ _ _ hover => exact iff_of_true (not_not.2 rfl) hover

/-- A client that is not evicted only has the attempts to send to it counted. -/
theorem Swept.eq_after (h : Swept s k tr (s'.clients k)) (hno : ¬Freed s s' k) :
    s'.clients k = (s.clients k).after (sendsTo k tr) := by
  rw [Freed, Broker.IsOpen, Broker.IsOpen, not_and, not_not] at hno
  generalize s'.clients k = c at h hno
  cases h with
  | kept => rfl
  | evicted ho => exact absurd rfl (hno ho)

end Swept

end Psmq
