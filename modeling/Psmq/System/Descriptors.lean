import Psmq.System.Accounts

/-!
# The descriptors of the broker

What the broker does with its descriptors, whatever becomes of its calls. It
holds them in places (`Held`), and moves one from a place to another with what
it sends: an offer that is delivered puts the descriptor it has opened in a
slot, and a close takes the one of a slot out of it, before it is closed.

All the jobs of the broker follow this protocol (`Job.follows`), and between
two jobs the slots in its memory have the descriptors held in their places
(`Broker.Keeps`). As long as it is not stopped, the descriptors it holds are
open, each in one place (`Held.Sound`).
-/

namespace Psmq

open CMem Prog

variable {cfg : Config}

/-! ## The protocol -/

/-- Where the broker holds a descriptor: the control queue, a slot, one that is
    open and in no slot yet, and one that is to be closed. -/
inductive Place (cfg : Config)
  | ctrl
  | slot (k : Slot cfg)
  | spare
  | leaving
  deriving DecidableEq

/-- The descriptors the broker holds, and the clients that have been sent the
    message it is publishing. -/
structure Held (cfg : Config) where
  mq : Place cfg → Mqd
  served : Slot cfg → Bool

namespace Held

/-- The broker holds nothing. -/
def init : Held cfg := ⟨fun _ => none, fun _ => false⟩

/-- Changing the descriptor in a place. -/
def set (h : Held cfg) (a : Place cfg) (mq : Mqd) : Held cfg :=
  { h with mq := Function.update h.mq a mq }

/-- Moving a descriptor to another place. -/
def move (h : Held cfg) (a b : Place cfg) : Held cfg := (h.set b (h.mq a)).set a none

/-- No client has been sent the next message. -/
def begin (h : Held cfg) : Held cfg := { h with served := fun _ => false }

/-- A client is sent the message. -/
def serve (h : Held cfg) (k : Slot cfg) : Held cfg :=
  { h with served := Function.update h.served k true }

/-- Sending a command to the client in a slot, delivered if `ok` holds. -/
def onSend (h : Held cfg) (cmd : UInt8) (ok : Bool) : Option (Slot cfg) → Held cfg
  | none => h
  | some k =>
    if cmd = cmdOpen then if ok then h.move .spare (.slot k) else h
    else if cmd = cmdClose then h.move (.slot k) .leaving
    else if cmd = cmdPublish then if ok then h.serve k else h
    else h

/-- What the broker sends while it handles `x`: the bytes `bytes`, at the
    priority `prio`. -/
inductive MaySend (h : Held cfg) (x : Item) : Option (Slot cfg) → Mqd → List UInt8 → ℕ → Prop
  /-- A slot is offered to the client that asks for one. -/
  | offer {k : Slot cfg} {bytes : List UInt8} : (received cfg bytes).ctrl.cmd = cmdOpen →
      offerOf cfg bytes = some (fdOf k) → MaySend h x (some k) (h.mq .spare) bytes 0
  /-- There is no slot for the client. -/
  | refuse {bytes : List UInt8} : (received cfg bytes).ctrl.cmd = cmdOpen →
      offerOf cfg bytes = none → MaySend h x none (h.mq .spare) bytes 0
  /-- A client is told it is closed. -/
  | close {k : Slot cfg} {bytes : List UInt8} : (received cfg bytes).ctrl.cmd = cmdClose →
      MaySend h x (some k) (h.mq (.slot k)) bytes 0
  /-- A client is sent the message published, at its priority, once. -/
  | publish {k : Slot cfg} {bytes : List UInt8} : (received cfg bytes).ctrl.cmd = cmdPublish →
      x.cmd cfg = cmdPublish → h.served k = false →
      MaySend h x (some k) (h.mq (.slot k)) bytes x.prio
  /-- A request of a client is answered. -/
  | reply {k : Slot cfg} {bytes : List UInt8} :
      (received cfg bytes).ctrl.cmd ∉ [cmdOpen, cmdClose, cmdPublish] →
      MaySend h x (some k) (h.mq (.slot k)) bytes 0

/-- A client is only told that a connection is open by an offer. -/
theorem MaySend.of_open {h : Held cfg} {x : Item} {k : Slot cfg} {mq : Mqd} {bytes : List UInt8}
    {prio : ℕ} (hm : h.MaySend x (some k) mq bytes prio)
    (hcmd : (received cfg bytes).ctrl.cmd = cmdOpen) :
    mq = h.mq .spare ∧ offerOf cfg bytes = some (fdOf k) := by
  cases hm with
  | offer _ ho => exact ⟨rfl, ho⟩
  | close hc => exact cmd_absurd hcmd hc
  | publish hc => exact cmd_absurd hcmd hc
  | reply hc => exact absurd (by simp [hcmd]) hc

end Held

variable (pc : PsmqdCfg)

/-- The calls of the broker in a job. -/
def jobPre (h : Held cfg) : Job cfg → Op cfg → Prop
  | .start, .mqUnlink name => name = pc.brokerName
  | .start, .mqOpen name flags =>
    h.mq .ctrl = none ∧ name = pc.brokerName ∧ flags.creat = true ∧ flags.excl = true
  | .handle _ x, .mqOpen name flags =>
    flags = clientFlags ∧ x.cmd cfg = cmdOpen ∧ str (received cfg x.bytes).data.bytes = some name
  | .handle _ _, .mqClose mq => mq = h.mq .spare ∨ mq = h.mq .leaving
  | .handle _ x, .mqTimedsend slot mq msg len prio _ =>
    h.MaySend x slot mq (msg.toBytes.take len) prio
  | .handle _ _, .mqTimedreceive mq _ => ∃ k, mq = h.mq (.slot k)
  | .handle _ _, .malloc _ => True
  | .stop, .mqTimedsend slot mq msg len prio _ => ∃ k, slot = some k ∧ mq = h.mq (.slot k) ∧
      (received cfg (msg.toBytes.take len)).ctrl.cmd = cmdClose ∧ prio = 0
  | .stop, .mqClose _ => True
  | .stop, .mqUnlink name => name = pc.brokerName
  | _, _ => False

def jobNext (h : Held cfg) : Job cfg → (o : Op cfg) → Op.Res o → Held cfg
  | .start, .mqOpen _ _, .ok d => h.set .ctrl (some d)
  | .handle _ _, .mqOpen _ _, .ok d => h.set .spare (some d)
  | _, .mqClose _, _ => (h.set .spare none).set .leaving none
  | _, .mqTimedsend slot _ msg len _ _, ok =>
    h.onSend (received cfg (msg.toBytes.take len)).ctrl.cmd ok slot
  | _, _, _ => h

/-- The protocol of the broker in a job. Any result is to be expected. -/
def jobProtocol (job : Job cfg) : Protocol (Op cfg) Op.Res (Held cfg) :=
  ⟨fun h => jobPre pc h job, fun _ _ _ => True, fun h => jobNext h job⟩

/-- The slots in the memory of the broker have the descriptors held in their places. -/
def Broker.Keeps (s : Broker cfg) (h : Held cfg) : Prop :=
  s.qctrl = h.mq .ctrl ∧ ∀ k, (s.clients k).mq = h.mq (.slot k)

/-- What a job leaves, unless the broker stops. -/
def Job.Leaves : Job cfg → Broker cfg → Held cfg → Prop
  | stop => fun _ _ => True
  | _ => Broker.Keeps

/-! ## Moving descriptors -/

namespace Held

variable {h : Held cfg} {a b c : Place cfg} {mq : Mqd}

@[simp] theorem set_mq_self : (h.set a mq).mq a = mq := Function.update_self ..

theorem set_mq_of_ne (hc : c ≠ a) : (h.set a mq).mq c = h.mq c := Function.update_of_ne hc ..

theorem move_mq_from : (h.move a b).mq a = none := set_mq_self

theorem move_mq_to (hab : b ≠ a) : (h.move a b).mq b = h.mq a := by
  rw [move, set_mq_of_ne hab, set_mq_self]

theorem move_mq_of_ne (ha : c ≠ a) (hb : c ≠ b) : (h.move a b).mq c = h.mq c := by
  rw [move, set_mq_of_ne ha, set_mq_of_ne hb]

@[simp] theorem begin_mq : h.begin.mq = h.mq := rfl

@[simp] theorem serve_mq {k : Slot cfg} : (h.serve k).mq = h.mq := rfl

variable {k : Slot cfg} {ok : Bool}

theorem onSend_open :
    h.onSend cmdOpen ok (some k) = if ok then h.move .spare (.slot k) else h := rfl

theorem onSend_close : h.onSend cmdClose ok (some k) = h.move (.slot k) .leaving := rfl

theorem onSend_publish : h.onSend cmdPublish ok (some k) = if ok then h.serve k else h := rfl

theorem onSend_reply {cmd : UInt8} (hcmd : cmd ∉ [cmdOpen, cmdClose, cmdPublish]) :
    h.onSend cmd ok (some k) = h := by
  simp only [List.mem_cons, List.not_mem_nil, or_false, not_or] at hcmd
  rw [onSend, if_neg hcmd.1, if_neg hcmd.2.1, if_neg hcmd.2.2]

end Held

variable {pc} {s : Broker cfg} {h : Held cfg}

theorem jobNext_mqTimedsend {job : Job cfg} {slot : Option (Slot cfg)} {mq : Mqd}
    {msg : PsmqMsg cfg} {len prio : ℕ} {timeout : UInt16} {ok : Bool} {ctrl : Ctrl}
    (hctrl : (received cfg (msg.toBytes.take len)).ctrl = ctrl) :
    jobNext h job (.mqTimedsend slot mq msg len prio timeout) ok = h.onSend ctrl.cmd ok slot := by
  rw [← hctrl]
  cases job <;> rfl

theorem jobNext_mqClose {job : Job cfg} {mq : Mqd} {r : Option Errno} :
    jobNext h job (.mqClose mq) r = (h.set .spare none).set .leaving none := by
  cases job <;> rfl

/-- Changing something else in a slot than its queue. -/
theorem Broker.Keeps.set (hs : s.Keeps h) {k : Slot cfg} {c : Client}
    (hc : c.mq = (s.clients k).mq) : (s.set k c).Keeps h := by
  refine ⟨hs.1, fun j => ?_⟩
  by_cases hj : j = k
  · subst hj
    rw [Broker.set_clients_self, hc, hs.2]
  · rw [Broker.set_clients_of_ne _ hj, hs.2]

theorem Broker.Keeps.modify (hs : s.Keeps h) {k : Slot cfg} {f : Client → Client}
    (hf : ∀ c, (f c).mq = c.mq) : (s.modify k f).Keeps h :=
  hs.set (hf _)

/-- Changing the queue in a slot, and in its place. -/
theorem Broker.Keeps.update (hs : s.Keeps h) {h' : Held cfg} {k : Slot cfg} {c : Client}
    (hc : c.mq = h'.mq (.slot k)) (hctrl : h'.mq .ctrl = h.mq .ctrl)
    (hne : ∀ j, j ≠ k → h'.mq (.slot j) = h.mq (.slot j)) : (s.set k c).Keeps h' := by
  refine ⟨hs.1.trans hctrl.symm, fun j => ?_⟩
  by_cases hj : j = k
  · subst hj
    rw [Broker.set_clients_self, hc]
  · rw [Broker.set_clients_of_ne _ hj, hs.2, hne j hj]

/-- A publish to a client of which it is not told changes no place. -/
theorem Broker.Keeps.of_mq (hs : s.Keeps h) {h' : Held cfg} (heq : h'.mq = h.mq) : s.Keeps h' := by
  rwa [Broker.Keeps, heq]

/-! ## Requests -/

/-- A reply, sent as it is built. -/
theorem follows_jobReply {job : Job cfg} {slot : Option (Slot cfg)} {mq : Mqd} {cmd data : UInt8}
    {topic : Option CString} {payload : Option Ptr} {paylen prio : ℕ} {timeout : UInt16}
    {Q : Bool → Held cfg → Prop}
    (hpre : ∀ msg len, replyMsg cfg cmd data topic payload paylen = some msg →
      msg.realMsgSize = some len → (received cfg (msg.toBytes.take len)).ctrl = ⟨cmd, data⟩ →
      jobPre pc h job (.mqTimedsend slot mq msg len prio timeout))
    (hQ : ∀ ok, Q ok (h.onSend cmd ok slot)) :
    Follows (jobProtocol pc job) Q h
      (brokerReplyMq slot mq cmd data topic payload paylen prio timeout) := by
  refine follows_replyMq fun msg len hmsg hlen hctrl =>
    ⟨hpre msg len hmsg hlen hctrl, fun ok _ => ?_⟩
  rw [show (jobProtocol pc job).next h _ ok = _ from jobNext_mqTimedsend hctrl]
  exact hQ ok

/-- Closing a client frees its slot, in a request or when the broker stops. -/
theorem follows_close {job : Job cfg} (hjob : job ≠ .start) (hs : s.Keeps h) {fd : Slot cfg} :
    Follows (jobProtocol pc job) (fun y h' => y.1.Keeps h' ∧ h'.served = h.served) h
      (brokerClose s fd) := by
  have hs₁ : (s.set fd { s.clients fd with missedPubs := 0 }).Keeps h := hs.set rfl
  rw [brokerClose, Broker.modify_eq_set, brokerReplyCtrl, brokerReply, Prog.bind_assoc]
  refine Follows.bind (Q := fun _ h' => h' = h.move (.slot fd) .leaving)
    (follows_jobReply (fun m len _ _ hctrl => ?_) fun ok => Held.onSend_close) ?_
  · rw [hs₁.2 fd]
    cases job with
    | start => exact absurd rfl hjob
    | handle => exact .close (by rw [hctrl])
    | stop => exact ⟨fd, rfl, rfl, by rw [hctrl], rfl⟩
  · rintro ok _ rfl
    -- The descriptor of the slot is the one to be closed.
    have hpre (c : Client) (hc : c.mq = (s.clients fd).mq) :
        (jobProtocol pc job).pre (h.move (.slot fd) .leaving) (.mqClose c.mq) := by
      cases job with
      | start => exact absurd rfl hjob
      | handle => exact .inr (by rw [Held.move_mq_to (by simp), hc, hs.2])
      | stop => trivial
    have hkeeps (c : Client) (hc : c.mq = none) : (s.set fd c).Keeps
        (((h.move (.slot fd) .leaving).set .spare none).set .leaving none) := by
      refine hs.update ?_ ?_ fun j hj => ?_
      · rw [Held.set_mq_of_ne (by simp), Held.set_mq_of_ne (by simp), Held.move_mq_from, hc]
      · rw [Held.set_mq_of_ne (by simp), Held.set_mq_of_ne (by simp),
          Held.move_mq_of_ne (by simp) (by simp)]
      · rw [Held.set_mq_of_ne (by simp), Held.set_mq_of_ne (by simp),
          Held.move_mq_of_ne (by simpa using hj) (by simp)]
    have hclose (c c' : Client) (hc : c.mq = (s.clients fd).mq) (hc' : c'.mq = none) :
        Follows (jobProtocol pc job) (fun y h' => y.1.Keeps h' ∧ h'.served = h.served)
          (h.move (.slot fd) .leaving) (mqClose c.mq >>= fun _ => ret (s.set fd c', (0 : ℤ))) :=
      follows_perform_bind (hpre c hc) fun r _ => by
        rw [show (jobProtocol pc job).next _ _ r = _ from jobNext_mqClose]
        exact ⟨hkeeps c' hc', rfl⟩
    cases ok <;>
    · simp only [Bool.false_eq_true, if_true, if_false, pure_eq, ret_bind, Broker.modify_eq_set,
        Broker.set_set, Broker.set_clients_self]
      exact hclose { s.clients fd with missedPubs := _ } _ rfl rfl

section Handling

variable {s₀ : Broker cfg} {x : Item}

/-- The answer to a request leaves the places as they were. -/
theorem follows_reply (hs : s.Keeps h) {fd : Slot cfg} {cmd data : UInt8}
    {topic : Option CString} {payload : Option Ptr} {paylen : ℕ}
    (hcmd : cmd ∉ [cmdOpen, cmdClose, cmdPublish] := by decide) :
    Follows (jobProtocol pc (.handle s₀ x)) (fun y => y.1.Keeps) h
      (brokerReply s fd cmd data topic payload paylen 0) := by
  refine Follows.bind (Q := fun _ h' => h' = h)
    (follows_jobReply (fun m len _ _ hctrl => ?_) fun ok => Held.onSend_reply hcmd) ?_
  · rw [hs.2 fd]
    exact .reply (by rwa [hctrl])
  · rintro ok _ rfl
    cases ok <;> exact hs.set rfl

theorem replies_handle : Replies (jobProtocol pc (.handle s₀ x)) (fun s => s.Keeps h)
    Broker.Keeps h where
  reply hs hcmd := follows_reply hs hcmd
  modify hs hf := hs.modify hf
  malloc _ := trivial
  next_malloc _ _ := rfl

/-- Opening a connection puts the descriptor opened in a free slot, or closes it. -/
theorem follows_open (hs : s.Keeps h) (hcmd : x.cmd cfg = cmdOpen) :
    Follows (jobProtocol pc (.handle s₀ x)) (fun y => y.1.Keeps) h
      (brokerOpen s (received cfg x.bytes)) := by
  refine follows_deref_bind fun qname hq => ?_
  refine follows_perform_bind ⟨rfl, hcmd, hq⟩ fun r _ => ?_
  cases r with
  | error e => exact hs
  | ok qc =>
    have hnext : (jobProtocol pc (.handle s₀ x)).next h
        (.mqOpen qname ⟨.rdwr, false, false, 0⟩ : Op cfg) (.ok qc) = h.set .spare (some qc) := rfl
    have hspare : some qc = (h.set .spare (some qc)).mq .spare := Held.set_mq_self.symm
    have hclosed : s.Keeps (((h.set .spare (some qc)).set .spare none).set .leaving none) := by
      refine ⟨?_, fun k => ?_⟩
      · rw [Held.set_mq_of_ne (by simp), Held.set_mq_of_ne (by simp), Held.set_mq_of_ne (by simp),
          hs.1]
      · rw [Held.set_mq_of_ne (by simp), Held.set_mq_of_ne (by simp), Held.set_mq_of_ne (by simp),
          hs.2]
    rw [hnext]
    dsimp only
    rcases brokerGetFreeClient_spec s with ⟨hfree, -⟩ | ⟨k, hfree, hk, -⟩
    · rw [if_pos hfree]
      refine Follows.bind (Q := fun _ h' => h' = h.set .spare (some qc))
        (follows_jobReply (fun m len _ _ hctrl => ?_) fun ok => rfl) ?_
      · rw [hspare]
        refine .refuse (by rw [hctrl]) (offerOf_eq_none ?_)
        rw [hctrl]
        decide
      · rintro ok _ rfl
        exact follows_perform_bind (.inl hspare) fun r _ => hclosed
    · rw [hfree, if_neg (fdOf_ne_ucharMax k), slotOf_fdOf, deref_some, ret_bind]
      refine Follows.bind (Q := fun ok h' => h' = if ok then
        (h.set .spare (some qc)).move .spare (.slot k) else h.set .spare (some qc))
        (follows_jobReply (fun m len hm hlen hctrl => ?_) fun ok => Held.onSend_open) ?_
      · rw [hspare]
        exact .offer (by rw [hctrl]) (offerOf_open hm hlen)
      · rintro ok _ rfl
        cases ok with
        | true =>
          rw [if_pos rfl]
          refine hs.update ?_ ?_ fun j hj => ?_
          · rw [Held.move_mq_to (by simp), Held.set_mq_self]
          · rw [Held.move_mq_of_ne (by simp) (by simp), Held.set_mq_of_ne (by simp)]
          · rw [Held.move_mq_of_ne (by simp) (by simpa using hj), Held.set_mq_of_ne (by simp)]
        | false =>
          rw [if_neg Bool.false_ne_true]
          refine follows_perform_bind (.inl hspare) fun r _ => ?_
          rw [Broker.modify_eq_set, Broker.modify_eq_set, Broker.set_set]
          exact hclosed.set (not_not.1 hk).symm

section Publish

variable {topic : CString} {payload : Ptr} {paylen : ℕ}

/-- Serving a client sends it the message once at most, or closes it. -/
theorem follows_serve (hcmd : x.cmd cfg = cmdPublish) {fd : Slot cfg} (nodes : List CString)
    (hs : s.Keeps h) (hfd : h.served fd = false) :
    Follows (jobProtocol pc (.handle s₀ x))
      (fun s' h' => s'.Keeps h' ∧ ∀ k, k ≠ fd → h'.served k = h.served k) h
      (publishTopics topic payload paylen x.prio fd nodes s) := by
  induction nodes generalizing s with
  | nil => exact ⟨hs, fun _ _ => rfl⟩
  | cons node nodes ih =>
    refine follows_deref_bind fun m _ => ?_
    cases m with
    | false => exact ih hs
    | true =>
      refine Follows.bind (Q := fun y h' => y.1.Keeps h' ∧ h' = if y.2 = 0 then h.serve fd else h)
        (Follows.bind (Q := fun ok h' => h' = if ok then h.serve fd else h)
          (follows_jobReply (fun m len _ _ hctrl => ?_) fun ok => Held.onSend_publish) ?_) ?_
      · rw [hs.2 fd]
        exact .publish (by rw [hctrl]) hcmd hfd
      · rintro ok _ rfl
        cases ok with
        | true =>
          have hs' := hs.modify (k := fd) (f := fun c => { c with missedPubs := 0 }) fun _ => rfl
          exact ⟨hs'.of_mq rfl, rfl⟩
        | false => exact ⟨hs.modify fun _ => rfl, rfl⟩
      · rintro ⟨s', rc⟩ h' ⟨hs', rfl⟩
        by_cases hrc : rc = 0
        · simp only [hrc, if_true] at hs' ⊢
          exact ⟨hs', fun k hk => Function.update_of_ne hk ..⟩
        · simp only [hrc, ne_eq, not_false_eq_true, if_true, if_false] at hs' ⊢
          split
          · -- The client is evicted.
            refine follows_perform_bind ⟨fd, hs'.2 fd⟩ fun r _ => ?_
            refine Follows.bind (follows_close (by simp) hs') ?_
            rintro y h' ⟨hy, hserved⟩
            exact ⟨hy, fun k _ => congrFun hserved k⟩
          · exact ih hs'

theorem follows_serveAll (hcmd : x.cmd cfg = cmdPublish) {fds : List (Slot cfg)} (hnd : fds.Nodup)
    (hs : s.Keeps h) (hfds : ∀ fd ∈ fds, h.served fd = false) :
    Follows (jobProtocol pc (.handle s₀ x)) Broker.Keeps h
      (publishClients topic payload paylen x.prio fds s) := by
  induction fds generalizing s h with
  | nil => exact hs
  | cons fd fds ih =>
    rw [List.nodup_cons] at hnd
    rw [List.forall_mem_cons] at hfds
    rw [publishClients]
    split
    · exact ih hnd.2 hs hfds.2
    · refine (follows_serve hcmd _ hs hfds.1).bind ?_
      rintro s' h' ⟨hs', hserved⟩
      refine ih hnd.2 hs' fun fd' hfd' => ?_
      rw [hserved fd' (by rintro rfl; exact hnd.1 hfd'), hfds.2 fd' hfd']

end Publish

/-- Handling a message follows the protocol, once no client is marked as served. -/
theorem follows_handle (hs : s.Keeps h) (hserved : ∀ k, h.served k = false) :
    Follows (jobProtocol pc (.handle s₀ x)) Broker.Keeps h (brokerStart s x.bytes x.prio) := by
  by_cases ha : Accepted (received cfg x.bytes)
  · rw [brokerStart_of_accepted ha]
    refine Follows.bind (Q := fun y => y.1.Keeps) ?_ fun _ _ h => h
    rw [brokerDispatch]
    split_ifs with h₁ h₂ h₃ h₄ h₅ h₆
    · exact follows_open hs h₁
    · exact follows_deref_bind fun fd _ =>
        (follows_close (by simp) hs).mono fun _ _ h => h.1
    · exact replies_handle.follows_subscribe hs _
    · exact replies_handle.follows_unsubscribe hs _
    · refine follows_deref_bind fun topic _ => Follows.bind (Q := Broker.Keeps) ?_ fun _ _ h => h
      exact follows_serveAll h₅ (List.nodup_finRange _) hs fun fd _ => hserved fd
    · exact replies_handle.follows_ioctl hs _
    · exact hs
  · cases ht : str (received cfg x.bytes).data.bytes with
    | none =>
      -- The topic is read out of the message.
      rw [brokerStart, brokerIntake, strlen, ht]
      trivial
    | some topic =>
      rw [brokerStart_of_not_accepted ht ha]
      exact hs

end Handling

/-! ## Starting and stopping -/

/-- Starting holds the control queue, if it is opened, and nothing else. -/
theorem follows_start (hh : h.mq = Held.init.mq) (s : Broker cfg) :
    Follows (jobProtocol pc .start) (fun y => y.1.Keeps) h (brokerInit pc s) := by
  have hopen (tries : ℕ) : Follows (jobProtocol pc .start)
      (fun mq h' => h'.mq .ctrl = mq ∧ ∀ k, h'.mq (.slot k) = none) h
      (brokerOpenCtrl pc tries : P cfg Mqd) := by
    induction tries with
    | zero => exact ⟨by rw [hh]; rfl, fun k => by rw [hh]; rfl⟩
    | succ tries ih =>
      refine follows_perform_bind ⟨congrFun hh _, rfl, rfl, rfl⟩ fun r _ => ?_
      cases r with
      | error e => exact ih
      | ok d =>
        refine ⟨Held.set_mq_self, fun k => ?_⟩
        exact (Held.set_mq_of_ne (by simp)).trans (congrFun hh _)
  exact follows_brokerInit_of rfl (fun _ => rfl) (hopen 10)
    fun mq h' ⟨hctrl, hslots⟩ _ => ⟨hctrl.symm, fun k => (hslots k).symm⟩

theorem follows_stop (hs : s.Keeps h) :
    Follows (jobProtocol pc .stop) (fun _ _ => True) h (brokerCleanup pc s) := by
  have hclients (fds : List (Slot cfg)) {s : Broker cfg} {h : Held cfg} (hs : s.Keeps h) :
      Follows (jobProtocol pc .stop) (fun _ _ => True) h (cleanupClients fds s) := by
    induction fds generalizing s h with
    | nil => trivial
    | cons fd fds ih =>
      rw [cleanupClients]
      split
      · exact ih hs
      · exact (follows_close (by simp) hs).bind fun _ _ h => ih h.1
  refine (hclients _ hs).bind fun s' _ _ => ?_
  exact follows_perform_bind trivial fun r _ => follows_perform_bind rfl fun r _ => trivial

/-! ## The calls -/

/-- The queue on which a call of the broker puts an offer. -/
def offeredOn (os : Os) : Event (Op cfg) Op.Res → Option Qid
  | ⟨.mqTimedsend _ mq msg len _ _, true⟩ =>
    if offerOf cfg (msg.toBytes.take len) = none then none else os.fd .broker mq
  | _ => none

/-- The queue of a client that a call opens. -/
def openedBy (os : Os) : Event (Op cfg) Op.Res → Option Qid
  | ⟨.mqOpen name flags, .ok _⟩ => if flags.creat then none else os.names name
  | _ => none

/-- The slot a call sends to. -/
def sentFor : Event (Op cfg) Op.Res → Option (Slot cfg)
  | ⟨.mqTimedsend slot _ _ _ _ _, _⟩ => slot
  | _ => none

/-- The queue held in a place, when those of `fds` are open. -/
def Held.queue (h : Held cfg) (fds : ℕ → Option Qid) (a : Place cfg) : Option Qid :=
  (h.mq a).bind fds

/-- What a call of the broker does to its descriptors: those open become
    `fds'`, and those held `h'`. -/
inductive Held.Step (os : Os) (job : Job cfg) (e : Event (Op cfg) Op.Res) (h : Held cfg) :
    (ℕ → Option Qid) → Held cfg → Prop
  /-- The control queue is created. -/
  | ctrl {d : ℕ} {q : Qid} : job = .start → os.fds .broker d = none →
      Step os job e h (Function.update (os.fds .broker) d (some q)) (h.set .ctrl (some d))
  /-- The queue of a client is opened. -/
  | opened {d : ℕ} {q : Qid} : job ≠ .stop → os.fds .broker d = none → openedBy os e = some q →
      Step os job e h (Function.update (os.fds .broker) d (some q)) (h.set .spare (some d))
  /-- A descriptor is closed that is in no slot. -/
  | closed {mq : Mqd} : (job ≠ .stop → mq = h.mq .spare ∨ mq = h.mq .leaving) →
      Step os job e h
        (mq.elim (os.fds .broker) fun d => Function.update (os.fds .broker) d none)
        ((h.set .spare none).set .leaving none)
  /-- Something is sent. -/
  | sent {slot : Option (Slot cfg)} {mq : Mqd} {msg : PsmqMsg cfg} {len prio : ℕ}
      {timeout : UInt16} {ok : Bool} : e = ⟨.mqTimedsend slot mq msg len prio timeout, ok⟩ →
      Step os job e h (os.fds .broker)
        (h.onSend (received cfg (msg.toBytes.take len)).ctrl.cmd ok slot)
  | other : Step os job e h (os.fds .broker) h

/-- A call of the broker in a job. -/
theorem jobNext_step {os os' : Os} {job : Job cfg} {o : Op cfg} {r : Op.Res o}
    (hst : OsStep .broker os o r os') (hpre : jobPre pc h job o) :
    h.Step os job ⟨o, r⟩ (os'.fds .broker) (jobNext h job o r) := by
  have hset {os : Os} {d : ℕ} {v : Option Qid} :
      (os.setFd .broker d v).fds .broker = Function.update (os.fds .broker) d v := by
    simp only [Os.setFd, Function.update_self]
  cases hst with
  | opened hname _ _ hd =>
    rw [hset]
    cases job with
    | start => exact .ctrl rfl hd
    | handle =>
      obtain ⟨rfl, -⟩ := hpre
      exact .opened (by simp) hd hname
    | stop => exact hpre.elim
  | created _ hcreat _ _ hd =>
    rw [hset]
    cases job with
    | start => exact .ctrl rfl hd
    | handle =>
      obtain ⟨rfl, -⟩ := hpre
      exact absurd hcreat (by simp)
    | stop => exact hpre.elim
  | @closed mq =>
    rw [jobNext_mqClose]
    have hclosed : (mq.elim os fun d => os.setFd .broker d none).fds .broker =
        mq.elim (os.fds .broker) fun d => Function.update (os.fds .broker) d none := by
      cases mq with
      | none => rfl
      | some d => exact hset
    rw [hclosed]
    cases job with
    | start => exact hpre.elim
    | handle => exact .closed fun _ => hpre
    | stop => exact .closed fun hne => absurd rfl hne
  | timedsendFail =>
    rw [jobNext_mqTimedsend rfl]
    exact .sent rfl
  | timedsent =>
    rw [jobNext_mqTimedsend rfl]
    exact .sent rfl
  | openFail => cases job <;> exact .other
  | unlinkFail => cases job <;> exact .other
  | unlinked => cases job <;> exact .other
  | timedreceiveFail => cases job <;> exact .other
  | timedreceived => cases job <;> exact .other
  | malloc => cases job <;> exact .other
  | _ => cases job <;> exact hpre.elim

/-- A process only changes its own descriptors. -/
theorem OsStep.fds_of_ne {p p' : Pid} {os os' : Os} {o : Op cfg} {r : Op.Res o}
    (h : OsStep p os o r os') (hp : p' ≠ p) : os'.fds p' = os.fds p' := by
  cases h with
  | opened => exact funext fun d => Os.setFd_of_ne (.inl hp)
  | created => exact funext fun d => Os.setFd_of_ne (.inl hp)
  | @closed mq =>
    cases mq with
    | none => rfl
    | some d => exact funext fun d => Os.setFd_of_ne (.inl hp)
  | _ => rfl

/-! ## The descriptors held -/

/-- The descriptors held are open, each in one place. -/
structure Held.Sound (fds : ℕ → Option Qid) (h : Held cfg) : Prop where
  live : ∀ a d, h.mq a = some d → fds d ≠ none
  inj : ∀ a b d, h.mq a = some d → h.mq b = some d → a = b

namespace Held

variable {fds fds' : ℕ → Option Qid} {a b c : Place cfg} {d : ℕ} {q : Qid} {mq : Mqd}

theorem queue_set_self : (h.set a mq).queue fds a = mq.bind fds := by
  rw [queue, set_mq_self]

theorem queue_set_of_ne (hc : c ≠ a) : (h.set a mq).queue fds c = h.queue fds c := by
  rw [queue, queue, set_mq_of_ne hc]

/-- What is in a place after a move was there before, or was moved there. -/
theorem queue_move (hab : b ≠ a) (hc : (h.move a b).queue fds c = some q) :
    (c = b ∧ h.queue fds a = some q) ∨ (c ≠ a ∧ h.queue fds c = some q) := by
  by_cases hca : c = a
  · rw [hca, queue, move_mq_from] at hc
    simp at hc
  · by_cases hcb : c = b
    · rw [hcb, queue, move_mq_to hab] at hc
      exact .inl ⟨hcb, hc⟩
    · rw [queue, move_mq_of_ne hca hcb] at hc
      exact .inr ⟨hca, hc⟩

namespace Sound

theorem init (fds : ℕ → Option Qid) : (Held.init : Held cfg).Sound fds := ⟨nofun, nofun⟩

theorem of_mq (hs : h.Sound fds) {h' : Held cfg} (hmq : h'.mq = h.mq) : h'.Sound fds := by
  refine ⟨fun a d => ?_, fun a b d => ?_⟩ <;> rw [hmq]
  · exact hs.live a d
  · exact hs.inj a b d

/-- No descriptor held is one that is not in use. -/
theorem ne (hs : h.Sound fds) (hd : fds d = none) (a : Place cfg) : h.mq a ≠ some d :=
  fun ha => hs.live a d ha hd

/-- A descriptor that is not held may be opened or closed. -/
theorem queue_update (hd : h.mq a ≠ some d) {v : Option Qid} :
    h.queue (Function.update fds d v) a = h.queue fds a := by
  rw [queue, queue]
  cases ha : h.mq a with
  | none => rfl
  | some d' =>
    have hne : d' ≠ d := by
      rintro rfl
      exact hd ha
    exact Function.update_of_ne hne ..

/-- Forgetting a descriptor. -/
theorem drop (hs : h.Sound fds) (a : Place cfg) : (h.set a none).Sound fds := by
  have hmq {b : Place cfg} {d : ℕ} (hb : (h.set a none).mq b = some d) : h.mq b = some d := by
    by_cases hab : b = a
    · subst hab
      simp at hb
    · rwa [set_mq_of_ne hab] at hb
  exact ⟨fun b d hb => hs.live b d (hmq hb), fun b c d hb hc => hs.inj b c d (hmq hb) (hmq hc)⟩

/-- A descriptor is opened that was not in use. -/
theorem opened (hs : h.Sound fds) (hd : fds d = none) :
    (h.set a (some d)).Sound (Function.update fds d (some q)) := by
  have hmq {b : Place cfg} {d' : ℕ} (hb : (h.set a (some d)).mq b = some d') :
      (b = a ∧ d' = d) ∨ (d' ≠ d ∧ h.mq b = some d') := by
    by_cases hba : b = a
    · rw [hba, set_mq_self, Option.some.injEq] at hb
      exact .inl ⟨hba, hb.symm⟩
    · rw [set_mq_of_ne hba] at hb
      exact .inr ⟨fun hne => hs.ne hd b (hne ▸ hb), hb⟩
  refine ⟨fun b d' hb => ?_, fun b c d' hb hc => ?_⟩
  · obtain ⟨-, hbd⟩ | ⟨hne, hb'⟩ := hmq hb
    · rw [hbd, Function.update_self]
      simp
    · rw [Function.update_of_ne hne]
      exact hs.live b d' hb'
  · obtain ⟨hba, hbd⟩ | ⟨hne, hb'⟩ := hmq hb <;> obtain ⟨hca, hcd⟩ | ⟨hne', hc'⟩ := hmq hc
    · rw [hba, hca]
    · exact absurd hbd hne'
    · exact absurd hcd hne
    · exact hs.inj b c d' hb' hc'

theorem move (hs : h.Sound fds) (hab : b ≠ a) : (h.move a b).Sound fds := by
  have hmq {c : Place cfg} {d : ℕ} (hc : (h.move a b).mq c = some d) :
      (c = b ∧ h.mq a = some d) ∨ (c ≠ a ∧ h.mq c = some d) := by
    -- The descriptors are those of queues that are their own numbers.
    have hq : (h.move a b).queue some c = some d := by
      rw [queue, hc]
      rfl
    simpa [queue] using queue_move hab hq
  refine ⟨fun c d hc => ?_, fun c c' d hc hc' => ?_⟩
  · obtain ⟨-, hc⟩ | ⟨-, hc⟩ := hmq hc <;> exact hs.live _ d hc
  · obtain ⟨hcb, h₁⟩ | ⟨hca, h₁⟩ := hmq hc <;> obtain ⟨hcb', h₂⟩ | ⟨hca', h₂⟩ := hmq hc'
    · rw [hcb, hcb']
    · exact absurd (hs.inj _ _ d h₂ h₁) hca'
    · exact absurd (hs.inj _ _ d h₁ h₂) hca
    · exact hs.inj _ _ d h₁ h₂

theorem onSend (hs : h.Sound fds) (cmd : UInt8) (ok : Bool) (slot : Option (Slot cfg)) :
    (h.onSend cmd ok slot).Sound fds := by
  cases slot with
  | none => exact hs
  | some k =>
    rw [Held.onSend]
    split_ifs
    · exact hs.move (by simp)
    · exact hs
    · exact hs.move (by simp)
    · exact hs.of_mq rfl
    · exact hs
    · exact hs

/-- Closing the descriptor that is in no slot, or on its way out. -/
theorem closed (hs : h.Sound fds) (hmq : mq = h.mq .spare ∨ mq = h.mq .leaving) :
    ((h.set .spare none).set .leaving none).Sound
      (mq.elim fds fun d => Function.update fds d none) := by
  have hs' := (hs.drop .spare).drop .leaving
  cases mq with
  | none => exact hs'
  | some d =>
    refine ⟨fun a d' ha => ?_, hs'.inj⟩
    -- A descriptor that is still held is another one.
    have hne : d' ≠ d := by
      rintro rfl
      have hleaving : a ≠ .leaving := by
        rintro rfl
        simp at ha
      have hspare : a ≠ .spare := by
        rintro rfl
        simp [set_mq_of_ne] at ha
      rw [set_mq_of_ne hleaving, set_mq_of_ne hspare] at ha
      rcases hmq with hd | hd
      · exact hspare (hs.inj _ _ d' ha hd.symm)
      · exact hleaving (hs.inj _ _ d' ha hd.symm)
    rw [Option.elim_some, Function.update_of_ne hne]
    exact hs'.live a d' ha

/-- The calls of the broker keep its descriptors, unless it stops. -/
theorem step {os : Os} {job : Job cfg} (hs : h.Sound (os.fds .broker)) (hjob : job ≠ .stop)
    {e : Event (Op cfg) Op.Res} {h' : Held cfg} (hst : h.Step os job e fds' h') :
    h'.Sound fds' := by
  cases hst with
  | ctrl _ hd => exact hs.opened hd
  | opened _ hd => exact hs.opened hd
  | closed hmq => exact hs.closed (hmq hjob)
  | sent => exact hs.onSend ..
  | other => exact hs

end Sound

/-- Where the queue in a place comes from: it was there, or it was just opened,
    or it has just been moved to a slot by an offer, or out of one. -/
theorem Step.queue {os : Os} {job : Job cfg} {o : Op cfg} {r : Op.Res o} {h' : Held cfg}
    (hs : job ≠ .stop → h.Sound (os.fds .broker)) (hpre : jobPre pc h job o)
    (hst : h.Step os job ⟨o, r⟩ fds' h') (ha : h'.queue fds' a = some q) :
    h.queue (os.fds .broker) a = some q ∨
    (a = .ctrl ∧ job = .start) ∨ (a = .spare ∧ openedBy os ⟨o, r⟩ = some q) ∨
    (∃ k, a = .slot k ∧ sentFor ⟨o, r⟩ = some k ∧ h.queue (os.fds .broker) .spare = some q ∧
      offeredOn os ⟨o, r⟩ = some q ∧ h'.mq .spare = none) ∨
    (∃ k, a = .leaving ∧ h.queue (os.fds .broker) (.slot k) = some q ∧ h'.mq (.slot k) = none) := by
  cases hst with
  | @ctrl d q' hjob hd =>
    by_cases hac : a = .ctrl
    · exact .inr (.inl ⟨hac, hjob⟩)
    · rw [queue_set_of_ne hac, Sound.queue_update ((hs (by simp [hjob])).ne hd a)] at ha
      exact .inl ha
  | @opened d q' hjob hd hopen =>
    by_cases hac : a = .spare
    · rw [hac, queue_set_self, Option.bind_some, Function.update_self] at ha
      exact .inr (.inr (.inl ⟨hac, hopen.trans ha⟩))
    · rw [queue_set_of_ne hac, Sound.queue_update ((hs hjob).ne hd a)] at ha
      exact .inl ha
  | @closed mq hmq =>
    -- What is still in a place was there, and it is not closed.
    have hleaving : a ≠ .leaving := by
      rintro rfl
      simp [queue_set_self] at ha
    have hspare : a ≠ .spare := by
      rintro rfl
      simp [queue, set_mq_of_ne] at ha
    rw [queue_set_of_ne hleaving, queue_set_of_ne hspare] at ha
    obtain ⟨d, hd, hq⟩ := Option.bind_eq_some_iff.1 ha
    refine .inl (Option.bind_eq_some_iff.2 ⟨d, hd, ?_⟩)
    cases mq with
    | none => exact hq
    | some d' =>
      by_cases hdd : d = d'
      · subst hdd
        simp at hq
      · rwa [Option.elim_some, Function.update_of_ne hdd] at hq
  | @sent slot mq msg len prio timeout ok he =>
    obtain ⟨rfl, hr⟩ := Sigma.mk.inj_iff.1 he
    obtain rfl := eq_of_heq hr
    cases slot with
    | none => exact .inl ha
    | some k =>
      rw [onSend] at ha ⊢
      split_ifs at ha ⊢ with hcmd hok
      · obtain ⟨hk, hspare⟩ | ⟨-, ha⟩ := queue_move (by simp) ha
        · refine .inr (.inr (.inr (.inl ⟨k, hk, rfl, hspare, ?_, move_mq_from⟩)))
          cases job with
          | start => exact hpre.elim
          | handle =>
            obtain ⟨hmq, ho⟩ := MaySend.of_open hpre hcmd
            rw [hok, offeredOn, ho, if_neg (by simp), hmq]
            exact hspare
          | stop =>
            obtain ⟨_, -, -, hclose, -⟩ := hpre
            exact cmd_absurd hcmd hclose
        · exact .inl ha
      · exact .inl ha
      · obtain ⟨hk, hslot⟩ | ⟨-, ha⟩ := queue_move (by simp) ha
        · exact .inr (.inr (.inr (.inr ⟨k, hk, hslot, move_mq_from⟩)))
        · exact .inl ha
      · exact .inl ha
      · exact .inl ha
      · exact .inl ha
  | other => exact .inl ha

/-- Where a queue goes when it leaves a place: out of a slot, or in the one the call `e` is for. -/
def dest (e : Event (Op cfg) Op.Res) : Place cfg → Place cfg
  | .spare => (sentFor e).elim .leaving .slot
  | _ => .leaving

/-- The queue in a place has just been opened, or it was in a place that it has
    left, if that is another one. -/
theorem Step.origin {os : Os} {job : Job cfg} {o : Op cfg} {r : Op.Res o} {h' : Held cfg}
    (hs : job ≠ .stop → h.Sound (os.fds .broker)) (hpre : jobPre pc h job o)
    (hst : h.Step os job ⟨o, r⟩ fds' h') (ha : a ≠ .ctrl) (hqa : h'.queue fds' a = some q) :
    (a = .spare ∧ openedBy os ⟨o, r⟩ = some q) ∨ ∃ a₀, a₀ ≠ .ctrl ∧
      h.queue (os.fds .broker) a₀ = some q ∧ (a = a₀ ∨ (h'.mq a₀ = none ∧ a = dest ⟨o, r⟩ a₀)) := by
  rcases hst.queue hs hpre hqa with
    hqa | ⟨hctrl, -⟩ | hopen | ⟨k, hk, hsent, hqa, -, hleft⟩ | ⟨k, hk, hqa, hleft⟩
  · exact .inr ⟨a, ha, hqa, .inl rfl⟩
  · exact absurd hctrl ha
  · exact .inl hopen
  · exact .inr ⟨.spare, by simp, hqa, .inr ⟨hleft, by simp [dest, hsent, hk]⟩⟩
  · exact .inr ⟨.slot k, by simp, hqa, .inr ⟨hleft, hk⟩⟩

theorem mq_ne_none (hqa : h.queue fds a = some q) : h.mq a ≠ none := fun ha => by
  simp [Held.queue, ha] at hqa

/-- What was in one place is in one place. -/
theorem eq_of_dest {e : Event (Op cfg) Op.Res} {a₀ : Place cfg} (hqa : h.queue fds a = some q)
    (hqb : h.queue fds b = some q) (ha : a = a₀ ∨ (h.mq a₀ = none ∧ a = dest e a₀))
    (hb : b = a₀ ∨ (h.mq a₀ = none ∧ b = dest e a₀)) : a = b := by
  rcases ha with rfl | ⟨hleft, ha⟩ <;> rcases hb with rfl | ⟨hleft', hb⟩
  · rfl
  · exact absurd hleft' (mq_ne_none hqa)
  · exact absurd hleft (mq_ne_none hqb)
  · rw [ha, hb]

/-- The queues held are those of clients, `opened` by the broker, each in one place. -/
structure Sole (fds : ℕ → Option Qid) (opened : List Qid) (h : Held cfg) : Prop where
  opened : ∀ a q, a ≠ .ctrl → h.queue fds a = some q → q ∈ opened
  inj : ∀ a b q, a ≠ .ctrl → b ≠ .ctrl → h.queue fds a = some q → h.queue fds b = some q → a = b

theorem Sole.init (fds : ℕ → Option Qid) : (Held.init : Held cfg).Sole fds [] := ⟨nofun, nofun⟩

theorem Sole.of_mq {opened : List Qid} (hq : h.Sole fds opened) {h' : Held cfg}
    (hmq : h'.mq = h.mq) : h'.Sole fds opened := by
  have hqueue : h'.queue = h.queue := by
    funext fds a
    rw [queue, queue, hmq]
  exact ⟨hqueue ▸ hq.opened, hqueue ▸ hq.inj⟩

/-- The queues held stay each in one place if one that is opened never was before. -/
theorem Sole.step {os : Os} {job : Job cfg} {o : Op cfg} {r : Op.Res o} {h' : Held cfg}
    {opened : List Qid} (hq : h.Sole (os.fds .broker) opened)
    (hs : job ≠ .stop → h.Sound (os.fds .broker)) (hpre : jobPre pc h job o)
    (hst : h.Step os job ⟨o, r⟩ fds' h') (hnew : ∀ q ∈ openedBy os ⟨o, r⟩, q ∉ opened) :
    h'.Sole fds' (opened ++ (openedBy os ⟨o, r⟩).toList) := by
  refine ⟨fun a q ha hqa => ?_, fun a b q ha hb hqa hqb => ?_⟩
  · rcases hst.origin hs hpre ha hqa with ⟨-, hopen⟩ | ⟨a₀, ha₀, hqa₀, -⟩
    · exact List.mem_append_right _ (Option.mem_toList.2 hopen)
    · exact List.mem_append_left _ (hq.opened a₀ q ha₀ hqa₀)
  · rcases hst.origin hs hpre ha hqa with ⟨ha', hopen⟩ | ⟨a₀, ha₀, hqa₀, hdest⟩ <;>
      rcases hst.origin hs hpre hb hqb with ⟨hb', hopen'⟩ | ⟨b₀, hb₀, hqb₀, hdest'⟩
    · rw [ha', hb']
    · exact absurd (hq.opened b₀ q hb₀ hqb₀) (hnew q hopen)
    · exact absurd (hq.opened a₀ q ha₀ hqa₀) (hnew q hopen')
    · obtain rfl := hq.inj a₀ b₀ q ha₀ hb₀ hqa₀ hqb₀
      exact eq_of_dest hqa hqb hdest hdest'

end Held

/-! ## In the system -/

/-- The broker has not been told to stop. -/
def BrokerProc.Up : BrokerProc cfg → Prop
  | idle _ => True
  | busy job _ _ => job ≠ .stop
  | off => False

/-- The broker follows its protocol, with the descriptors it holds. -/
def BrokerProc.Obeys (pc : PsmqdCfg) (h : Held cfg) : BrokerProc cfg → Prop
  | idle s => s.Keeps h
  | busy job _ p => Follows (jobProtocol pc job) job.Leaves h p
  | off => True

/-- What the broker is doing agrees with the descriptors it holds. -/
structure Held.Tracks (pc : PsmqdCfg) (os : Os) (b : BrokerProc cfg) (h : Held cfg) : Prop where
  obeys : b.Obeys pc h
  sound : b.Up → h.Sound (os.fds .broker)

namespace Held.Tracks

variable {os os' : Os} {b : BrokerProc cfg}

theorem of_fds (ht : h.Tracks pc os b) (hfds : os'.fds .broker = os.fds .broker) :
    h.Tracks pc os' b :=
  ⟨ht.obeys, fun hup => hfds ▸ ht.sound hup⟩

theorem init (os : Os) :
    (Held.init : Held cfg).Tracks pc os (.busy .start [] (Job.start.prog pc (staticBroker cfg))) :=
  ⟨Follows.bind (follows_start rfl _) fun _ _ h => h, fun _ => .init _⟩

theorem take (ht : h.Tracks pc os (.idle s)) (x : Item) :
    h.begin.Tracks pc os (.busy (.handle s x) [] ((Job.handle s x).prog pc s)) :=
  ⟨follows_handle (ht.obeys.of_mq rfl) fun _ => rfl, fun _ => (ht.sound trivial).of_mq rfl⟩

theorem stop (ht : h.Tracks pc os (.idle s)) :
    h.Tracks pc os (.busy .stop [] (Job.stop.prog pc s)) :=
  ⟨Follows.bind (follows_stop ht.obeys) fun _ _ _ => trivial, fun hup => absurd rfl hup⟩

theorem op {job : Job cfg} {tr : Trace cfg} {o : Op cfg} {k : Op.Res o → P cfg (Broker cfg)}
    {r : Op.Res o} (ht : h.Tracks pc os (.busy job tr (.call o k)))
    (hst : OsStep .broker os o r os') : jobPre pc h job o ∧
      h.Step os job ⟨o, r⟩ (os'.fds .broker) (jobNext h job o r) ∧
      (jobNext h job o r).Tracks pc os' (.busy job (tr ++ [⟨o, r⟩]) (k r)) := by
  obtain ⟨hpre, hk⟩ := ht.obeys
  have hstep := jobNext_step hst hpre
  exact ⟨hpre, hstep, hk r trivial, fun hup => (ht.sound hup).step hup hstep⟩

theorem finish {job : Job cfg} {tr : Trace cfg} (ht : h.Tracks pc os (.busy job tr (.ret s))) :
    h.Tracks pc os (job.done s) := by
  cases job with
  | stop => exact ⟨trivial, False.elim⟩
  | start => exact ⟨ht.obeys, fun _ => ht.sound (by simp [BrokerProc.Up])⟩
  | handle => exact ⟨ht.obeys, fun _ => ht.sound (by simp [BrokerProc.Up])⟩

end Held.Tracks

end Psmq
