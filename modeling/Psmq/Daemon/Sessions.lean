import Psmq.Daemon
import Psmq.Broker.Slots

/-!
# The sessions of a slot

What the daemon sends to the clients of a slot, one after the other, is made of
*sessions* (`Sessions`): the answer to an open request, on the queue of the
client; then, on the same queue, messages published and replies to the
requests of the client; and last, one message closing the connection. Nothing
is put on a queue between two sessions, and none is left open when the daemon
returns (`daemon_sessions`).
-/

namespace Psmq

open CMem Prog

variable {cfg : Config}

/-- What is sent on behalf of a slot, from a time when the queue of its client
    is `mq` to one when it is `mq'`. -/
inductive Sessions : Mqd → List (Sent cfg) → Mqd → Prop
  | nil (mq : Mqd) : Sessions mq [] mq
  /-- A request in the name of the free slot is replied to nobody. -/
  | lost {e : Sent cfg} {es : List (Sent cfg)} {mq : Mqd} : e.mq = none →
      Sessions none es mq → Sessions none (e :: es) mq
  /-- A client cannot be told it has the slot. -/
  | untold {e : Sent cfg} {es : List (Sent cfg)} {mq : Mqd} : e.msg.ctrl = ⟨cmdOpen, 0⟩ →
      e.ok = false → Sessions none es mq → Sessions none (e :: es) mq
  /-- A session begins. -/
  | begin {e : Sent cfg} {es : List (Sent cfg)} {q : ℕ} {mq : Mqd} : e.msg.ctrl = ⟨cmdOpen, 0⟩ →
      e.ok = true → e.mq = some q → Sessions (some q) es mq → Sessions none (e :: es) mq
  | message {e : Sent cfg} {es : List (Sent cfg)} {q : ℕ} {mq : Mqd} :
      e.msg.ctrl.cmd ∉ [cmdOpen, cmdClose] → e.mq = some q → Sessions (some q) es mq →
      Sessions (some q) (e :: es) mq
  /-- A session ends. -/
  | close {e : Sent cfg} {es : List (Sent cfg)} {q : ℕ} {mq : Mqd} : e.msg.ctrl = ⟨cmdClose, 0⟩ →
      e.mq = some q → Sessions none es mq → Sessions (some q) (e :: es) mq

variable {a b c : Mqd} {es es' : List (Sent cfg)} {k : Slot cfg}

theorem Sessions.append (h : Sessions a es b) (h' : Sessions b es' c) :
    Sessions a (es ++ es') c := by
  induction h with
  | nil => exact h'
  | lost hmq _ ih => exact .lost hmq (ih h')
  | untold hctrl hok _ ih => exact .untold hctrl hok (ih h')
  | begin hctrl hok hmq _ ih => exact .begin hctrl hok hmq (ih h')
  | message hcmd hmq _ ih => exact .message hcmd hmq (ih h')
  | close hctrl hmq _ ih => exact .close hctrl hmq (ih h')

/-- A message to the client in a slot is one of its session, if it has one. -/
theorem Sessions.of_reply {mq : Mqd} {cmd data : UInt8} {topic : Option CString}
    {payload : Option Ptr} {paylen prio : ℕ} {timeout : UInt16} {e : Sent cfg}
    (he : IsReplyMq (some k) mq cmd data topic payload paylen prio timeout e)
    (h : Sessions mq es b) (hcmd : cmd ∉ [cmdOpen, cmdClose] := by decide) :
    Sessions mq (e :: es) b := by
  have hctrl : e.msg.ctrl.cmd ∉ [cmdOpen, cmdClose] := by rwa [he.cmd_eq]
  cases mq with
  | none => exact .lost he.mq_eq h
  | some q => exact .message hctrl he.mq_eq h

/-- Closing a client ends its session, if it has one. -/
theorem Sessions.of_close {cl : Client} {e : Sent cfg}
    (he : IsReply k cl cmdClose 0 none none 0 0 e) : Sessions cl.mq [e] none := by
  have hmq := he.mq_eq
  cases hq : cl.mq with
  | none => exact .lost (hmq.trans hq) (.nil _)
  | some q => exact .close he.cmd_eq (hmq.trans hq) (.nil _)

theorem Close.sessions {cl cl' : Client} {tr : Trace cfg} (h : Close k cl tr cl') :
    Sessions cl.mq (sends tr) cl'.mq := by
  obtain ⟨e, he, hs, rfl⟩ := h.spec
  rw [hs]
  exact .of_close he

/-- Serving a client goes on with its session, or ends it. -/
theorem Serve.sessions {topic : CString} {payload : Ptr} {paylen prio : ℕ} {nodes : List CString}
    {cl cl' : Client} {tr : Trace cfg} (h : Serve topic payload paylen prio k nodes cl tr cl') :
    Sessions cl.mq (sends tr) cl'.mq := by
  induction h with
  | done => exact .nil _
  | skip _ _ ih => exact ih
  | sent _ he => exact .of_reply he (.nil _)
  | missed _ he _ _ _ ih => exact .of_reply he ih
  | evicted _ he _ _ hc => exact .of_reply he hc.sessions

/-- A request goes on with the sessions of every slot. -/
theorem SlotStep.sessions {s : Broker cfg} {msg : PsmqMsg cfg} {prio : ℕ} {tr : Trace cfg}
    {cl : Client} (h : SlotStep s msg prio k tr cl) :
    Sessions (s.clients k).mq (sendsTo k tr) cl.mq := by
  cases h with
  | idle hs =>
    rw [hs]
    exact .nil _
  | opened _ hfree he hok hs =>
    rw [hs, not_not.1 hfree]
    exact .begin he.cmd_eq hok he.mq_eq (.nil _)
  | noReply _ hfree he hok hs =>
    rw [hs, not_not.1 hfree]
    exact .untold he.cmd_eq hok (.nil _)
  | closed _ _ h =>
    rw [h.onlyTo.sendsTo_self]
    exact h.sessions
  | subscribed _ _ _ h =>
    rw [h.onlyTo.sendsTo_self]
    rcases h with ⟨_, _, he⟩ | ⟨_, he⟩ | ⟨_, he⟩ <;> exact .of_reply he (.nil _)
  | unsubscribed _ _ _ h =>
    rw [h.onlyTo.sendsTo_self]
    rcases h with ⟨_, he⟩ | ⟨_, he⟩ <;> exact .of_reply he (.nil _)
  | served _ _ _ hs h =>
    rw [hs]
    exact h.sessions
  | ioctl _ _ _ h =>
    rw [h.onlyTo.sendsTo_self]
    rcases h with ⟨_, he⟩ | ⟨_, _, _, _, he⟩ | ⟨_, _, _, he⟩ | ⟨_, _, he⟩ <;>
      exact .of_reply he (.nil _)

theorem exec_brokerStart_sessions {s s' : Broker cfg} {bytes : List UInt8} {prio : ℕ}
    {tr : Trace cfg} (h : Exec (brokerStart s bytes prio) tr s') (k : Slot cfg) :
    Sessions (s.clients k).mq (sendsTo k tr) (s'.clients k).mq := by
  rcases exec_brokerStart h with _ | ⟨-, h⟩
  · exact .nil _
  · exact (h.slotStep k).sessions

/-- The loop goes on with the sessions of every slot. -/
theorem exec_brokerLoop_sessions {rounds : List Bool} {s : Broker cfg} {tr : Trace cfg}
    {x : Broker cfg × ℤ} (h : Exec (brokerLoop rounds s) tr x) (k : Slot cfg) :
    Sessions (s.clients k).mq (sendsTo k tr) (x.1.clients k).mq := by
  induction rounds generalizing s tr with
  | nil => exact absurd h (by simp [brokerLoop])
  | cons shutdown rounds ih =>
    rw [brokerLoop] at h
    split at h
    · obtain ⟨rfl, rfl⟩ := exec_ret_iff.1 h
      exact .nil _
    · obtain ⟨r, tr₁, rfl, h₁⟩ := exec_perform_bind_iff.1 h
      have hwait : sendsTo k (⟨.mqTimedreceive s.qctrl 5000, r⟩ :: tr₁) = sendsTo k tr₁ := rfl
      rw [hwait]
      cases r with
      | error e =>
        simp only at h₁
        split at h₁
        · exact ih h₁
        · obtain ⟨rfl, rfl⟩ := exec_ret_iff.1 h₁
          exact .nil _
      | ok msg =>
        obtain ⟨tr₂, s₁, tr₃, h₂, h₃, rfl⟩ := exec_bind_iff.1 h₁
        rw [sendsTo_append]
        exact (exec_brokerStart_sessions h₂ k).append (ih h₃)

/-- Stopping ends the sessions. -/
theorem exec_brokerCleanup_sessions {pc : PsmqdCfg} {s : Broker cfg} {tr : Trace cfg}
    {x : Broker cfg × ℤ} (h : Exec (brokerCleanup pc s) tr x) (k : Slot cfg) :
    Sessions (s.clients k).mq (sendsTo k tr) none := by
  obtain ⟨tr₁, hc, hs⟩ := exec_brokerCleanup h
  rw [sendsTo, hs, ← sendsTo]
  rcases hc.slot Close.onlyTo (List.nodup_finRange _) k with
    ⟨-, -, tr', hk, hclose⟩ | ⟨hfree, hk, -⟩
  · obtain ⟨e, he, htr', -⟩ := hclose.spec
    rw [hk, htr']
    exact .of_close he
  · rw [hk, not_not.1 (hfree (List.mem_finRange k))]
    exact .nil _

/-- In a whole execution of the daemon, what is sent on behalf of a slot is made
    of sessions, each ended: it sends nothing to a queue but in the session of
    its client, which it tells the end of. -/
theorem daemon_sessions {abi : Abi} {embedlog : Bool} {opts : List DaemonOpt} {rounds : List Bool}
    {s : Broker cfg} {tr : Trace cfg} {x : Broker cfg × ℤ}
    (h : Exec (psmqdMain abi embedlog opts rounds s) tr x) (k : Slot cfg) :
    Sessions none (sendsTo k tr) none := by
  rw [psmqdMain] at h
  obtain ⟨⟨dc, code⟩, hcfg⟩ : ∃ y, psmqdCfgParse abi embedlog opts = y := ⟨_, rfl⟩
  simp only [hcfg] at h
  split_ifs at h
  · obtain ⟨tr₁, ⟨s₁, rc⟩, tr₂, h₁, h₂, rfl⟩ := exec_bind_iff.1 h
    obtain ⟨hfree, hs⟩ := exec_brokerInit h₁
    have hnone : (s₁.clients k).mq = none := by rw [hfree]
    rw [sendsTo_append, sendsTo, hs, List.filter_nil, List.nil_append]
    simp only at h₂
    split at h₂
    · obtain ⟨rfl, -⟩ := exec_ret_iff.1 h₂
      exact .nil _
    · obtain ⟨tr₃, y, tr₄, h₃, h₄, rfl⟩ := exec_bind_iff.1 h₂
      obtain ⟨tr₅, z, tr₆, h₅, h₆, rfl⟩ := exec_bind_iff.1 h₄
      obtain ⟨rfl, -⟩ := exec_ret_iff.1 h₆
      rw [sendsTo_append, List.append_nil]
      have hloop := exec_brokerLoop_sessions h₃ k
      rw [hnone] at hloop
      exact hloop.append (exec_brokerCleanup_sessions h₅ k)
  · obtain ⟨rfl, -⟩ := exec_ret_iff.1 h
    exact .nil _
  · obtain ⟨rfl, -⟩ := exec_ret_iff.1 h
    exact .nil _

/-- A client opens `/c`; the other calls succeed. -/
def openingC : Trace smallest → (o : Op smallest) → Op.Res o
  | _, .mqTimedreceive _ _ => .ok ([111, 0, 0, 0, 47, 99, 0], 0)
  | past, o => answers smallest true past o

/-- The daemon stops with one client: it is told that it is open, then closed. -/
theorem daemon_sessions_one : ∃ (tr : Trace smallest) (x : Broker smallest × ℤ),
    Exec (psmqdMain lp64 false [] [false, true] (staticBroker smallest)) tr x ∧
    (sendsTo 0 tr).map (fun e => e.msg.ctrl.cmd) = [cmdOpen, cmdClose] ∧
    Sessions none (sendsTo 0 tr) none := by
  obtain ⟨tr, x, h, hcmd⟩ : ∃ tr x,
      eval openingC [] (psmqdMain lp64 false [] [false, true] (staticBroker smallest)) =
        some (tr, x) ∧ (sendsTo 0 tr).map (fun e => e.msg.ctrl.cmd) = [cmdOpen, cmdClose] :=
    ⟨_, _, rfl, by decide⟩
  exact ⟨tr, x, exec_of_eval h, hcmd, daemon_sessions (exec_of_eval h) 0⟩

end Psmq
