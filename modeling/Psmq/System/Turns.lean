import Psmq.System

/-!
# Computed runs

Some runs of the system can be computed: those where a call succeeds if it can
(`Os.act`), given who makes each step (`Turn`), or some calls that fail as well
(`Move`). A list of turns that can all be made is a run of the system
(`Sys.run_of_turns`), and a list of moves that all meet a condition reaches a
state of the system restricted to it (`reachable_of_moves`).
-/

namespace Psmq

open CMem Prog

variable {cfg : Config} {pc : PsmqdCfg} {names : QueueNames pc} {S S' : Sys cfg}

/-! ## The operating system -/

/-- The first descriptor, or queue, that is not in use. -/
def firstFree {α : Type} (f : ℕ → Option α) : Option ℕ :=
  (List.range' 1 8).find? fun d => (f d).isNone

theorem firstFree_spec {α : Type} {f : ℕ → Option α} {d : ℕ} (h : firstFree f = some d) :
    0 < d ∧ f d = none := by
  have hd : (f d).isNone = true := List.find?_some (p := fun d => (f d).isNone) h
  exact ⟨(List.mem_range'_1.1 (List.mem_of_find?_eq_some h)).1, Option.isNone_iff_eq_none.1 hd⟩

/-- The first message on the queue open with a descriptor of the process `p`, with
    the system once it is received. -/
def Os.receive (p : Pid) (os : Os) (mq : Mqd) : Option (Item × Os) :=
  (os.fd p mq).bind fun q => match os.items q with
    | [] => none
    | x :: l => some (x, os.setItems q l)

/-- A system whose calls succeed if they can. -/
def Os.act (p : Pid) (os : Os) : (o : Op cfg) → Option (Op.Res o × Os)
  | .mqOpen name flags => (firstFree (os.fds p)).bind fun d => match os.names name with
    | some q =>
      if flags.creat = true ∧ flags.excl = true then none
      else some (.ok d, os.setFd p d (some q))
    | none => if flags.creat = true then (firstFree os.creator).map fun q =>
        (.ok d, (os.create p name q flags.maxmsg.toNat).setFd p d (some q)) else none
  | .mqClose mq => some (none, mq.elim os fun d => os.setFd p d none)
  | .mqUnlink name => some (none, os.unlink name)
  | .mqSend src mq msg len prio => (os.fd p mq).bind fun q =>
    if (os.items q).length < os.room q then
      some (.ok (), os.put q ⟨msg.toBytes.take len, prio, p, os.fd p src⟩)
    else none
  | .mqTimedsend _ mq msg len prio _ => (os.fd p mq).map fun q =>
    if (os.items q).length < os.room q then
      (true, os.put q ⟨msg.toBytes.take len, prio, p, none⟩)
    else (false, os)
  | .mqReceive mq => (os.receive p mq).map fun x => (.ok (x.1.bytes, x.1.prio), x.2)
  | .mqTimedreceive mq _ => (os.receive p mq).map fun x => (.ok (x.1.bytes, x.1.prio), x.2)
  | .malloc _ => some (true, os)

theorem Os.receive_eq_some {p : Pid} {os os' : Os} {mq : Mqd} {x : Item}
    (h : os.receive p mq = some (x, os')) :
    ∃ q l, os.fd p mq = some q ∧ os.items q = x :: l ∧ os' = os.setItems q l := by
  obtain ⟨q, hq, h⟩ := Option.bind_eq_some_iff.1 h
  cases hl : os.items q with
  | nil => simp [hl] at h
  | cons y l =>
    simp only [hl, Option.some.injEq, Prod.mk.injEq] at h
    obtain ⟨rfl, rfl⟩ := h
    exact ⟨q, l, hq, hl, rfl⟩

theorem Os.act_step {p : Pid} {os os' : Os} {o : Op cfg} {r : Op.Res o}
    (h : os.act p o = some (r, os')) : OsStep p os o r os' := by
  cases o with
  | mqOpen name flags =>
    obtain ⟨d, hd, h⟩ := Option.bind_eq_some_iff.1 h
    obtain ⟨hpos, hd⟩ := firstFree_spec hd
    cases hn : os.names name with
    | some q =>
      simp only [hn] at h
      split at h
      · simp at h
      · next hex =>
        obtain ⟨rfl, rfl⟩ := Prod.mk.inj (Option.some.inj h)
        exact .opened hn hex hpos hd
    | none =>
      simp only [hn] at h
      split at h
      · next hcreat =>
        obtain ⟨q, hq, h⟩ := Option.map_eq_some_iff.1 h
        obtain ⟨rfl, rfl⟩ := Prod.mk.inj h
        exact .created hn hcreat (firstFree_spec hq).2 hpos hd
      · simp at h
  | mqClose mq =>
    obtain ⟨rfl, rfl⟩ := Prod.mk.inj (Option.some.inj h)
    exact .closed
  | mqUnlink name =>
    obtain ⟨rfl, rfl⟩ := Prod.mk.inj (Option.some.inj h)
    exact .unlinked
  | mqSend src mq msg len prio =>
    obtain ⟨q, hq, h⟩ := Option.bind_eq_some_iff.1 h
    split at h
    · next hroom =>
      obtain ⟨rfl, rfl⟩ := Prod.mk.inj (Option.some.inj h)
      exact .sent hq hroom
    · simp at h
  | mqTimedsend slot mq msg len prio timeout =>
    obtain ⟨q, hq, h⟩ := Option.map_eq_some_iff.1 h
    split at h
    · next hroom =>
      obtain ⟨rfl, rfl⟩ := Prod.mk.inj h
      exact .timedsent hq hroom
    · obtain ⟨rfl, rfl⟩ := Prod.mk.inj h
      exact .timedsendFail
  | mqReceive mq =>
    obtain ⟨⟨x, os₁⟩, hx, h⟩ := Option.map_eq_some_iff.1 h
    obtain ⟨rfl, rfl⟩ := Prod.mk.inj h
    obtain ⟨q, l, hq, hl, rfl⟩ := receive_eq_some hx
    exact .received hq hl
  | mqTimedreceive mq ms =>
    obtain ⟨⟨x, os₁⟩, hx, h⟩ := Option.map_eq_some_iff.1 h
    obtain ⟨rfl, rfl⟩ := Prod.mk.inj h
    obtain ⟨q, l, hq, hl, rfl⟩ := receive_eq_some hx
    exact .timedreceived hq hl
  | malloc size =>
    obtain ⟨rfl, rfl⟩ := Prod.mk.inj (Option.some.inj h)
    exact .malloc

/-! ## Turns -/

/-- Who makes the next step: a client beginning a call, a client going on with
    its call, or the broker going on. -/
inductive Turn (cfg : Config)
  | call (i : ℕ) (c : Call cfg)
  | client (i : ℕ)
  | broker

instance (pc : PsmqdCfg) (owner : CString → Option ℕ) (i : ℕ) (c : Call cfg) :
    Decidable (c.Allowed pc owner i) := by
  cases c <;> unfold Call.Allowed <;> infer_instance

/-- The step made at a turn. -/
def Sys.turn (pc : PsmqdCfg) (names : QueueNames pc) (S : Sys cfg) :
    Turn cfg → Option (SysLabel cfg × Sys cfg)
  | .call i c => match S.clients i with
    | .idle psmq => if c.Allowed pc names.owner i then
        some (.call i c, S.setClient i (.busy c psmq [] (c.prog psmq))) else none
    | .busy _ _ _ _ => none
  | .client i => match S.clients i with
    | .busy c psmq tr (.call o k) => (S.os.act (.client i) o).map fun x =>
      (.clientOp i ⟨o, x.1⟩,
        { S.setClient i (.busy c psmq (tr ++ [⟨o, x.1⟩]) (k x.1)) with os := x.2 })
    | .busy _ _ _ (.ret psmq) => some (.return i, S.setClient i (.idle psmq))
    | _ => none
  | .broker => match S.broker with
    | .idle s => (S.os.receive .broker s.qctrl).map fun x =>
      (.take x.1, { S with os := x.2
                           broker := .busy (.handle s x.1) [] ((Job.handle s x.1).prog pc s) })
    | .busy job tr (.call o k) => (S.os.act .broker o).map fun x =>
      (.brokerOp ⟨o, x.1⟩, { S with os := x.2, broker := .busy job (tr ++ [⟨o, x.1⟩]) (k x.1) })
    | .busy job _ (.ret s) => some (.finish, { S with broker := job.done s })
    | _ => none

theorem Sys.step_of_turn {a : Turn cfg} {l : SysLabel cfg} (h : S.turn pc names a = some (l, S')) :
    SysStep pc names S l S' := by
  cases a with
  | call i c =>
    cases hi : S.clients i with
    | idle psmq =>
      simp only [turn, hi] at h
      split at h
      · next hc =>
        obtain ⟨rfl, rfl⟩ := Prod.mk.inj (Option.some.inj h)
        exact .call hi hc
      · simp at h
    | busy => simp [turn, hi] at h
  | client i =>
    cases hi : S.clients i with
    | idle => simp [turn, hi] at h
    | busy c psmq tr p =>
      cases p with
      | call o k =>
        simp only [turn, hi] at h
        obtain ⟨⟨r, os'⟩, hact, h⟩ := Option.map_eq_some_iff.1 h
        obtain ⟨rfl, rfl⟩ := Prod.mk.inj h
        exact .clientOp hi (Os.act_step hact)
      | ret psmq' =>
        simp only [turn, hi] at h
        obtain ⟨rfl, rfl⟩ := Prod.mk.inj (Option.some.inj h)
        exact .return hi
      | fault => simp [turn, hi] at h
  | broker =>
    cases hb : S.broker with
    | idle s =>
      simp only [turn, hb] at h
      obtain ⟨⟨x, os'⟩, hx, h⟩ := Option.map_eq_some_iff.1 h
      obtain ⟨rfl, rfl⟩ := Prod.mk.inj h
      obtain ⟨q, l, hq, hl, rfl⟩ := Os.receive_eq_some hx
      exact .take hb hq hl
    | busy job tr p =>
      cases p with
      | call o k =>
        simp only [turn, hb] at h
        obtain ⟨⟨r, os'⟩, hact, h⟩ := Option.map_eq_some_iff.1 h
        obtain ⟨rfl, rfl⟩ := Prod.mk.inj h
        exact .brokerOp hb (Os.act_step hact)
      | ret s =>
        simp only [turn, hb] at h
        obtain ⟨rfl, rfl⟩ := Prod.mk.inj (Option.some.inj h)
        exact .finish hb
      | fault => simp [turn, hb] at h
    | off => simp [turn, hb] at h

/-- The steps made at some turns. -/
def Sys.turns (pc : PsmqdCfg) (names : QueueNames pc) :
    List (Turn cfg) → Sys cfg → Option (List (SysLabel cfg) × Sys cfg)
  | [], S => some ([], S)
  | a :: as, S => (S.turn pc names a).bind fun x =>
    (turns pc names as x.2).map fun y => (x.1 :: y.1, y.2)

theorem Sys.run_of_turns {as : List (Turn cfg)} {ls : List (SysLabel cfg)}
    (h : Sys.turns pc names as S = some (ls, S')) : (sysLts cfg pc names).Run S ls S' := by
  induction as generalizing S ls with
  | nil =>
    obtain ⟨rfl, rfl⟩ := Prod.mk.inj (Option.some.inj h)
    exact .nil S
  | cons a as ih =>
    obtain ⟨⟨l, S₁⟩, h₁, h⟩ := Option.bind_eq_some_iff.1 h
    obtain ⟨⟨ls', S₂⟩, h₂, h⟩ := Option.map_eq_some_iff.1 h
    obtain ⟨rfl, rfl⟩ := Prod.mk.inj h
    exact .cons (step_of_turn h₁) (ih h₂)

/-! ## Handling a message -/

/-- The calls of a program, if they can all be made. -/
def Os.exec {α : Type} (p : Pid) (os : Os) : P cfg α → Option (Trace cfg × α × Os)
  | .ret a => some ([], a, os)
  | .fault _ => none
  | .call o k => (os.act p o).bind fun x =>
    (exec p x.2 (k x.1)).map fun y => (⟨o, x.1⟩ :: y.1, y.2)

/-- A message is taken, and handled. -/
def Sys.handle (S : Sys cfg) :
    Option (Broker cfg × Item × Trace cfg × Broker cfg × Sys cfg) :=
  match S.broker with
  | .idle s => (S.os.receive .broker s.qctrl).bind fun x =>
    (x.2.exec .broker (brokerStart s x.1.bytes x.1.prio)).map fun y =>
      (s, x.1, y.1, y.2.1,
        { S with os := y.2.2, broker := .busy (.handle s x.1) y.1 (.ret y.2.1) })
  | _ => none

theorem Sys.run_of_exec {job : Job cfg} {tr tr' : Trace cfg} {p : P cfg (Broker cfg)}
    {s' : Broker cfg} {os' : Os} (hb : S.broker = .busy job tr p)
    (h : S.os.exec .broker p = some (tr', s', os')) : ∃ ls, (sysLts cfg pc names).Run S ls
      { S with os := os', broker := .busy job (tr ++ tr') (.ret s') } ∧ .finish ∉ ls := by
  induction p generalizing S tr tr' with
  | ret s =>
    obtain ⟨rfl, rfl, rfl⟩ : [] = tr' ∧ s = s' ∧ S.os = os' := by simpa [Os.exec] using h
    rw [List.append_nil, ← hb]
    exact ⟨[], .nil S, List.not_mem_nil⟩
  | fault e => simp [Os.exec] at h
  | call o k ih =>
    obtain ⟨⟨r, os₁⟩, hact, h⟩ := Option.bind_eq_some_iff.1 h
    obtain ⟨⟨tr₁, x⟩, hexec, h⟩ := Option.map_eq_some_iff.1 h
    obtain ⟨rfl, rfl⟩ := Prod.mk.inj h
    -- The first call is a step of the broker, and the others follow.
    have hst : SysStep pc names S (.brokerOp ⟨o, r⟩) _ := .brokerOp hb (Os.act_step hact)
    obtain ⟨ls, hrun, hls⟩ := ih r
      (S := { S with os := os₁, broker := .busy job (tr ++ [⟨o, r⟩]) (k r) }) rfl hexec
    exact ⟨_, .cons hst (by simpa using hrun), by simpa using hls⟩

theorem Sys.handled_of_handle {s s' : Broker cfg} {x : Item} {tr : Trace cfg}
    (h : S.handle = some (s, x, tr, s', S')) : Handled pc names S s x tr s' S' := by
  cases hb : S.broker with
  | idle s₀ =>
    simp only [handle, hb] at h
    obtain ⟨⟨x₀, os₁⟩, hx, h⟩ := Option.bind_eq_some_iff.1 h
    obtain ⟨⟨tr₀, s₁, os'⟩, hexec, h⟩ := Option.map_eq_some_iff.1 h
    simp only [Prod.mk.injEq] at h
    obtain ⟨rfl, rfl, rfl, rfl, rfl⟩ := h
    obtain ⟨q, l, hq, hl, rfl⟩ := Os.receive_eq_some hx
    -- The message is taken in one step, and handled in the next ones.
    have hst : SysStep pc names S (.take x₀) _ := .take hb hq hl
    obtain ⟨ls, hrun, hls⟩ : ∃ ls, (sysLts cfg pc names).Run { S with
        os := S.os.setItems q l
        broker := .busy (.handle s₀ x₀) [] ((Job.handle s₀ x₀).prog pc s₀) } ls _ ∧ .finish ∉ ls :=
      run_of_exec rfl hexec
    exact ⟨hb, ⟨_, ls, hst, hrun, hls⟩, rfl⟩
  | busy => simp [handle, hb] at h
  | off => simp [handle, hb] at h

/-! ## Calls that fail -/

/-- A step that may be computed: a turn, or a call that fails, of the client `i`
    waiting for the reply of the broker, or of the broker opening a queue. -/
inductive Move (cfg : Config)
  | turn (a : Turn cfg)
  | giveUp (i : ℕ)
  | noEntry

/-- The step made by a move. -/
def Sys.move (pc : PsmqdCfg) (names : QueueNames pc) (S : Sys cfg) :
    Move cfg → Option (SysLabel cfg × Sys cfg)
  | .turn a => S.turn pc names a
  | .giveUp i => match S.clients i with
    | .busy c psmq tr (.call (.mqTimedreceive mq ms) k) =>
      some (.clientOp i ⟨.mqTimedreceive mq ms, .error ETIMEDOUT⟩, S.setClient i
        (.busy c psmq (tr ++ [⟨.mqTimedreceive mq ms, .error ETIMEDOUT⟩]) (k (.error ETIMEDOUT))))
    | _ => none
  | .noEntry => match S.broker with
    | .busy job tr (.call (.mqOpen name flags) k) =>
      some (.brokerOp ⟨.mqOpen name flags, .error ENOENT⟩, { S with
        broker := .busy job (tr ++ [⟨.mqOpen name flags, .error ENOENT⟩]) (k (.error ENOENT)) })
    | _ => none

theorem Sys.step_of_move {m : Move cfg} {l : SysLabel cfg}
    (h : S.move pc names m = some (l, S')) : SysStep pc names S l S' := by
  cases m with
  | turn a => exact step_of_turn h
  | giveUp i =>
    rw [move] at h
    split at h
    · next hi =>
      obtain ⟨rfl, rfl⟩ := Prod.mk.inj (Option.some.inj h)
      exact .clientOp hi .timedreceiveFail
    · simp at h
  | noEntry =>
    rw [move] at h
    split at h
    · next hb =>
      obtain ⟨rfl, rfl⟩ := Prod.mk.inj (Option.some.inj h)
      exact .brokerOp hb .openFail
    · simp at h

section Watched

variable {G : Type}

/-- The steps made by some moves, all meeting the condition `C`, with a value
    that follows them. -/
def moves (pc : PsmqdCfg) (names : QueueNames pc) (after : G → Sys cfg → SysLabel cfg → Sys cfg → G)
    (C : Sys cfg × G → SysLabel cfg → Prop) [∀ X l, Decidable (C X l)] :
    List (Move cfg) → Sys cfg × G → Option (Sys cfg × G)
  | [], X => some X
  | m :: ms, X => (X.1.move pc names m).bind fun x =>
    if C X x.1 then moves pc names after C ms (x.2, after X.2 X.1 x.1 x.2) else none

theorem run_of_moves {g : G} {after : G → Sys cfg → SysLabel cfg → Sys cfg → G}
    {C : Sys cfg × G → SysLabel cfg → Prop} [∀ X l, Decidable (C X l)] {ms : List (Move cfg)}
    {X X' : Sys cfg × G} (h : moves pc names after C ms X = some X') :
    ∃ ls, (((sysLts cfg pc names).watch g after).restrict C).Run X ls X' := by
  induction ms generalizing X with
  | nil =>
    obtain rfl := Option.some.inj h
    exact ⟨[], .nil X⟩
  | cons m ms ih =>
    obtain ⟨⟨l, S⟩, hm, h⟩ := Option.bind_eq_some_iff.1 h
    split at h
    · next hC =>
      obtain ⟨ls, hrun⟩ := ih h
      exact ⟨l :: ls, .cons ⟨⟨Sys.step_of_move hm, rfl⟩, hC⟩ hrun⟩
    · simp at h

theorem reachable_of_moves {g : G} {after : G → Sys cfg → SysLabel cfg → Sys cfg → G}
    {C : Sys cfg × G → SysLabel cfg → Prop} [∀ X l, Decidable (C X l)] {ms : List (Move cfg)}
    {X X' : Sys cfg × G} (h : moves pc names after C ms X = some X')
    (hX : (((sysLts cfg pc names).watch g after).restrict C).Reachable X) :
    (((sysLts cfg pc names).watch g after).restrict C).Reachable X' := by
  obtain ⟨ls, hrun⟩ := run_of_moves h
  exact hrun.reachable hX

end Watched

/-- The memory of the broker, when it waits for a message. -/
def BrokerProc.waiting : BrokerProc cfg → Option (Broker cfg)
  | idle s => some s
  | _ => none

theorem BrokerProc.eq_of_waiting {b : BrokerProc cfg} {s : Broker cfg} (h : b.waiting = some s) :
    b = .idle s := by
  cases b with
  | idle s' => exact congrArg idle (Option.some.inj h)
  | busy => exact nomatch h
  | off => exact nomatch h

/-! ## Two clients -/

/-- The names `/a` and `/b` are those of the clients 0 and 1. -/
def nameA : CString := ⟨[47, 97], by decide⟩

def nameB : CString := ⟨[47, 98], by decide⟩

def twoNames : QueueNames psmqdCfgInit where
  owner name := if name = nameA then some 0 else if name = nameB then some 1 else none
  owner_brokerName := by decide

/-- A client connects, with a queue of `maxmsg` messages. -/
def connecting (i : ℕ) (name : CString) (maxmsg : ℤ) : List (Turn cfg) :=
  .call i (.init 1 none name maxmsg) :: List.replicate 4 (.client i) ++
    List.replicate 4 .broker ++ List.replicate 2 (.client i)

/-- A client sends a request. -/
def requesting (i : ℕ) (c : Call cfg) : List (Turn cfg) := [.call i c, .client i, .client i]

end Psmq
