import Psmq.Daemon
import Psmq.System.Traffic

/-!
# Handling messages at once

Among other processes, the broker makes its calls one at a time, and theirs come
in between (`World`); by itself, it handles a message in one step (`brokerLts`).

The former is no more than the latter (`handling_atomic`): the messages the
broker takes, and the calls it makes, with their results, are those of a run of
the broker by itself, but for the last ones, when it is in the middle of a
message. So what holds all along the runs of the broker by itself, or of those
meeting a condition, holds whatever the other processes do.
-/

namespace Psmq

open CMem Prog PrioQueue

variable {cfg : Config}

/-- The messages the broker takes, with their priorities. -/
def takesIn (ls : List (SysLabel cfg)) : List (List UInt8 × ℕ) :=
  ls.filterMap fun
    | .take x => some (x.bytes, x.prio)
    | _ => none

/-- The calls the broker makes. -/
def callsIn (ls : List (SysLabel cfg)) : Trace cfg :=
  ls.filterMap fun
    | .brokerOp e => some e
    | _ => none

/-- The message that is handled in this step, if one is, meets the condition `C`. -/
def Meets (C : Broker cfg → BrokerLabel cfg → Prop) (W : World cfg) (l : SysLabel cfg) : Prop :=
  ∀ s x tr s', l = .finish → W.broker = .busy (.handle s x) tr (.ret s') →
    C s (.request x.bytes x.prio tr)

/-! ## What the broker has done -/

section Done

variable (pc : PsmqdCfg) (C : Broker cfg → BrokerLabel cfg → Prop) (ms : List (List UInt8 × ℕ))
  (tr : Trace cfg)

/-- With the calls `tr`, the broker may have started, and handled the messages
    `ms`, in steps that meet `C`; it has `s` in memory. -/
def Ran (s : Broker cfg) : Prop :=
  ∃ tr₀ x₀ bl, Exec (brokerInit pc (staticBroker cfg)) tr₀ x₀ ∧
    ((brokerLts cfg pc).restrict C).Run x₀.1 bl s ∧ bl.map BrokerLabel.message = ms.map some ∧
    tr = tr₀ ++ bl.flatMap BrokerLabel.trace

/-- The process of the broker may be there once it has taken the messages `ms`,
    and made the calls `tr`. -/
def BrokerProc.Did : BrokerProc cfg → Prop
  | idle s => Ran pc C ms tr s
  | busy .start tr' p => ms = [] ∧ tr = tr' ∧ (Job.start.prog pc (staticBroker cfg)).Reaches tr' p
  | busy (.handle s x) tr' p => s.qctrl ≠ none ∧ x.bytes.length ≤ sizeofMsg cfg ∧
      (brokerStart s x.bytes x.prio).Reaches tr' p ∧
      ∃ ms₀ tr₀, Ran pc C ms₀ tr₀ s ∧ ms = ms₀ ++ [(x.bytes, x.prio)] ∧ tr = tr₀ ++ tr'
  | busy .stop tr' p => ∃ s tr₀, Ran pc C ms tr₀ s ∧ (Job.stop.prog pc s).Reaches tr' p ∧
      tr = tr₀ ++ tr'
  | off => ∃ s tr₀ tr₁ x, Ran pc C ms tr₀ s ∧ Exec (brokerCleanup pc s) tr₁ x ∧ tr = tr₀ ++ tr₁

end Done

section Steps

variable {pc : PsmqdCfg} {C : Broker cfg → BrokerLabel cfg → Prop} {ms : List (List UInt8 × ℕ)}
  {tr : Trace cfg} {s s' : Broker cfg}

/-- A message handled is one more step. -/
theorem Ran.handle (h : Ran pc C ms tr s) {x : Item} {tr' : Trace cfg} (hq : s.qctrl ≠ none)
    (hlen : x.bytes.length ≤ sizeofMsg cfg) (hx : Exec (brokerStart s x.bytes x.prio) tr' s')
    (hC : C s (.request x.bytes x.prio tr')) :
    Ran pc C (ms ++ [(x.bytes, x.prio)]) (tr ++ tr') s' := by
  obtain ⟨tr₀, x₀, bl, h₀, hrun, hms, htr⟩ := h
  have hst : ((brokerLts cfg pc).restrict C).step s (.request x.bytes x.prio tr') s' :=
    ⟨.request hq hlen hx, hC⟩
  refine ⟨tr₀, x₀, bl ++ [.request x.bytes x.prio tr'], h₀,
    hrun.append (.cons hst (.nil _)), ?_, ?_⟩
  · rw [List.map_append, List.map_append, hms]
    rfl
  · rw [htr, List.append_assoc, List.flatMap_append, List.flatMap_singleton]
    rfl

/-- A call of the broker. -/
theorem BrokerProc.Did.call {job : Job cfg} {tr' : Trace cfg} {o : Op cfg}
    {k : Op.Res o → P cfg (Broker cfg)} (h : Did pc C ms tr (busy job tr' (.call o k)))
    (r : Op.Res o) : Did pc C ms (tr ++ [⟨o, r⟩]) (busy job (tr' ++ [⟨o, r⟩]) (k r)) := by
  cases job with
  | start =>
    obtain ⟨hms, rfl, hp⟩ := h
    exact ⟨hms, rfl, hp.call r⟩
  | handle s x =>
    obtain ⟨hq, hlen, hp, ms₀, tr₀, hran, hms, rfl⟩ := h
    exact ⟨hq, hlen, hp.call r, ms₀, tr₀, hran, hms, List.append_assoc ..⟩
  | stop =>
    obtain ⟨s, tr₀, hran, hp, rfl⟩ := h
    exact ⟨s, tr₀, hran, hp.call r, List.append_assoc ..⟩

/-- The end of what the broker was doing. -/
theorem BrokerProc.Did.finish {job : Job cfg} {tr' : Trace cfg}
    (h : Did pc C ms tr (busy job tr' (.ret s')))
    (hC : ∀ s x, job = .handle s x → C s (.request x.bytes x.prio tr')) :
    Did pc C ms tr (job.done s') := by
  have hend : ∀ {p : P cfg (Broker cfg)}, p.Reaches tr' (.ret s') → Exec p tr' s' := fun hp => by
    simpa using hp.exec (.ret s')
  cases job with
  | start =>
    obtain ⟨rfl, rfl, hp⟩ := h
    obtain ⟨tr₀, x₀, tr₁, h₀, h₁, htr⟩ := exec_bind_iff.1 (hend hp)
    obtain ⟨rfl, rfl⟩ := exec_ret_iff.1 h₁
    exact ⟨tr₀, x₀, [], h₀, .nil _, rfl, by rw [htr]; rfl⟩
  | handle s x =>
    obtain ⟨hq, hlen, hp, ms₀, tr₀, hran, rfl, rfl⟩ := h
    exact hran.handle hq hlen (hend hp) (hC s x rfl)
  | stop =>
    obtain ⟨s, tr₀, hran, hp, rfl⟩ := h
    obtain ⟨tr₁, y, tr₂, h₁, h₂, htr⟩ := exec_bind_iff.1 (hend hp)
    obtain ⟨rfl, -⟩ := exec_ret_iff.1 h₂
    exact ⟨s, tr₀, tr₁, y, hran, h₁, by rw [htr, List.append_nil]⟩

end Steps

/-! ## The messages on the queues -/

/-- The messages on the queues have the size of a message at most. -/
def Os.Bounded (cfg : Config) (os : Os) : Prop :=
  ∀ q, ∀ x ∈ os.items q, x.bytes.length ≤ sizeofMsg cfg

section Bounded

variable {p : Pid} {os os' : Os} {o : Op cfg} {r : Op.Res o} {q : Qid} {x : Item}

/-- A message that is put on a queue is the start of a `struct psmq_msg`. -/
theorem length_le_of_putBy (h : putBy p os ⟨o, r⟩ = some (q, x)) :
    x.bytes.length ≤ sizeofMsg cfg := by
  have htake : ∀ (msg : PsmqMsg cfg) len, (msg.toBytes.take len).length ≤ sizeofMsg cfg :=
    fun msg len => (List.length_take_le' _ _).trans_eq msg.length_toBytes
  cases o with
  | mqSend src mq msg len prio =>
    cases r with
    | error e => exact nomatch h
    | ok u =>
      obtain ⟨_, -, h⟩ := Option.map_eq_some_iff.1 h
      obtain ⟨-, rfl⟩ := Prod.mk.inj h
      exact htake msg len
  | mqTimedsend slot mq msg len prio timeout =>
    cases r with
    | false => exact nomatch h
    | true =>
      obtain ⟨_, -, h⟩ := Option.map_eq_some_iff.1 h
      obtain ⟨-, rfl⟩ := Prod.mk.inj h
      exact htake msg len
  | _ => exact nomatch h

theorem OsStep.bounded (h : OsStep p os o r os') (hos : os.Bounded cfg) : os'.Bounded cfg := by
  intro q x hx
  rcases h.mem_items hx with ⟨hx, -⟩ | hput
  · exact hos q x hx
  · exact length_le_of_putBy hput

end Bounded

/-! ## Runs -/

section Runs

variable {pc : PsmqdCfg} {C : Broker cfg → BrokerLabel cfg → Prop} {W W' : World cfg}
  {ls : List (SysLabel cfg)} {l : SysLabel cfg}

theorem WorldStep.bounded (hst : WorldStep pc W l W') (h : W.os.Bounded cfg) :
    W'.os.Bounded cfg := by
  cases hst with
  | clientOp hos => exact hos.bounded h
  | brokerOp _ hos => exact hos.bounded h
  | @take _ q x l _ _ hl =>
    intro q' y hy
    by_cases hq : q' = q
    · subst hq
      rw [Os.setItems_self] at hy
      exact h q' y (hl ▸ List.mem_cons_of_mem x hy)
    · rw [Os.setItems_of_ne hq] at hy
      exact h q' y hy
  | _ => exact h

/-- One step of the broker among other processes. -/
theorem WorldStep.did (hst : WorldStep pc W l W') (hm : Meets C W l) (hb : W.os.Bounded cfg)
    (h : W.broker.Did pc C (takesIn ls) (callsIn ls)) :
    W'.broker.Did pc C (takesIn (ls ++ [l])) (callsIn (ls ++ [l])) := by
  rw [takesIn, List.filterMap_append, ← takesIn, callsIn, List.filterMap_append, ← callsIn]
  cases hst with
  | call | clientOp | «return» => simpa using h
  | @take s q x l hidle hfd hl =>
    rw [hidle] at h
    refine ⟨?_, hb q x (hl ▸ List.mem_cons_self), .start, _, _, h, rfl, rfl⟩
    intro hnone
    rw [hnone] at hfd
    exact nomatch hfd
  | stop hidle =>
    rw [hidle] at h
    simpa using ⟨_, _, h, .start, (List.append_nil _).symm⟩
  | @brokerOp job tr o k r os' hbusy hos =>
    rw [hbusy] at h
    simpa using h.call r
  | @finish job tr s hbusy =>
    rw [hbusy] at h
    simpa using h.finish fun s x hjob => hm s x tr _ rfl (hjob ▸ hbusy)

theorem did_of_run (h : ((worldLts cfg pc).restrict (Meets C)).Run (.start cfg pc) ls W) :
    W.os.Bounded cfg ∧ W.broker.Did pc C (takesIn ls) (callsIn ls) := by
  refine h.history (R := fun W ls => W.os.Bounded cfg ∧
    W.broker.Did pc C (takesIn ls) (callsIn ls)) (fun W l W' ls hW hst => ?_) ⟨?_, ?_⟩
  · obtain ⟨hst, hm⟩ : WorldStep pc W l W' ∧ Meets C W l := hst
    exact ⟨hst.bounded hW.1, hst.did hm hW.1 hW.2⟩
  · exact fun q x hx => absurd hx List.not_mem_nil
  · exact ⟨rfl, rfl, .start⟩

/-- Whatever the other processes do, and whenever, the messages the broker has
    taken when it waits for the next one, and the calls it has made, with their
    results, are those of a run of the broker by itself, which ends with the same
    memory. In the middle of a message, it has made some of the calls made to
    handle it, since such a run. If the messages handled meet a condition, so do
    the steps of the run. -/
theorem handling_atomic (h : ((worldLts cfg pc).restrict (Meets C)).Run (.start cfg pc) ls W) :
    (∀ s, W.broker = .idle s → Ran pc C (takesIn ls) (callsIn ls) s) ∧
    ∀ s x tr p, W.broker = .busy (.handle s x) tr p →
      (brokerStart s x.bytes x.prio).Reaches tr p ∧ ∃ ms₀ tr₀, Ran pc C ms₀ tr₀ s ∧
        takesIn ls = ms₀ ++ [(x.bytes, x.prio)] ∧ callsIn ls = tr₀ ++ tr := by
  obtain ⟨-, hdid⟩ := did_of_run h
  refine ⟨fun s hs => ?_, fun s x tr p hb => ?_⟩
  · rw [hs] at hdid
    exact hdid
  · rw [hb] at hdid
    exact ⟨hdid.2.2.1, hdid.2.2.2⟩

/-- The broker starts, and a client connects. -/
theorem handling_atomic_one : ∃ (ls : List (SysLabel smallest)) (W : World smallest)
    (s : Broker smallest),
    (worldLts smallest psmqdCfgInit).Run (.start smallest psmqdCfgInit) ls W ∧
    (takesIn ls).length = 1 ∧ 2 < (callsIn ls).length ∧ W.broker = .idle s ∧
    Ran psmqdCfgInit (fun _ _ => True) (takesIn ls) (callsIn ls) s := by
  obtain ⟨⟨ls, S⟩, hS, hlen, hcalls, hidle⟩ :
      ∃ x ∈ Sys.turns psmqdCfgInit twoNames (List.replicate 2 .broker ++ connecting 0 nameA 10)
        (.start smallest psmqdCfgInit), (takesIn x.1).length = 1 ∧ 2 < (callsIn x.1).length ∧
          x.2.broker.waiting.isSome = true := by
    decide +kernel
  obtain ⟨s, hs⟩ := Option.isSome_iff_exists.1 hidle
  have hrun := (Sys.run_of_turns hS).map (f := Sys.world)
    (N := (worldLts smallest psmqdCfgInit).restrict (Meets fun _ _ => True))
    fun S l S' h => ⟨SysStep.world h, fun _ _ _ _ _ _ => trivial⟩
  exact ⟨ls, S.world, s, hrun.of_restrict, hlen, hcalls, BrokerProc.eq_of_waiting hs,
    (handling_atomic hrun).1 s (BrokerProc.eq_of_waiting hs)⟩

end Runs

end Psmq
