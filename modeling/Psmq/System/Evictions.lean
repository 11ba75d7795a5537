import Mathlib.Data.List.Chain
import Psmq.Broker.Evictions
import Psmq.System.Traffic
import Psmq.System.Late

/-!
# Telling the clients they are evicted

A client evicted by a publish is told so, last (`evicted_told_last`): one close
message is put on its queue, whatever this holds, one message at most is
discarded to make room for it, and nothing is put on the queue after it.

This is among processes that may do anything but put messages on the queues of
the slots, and that may read at any moment. A queue is to be opened for one slot
only, with room for a message, and the calls of the broker are to fail only for
want of room, or of a message (`Assumed`).

The broker then holds the queue of each slot in one place (`Guarded`), and never
again once it has left its slot (`Gone`). All along a publish, what it has put on
a queue is told by its calls (`Sweeping`), which are those of an eviction: the
queue has room for the close message, as a message has just been received from
it, or there was none.
-/

namespace Psmq

open CMem Prog PrioQueue

variable {cfg : Config} {pc : PsmqdCfg}

/-! ## What is assumed -/

/-- A call of the broker on a queue only fails for want of room to send a message,
    or of a message to receive. -/
def Honest (os : Os) : Event (Op cfg) Op.Res → Prop
  | ⟨.mqTimedsend _ mq _ _ _ _, false⟩ =>
    ∀ q ∈ os.fd .broker mq, os.room q ≤ (os.items q).length
  | ⟨.mqTimedreceive mq _, .error _⟩ => ∀ q ∈ os.fd .broker mq, os.items q = []
  | _ => True

/-- What is sent to a queue with room for it is put on it. -/
theorem Honest.sent {os : Os} {f : Sent cfg} {q : Qid} (h : Honest os f.event)
    (hq : os.fd .broker f.mq = some q) (hlt : (os.items q).length < os.room q) : f.ok = true := by
  obtain ⟨slot, mq, msg, len, prio, timeout, ok⟩ := f
  cases ok with
  | true => rfl
  | false => exact absurd (h q hq) (Nat.not_le.2 hlt)

/-- Only the broker puts messages on the queues of the slots. A queue is not
    opened for a slot if it has had one, and it has room for a message. -/
def Assumed (X : World cfg × Traffic) : SysLabel cfg → Prop
  | .clientOp i e => ∀ y ∈ putBy (.client i) X.1.os e, y.1 ∉ X.2.slotted
  | .brokerOp e => (∀ q ∈ openedBy X.1.os e, q ∉ X.2.slotted ∧ 0 < X.1.os.room q) ∧
      Honest X.1.os e
  | _ => True

/-- The broker among the others, as is assumed of them. -/
def assumedLts (cfg : Config) (pc : PsmqdCfg) : Lts (World cfg × Traffic) (SysLabel cfg) :=
  (trafficLts cfg pc).restrict Assumed

/-! ## The queues of the slots -/

section Held

variable {os os' : Os} {job : Job cfg} {o : Op cfg} {r : Op.Res o} {h h' : Held cfg}
  {fds fds' : ℕ → Option Qid} {slotted : List Qid} {q : Qid}

/-- The queues held, but the spare one, are some of those that have been given a
    slot, and each is in one place. -/
structure Held.Lodged (fds : ℕ → Option Qid) (slotted : List Qid) (h : Held cfg) : Prop where
  places : ∀ a q, a ≠ .ctrl → a ≠ .spare → h.queue fds a = some q → q ∈ slotted
  spare : ∀ q, h.queue fds .spare = some q → q ∉ slotted
  inj : ∀ a b q, a ≠ .ctrl → b ≠ .ctrl → h.queue fds a = some q → h.queue fds b = some q → a = b

theorem Held.Lodged.init (fds : ℕ → Option Qid) : (Held.init : Held cfg).Lodged fds [] :=
  ⟨nofun, nofun, nofun⟩

theorem Held.Lodged.of_mq (hl : h.Lodged fds slotted) (hmq : h'.mq = h.mq) :
    h'.Lodged fds slotted := by
  have hqueue : h'.queue = h.queue := by
    funext fds a
    rw [Held.queue, Held.queue, hmq]
  exact ⟨hqueue ▸ hl.places, hqueue ▸ hl.spare, hqueue ▸ hl.inj⟩

/-- An offer that is delivered gives a slot to the spare queue. -/
theorem spare_of_offeredOn (hpre : jobPre pc h job o) (ho : offeredOn os ⟨o, r⟩ = some q) :
    h.queue (os.fds .broker) .spare = some q ∧ (jobNext h job o r).mq .spare = none := by
  cases o with
  | mqTimedsend slot mq msg len prio timeout =>
    cases r with
    | false => cases ho
    | true =>
      rw [offeredOn] at ho
      split_ifs at ho with hoffer
      have hcmd : (received cfg (msg.toBytes.take len)).ctrl.cmd = cmdOpen := by
        by_contra hne
        exact hoffer (offerOf_eq_none fun hc => hne (congrArg Ctrl.cmd hc))
      cases job with
      | start => exact hpre.elim
      | handle s x =>
        cases slot with
        | none =>
          change h.MaySend x none mq (msg.toBytes.take len) prio at hpre
          generalize msg.toBytes.take len = bytes at hpre hoffer
          cases hpre with
          | refuse _ hno => exact absurd hno hoffer
        | some k =>
          obtain ⟨rfl, -⟩ := Held.MaySend.of_open hpre hcmd
          refine ⟨ho, ?_⟩
          rw [jobNext_mqTimedsend rfl, hcmd, Held.onSend_open, if_pos rfl]
          exact Held.move_mq_from
      | stop =>
        obtain ⟨_, -, -, hclose, -⟩ := hpre
        exact cmd_absurd hcmd hclose
  | _ => cases ho

/-- The queues of the slots stay so if one that is opened has had no slot. -/
theorem Held.Lodged.step (hl : h.Lodged (os.fds .broker) slotted)
    (hs : job ≠ .stop → h.Sound (os.fds .broker)) (hpre : jobPre pc h job o)
    (hst : OsStep .broker os o r os') (hnew : ∀ q ∈ openedBy os ⟨o, r⟩, q ∉ slotted) :
    (jobNext h job o r).Lodged (os'.fds .broker) (slotted ++ (offeredOn os ⟨o, r⟩).toList) := by
  have hstep := jobNext_step hst hpre
  refine ⟨fun a q ha hspare hqa => ?_, fun q hq => ?_, fun a b q ha hb hqa hqb => ?_⟩
  · rw [List.mem_append]
    rcases hstep.queue hs hpre hqa with
      hqa | ⟨hctrl, -⟩ | ⟨ha', -⟩ | ⟨k, -, -, -, hoffer, -⟩ | ⟨k, -, hqa, -⟩
    · exact .inl (hl.places a q ha hspare hqa)
    · exact absurd hctrl ha
    · exact absurd ha' hspare
    · exact .inr (Option.mem_toList.2 hoffer)
    · exact .inl (hl.places _ q (by simp) (by simp) hqa)
  · -- No slot is given as long as there is a spare queue.
    have hnone : offeredOn os ⟨o, r⟩ = none := by
      by_contra hne
      obtain ⟨q', hq'⟩ := Option.ne_none_iff_exists'.1 hne
      exact Held.mq_ne_none hq (spare_of_offeredOn hpre hq').2
    rw [hnone, Option.toList_none, List.append_nil]
    rcases hstep.queue hs hpre hq with hq | ⟨ha, -⟩ | ⟨-, hopen⟩ | ⟨_, ha, -⟩ | ⟨_, ha, -⟩
    · exact hl.spare q hq
    · exact nomatch ha
    · exact hnew q hopen
    · exact nomatch ha
    · exact nomatch ha
  · -- A queue that has just been opened was in no other place than the spare one.
    have hspare {b : Place cfg} (hb : b ≠ .ctrl)
        (hqb : (jobNext h job o r).queue (os'.fds .broker) b = some q)
        (hqs : (jobNext h job o r).queue (os'.fds .broker) .spare = some q)
        (hopen : openedBy os ⟨o, r⟩ = some q) : b = .spare := by
      rcases hstep.origin hs hpre hb hqb with ⟨hb, -⟩ | ⟨b₀, hb₀, hqb₀, hdest⟩
      · exact hb
      · obtain rfl : b₀ = .spare := by
          by_contra hne
          exact hnew q hopen (hl.places b₀ q hb₀ hne hqb₀)
        exact hdest.resolve_right fun hleft => Held.mq_ne_none hqs hleft.1
    rcases hstep.origin hs hpre ha hqa with ⟨rfl, hopen⟩ | ⟨a₀, ha₀, hqa₀, hdest⟩
    · exact (hspare hb hqb hqa hopen).symm
    · rcases hstep.origin hs hpre hb hqb with ⟨rfl, hopen⟩ | ⟨b₀, hb₀, hqb₀, hdest'⟩
      · exact hspare ha hqa hqb hopen
      · obtain rfl := hl.inj a₀ b₀ q ha₀ hb₀ hqa₀ hqb₀
        exact Held.eq_of_dest hqa hqb hdest hdest'

/-- A close message is sent to the client in a slot. -/
theorem slot_of_close {slot : Option (Slot cfg)} {mq : Mqd} {msg : PsmqMsg cfg} {len prio : ℕ}
    {timeout : UInt16} (hpre : jobPre pc h job (.mqTimedsend slot mq msg len prio timeout))
    (hcmd : (received cfg (msg.toBytes.take len)).ctrl.cmd = cmdClose) :
    ∃ k, slot = some k ∧ mq = h.mq (.slot k) := by
  cases job with
  | start => exact hpre.elim
  | handle s x =>
    change h.MaySend x slot mq (msg.toBytes.take len) prio at hpre
    generalize msg.toBytes.take len = bytes at hpre hcmd
    cases hpre with
    | offer hc => exact cmd_absurd hcmd hc
    | refuse hc => exact cmd_absurd hcmd hc
    | @close k => exact ⟨k, rfl, rfl⟩
    | publish hc => exact cmd_absurd hcmd hc
    | reply hc => exact absurd (by simp [hcmd]) hc
  | stop =>
    obtain ⟨k, hslot, hmq, -⟩ := hpre
    exact ⟨k, hslot, hmq⟩

/-- A queue on which the broker puts a close message leaves its slot. -/
theorem leaving_of_close (hpre : jobPre pc h job o) (hst : OsStep .broker os o r os') {x : Item}
    (hx : putBy .broker os ⟨o, r⟩ = some (q, x)) (hclose : x.cmd cfg = cmdClose) :
    (∃ k, h.queue (os.fds .broker) (.slot k) = some q) ∧
      (jobNext h job o r).queue (os'.fds .broker) .leaving = some q := by
  cases hst with
  | @timedsent slot mq msg len prio timeout q' hq _ =>
    obtain ⟨rfl, rfl⟩ : q' = q ∧ _ = x := by simpa [putBy, hq] using hx
    obtain ⟨k, rfl, rfl⟩ := slot_of_close hpre hclose
    refine ⟨⟨k, hq⟩, ?_⟩
    rw [jobNext_mqTimedsend rfl,
      show (received cfg (msg.toBytes.take len)).ctrl.cmd = _ from hclose, Held.onSend_close,
      Held.queue, Held.move_mq_to (by simp)]
    exact hq
  | sent => cases job <;> exact hpre.elim
  | _ => cases hx

end Held

/-! ## The invariant -/

/-- The descriptors the broker holds after a step. -/
def Held.along (h : Held cfg) (b : BrokerProc cfg) : SysLabel cfg → Held cfg
  | .take _ => h.begin
  | .brokerOp e => match b with
    | .busy job _ _ => jobNext h job e.1 e.2
    | _ => h
  | _ => h

/-- The broker holds the queues of the slots, which have room for a message, and
    it has put no close message on one that has a slot, or has had none. -/
structure Guarded (pc : PsmqdCfg) (X : World cfg × Traffic) (h : Held cfg) : Prop where
  sane : X.1.os.Sane
  tracks : h.Tracks pc X.1.os X.1.broker
  lodged : h.Lodged (X.1.os.fds .broker) X.2.slotted
  room : ∀ q, q ∈ X.2.slotted ∨ h.queue (X.1.os.fds .broker) .spare = some q → 0 < X.1.os.room q
  unclosed : ∀ q, (q ∈ X.2.slotted → ∃ k, h.queue (X.1.os.fds .broker) (.slot k) = some q) →
    ∀ x ∈ puts (X.2.log q), x.sender = .broker → x.cmd cfg ≠ cmdClose

namespace Guarded

variable {X : World cfg × Traffic} {W : World cfg} {l : SysLabel cfg} {h h' : Held cfg} {q : Qid}

theorem init (cfg : Config) (pc : PsmqdCfg) :
    Guarded pc (.start cfg pc, .init) (Held.init : Held cfg) where
  sane := ⟨fun _ => Nat.zero_le _, fun _ _ => rfl⟩
  tracks := .init _
  lodged := .init _
  room _ hq := hq.elim nofun nofun
  unclosed _ _ := nofun

/-- What a step does on a queue with room for a message. -/
theorem transfers (hX : Guarded pc X h) (hst : WorldStep pc X.1 l W) (hq : 0 < X.1.os.room q) :
    W.os.room q = X.1.os.room q ∧ (channel Pid Item.prio (X.1.os.room q)).Run (X.1.os.items q)
      (transfersOn q (l.transfer X.1)) (W.os.items q) := by
  obtain ⟨p, hp⟩ : ∃ p, X.1.os.creator q = some p :=
    Option.ne_none_iff_exists'.1 fun hnone => hq.ne' (hX.sane.blank q hnone)
  exact hst.transfers ((hst.creator hp).trans hp.symm)

/-- A step that puts nothing on a queue for the broker, and moves no descriptor of it. -/
theorem quiet (hX : Guarded pc X h) (hst : WorldStep pc X.1 l W)
    (hfds : W.os.fds .broker = X.1.os.fds .broker) (hmq : h'.mq = h.mq)
    (htracks : h'.Tracks pc W.os W.broker) (hslots : l.slots X.1 = none)
    (hputs : ∀ q, ∀ x ∈ puts (transfersOn q (l.transfer X.1)), x.sender ≠ .broker) :
    Guarded pc (W, X.2.after X.1 l W) h' := by
  have hslotted : (X.2.after X.1 l W).slotted = X.2.slotted := by
    rw [Traffic.after, hslots, Option.toList_none, List.append_nil]
  have hqueue : h'.queue (W.os.fds .broker) = h.queue (X.1.os.fds .broker) := by
    funext a
    rw [Held.queue, Held.queue, hmq, hfds]
  refine ⟨hst.sane hX.sane, htracks, ?_, fun q hq => ?_, fun q hq x hx hsender => ?_⟩
  · rw [hslotted, hfds]
    exact hX.lodged.of_mq hmq
  · rw [hslotted, hqueue] at hq
    rw [(hX.transfers hst (hX.room q hq)).1]
    exact hX.room q hq
  · rw [hslotted, hqueue] at hq
    rw [Traffic.after, puts_append, List.mem_append] at hx
    exact hX.unclosed q hq x (hx.resolve_right fun hx => hputs q x hx hsender) hsender

/-- A call of the broker. -/
theorem brokerOp (hX : Guarded pc X h) {job : Job cfg} {tr : Trace cfg} {o : Op cfg}
    {k : Op.Res o → P cfg (Broker cfg)} {r : Op.Res o} {os' : Os}
    (hb : X.1.broker = .busy job tr (.call o k)) (hos : OsStep .broker X.1.os o r os')
    (hl : Assumed X (.brokerOp ⟨o, r⟩)) :
    Guarded pc (⟨os', .busy job (tr ++ [⟨o, r⟩]) (k r)⟩, X.2.after X.1 (.brokerOp ⟨o, r⟩)
      ⟨os', .busy job (tr ++ [⟨o, r⟩]) (k r)⟩) (jobNext h job o r) := by
  have hst : WorldStep pc X.1 (.brokerOp ⟨o, r⟩) _ := .brokerOp hb hos
  have htracks := hX.tracks
  rw [hb] at htracks
  obtain ⟨hpre, hstep, htracks'⟩ := htracks.op hos
  have hlodged := hX.lodged.step htracks.sound hpre hos fun q hq => (hl.1 q hq).1
  refine ⟨hst.sane hX.sane, htracks', hlodged, fun q hq => ?_, fun q hq x hx hsender hclose => ?_⟩
  · have hpos : 0 < X.1.os.room q := by
      rcases hq with hq | hq
      · rcases List.mem_append.1 hq with hq | hoffer
        · exact hX.room q (.inl hq)
        · exact hX.room q (.inr (spare_of_offeredOn hpre (Option.mem_toList.1 hoffer)).1)
      · rcases hstep.queue htracks.sound hpre hq with
          hq | ⟨ha, -⟩ | ⟨-, hopen⟩ | ⟨_, ha, -⟩ | ⟨_, ha, -⟩
        · exact hX.room q (.inr hq)
        · exact nomatch ha
        · exact (hl.1 q hopen).2
        · exact nomatch ha
        · exact nomatch ha
    rwa [(hX.transfers hst hpos).1]
  · rw [Traffic.after, puts_append, List.mem_append] at hx
    rcases hx with hx | hx
    · refine hX.unclosed q (fun hslotted => ?_) x hx hsender hclose
      obtain ⟨k, hk⟩ := hq (List.mem_append_left _ hslotted)
      rcases hstep.queue htracks.sound hpre hk with
        hk | ⟨ha, -⟩ | ⟨ha, -⟩ | ⟨_, -, -, hspare, -⟩ | ⟨_, ha, -⟩
      · exact ⟨k, hk⟩
      · exact nomatch ha
      · exact nomatch ha
      · exact absurd hslotted (hX.lodged.spare q hspare)
      · exact nomatch ha
    · -- A queue on which a close message is put has no slot any more.
      obtain ⟨⟨k, hk⟩, hleaving⟩ := leaving_of_close hpre hos (mem_puts_transferBy.1 hx) hclose
      obtain ⟨k', hk'⟩ :=
        hq (List.mem_append_left _ (hX.lodged.places _ q (by simp) (by simp) hk))
      exact nomatch hlodged.inj _ _ q (by simp) (by simp) hk' hleaving

/-- Every step keeps the queues of the slots. -/
theorem step (hX : Guarded pc X h) (hst : WorldStep pc X.1 l W) (hl : Assumed X l) :
    Guarded pc (W, X.2.after X.1 l W) (h.along X.1.broker l) := by
  have hst' := hst
  cases hst with
  | call => exact hX.quiet hst' rfl rfl hX.tracks rfl nofun
  | @clientOp i o r os' hos =>
    have hfds : os'.fds .broker = X.1.os.fds .broker := hos.fds_of_ne nofun
    refine hX.quiet hst' hfds rfl (hX.tracks.of_fds hfds) rfl fun q x hx => ?_
    rw [sender_of_putBy (mem_puts_transferBy.1 hx)]
    simp only [ne_eq, reduceCtorEq, not_false_eq_true]
  | «return» => exact hX.quiet hst' rfl rfl hX.tracks rfl nofun
  | @take s q x l hb =>
    have htracks := hX.tracks
    rw [hb] at htracks
    refine hX.quiet hst' rfl rfl ((htracks.take x).of_fds rfl) rfl fun q' y hy => ?_
    rw [puts_transfer_take] at hy
    exact nomatch hy
  | stop hb =>
    have htracks := hX.tracks
    rw [hb] at htracks
    exact hX.quiet hst' rfl rfl htracks.stop rfl nofun
  | brokerOp hb hos =>
    rw [hb]
    exact hX.brokerOp hb hos hl
  | finish hb =>
    have htracks := hX.tracks
    rw [hb] at htracks
    exact hX.quiet hst' rfl rfl htracks.finish rfl nofun

theorem of_reachable (hX : (assumedLts cfg pc).Reachable X) : ∃ h, Guarded pc X h := by
  refine hX.invariant (P := fun X => ∃ h, Guarded pc X h) ?_ ?_
  · rintro ⟨W, T⟩ ⟨hW, hT⟩
    obtain rfl : W = .start cfg pc := hW
    obtain rfl : T = .init := hT
    exact ⟨_, .init cfg pc⟩
  · rintro ⟨W, T⟩ l ⟨W', T'⟩ ⟨h, hX⟩ ⟨⟨hst, hT⟩, hl⟩
    obtain rfl : T' = T.after W l W' := hT
    exact ⟨_, hX.step hst hl⟩

end Guarded

/-! ## The queues that have lost their slots -/

section Gone

variable {X X' : World cfg × Traffic} {W : World cfg} {l : SysLabel cfg} {ls : List (SysLabel cfg)}
  {h : Held cfg} {q : Qid}

/-- A queue that has been given a slot is not held by the broker any more. -/
def Gone (X : World cfg × Traffic) (h : Held cfg) (q : Qid) : Prop :=
  q ∈ X.2.slotted ∧ ∀ a, a ≠ .ctrl → h.queue (X.1.os.fds .broker) a ≠ some q

/-- Only the broker puts messages on the queues of the slots. -/
theorem Assumed.puts_eq_nil {i : ℕ} {e : Event (Op cfg) Op.Res} (hl : Assumed X (.clientOp i e))
    (hq : q ∈ X.2.slotted) : puts (transfersOn q (transferBy (.client i) X.1.os e)) = [] := by
  refine List.eq_nil_iff_forall_not_mem.2 fun x hx => ?_
  exact hl _ (mem_puts_transferBy.1 hx) hq

/-- A queue that has lost its slot gets neither a message nor a slot. -/
theorem Gone.step (hg : Gone X h q) (hX : Guarded pc X h) (hst : WorldStep pc X.1 l W)
    (hl : Assumed X l) : puts (transfersOn q (l.transfer X.1)) = [] ∧
      Gone (W, X.2.after X.1 l W) (h.along X.1.broker l) q := by
  have hslotted : q ∈ (X.2.after X.1 l W).slotted := List.mem_append_left _ hg.1
  cases hst with
  | call => exact ⟨rfl, hslotted, hg.2⟩
  | @clientOp i o r os' hos =>
    have hfds : os'.fds .broker = X.1.os.fds .broker := hos.fds_of_ne nofun
    refine ⟨hl.puts_eq_nil hg.1, hslotted, fun a ha => ?_⟩
    show h.queue (os'.fds .broker) a ≠ some q
    rw [hfds]
    exact hg.2 a ha
  | «return» => exact ⟨rfl, hslotted, hg.2⟩
  | take => exact ⟨puts_transfer_take, hslotted, hg.2⟩
  | stop => exact ⟨rfl, hslotted, hg.2⟩
  | @brokerOp job tr o k r os' hb hos =>
    have htracks := hX.tracks
    rw [hb] at htracks ⊢
    obtain ⟨hpre, hstep, -⟩ := htracks.op hos
    refine ⟨List.eq_nil_iff_forall_not_mem.2 fun x hx => ?_, hslotted, fun a ha hqa => ?_⟩
    · obtain ⟨a, ha, hqa⟩ := place_of_putBy hpre (mem_puts_transferBy.1 hx)
      exact hg.2 a ha hqa
    · rcases hstep.origin htracks.sound hpre ha hqa with ⟨-, hopen⟩ | ⟨a₀, ha₀, hqa₀, -⟩
      · exact (hl.1 q hopen).1 hg.1
      · exact hg.2 a₀ ha₀ hqa₀
  | finish => exact ⟨rfl, hslotted, hg.2⟩

/-- Nothing is put any more on a queue that has lost its slot. -/
theorem Gone.run (hrun : (assumedLts cfg pc).Run X ls X') (hX : Guarded pc X h)
    (hg : Gone X h q) : ∃ ts, X'.2.log q = X.2.log q ++ ts ∧ puts ts = [] := by
  induction hrun generalizing h with
  | nil => exact ⟨[], (List.append_nil _).symm, rfl⟩
  | @cons X X₁ X₂ l ls hst _ ih =>
    obtain ⟨W, T⟩ := X₁
    obtain ⟨⟨hst, hT⟩, hl⟩ := hst
    obtain rfl : T = X.2.after X.1 l W := hT
    obtain ⟨hputs, hg'⟩ := hg.step hX hst hl
    obtain ⟨ts, hlog, hts⟩ := ih (hX.step hst hl) hg'
    refine ⟨transfersOn q (l.transfer X.1) ++ ts, ?_, ?_⟩
    · rw [hlog]
      exact List.append_assoc ..
    · rw [puts_append, hputs, hts, List.append_nil]

end Gone

/-! ## The calls of a publish -/

/-- The message that an attempt to send puts on a queue. -/
def Sent.item (e : Sent cfg) : Item := ⟨e.msg.toBytes.take e.len, e.prio, .broker, none⟩

/-- The messages that some calls put on the queue with the descriptor `d`. -/
def deliveredOn (d : ℕ) (tr : Trace cfg) : List Item :=
  ((sends tr).filter fun e => e.mq = some d ∧ e.ok = true).map Sent.item

section Delivered

variable {d : ℕ} {tr tr' : Trace cfg}

@[simp] theorem deliveredOn_append :
    deliveredOn d (tr ++ tr') = deliveredOn d tr ++ deliveredOn d tr' := by
  simp only [deliveredOn, sends_append, List.filter_append, List.map_append]

theorem deliveredOn_event (e : Sent cfg) :
    deliveredOn d [e.event] = if e.mq = some d ∧ e.ok = true then [e.item] else [] := by
  rw [deliveredOn, sends_event, sends_nil]
  split
  · next h => simp [h]
  · next h => simp [h]

/-- What is sent to other queues, or is not delivered, is not put on this one. -/
theorem deliveredOn_eq_nil (h : ∀ e : Sent cfg, e.event ∈ tr → e.mq = some d → e.ok = false) :
    deliveredOn d tr = [] := by
  rw [deliveredOn, List.map_eq_nil_iff, List.filter_eq_nil_iff]
  intro e he hde
  simp only [decide_eq_true_eq] at hde
  exact absurd hde.2 (by simp [h e (mem_sends.1 he) hde.1])

end Delivered

/-- The call receives from the queue with the descriptor `d`. -/
def receives (d : ℕ) : Event (Op cfg) Op.Res → Bool
  | ⟨.mqTimedreceive mq _, _⟩ => mq = some d
  | _ => false

/-- The descriptor `d` is that of the queue `q`, wherever one of them is held. -/
def Held.Binds (fds : ℕ → Option Qid) (h : Held cfg) (d : ℕ) (q : Qid) : Prop :=
  ∀ a, a ≠ .ctrl → (h.mq a = some d ↔ h.queue fds a = some q)

section Binds

variable {os os' : Os} {s : Broker cfg} {x : Item} {o : Op cfg} {r : Op.Res o} {h : Held cfg}
  {fds : ℕ → Option Qid} {a b : Place cfg} {d : ℕ} {q : Qid}

theorem Held.Binds.move (hb : h.Binds fds d q) (ha : a ≠ .ctrl) (hab : b ≠ a) :
    (h.move a b).Binds fds d q := by
  intro c hc
  rw [Held.queue]
  by_cases hca : c = a
  · rw [hca, Held.move_mq_from]
    simp
  · by_cases hcb : c = b
    · rw [hcb, Held.move_mq_to hab]
      exact hb a ha
    · rw [Held.move_mq_of_ne hca hcb]
      exact hb c hc

/-- A publish opens nothing, and a descriptor it closes is forgotten. -/
theorem Held.Binds.step (hb : h.Binds (os.fds .broker) d q) (hs : h.Sound (os.fds .broker))
    (hpre : jobPre pc h (.handle s x) o) (hcmd : x.cmd cfg = cmdPublish)
    (hst : OsStep .broker os o r os') :
    (jobNext h (.handle s x) o r).Binds (os'.fds .broker) d q := by
  have hstep := jobNext_step hst hpre
  generalize jobNext h (.handle s x) o r = h' at hstep ⊢
  generalize os'.fds .broker = fds' at hstep ⊢
  cases hstep with
  | ctrl hjob => exact nomatch hjob
  | opened _ _ hopen =>
    cases o with
    | mqOpen name flags =>
      obtain ⟨-, hc, -⟩ := hpre
      exact cmd_absurd hcmd hc
    | _ => exact nomatch hopen
  | @closed mq hmq =>
    intro a ha
    have hmq := hmq nofun
    by_cases hleaving : a = .leaving
    · simp [hleaving, Held.queue]
    · by_cases hspare : a = .spare
      · simp [hspare, Held.queue, Held.set_mq_of_ne]
      · -- What is closed is in another place.
        have hne (d' : ℕ) (hd' : mq = some d') : h.mq a ≠ some d' := fun had => by
          rcases hmq with rfl | rfl
          · exact hspare (hs.inj _ _ d' had hd')
          · exact hleaving (hs.inj _ _ d' had hd')
        rw [Held.queue_set_of_ne hleaving, Held.queue_set_of_ne hspare,
          Held.set_mq_of_ne hleaving, Held.set_mq_of_ne hspare]
        cases mq with
        | none => exact hb a ha
        | some d' =>
          rw [Option.elim_some, Held.Sound.queue_update (hne d' rfl)]
          exact hb a ha
  | @sent slot =>
    cases slot with
    | none => exact hb
    | some k =>
      rw [Held.onSend]
      split_ifs
      · exact hb.move (by simp) (by simp)
      · exact hb
      · exact hb.move (by simp) (by simp)
      · exact hb
      · exact hb
      · exact hb
  | other => exact hb

/-- What a call of a publish does on a queue, told by its descriptor. -/
theorem Held.Binds.transfers (hb : h.Binds (os.fds .broker) d q)
    (hpre : jobPre pc h (.handle s x) o) (hst : OsStep .broker os o r os') :
    puts (transfersOn q (transferBy .broker os ⟨o, r⟩)) = deliveredOn d [⟨o, r⟩] ∧
      (takenBy .broker (transfersOn q (transferBy .broker os ⟨o, r⟩))).length ≤
        [(⟨o, r⟩ : Event (Op cfg) Op.Res)].countP (receives d) := by
  have hiff {mq : Mqd} {q' : Qid} (hq : os.fd .broker mq = some q') (hmq : ∃ a, a ≠ .ctrl ∧
      mq = h.mq a) : mq = some d ↔ q' = q := by
    obtain ⟨a, ha, rfl⟩ := hmq
    rw [hb a ha]
    exact ⟨Option.mem_unique hq, fun heq => heq ▸ hq⟩
  cases hst with
  | @timedsent slot mq msg len prio timeout q' hq =>
    have hmq := hiff hq (place_of_mqTimedsend hpre)
    have hdelivered := deliveredOn_event (d := d) ⟨slot, mq, msg, len, prio, timeout, true⟩
    simp only [transferBy, putBy, hq, Option.map_some, Option.some_or, transfersOn]
    split
    · next heq =>
      rw [if_pos ⟨hmq.2 heq, rfl⟩] at hdelivered
      exact ⟨hdelivered.symm, Nat.zero_le _⟩
    · next hne =>
      rw [if_neg fun h => hne (hmq.1 h.1)] at hdelivered
      exact ⟨hdelivered.symm, Nat.zero_le _⟩
  | @timedreceived mq ms q' y l hq hl =>
    obtain ⟨k, rfl⟩ := hpre
    have hmq := hiff hq ⟨_, by simp, rfl⟩
    simp only [transferBy, putBy, receivedBy, Os.first_eq_some hq hl, Option.map_some,
      Option.map_none, Option.none_or, transfersOn]
    refine ⟨?_, ?_⟩
    · split <;> rfl
    · split
      · next heq => simp [receives, hmq.2 heq, takenBy]
      · exact Nat.zero_le _
  | @timedsendFail slot mq msg len prio timeout =>
    have hdelivered := deliveredOn_event (d := d) ⟨slot, mq, msg, len, prio, timeout, false⟩
    rw [if_neg (by simp)] at hdelivered
    exact ⟨hdelivered.symm, Nat.zero_le _⟩
  | sent => exact hpre.elim
  | received => exact hpre.elim
  | _ => exact ⟨rfl, Nat.zero_le _⟩

end Binds

/-- An attempt to send follows a call that has made room for it. -/
def Relieves (d : ℕ) (e e' : Event (Op cfg) Op.Res) : Prop :=
  receives d e = true → ∀ f : Sent cfg, e' = f.event → f.mq = some d → f.ok = true

/-- The broker is handling the message `x`, with `s` in memory, since the state
    `X₁`, and has made the calls `tr`. It has held the queue `q`, with the descriptor `d`. -/
structure Sweeping (pc : PsmqdCfg) (X₁ X : World cfg × Traffic) (s : Broker cfg) (x : Item)
    (tr : Trace cfg) (p : P cfg (Broker cfg)) (h : Held cfg) (d : ℕ) (q : Qid) : Prop where
  guarded : Guarded pc X h
  busy : X.1.broker = .busy (.handle s x) tr p
  slotted : q ∈ X.2.slotted
  binds : h.Binds (X.1.os.fds .broker) d q
  closed : ∀ r, ⟨.mqClose (some d), r⟩ ∈ tr → Gone X h q
  moved : ∃ ts, X.2.log q = X₁.2.log q ++ ts ∧ puts ts = deliveredOn d tr ∧
    (takenBy .broker ts).length ≤ tr.countP (receives d)
  relieved : tr.IsChain (Relieves d)
  roomy : ∀ e ∈ tr.getLast?, receives d e = true → (X.1.os.items q).length < X.1.os.room q

namespace Sweeping

variable {X₁ X X' : World cfg × Traffic} {W : World cfg} {l : SysLabel cfg} {s : Broker cfg}
  {x : Item} {tr : Trace cfg} {p : P cfg (Broker cfg)} {h : Held cfg} {d : ℕ} {q : Qid}

/-- The broker takes a message, with the descriptor `d` in a slot. -/
theorem start {X₀ : World cfg × Traffic} {k : Slot cfg} (h₀ : Guarded pc X₀ h)
    (hs : X₀.1.broker = .idle s) (hst : (assumedLts cfg pc).step X₀ (.take x) X₁)
    (hd : (s.clients k).mq = some d) :
    ∃ q p, X₁.1.os.fds .broker d = some q ∧
      h.begin.queue (X₁.1.os.fds .broker) (.slot k) = some q ∧
      Sweeping pc X₁ X₁ s x [] p h.begin d q := by
  obtain ⟨W, T⟩ := X₁
  obtain ⟨⟨hst, hT⟩, hl⟩ := hst
  obtain rfl : T = X₀.2.after X₀.1 (.take x) W := hT
  have hguarded := h₀.step hst hl
  cases hst with
  | @take s' c _ l hs' hc hitems =>
    obtain rfl : s = s' := BrokerProc.idle.inj (hs.symm.trans hs')
    have htracks := h₀.tracks
    rw [hs] at htracks
    have hmq : h.mq (.slot k) = some d := (htracks.obeys.2 k).symm.trans hd
    obtain ⟨q, hq⟩ := Option.ne_none_iff_exists'.1 ((htracks.sound trivial).live _ d hmq)
    have hslot : h.begin.queue (X₀.1.os.fds .broker) (.slot k) = some q := by
      rw [Held.queue, Held.begin_mq, hmq]
      exact hq
    refine ⟨q, _, hq, hslot, hguarded, rfl, ?_, fun a ha => ?_, fun r hr => ?_,
      ⟨[], (List.append_nil _).symm, rfl, Nat.zero_le _⟩, .nil, by simp⟩
    · exact hguarded.lodged.places _ q (by simp) (by simp) hslot
    · constructor
      · intro had
        rw [Held.queue, had]
        exact hq
      · intro hqa
        rw [hguarded.lodged.inj a _ q ha (by simp) hqa hslot]
        exact hmq
    · simp at hr

/-- A step that does not concern the broker, and puts nothing on its queue. -/
theorem quiet (hS : Sweeping pc X₁ X s x tr p h d q) (hst : WorldStep pc X.1 l W)
    (hguarded : Guarded pc (W, X.2.after X.1 l W) h) (hbroker : W.broker = X.1.broker)
    (hfds : W.os.fds .broker = X.1.os.fds .broker)
    (hputs : puts (transfersOn q (l.transfer X.1)) = [])
    (htaken : takenBy .broker (transfersOn q (l.transfer X.1)) = []) :
    Sweeping pc X₁ (W, X.2.after X.1 l W) s x tr p h d q := by
  have hslotted : q ∈ (X.2.after X.1 l W).slotted := List.mem_append_left _ hS.slotted
  obtain ⟨hroom, hrun⟩ := hS.guarded.transfers hst (hS.guarded.room q (.inl hS.slotted))
  refine ⟨hguarded, hbroker.trans hS.busy, hslotted, ?_, fun r hr => ⟨hslotted, fun a ha => ?_⟩, ?_,
    hS.relieved, fun e he hrec => ?_⟩
  · rw [hfds]
    exact hS.binds
  · rw [hfds]
    exact (hS.closed r hr).2 a ha
  · obtain ⟨ts, hlog, hts, htb⟩ := hS.moved
    refine ⟨ts ++ transfersOn q (l.transfer X.1), ?_, ?_, ?_⟩
    · rw [← List.append_assoc, ← hlog]
      rfl
    · rw [puts_append, hputs, List.append_nil, hts]
    · rwa [takenBy_append, htaken, List.append_nil]
  · have hroomy := hS.roomy e he hrec
    have hlen := congrArg List.length (taken_append_of_puts_nil hrun hputs)
    rw [List.length_append] at hlen
    show (W.os.items q).length < W.os.room q
    omega

/-- A call of the broker. -/
theorem call {o : Op cfg} {k : Op.Res o → P cfg (Broker cfg)} {r : Op.Res o} {os' : Os}
    (hS : Sweeping pc X₁ X s x tr (.call o k) h d q) (hcmd : x.cmd cfg = cmdPublish)
    (hos : OsStep .broker X.1.os o r os') (hl : Assumed X (.brokerOp ⟨o, r⟩)) :
    Sweeping pc X₁ (⟨os', .busy (.handle s x) (tr ++ [⟨o, r⟩]) (k r)⟩,
      X.2.after X.1 (.brokerOp ⟨o, r⟩) ⟨os', .busy (.handle s x) (tr ++ [⟨o, r⟩]) (k r)⟩)
      s x (tr ++ [⟨o, r⟩]) (k r) (jobNext h (.handle s x) o r) d q := by
  have hst : WorldStep pc X.1 (.brokerOp ⟨o, r⟩) _ := .brokerOp hS.busy hos
  have htracks := hS.guarded.tracks
  rw [hS.busy] at htracks
  obtain ⟨hpre, -, -⟩ := htracks.op hos
  have hsound := htracks.sound (by simp [BrokerProc.Up])
  have hbinds := hS.binds.step hsound hpre hcmd hos
  have hpos : 0 < X.1.os.room q := hS.guarded.room q (.inl hS.slotted)
  obtain ⟨hroom, hrun⟩ := hS.guarded.transfers hst hpos
  have hslotted : q ∈ (X.2.after X.1 (.brokerOp ⟨o, r⟩) ⟨os', .busy (.handle s x)
    (tr ++ [⟨o, r⟩]) (k r)⟩).slotted := List.mem_append_left _ hS.slotted
  -- The descriptor is that of the queue, as long as the broker uses it.
  have hfd {mq : Mqd} (hmq : ∃ a, a ≠ .ctrl ∧ mq = h.mq a) (hd : mq = some d) :
      X.1.os.fd .broker mq = some q := by
    obtain ⟨a, ha, rfl⟩ := hmq
    exact (hS.binds a ha).1 hd
  refine ⟨hS.guarded.brokerOp hS.busy hos hl, rfl, hslotted, hbinds, fun r' hr' => ?_, ?_, ?_,
    fun e he hrec => ?_⟩
  · rcases List.mem_append.1 hr' with hr' | hr'
    · have hg := ((hS.closed r' hr').step hS.guarded hst hl).2
      rwa [hS.busy] at hg
    · obtain ⟨rfl, hr⟩ := Sigma.mk.inj_iff.1 (List.mem_singleton.1 hr')
      obtain rfl := eq_of_heq hr
      refine ⟨hslotted, fun a ha hqa => ?_⟩
      -- The place it was closed in is empty, and it was in no other one.
      have hd := (hbinds a ha).2 hqa
      rw [jobNext_mqClose] at hd
      have hleaving : a ≠ .leaving := by
        rintro rfl
        simp at hd
      have hspare : a ≠ .spare := by
        rintro rfl
        simp [Held.set_mq_of_ne] at hd
      rw [Held.set_mq_of_ne hleaving, Held.set_mq_of_ne hspare] at hd
      rcases hpre with hclosed | hclosed
      · exact hspare (hsound.inj _ _ d hd hclosed.symm)
      · exact hleaving (hsound.inj _ _ d hd hclosed.symm)
  · obtain ⟨ts, hlog, hts, htb⟩ := hS.moved
    obtain ⟨hputs, htaken⟩ := hS.binds.transfers hpre hos
    refine ⟨ts ++ transfersOn q (transferBy .broker X.1.os ⟨o, r⟩), ?_, ?_, ?_⟩
    · rw [← List.append_assoc, ← hlog]
      rfl
    · rw [puts_append, hputs, hts, deliveredOn_append]
    · rw [takenBy_append, List.length_append, List.countP_append]
      exact Nat.add_le_add htb htaken
  · refine List.isChain_append.2 ⟨hS.relieved, .singleton _, fun e he e' he' hrec f hf hmq => ?_⟩
    obtain rfl : ⟨o, r⟩ = e' := Option.some.inj he'
    have hhonest : Honest X.1.os f.event := hf ▸ hl.2
    obtain ⟨rfl, -⟩ := Sigma.mk.inj_iff.1 hf
    exact hhonest.sent (hfd (place_of_mqTimedsend hpre) hmq) (hS.roomy e he hrec)
  · obtain rfl : ⟨o, r⟩ = e := by simpa using he
    rw [hroom]
    cases hos with
    | @timedreceived mq ms q' y l hq hitems =>
      have hmq : mq = some d := by simpa [receives] using hrec
      obtain ⟨j, hj⟩ := hpre
      obtain rfl : q' = q := Option.mem_unique hq (hfd ⟨_, by simp, hj⟩ hmq)
      have hfits := hS.guarded.sane.fits q'
      rw [hitems] at hfits
      rw [Os.setItems_self]
      exact hfits
    | @timedreceiveFail mq ms err =>
      have hmq : mq = some d := by simpa [receives] using hrec
      obtain ⟨j, hj⟩ := hpre
      rw [hl.2 q (hfd ⟨_, by simp, hj⟩ hmq)]
      exact hpos
    | _ => cases hrec

/-- Every step but the last one goes on with the publish. -/
theorem step (hS : Sweeping pc X₁ X s x tr p h d q) (hcmd : x.cmd cfg = cmdPublish)
    (hst : (assumedLts cfg pc).step X l X') (hl : l ≠ .finish) :
    ∃ tr' p' h', Sweeping pc X₁ X' s x tr' p' h' d q := by
  obtain ⟨W, T⟩ := X'
  obtain ⟨⟨hst, hT⟩, hassumed⟩ := hst
  obtain rfl : T = X.2.after X.1 l W := hT
  have hst' := hst
  have hguarded := hS.guarded.step hst hassumed
  cases hst with
  | call => exact ⟨tr, p, h, hS.quiet hst' hguarded rfl rfl rfl rfl⟩
  | @clientOp i o r os' hos =>
    exact ⟨tr, p, h, hS.quiet hst' hguarded rfl (hos.fds_of_ne nofun)
      (hassumed.puts_eq_nil hS.slotted) (takenBy_transferBy_of_ne nofun)⟩
  | «return» => exact ⟨tr, p, h, hS.quiet hst' hguarded rfl rfl rfl rfl⟩
  | take hb => exact nomatch hS.busy.symm.trans hb
  | stop hb => exact nomatch hS.busy.symm.trans hb
  | @brokerOp job tr' o k r os' hb hos =>
    obtain ⟨rfl, rfl, rfl⟩ := BrokerProc.busy.inj (hS.busy.symm.trans hb)
    exact ⟨_, _, _, hS.call hcmd hos hassumed⟩
  | finish => exact absurd rfl hl

theorem run {ls : List (SysLabel cfg)} (hS : Sweeping pc X₁ X s x tr p h d q)
    (hcmd : x.cmd cfg = cmdPublish) (hrun : (assumedLts cfg pc).Run X ls X')
    (hls : .finish ∉ ls) : ∃ tr' p' h', Sweeping pc X₁ X' s x tr' p' h' d q := by
  induction hrun generalizing tr p h with
  | nil => exact ⟨tr, p, h, hS⟩
  | cons hst _ ih =>
    rw [List.mem_cons, not_or] at hls
    obtain ⟨_, _, _, hS'⟩ := hS.step hcmd hst (Ne.symm hls.1)
    exact ih hS' hls.2

end Sweeping

/-! ## The evicted clients are told, last -/

section Told

variable {X₀ X₁ X : World cfg × Traffic} {s s' : Broker cfg} {x : Item} {tr tr₁ tr₂ : Trace cfg}
  {ls : List (SysLabel cfg)} {k : Slot cfg} {d : ℕ} {h : Held cfg}

theorem target_of_receives {e : Event (Op cfg) Op.Res} (h : receives d e = true) :
    e.1.target = some d := by
  obtain ⟨o, r⟩ := e
  cases o with
  | mqTimedreceive mq ms => exact of_decide_eq_true h
  | _ => exact nomatch h

/-- What is done on the queue of a client evicted by a publish: it is received from once, to make
    room, and the close message is put on it. -/
theorem deliveredOn_evicted {es : List (Sent cfg)} {y : Except Errno (List UInt8 × ℕ)}
    {f : Sent cfg} {r : Option Errno} (htr : tr = tr₁ ++ es.map Sent.event ++
      [⟨.mqTimedreceive (some d) 0, y⟩, f.event, ⟨.mqClose (some d), r⟩] ++ tr₂)
    (hes : ∀ e ∈ es, e.ok = false) (hmq : f.mq = some d)
    (hothers : ∀ e ∈ tr₁ ++ tr₂, e.1.target ≠ some d) (hrelieved : tr.IsChain (Relieves d)) :
    deliveredOn d tr = [f.item] ∧ tr.countP (receives d) = 1 := by
  have hok : f.ok = true := by
    refine List.isChain_iff_forall_rel_of_append_cons_cons.1 hrelieved (?_ : tr =
      (tr₁ ++ es.map Sent.event) ++ ⟨.mqTimedreceive (some d) 0, y⟩ :: f.event ::
        (⟨.mqClose (some d), r⟩ :: tr₂)) (decide_eq_true rfl) f rfl hmq
    simp [htr]
  have hnil {tr' : Trace cfg} (h : ∀ e ∈ tr', e.1.target ≠ some d) :
      deliveredOn d tr' = [] ∧ tr'.countP (receives d) = 0 := by
    refine ⟨deliveredOn_eq_nil fun e he hd => absurd hd (h _ he), List.countP_eq_zero.2 ?_⟩
    exact fun e he hrec => h e he (target_of_receives hrec)
  have hfailed : deliveredOn d (es.map Sent.event) = [] ∧
      (es.map Sent.event).countP (receives d) = 0 := by
    refine ⟨deliveredOn_eq_nil fun e he _ => hes e ?_, List.countP_eq_zero.2 fun e he => ?_⟩
    · rw [← sends_map_event es]
      exact mem_sends.2 he
    · obtain ⟨e', -, rfl⟩ := List.mem_map.1 he
      exact Bool.false_ne_true
  have hclosed : deliveredOn d [⟨.mqTimedreceive (some d) 0, y⟩, f.event, ⟨.mqClose (some d), r⟩] =
      [f.item] := (deliveredOn_event f).trans (if_pos ⟨hmq, hok⟩)
  rw [List.forall_mem_append] at hothers
  obtain ⟨h₁, h₁'⟩ := hnil hothers.1
  obtain ⟨h₂, h₂'⟩ := hnil hothers.2
  rw [htr]
  simp only [deliveredOn_append, List.countP_append, h₁, h₁', h₂, h₂', hfailed, hclosed]
  exact ⟨rfl, by simp [receives, Sent.event]⟩

/-- Between `X₁` and `X`, the close message `c` has been put on the queue `q`, for which
    one message at most was discarded. It is the only one, and whatever happens then, what is read
    from the queue, and what it holds, is what it held, and this message. -/
structure ToldLast (pc : PsmqdCfg) (X₁ X : World cfg × Traffic) (q : Qid) (c : Item) : Prop where
  close : c.cmd cfg = cmdClose
  first : ∀ y ∈ puts (X₁.2.log q), y.sender = .broker → y.cmd cfg ≠ cmdClose
  discarded : ∃ ts, X.2.log q = X₁.2.log q ++ ts ∧ (takenBy .broker ts).length ≤ 1
  last : ∀ ls X', (assumedLts cfg pc).Run X ls X' → ∃ ts, X'.2.log q = X₁.2.log q ++ ts ∧
    puts ts = [c] ∧ taken ts ++ X'.1.os.items q = X₁.1.os.items q ++ [c]

/-- The client of a queue that has lost its slot, on which a message was put last. -/
theorem Sweeping.toldLast {p : P cfg (Broker cfg)} {h' : Held cfg} {q : Qid} {f : Sent cfg}
    {r : Option Errno} (hS : Sweeping pc X₁ X s x tr p h' d q) (h₁ : Guarded pc X₁ h)
    (hslot : h.queue (X₁.1.os.fds .broker) (.slot k) = some q)
    (hrun : (assumedLts cfg pc).Run X₁ ls X) (hclosed : ⟨.mqClose (some d), r⟩ ∈ tr)
    (hputs : deliveredOn d tr = [f.item]) (hcount : tr.countP (receives d) = 1) (hprio : f.prio = 0)
    (hcmd : f.item.cmd cfg = cmdClose) : ToldLast pc X₁ X q f.item := by
  obtain ⟨ts, hlog, hts, htaken⟩ := hS.moved
  rw [hputs] at hts
  rw [hcount] at htaken
  refine ⟨hcmd, h₁.unclosed q fun _ => ⟨k, hslot⟩, ⟨ts, hlog, htaken⟩, fun ls' X' hrun' => ?_⟩
  -- Nothing is put on the queue after the message.
  obtain ⟨ts', hlog', hts'⟩ := (hS.closed r hclosed).run hrun' hS.guarded
  have hpos : 0 < X₁.1.os.room q :=
    h₁.room q (.inl (h₁.lodged.places _ q (by simp) (by simp) hslot))
  obtain ⟨p', hp'⟩ : ∃ p', X₁.1.os.creator q = some p' :=
    Option.ne_none_iff_exists'.1 fun hnone => hpos.ne' (h₁.sane.blank q hnone)
  obtain ⟨-, ts'', hlog'', hchan⟩ := exists_transfers (hrun.append hrun').of_restrict hp'
  obtain rfl : ts ++ ts' = ts'' := by
    rw [hlog', hlog, List.append_assoc] at hlog''
    exact List.append_cancel_left hlog''
  have hall : puts (ts ++ ts') = [f.item] := by rw [puts_append, hts, hts', List.append_nil]
  exact ⟨ts ++ ts', hlog'', hall, taken_append_of_puts_singleton hchan hall hprio⟩

/-- A message that has been handled has been so by an execution. -/
theorem exec_of_run (htake : (assumedLts cfg pc).step X₀ (.take x) X₁)
    (hrun : (assumedLts cfg pc).Run X₁ ls X)
    (hX : X.1.broker = .busy (.handle s x) tr (.ret s')) :
    Exec (brokerStart s x.bytes x.prio) tr s' := by
  have hX₁ : X₁.1.broker.Executes := by
    obtain ⟨W, T⟩ := X₁
    obtain ⟨⟨hst, -⟩, -⟩ := htake
    cases hst with
    | take => exact fun _ _ h => h
  have hexecutes : X.1.broker.Executes := by
    refine hrun.invariant (P := fun X => X.1.broker.Executes) (fun X l X' h hst => ?_) hX₁
    obtain ⟨⟨hst, -⟩, -⟩ := hst
    exact hst.executes h
  rw [hX] at hexecutes
  simpa using hexecutes [] s' (.ret s')

/-- What a publish does to a client: it is evicted exactly when an attempt to
    send to it fails and leaves its counter at the limit. Otherwise, its slot only has the
    attempts counted. If it is evicted, its slot is free, without topics, and it
    is told so, last. -/
theorem evicted_told_last (hX₀ : (assumedLts cfg pc).Reachable X₀) (hs : X₀.1.broker = .idle s)
    (htake : (assumedLts cfg pc).step X₀ (.take x) X₁) (hrun : (assumedLts cfg pc).Run X₁ ls X)
    (hls : .finish ∉ ls) (hX : X.1.broker = .busy (.handle s x) tr (.ret s'))
    (hcmd : x.cmd cfg = cmdPublish) (k : Slot cfg) :
    (Freed s s' k ↔ s.IsOpen k ∧ Overruns (s.clients k) (sendsTo k tr)) ∧
    (¬Freed s s' k → s'.clients k = (s.clients k).after (sendsTo k tr)) ∧
    (Freed s s' k → (s'.clients k).mq = none ∧ (s'.clients k).topics = [] ∧
      ∃ q c, X₁.1.os.fd .broker (s.clients k).mq = some q ∧ ToldLast pc X₁ X q c) := by
  have hswept := exec_publish_swept (exec_of_run htake hrun hX) hcmd k
  refine ⟨hswept.freed_iff, hswept.eq_after, fun hfreed => ?_⟩
  obtain ⟨h, h₀⟩ := Guarded.of_reachable hX₀
  obtain ⟨d, hd⟩ := Option.ne_none_iff_exists'.1 hfreed.1
  obtain ⟨q, p, hq, hslot, hstart⟩ := Sweeping.start h₀ hs htake hd
  obtain ⟨tr', p', h', hS⟩ := hstart.run hcmd hrun hls
  obtain ⟨-, rfl, rfl⟩ := BrokerProc.busy.inj (hX.symm.trans hS.busy)
  have htracks := h₀.tracks
  rw [hs] at htracks
  have hmq : h.mq (.slot k) = some d := (htracks.obeys.2 k).symm.trans hd
  have hoverruns := (hswept.freed_iff.1 hfreed).2
  generalize s'.clients k = c at hswept
  cases hswept with
  | kept hno => exact absurd hoverruns hno
  | @evicted es y f r tr₁ tr₂ ho htr hes hover hf hothers =>
    refine ⟨rfl, rfl, q, f.item, by rw [hd]; exact hq, ?_⟩
    have hfmq : f.mq = some d := by rw [hf.mq_eq, Client.after_mq, hd]
    rw [hd] at htr
    -- The other calls are for clients in other slots.
    have hne : ∀ e ∈ tr₁ ++ tr₂, e.1.target ≠ some d := fun e he htarget => by
      obtain ⟨j, hjk, -, hj⟩ := hothers e he
      rw [htracks.obeys.2 j, htarget] at hj
      exact hjk (Place.slot.inj ((htracks.sound trivial).inj _ _ d hj.symm hmq))
    obtain ⟨hputs, hcount⟩ := deliveredOn_evicted htr hes hfmq hne hS.relieved
    refine hS.toldLast hstart.guarded hslot hrun (r := r) ?_ hputs hcount hf.prio_eq ?_
    · simp [htr]
    · exact congrArg Ctrl.cmd ((recvInto_ctrl _ _ hf.len_eq).trans hf.cmd_eq)

end Told

/-! ## A client that reads nothing -/

instance (os : Os) (e : Event (Op cfg) Op.Res) : Decidable (Honest os e) := by
  unfold Honest
  split <;> infer_instance

instance (X : World cfg × Traffic) : (l : SysLabel cfg) → Decidable (Assumed X l)
  | .clientOp .. => inferInstanceAs (Decidable (∀ y ∈ putBy _ _ _, _))
  | .brokerOp _ => inferInstanceAs (Decidable ((∀ q ∈ openedBy _ _, _) ∧ Honest _ _))
  | .call .. | .return _ | .take _ | .stop | .finish => .isTrue trivial

section Clients

variable {names : QueueNames pc} {X X' : Sys cfg × Traffic} {ls : List (SysLabel cfg)}

/-- What is written down, for the system with its clients. -/
def Traffic.sysAfter (T : Traffic) (S : Sys cfg) (l : SysLabel cfg) (S' : Sys cfg) : Traffic :=
  T.after S.world l S'.world

/-- The broker is not done with its job, by a step that is as assumed. -/
def Working (X : Sys cfg × Traffic) (l : SysLabel cfg) : Prop :=
  Assumed (X.1.world, X.2) l ∧ match l with
    | .finish => False
    | _ => True

instance (X : Sys cfg × Traffic) : (l : SysLabel cfg) → Decidable (Working X l)
  | .clientOp i e => inferInstanceAs (Decidable (Assumed _ (.clientOp i e) ∧ True))
  | .brokerOp e => inferInstanceAs (Decidable (Assumed _ (.brokerOp e) ∧ True))
  | .call .. | .return _ | .take _ | .stop => .isTrue ⟨trivial, trivial⟩
  | .finish => .isFalse And.right

/-- The clients of the system are as assumed, if their steps are. -/
theorem reachable_world (hX : (((sysLts cfg pc names).watch .init Traffic.sysAfter).restrict
    fun X l => Assumed (X.1.world, X.2) l).Reachable X) :
    (assumedLts cfg pc).Reachable (X.1.world, X.2) := by
  refine hX.map (f := fun X => (X.1.world, X.2)) ?_ fun X l X' hst => ?_
  · rintro ⟨S, T⟩ ⟨hS, hT⟩
    obtain rfl : S = .start cfg pc := hS
    exact ⟨rfl, hT⟩
  · exact ⟨⟨SysStep.world hst.1.1, hst.1.2⟩, hst.2⟩

theorem run_world (h : (((sysLts cfg pc names).watch .init Traffic.sysAfter).restrict
    Working).Run X ls X') :
    (assumedLts cfg pc).Run (X.1.world, X.2) ls (X'.1.world, X'.2) ∧ .finish ∉ ls := by
  refine ⟨h.map (f := fun X => (X.1.world, X.2)) fun X l X' hst => ?_, fun hl => ?_⟩
  · exact ⟨⟨SysStep.world hst.1.1, hst.1.2⟩, hst.2.1⟩
  · exact h.forall_labels (D := fun l => l ≠ .finish) (fun X l hl heq => by
      subst heq
      exact hl.2) _ hl rfl

/-- The broker goes on with its job. -/
theorem busy_of_run {X X' : World cfg × Traffic} (h : (assumedLts cfg pc).Run X ls X')
    (hls : .finish ∉ ls) {job : Job cfg} {tr : Trace cfg} {p : P cfg (Broker cfg)}
    (hb : X.1.broker = .busy job tr p) : ∃ tr' p', X'.1.broker = .busy job tr' p' := by
  induction h generalizing tr p with
  | nil => exact ⟨tr, p, hb⟩
  | @cons X X₁ X₂ l ls hst _ ih =>
    rw [List.mem_cons, not_or] at hls
    obtain ⟨W, T⟩ := X₁
    obtain ⟨⟨hst, -⟩, -⟩ := hst
    cases hst with
    | call => exact ih hls.2 hb
    | clientOp => exact ih hls.2 hb
    | «return» => exact ih hls.2 hb
    | take hidle => exact nomatch hb.symm.trans hidle
    | stop hidle => exact nomatch hb.symm.trans hidle
    | brokerOp hb' =>
      obtain ⟨rfl, -, -⟩ := BrokerProc.busy.inj (hb.symm.trans hb')
      exact ih hls.2 rfl
    | finish => exact absurd rfl hls.1

end Clients

/-- What the job of the broker leaves in memory, when it is done. -/
def BrokerProc.result : BrokerProc cfg → Option (Broker cfg)
  | busy _ _ (.ret s) => some s
  | _ => none

theorem BrokerProc.eq_of_result {job : Job cfg} {tr : Trace cfg} {p : P cfg (Broker cfg)}
    {s : Broker cfg} (h : (busy job tr p).result = some s) : p = .ret s := by
  cases p with
  | ret s' => exact congrArg _ (Option.some.inj h)
  | fault => exact nomatch h
  | call => exact nomatch h

set_option synthInstance.maxSize 512 in
/-- The client 0 reads nothing, and misses the ten messages it has subscribed to. -/
theorem evicted_told_last_missing : ∃ (X₁ X : World smallest × Traffic) (s s' : Broker smallest)
    (q : Qid) (c : Item), Freed s s' 0 ∧ (s'.clients 0).topics = [] ∧
      ToldLast psmqdCfgInit X₁ X q c := by
  obtain ⟨X₀, hX₀, s, hs, ⟨x, os⟩, hx, X, hX, s', hs', hcmd, hfreed⟩ :
      ∃ X₀ ∈ moves psmqdCfgInit twoNames Traffic.sysAfter
          (fun X l => Assumed (X.1.world, X.2) l) (missing.map .turn)
          (.start smallest psmqdCfgInit, .init),
      ∃ s ∈ X₀.1.broker.waiting, ∃ y ∈ X₀.1.os.receive .broker s.qctrl,
      ∃ X ∈ moves psmqdCfgInit twoNames Traffic.sysAfter Working
          (List.replicate 4 (.turn .broker)) ({ X₀.1 with
            os := y.2
            broker := .busy (.handle s y.1) [] ((Job.handle s y.1).prog psmqdCfgInit s) },
          X₀.2.sysAfter X₀.1 (.take y.1) X₀.1),
      ∃ s' ∈ X.1.broker.result, y.1.cmd smallest = cmdPublish ∧ Freed s s' 0 := by
    decide +kernel
  have hidle : X₀.1.broker = .idle s := BrokerProc.eq_of_waiting hs
  obtain ⟨q, l, hq, hl, rfl⟩ := Os.receive_eq_some hx
  have htake : (assumedLts smallest psmqdCfgInit).step (X₀.1.world, X₀.2) (.take x)
      (⟨X₀.1.os.setItems q l, .busy (.handle s x) [] ((Job.handle s x).prog psmqdCfgInit s)⟩,
        X₀.2.after X₀.1.world (.take x) X₀.1.world) := ⟨⟨.take hidle hq hl, rfl⟩, trivial⟩
  obtain ⟨ls, hrun⟩ := run_of_moves hX
  obtain ⟨hrun, hls⟩ := run_world hrun
  obtain ⟨tr, p, hb⟩ := busy_of_run hrun hls rfl
  rw [show X.1.broker = _ from hb] at hs'
  obtain rfl := BrokerProc.eq_of_result hs'
  obtain ⟨-, -, h⟩ := evicted_told_last (reachable_world (reachable_of_moves hX₀
    (.init ⟨rfl, rfl⟩))) hidle htake hrun hls hb hcmd 0
  obtain ⟨-, htopics, q', c, -, htold⟩ := h hfreed
  exact ⟨_, _, s, s', q', c, hfreed, htopics, htold⟩

end Psmq
