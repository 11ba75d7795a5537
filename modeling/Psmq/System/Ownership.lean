import Psmq.Broker.Slots
import Psmq.System.Accounts
import Psmq.System.Turns

/-!
# Who owns a descriptor

As long as all the broker sends is delivered, a descriptor in use belongs to
one client (`descriptor_ownership`): every request but an open one finds the
slot it names open, and holding the queue of the client that sent it, however
the processes interleave and whatever happened before.

The calls of the broker keep the accounts too (`Accounts.broker_step`), so that
all the steps of the system do, along with what the processes are doing
(`Sys.Sound`).
-/

namespace Psmq

open CMem Prog PrioQueue

variable {cfg : Config} {pc : PsmqdCfg} {owner : CString → Option ℕ} {os os' : Os}
  {σ : UInt8 → Holding} {φ : ℕ → ClientPhase} {γ : BrokerPhase cfg} {t : Table cfg} {i : ℕ}
  {q : Qid} {k : Slot cfg} {d : ℕ}

/-! ## The table -/

theorem update_fdOf_of_ne {place : Holding} {j : Slot cfg} (h : j ≠ k) :
    Function.update σ (fdOf k) place (fdOf j) = σ (fdOf j) :=
  Function.update_of_ne (fun hfd => h (fdOf_inj hfd)) _ _

/-- The spare queue is put in a free slot. -/
theorem Table.Sound.fill (h : t.Sound os σ) (hfree : t.slots k = none) (hspare : t.spare = some d)
    (hq : os.fds .broker d = some q) :
    Table.Sound os (Function.update σ (fdOf k) (.offered q))
      { t with slots := Function.update t.slots k (some d), spare := none } where
  qctrl := h.qctrl
  free_iff j := by
    by_cases hj : j = k
    · subst hj
      simp
    · simp [update_fdOf_of_ne hj, hj, h.free_iff]
  slots j d' hd' := by
    by_cases hj : j = k
    · subst hj
      obtain rfl : d = d' := by simpa using hd'
      obtain ⟨q', i, hq', hcreat⟩ := h.spare d hspare
      obtain rfl : q = q' := Option.mem_unique hq hq'
      exact ⟨q, i, by rw [Function.update_self]; rfl, hq, hcreat⟩
    · rw [update_fdOf_of_ne hj]
      exact h.slots j d' ((Function.update_of_ne hj _ _).symm.trans hd')
  injective j j' d' hj hj' := by
    have hspare_ne : ∀ {l}, l ≠ k → Function.update t.slots k (some d) l ≠ some d :=
      fun hl hd => h.spare_ne _ d hspare ((Function.update_of_ne hl _ _).symm.trans hd)
    by_cases hjk : j = k <;> by_cases hjk' : j' = k
    · rw [hjk, hjk']
    · subst hjk
      obtain rfl : d = d' := by simpa using hj
      exact absurd hj' (hspare_ne hjk')
    · subst hjk'
      obtain rfl : d = d' := by simpa using hj'
      exact absurd hj (hspare_ne hjk)
    · exact h.injective j j' d' ((Function.update_of_ne hjk _ _).symm.trans hj)
        ((Function.update_of_ne hjk' _ _).symm.trans hj')
  exists_slot fd hfd := by
    by_cases hk : fd = fdOf k
    · exact ⟨k, hk⟩
    · rw [Function.update_of_ne hk] at hfd
      exact h.exists_slot fd hfd
  spare := nofun
  spare_ne := nofun
  closing fd hfd := by
    obtain ⟨⟨q', hσ⟩, hno⟩ := h.closing fd hfd
    -- The slot being freed is another one, as it is not free yet.
    have hne : fd ≠ fdOf k := by
      rintro rfl
      rw [(h.free_iff k).1 hfree] at hσ
      exact absurd hσ nofun
    rw [Function.update_of_ne hne]
    exact ⟨⟨q', hσ⟩, hno⟩

/-- A slot is freed, and its queue is the spare one. -/
theorem Table.Sound.empty (h : t.Sound os σ) :
    Table.Sound os (Function.update σ (fdOf k) .free)
      { t with slots := Function.update t.slots k none, spare := t.slots k, closing := none } where
  qctrl := h.qctrl
  free_iff j := by
    by_cases hj : j = k
    · subst hj
      simp
    · simp [update_fdOf_of_ne hj, hj, h.free_iff]
  slots j d' hd' := by
    by_cases hj : j = k
    · subst hj
      simp at hd'
    · rw [update_fdOf_of_ne hj]
      exact h.slots j d' ((Function.update_of_ne hj _ _).symm.trans hd')
  injective j j' d' hj hj' := by
    have hne : ∀ {l}, Function.update t.slots k none l = some d' → t.slots l = some d' :=
      fun {l} hl => by
        by_cases hlk : l = k
        · subst hlk
          simp at hl
        · exact (Function.update_of_ne hlk _ _).symm.trans hl
    exact h.injective j j' d' (hne hj) (hne hj')
  exists_slot fd hfd := by
    by_cases hk : fd = fdOf k
    · exact ⟨k, hk⟩
    · rw [Function.update_of_ne hk] at hfd
      exact h.exists_slot fd hfd
  spare d hd := by
    obtain ⟨q, i, -, hq, hcreat⟩ := h.slots k d hd
    exact ⟨q, i, hq, hcreat⟩
  spare_ne j d hd hj := by
    by_cases hjk : j = k
    · subst hjk
      simp at hj
    · exact hjk (h.injective j k d ((Function.update_of_ne hjk _ _).symm.trans hj) hd)
  closing := nofun

/-- A queue is opened by the broker. -/
theorem Table.Sound.open_spare (h : t.Sound os σ) (hd : os.fds .broker d = none)
    (hcreat : os.creator q = some (.client i)) :
    Table.Sound (os.setFd .broker d (some q)) σ { t with spare := some d } :=
  have hm := h.mono (fun _ _ => Os.setFd_of_some hd) (fun _ _ hq => hq) (fun _ hq => hq)
    fun _ _ => rfl
  { hm with
    spare := fun d' hd' => by
      obtain rfl : d = d' := Option.some.inj hd'
      exact ⟨q, i, Os.setFd_self, hcreat⟩
    spare_ne := fun k d' hd' hk => by
      obtain rfl : d = d' := Option.some.inj hd'
      obtain ⟨q, i, -, hq, -⟩ := h.slots k d hk
      simp [hd] at hq }

/-- The spare queue is closed. -/
theorem Table.Sound.close_spare (h : t.Sound os σ) (hd : t.spare = some d) :
    Table.Sound (os.setFd .broker d none) σ { t with spare := none } := by
  have hne : ∀ {d'}, d' ≠ d → (os.setFd .broker d none).fds .broker d' = os.fds .broker d' :=
    fun hd' => Os.setFd_of_ne (.inr hd')
  exact { h with
    qctrl := by
      obtain ⟨c, hc, hcreat, huniq⟩ := h.qctrl
      refine ⟨c, (hne ?_).trans hc, hcreat, huniq⟩
      rintro heq
      obtain ⟨q, i, hq, hcreat'⟩ := h.spare d hd
      -- The control queue is no client's.
      obtain rfl : c = q := Option.some.inj (hc.symm.trans (heq ▸ hq))
      simp [hcreat] at hcreat'
    slots := fun k d' hd' => by
      obtain ⟨q, i, hσ, hq, hcreat⟩ := h.slots k d' hd'
      refine ⟨q, i, hσ, (hne ?_).trans hq, hcreat⟩
      rintro rfl
      exact h.spare_ne k d' hd hd'
    spare := nofun
    spare_ne := nofun }

namespace Accounts

/-! ## The calls of the broker -/

/-- What is sent to a client and is no offer changes nothing. -/
theorem put_of_not_offer (h : Accounts pc owner os σ φ γ) {x : Item}
    (ho : offerOf cfg x.bytes = none) (hq : γ = .stopping ∨ os.creator q ≠ some .broker) :
    Accounts pc owner (os.put q x) σ φ γ := by
  refine h.setItems (fun i hi => ?_) (fun hγ hb => absurd hb (hq.resolve_left hγ))
    fun t fd ht _ hb => ?_
  · obtain ⟨hoff, hpair⟩ := h.offers q i hi
    refine ⟨forall_mem_enqueue.2 ⟨fun fd hfd => ?_, hoff⟩,
      pairwise_enqueue hpair (fun y _ fd _ => by simp [ho]) fun y _ fd hfd => ?_⟩
    all_goals simp [ho] at hfd
  · subst ht
    exact absurd hb (hq.resolve_left nofun)

/-- The broker creates its control queue. -/
theorem create_ctrl (h : Accounts pc owner os σ φ (.booting : BrokerPhase cfg))
    (hq : os.creator q = none)
    (hd : os.fds .broker d = none) (hpos : 0 < d) (room : ℕ) :
    Accounts pc owner ((os.create .broker pc.brokerName q room).setFd .broker d (some q)) σ φ
      (.serving (⟨d, fun _ => none, none, none⟩ : Table cfg)) := by
  obtain ⟨hfree, hnone⟩ := h.broker
  have hq' : (os.setFd .broker d (some q)).fds .broker d = some q := Os.setFd_self
  refine (h.openFd hd hpos q).create (.inl ⟨rfl, rfl⟩) hq room ?_ nofun
  exact {
    qctrl := by
      refine ⟨q, hq', Os.create_creator_self, fun q' hq' => ?_⟩
      by_contra hne
      rw [(Os.create_of_ne hne).1] at hq'
      exact hnone q' hq'
    free_iff := fun k => iff_of_true rfl (hfree _)
    slots := nofun
    injective := nofun
    exists_slot := fun fd hfd => absurd (hfree fd) hfd
    spare := nofun
    spare_ne := nofun
    closing := nofun }

/-- The broker offers a free slot to a client. -/
theorem send_offer (h : Accounts pc owner os σ φ (.serving t)) (hfree : t.slots k = none)
    (hspare : t.spare = some d) (hq : os.fds .broker d = some q) {x : Item}
    (ho : offerOf cfg x.bytes = some (fdOf k)) :
    Accounts pc owner (os.put q x) (Function.update σ (fdOf k) (.offered q)) φ
      (.serving { t with slots := Function.update t.slots k (some d), spare := none }) := by
  have ht : t.Sound os σ := h.broker
  have hσ : σ (fdOf k) = .free := (ht.free_iff k).1 hfree
  obtain ⟨q', i, hq', hcreat⟩ := ht.spare d hspare
  obtain rfl : q = q' := Option.mem_unique hq hq'
  -- There is no other offer of a slot that is free.
  have hno : ∀ q' i, os.creator q' = some (.client i) → ∀ y ∈ os.items q',
      offerOf cfg y.bytes ≠ some (fdOf k) := fun q' i hq' y hy hfd => by
    have := (h.offers q' i hq').offered y hy _ hfd
    simp [hσ] at this
  have ht' : (BrokerPhase.serving { t with
      slots := Function.update t.slots k (some d), spare := none }).Sound os _ :=
    ht.fill hfree hspare hq
  have hmove := h.move (.offered q) (fun j hj => ?_) hno
    (fun hγ q' hq' y hy hcmd hfd => ?_) ht' nofun
  · obtain ⟨hoff, hpair⟩ := hmove.offers q i hcreat
    refine hmove.setItems (fun j _ => ⟨forall_mem_enqueue.2 ⟨fun fd hfd => ?_, hoff⟩, ?_⟩)
      (fun _ hb => by simp [hcreat] at hb) fun _ _ _ _ hb => by simp [hcreat] at hb
    · obtain rfl : fdOf k = fd := Option.mem_unique ho hfd
      exact Function.update_self ..
    · refine pairwise_enqueue hpair (fun y hy fd hy' hx => ?_) fun y hy fd hx hy' => ?_
      all_goals
        obtain rfl : fdOf k = fd := Option.mem_unique ho hx
        exact hno q i hcreat y hy hy'
  · -- Nobody is connected with a descriptor whose slot is free.
    obtain ⟨-, q', -, -, -, hσ'⟩ := h.held hj
    simp [hσ] at hσ'
  · -- No request carries it.
    rcases (h.requests hγ q' hq').sound y hy with ⟨hopen, -⟩ | ⟨-, q'', -, -, -, -, hσ'⟩
    · exact absurd hopen hcmd
    · simp [hfd, hσ] at hσ'

/-- The broker tells a client that asks for it that it is closed, and frees its slot. -/
theorem send_closed (h : Accounts pc owner os σ φ (.serving t))
    (hclosing : t.closing = some (fdOf k))
    (hd : t.slots k = some d) (hq : os.fds .broker d = some q) {x : Item}
    (ho : offerOf cfg x.bytes = none) :
    Accounts pc owner (os.put q x) (Function.update σ (fdOf k) .free) φ (.serving { t with
      slots := Function.update t.slots k none, spare := t.slots k, closing := none }) := by
  have ht : t.Sound os σ := h.broker
  obtain ⟨⟨q₀, hσ⟩, hno⟩ := ht.closing _ hclosing
  obtain ⟨q', i, -, hq', hcreat⟩ := ht.slots k d hd
  obtain rfl : q = q' := Option.mem_unique hq hq'
  have ht' : (BrokerPhase.serving { t with slots := Function.update t.slots k none
                                           spare := t.slots k, closing := none }).Sound os _ :=
    ht.empty
  refine (h.move .free (fun j hj => ?_) (fun q' j hq' y hy hfd => ?_)
    (fun _ q' hq' y hy hcmd hfd => absurd hfd (hno q' hq' y hy hcmd)) ht' nofun).put_of_not_offer
      ho (.inr (by simp [hcreat]))
  · -- Nobody is connected with a descriptor given back.
    obtain ⟨-, q', -, -, -, hσ'⟩ := h.held hj
    simp [hσ] at hσ'
  · have := (h.offers q' j hq').offered y hy _ hfd
    simp [hσ] at this

/-- The broker sends a message to a client, and it is delivered. -/
theorem broker_mqTimedsend (h : Accounts pc owner os σ φ (.serving t)) {slot : Option (Slot cfg)}
    {mq : Mqd} {msg : PsmqMsg cfg} {len prio : ℕ} {timeout : UInt16}
    (hsend : t.MaySend slot mq (msg.toBytes.take len))
    (hst : OsStep .broker os (.mqTimedsend slot mq msg len prio timeout : Op cfg) true os') :
    ∃ σ', Accounts pc owner os' σ' φ
      (.serving (t.onSend (received cfg (msg.toBytes.take len)).ctrl.cmd slot)) := by
  have ht : t.Sound os σ := h.broker
  generalize hbytes : msg.toBytes.take len = bytes at hsend
  -- Only an OPEN message is taken for an offer.
  have hno : ∀ {cmd}, (received cfg bytes).ctrl.cmd = cmd → cmd ≠ cmdOpen →
      offerOf cfg bytes = none := fun hcmd hne => offerOf_eq_none fun hc =>
    hne (hcmd.symm.trans (congrArg Ctrl.cmd hc))
  cases hst with
  | @timedsent _ _ _ _ _ _ q hq _ =>
    obtain ⟨d, rfl, hd⟩ := Option.bind_eq_some_iff.1 hq
    rw [hbytes]
    generalize hmq : some d = mq at hsend
    cases hsend with
    | offer hcmd ho hfree =>
      rw [Table.onSend, if_pos hcmd, ← hmq]
      exact ⟨_, h.send_offer hfree hmq.symm hd ho⟩
    | close hcmd hclosing _ =>
      rw [Table.onSend, hcmd, if_neg (by decide), if_pos rfl]
      exact ⟨_, h.send_closed hclosing hmq.symm hd (hno hcmd (by decide))⟩
    | refuse ho =>
      obtain ⟨q', i, hq', hcreat⟩ := ht.spare d hmq.symm
      obtain rfl : q = q' := Option.mem_unique hd hq'
      exact ⟨σ, h.put_of_not_offer ho (.inr (by simp [hcreat]))⟩
    | @reply k _ hopen hclose =>
      obtain ⟨q', i, -, hq', hcreat⟩ := ht.slots k d hmq.symm
      obtain rfl : q = q' := Option.mem_unique hd hq'
      rw [Table.onSend, if_neg hopen, if_neg hclose]
      exact ⟨σ, h.put_of_not_offer (hno rfl hopen) (.inr (by simp [hcreat]))⟩

/-- The broker closes the spare queue. -/
theorem broker_mqClose (h : Accounts pc owner os σ φ (.serving t)) {mq : Mqd} {r : Option Errno}
    (hmq : mq = none ∨ mq = t.spare) (hst : OsStep .broker os (.mqClose mq : Op cfg) r os') :
    Accounts pc owner os' σ φ (.serving { t with spare := none }) := by
  have ht : t.Sound os σ := h.broker
  cases hst
  cases mq with
  | none =>
    refine h.setBroker ?_ nofun
    exact { ht with
      spare := nofun
      spare_ne := nofun }
  | some d =>
    have hd : t.spare = some d := (hmq.resolve_left nofun).symm
    exact h.closeFd nofun (ht.close_spare hd) nofun

/-- The broker opens the queue of a client. -/
theorem broker_mqOpen (h : Accounts pc owner os σ φ (.serving t))
    (howner : owner pc.brokerName = none) {name : CString} {flags : OpenFlags}
    {r : Except Errno ℕ} (hcreat : flags.creat = false) (hname : owner name ≠ none)
    (hst : OsStep .broker os (.mqOpen name flags : Op cfg) r os') :
    Accounts pc owner os' σ φ (brokerNext (.serving t) (.mqOpen name flags : Op cfg) r) := by
  cases hst with
  | openFail => exact h
  | @opened _ _ d q hq _ hpos hd =>
    obtain ⟨i, hi⟩ : ∃ i, os.creator q = some (.client i) := by
      rcases h.names name q hq with ⟨rfl, -⟩ | ⟨i, -, hi⟩
      · exact absurd howner hname
      · exact ⟨i, hi⟩
    exact (h.openFd hd hpos q).setBroker (Table.Sound.open_spare h.broker hd hi) nofun
  | created _ hc => simp [hcreat] at hc

/-- A call of the broker that follows its protocol. -/
theorem broker_step (h : Accounts pc owner os σ φ γ) (howner : owner pc.brokerName = none)
    {o : Op cfg} {r : Op.Res o} (hpre : brokerPre pc owner γ o) (hst : OsStep .broker os o r os')
    (hmay : brokerMay o r) : ∃ σ', Accounts pc owner os' σ' φ (brokerNext γ o r) := by
  cases γ with
  | booting =>
    refine ⟨σ, ?_⟩
    cases o with
    | mqUnlink name =>
      cases hst with
      | unlinkFail => exact h
      | unlinked => exact h.unlink name
    | mqOpen name flags =>
      obtain ⟨rfl, hcreat, hexcl⟩ := hpre
      cases hst with
      | openFail => exact h
      | opened _ hex => exact absurd ⟨hcreat, hexcl⟩ hex
      | created _ _ hq hpos hd => exact h.create_ctrl hq hd hpos _
    | _ => exact hpre.elim
  | serving t =>
    cases o with
    | mqOpen name flags => exact ⟨σ, h.broker_mqOpen howner hpre.2.1 hpre.2.2 hst⟩
    | mqClose mq => exact ⟨σ, h.broker_mqClose hpre hst⟩
    | mqTimedsend slot mq msg len prio timeout =>
      obtain rfl : r = true := hmay
      exact h.broker_mqTimedsend hpre hst
    | malloc size =>
      cases hst
      exact ⟨σ, h⟩
    | _ => exact hpre.elim
  | stopping =>
    refine ⟨σ, ?_⟩
    cases o with
    | mqTimedsend slot mq msg len prio timeout =>
      cases hst with
      | timedsendFail => exact h
      | timedsent => exact h.put_of_not_offer hpre (.inl rfl)
    | mqClose mq =>
      cases hst
      cases mq with
      | none => exact h
      | some d => exact h.closeFd nofun trivial id
    | mqUnlink name =>
      cases hst with
      | unlinkFail => exact h
      | unlinked => exact h.unlink name
    | _ => exact hpre.elim

/-! ## Requests taken -/

/-- The first request on the control queue is the one expected, once it is taken. -/
theorem take (h : Accounts pc owner os σ φ (.serving t)) (hq : os.fds .broker t.qctrl = some q)
    {x : Item} {l : List Item} (hl : os.items q = x :: l) :
    ∃ closing, Accounts pc owner (os.setItems q l) σ φ (.serving { t with closing }) ∧
      Table.Expects { t with closing } owner (received cfg x.bytes) := by
  have ht : t.Sound os σ := h.broker
  obtain ⟨c, hc, hcreat, huniq⟩ := ht.qctrl
  obtain rfl : q = c := Option.mem_unique hq hc
  have hx : x ∈ os.items q := hl ▸ List.mem_cons_self
  have hpair := (h.requests nofun q hcreat).pairwise
  rw [hl, List.pairwise_cons] at hpair
  have htail : t.Sound (os.setItems q l) σ := (h.tail hl).broker
  -- A close request tells the slot that the broker is to free.
  refine ⟨if x.cmd cfg = cmdClose then some (x.data cfg) else none,
    (h.tail hl).setBroker ?_ nofun, fun hopen name hname => ?_, fun hclose => if_pos hclose⟩
  · refine { htail with closing := fun fd hfd => ?_ }
    by_cases hclose : x.cmd cfg = cmdClose
    · obtain rfl : x.data cfg = fd := by simpa [hclose] using hfd
      refine ⟨h.leaving_of_close nofun hcreat hx hclose, fun q' hq' y hy hopen => ?_⟩
      obtain rfl : q' = q := huniq q' hq'
      rw [Os.setItems_self] at hy
      exact hpair.1 y hy hclose hopen
    · simp [hclose] at hfd
  · rcases (h.requests nofun q hcreat).sound x hx with ⟨-, hown⟩ | ⟨hne, -⟩
    · exact hown name hname
    · exact absurd hopen hne

/-- A request that is no open request finds its slot holding the queue of its sender. -/
theorem slot_of_request (h : Accounts pc owner os σ φ (.serving t))
    (hq : os.fds .broker t.qctrl = some q) {x : Item} (hx : x ∈ os.items q)
    (hopen : x.cmd cfg ≠ cmdOpen) :
    ∃ k q' i, slotOf cfg (x.data cfg) = some k ∧ os.fd .broker (t.slots k) = some q' ∧
      x.via = some q' ∧ x.sender = .client i ∧ os.creator q' = some (.client i) := by
  have ht : t.Sound os σ := h.broker
  obtain ⟨c, hc, hcreat, -⟩ := ht.qctrl
  obtain rfl : q = c := Option.mem_unique hq hc
  rcases (h.requests nofun q hcreat).sound x hx with
    ⟨ho, -⟩ | ⟨-, q', i, hvia, hsender, hcreat', hσ⟩
  · exact absurd ho hopen
  -- Whether it is held or given back, the descriptor has the queue of its client.
  have hqueue : (σ (x.data cfg)).queue = some q' := by
    rcases hσ with ⟨hσ, -⟩ | hσ <;> rw [hσ] <;> rfl
  -- So the slot is not free, and the queue the table has for it is that one.
  have hne : σ (x.data cfg) ≠ .free := fun hf => by
    rw [hf] at hqueue
    exact absurd hqueue nofun
  obtain ⟨k, hk⟩ := ht.exists_slot _ hne
  rw [hk] at hqueue hne
  obtain ⟨d, hd⟩ := Option.ne_none_iff_exists'.1 (mt (ht.free_iff k).1 hne)
  obtain ⟨q'', j, hqueue', hd', -⟩ := ht.slots k d hd
  obtain rfl : q' = q'' := Option.mem_unique hqueue hqueue'
  exact ⟨k, q', i, by rw [hk, slotOf_fdOf], by rw [hd]; exact hd', hvia, hsender, hcreat'⟩

end Accounts

/-! ## The invariant -/

/-- What a client does follows its protocol, and it keeps the `struct psmq` it
    has until it begins to connect or to disconnect. -/
def ClientProc.Sound (pc : PsmqdCfg) (owner : CString → Option ℕ) (i : ℕ) (ψ : ClientPhase) :
    ClientProc cfg → Prop
  | idle psmq => psmq.At ψ
  | busy c psmq tr p => Follows (clientProtocol pc owner i c.Steady) PsmqObj.At ψ p ∧
      (c.Steady ∨ tr = [] → psmq.At ψ)

/-- What the broker does follows its protocol. -/
def BrokerProc.Sound (pc : PsmqdCfg) (owner : CString → Option ℕ) (γ : BrokerPhase cfg) :
    BrokerProc cfg → Prop
  | idle s => s.At γ
  | busy job _ p => Follows (brokerProtocol pc owner) job.Post γ p
  | off => True

/-- The accounts of the state are those of what the processes are doing. -/
structure Sys.Sound (pc : PsmqdCfg) (owner : CString → Option ℕ) (S : Sys cfg)
    (σ : UInt8 → Holding) (φ : ℕ → ClientPhase) (γ : BrokerPhase cfg) : Prop where
  accounts : Accounts pc owner S.os σ φ γ
  clients : ∀ i, (S.clients i).Sound pc owner i (φ i)
  broker : S.broker.Sound pc owner γ

/-- The message of the broker is delivered, if the step sends one. -/
def SysLabel.Delivered : SysLabel cfg → Prop
  | brokerOp e => brokerMay e.1 e.2
  | _ => True

/-- A call that neither connects nor disconnects a client leaves its `struct psmq` as it was. -/
theorem PsmqObj.At.of_steady {psmq : PsmqObj} {ψ : ClientPhase} (h : psmq.At ψ) {o : Op cfg}
    (ho : Steady o) (r : Op.Res o) : psmq.At (clientNext ψ o r) := by
  cases o with
  | mqSend src mq msg len prio =>
    cases ψ with
    | connected => rwa [clientNext, ClientPhase.onSend, if_neg ho]
    | _ => exact h
  | mqReceive => exact h
  | mqTimedreceive =>
    cases r with
    | error => exact h
    | ok x =>
      cases ψ with
      | opening => exact h.elim
      | _ => exact h
  | _ => exact ho.elim

namespace ClientProc.Sound

variable {ψ : ClientPhase} {c : Call cfg} {psmq psmq' : PsmqObj} {tr : Trace cfg}

theorem call (h : (ClientProc.idle psmq : ClientProc cfg).Sound pc owner i ψ)
    (hc : c.Allowed pc owner i) :
    ClientProc.Sound pc owner i ψ (.busy c psmq [] (c.prog psmq)) :=
  ⟨Call.follows h hc, fun _ => h⟩

/-- A client goes on with its call as its protocol tells. -/
theorem op {o : Op cfg} {k : Op.Res o → P cfg PsmqObj}
    (h : ClientProc.Sound pc owner i ψ (.busy c psmq tr (.call o k))) :
    clientPre pc owner i ψ o ∧ ∀ r, clientMay ψ o r →
      ClientProc.Sound pc owner i (clientNext ψ o r) (.busy c psmq (tr ++ [⟨o, r⟩]) (k r)) := by
  obtain ⟨hp, hat⟩ := h
  obtain ⟨⟨hpre, hsteady⟩, hnext⟩ := follows_call_iff.1 hp
  refine ⟨hpre, fun r hmay => ⟨hnext r hmay, fun hc => ?_⟩⟩
  -- The call has been made: the client is neither connecting nor disconnecting.
  have hc : c.Steady := hc.resolve_right (by simp)
  exact (hat (.inl hc)).of_steady (hsteady hc) r

/-- The clients, one of which goes to the phase `ψ`. -/
theorem update {S : Sys cfg} (h : ∀ j, (S.clients j).Sound pc owner j (φ j)) {c : ClientProc cfg}
    (hc : c.Sound pc owner i ψ) (j : ℕ) :
    ((S.setClient i c).clients j).Sound pc owner j (Function.update φ i ψ j) := by
  by_cases hj : j = i
  · subst hj
    rwa [Sys.setClient_self, Function.update_self]
  · rw [Sys.setClient_of_ne hj, Function.update_of_ne hj]
    exact h j

end ClientProc.Sound

namespace Sys.Sound

variable {names : QueueNames pc} {S S' : Sys cfg} {σ' : UInt8 → Holding}

theorem setClient (h : S.Sound pc owner σ φ γ) {ψ : ClientPhase}
    (ha : Accounts pc owner os' σ' (Function.update φ i ψ) γ) {c : ClientProc cfg}
    (hc : c.Sound pc owner i ψ) :
    Sys.Sound pc owner { S.setClient i c with os := os' } σ' (Function.update φ i ψ) γ where
  accounts := ha
  clients := ClientProc.Sound.update h.clients hc
  broker := h.broker

/-- The broker waiting for a message has its control queue. -/
theorem serving (h : S.Sound pc owner σ φ γ) {s : Broker cfg} (hs : S.broker = .idle s)
    (hq : S.os.fd .broker s.qctrl = some q) : ∃ t, γ = .serving t ∧ s.Matches t ∧
      t.spare = none ∧ S.os.fds .broker t.qctrl = some q := by
  have hat : s.At γ := by simpa only [hs, BrokerProc.Sound] using h.broker
  cases γ with
  | booting =>
    rw [show s.qctrl = none from hat] at hq
    exact absurd hq nofun
  | serving t =>
    obtain ⟨hm, hspare⟩ : s.Matches t ∧ t.spare = none := hat
    rw [hm.1] at hq
    exact ⟨t, rfl, hm, hspare, hq⟩
  | stopping => exact hat.elim

/-- The accounts are kept by all the steps, as long as all the broker sends is delivered. -/
theorem step (h : S.Sound pc names.owner σ φ γ) {l : SysLabel cfg} (hst : SysStep pc names S l S')
    (hl : l.Delivered) : ∃ σ' φ' γ', S'.Sound pc names.owner σ' φ' γ' := by
  -- The processes follow their protocols: what is told of their next call is
  -- what the accounts need to be kept, and they follow them after it.
  cases hst with
  | @call i c psmq hi hc =>
    have hat := h.clients i
    rw [hi] at hat
    exact ⟨σ, _, γ, h.setClient (h.accounts.setPhase (h.accounts.clients i)) (hat.call hc)⟩
  | @clientOp i c psmq tr o k r os' hi hos =>
    have hp := h.clients i
    rw [hi] at hp
    obtain ⟨hmay, σ', ha⟩ := h.accounts.client_step names.owner_brokerName hp.op.1 hos
    exact ⟨σ', _, γ, h.setClient ha (hp.op.2 r hmay)⟩
  | @«return» i c psmq psmq' tr hi =>
    have hp := h.clients i
    rw [hi] at hp
    exact ⟨σ, _, γ, h.setClient (h.accounts.setPhase (h.accounts.clients i)) hp.1⟩
  | @take s q x l hs hq hitems =>
    obtain ⟨t, rfl, hm, hspare, hq⟩ := h.serving hs hq
    obtain ⟨closing, ha, hx⟩ := h.accounts.take hq hitems
    have hm' : s.Matches { t with closing } := hm
    exact ⟨σ, φ, _, ha, h.clients, follows_brokerStart hm' hspare hx x.prio⟩
  | @stop s hs =>
    exact ⟨σ, φ, .stopping, h.accounts.setBroker trivial fun _ => rfl, h.clients,
      (follows_brokerCleanup s).bind fun _ _ h => h⟩
  | @brokerOp job tr o k r os' hb hos =>
    have hp : Follows (brokerProtocol pc names.owner) job.Post γ (.call o k) := by
      simpa only [hb, BrokerProc.Sound] using h.broker
    obtain ⟨hpre, hnext⟩ := follows_call_iff.1 hp
    -- What the broker sends is delivered, so that a slot taken has its offer.
    obtain ⟨σ', ha⟩ := h.accounts.broker_step names.owner_brokerName hpre hos hl
    exact ⟨σ', φ, _, ha, h.clients, hnext r hl⟩
  | @finish job tr s hb =>
    refine ⟨σ, φ, γ, h.accounts, h.clients, ?_⟩
    have hp : Follows (brokerProtocol pc names.owner) job.Post γ (.ret s) := by
      simpa only [hb, BrokerProc.Sound] using h.broker
    cases job with
    | stop => trivial
    | _ => exact hp

theorem init (names : QueueNames pc) :
    Sys.Sound pc names.owner (.start cfg pc) (fun _ => .free) (fun _ => .out) .booting where
  accounts := {
    zero := fun _ => rfl
    names := nofun
    clients := fun _ => ClientPhase.sound_out
    offers := nofun
    requests := nofun
    broker := ⟨fun _ => rfl, nofun⟩ }
  clients _ := .inl rfl
  broker := (follows_brokerInit _).bind fun _ _ h => h

theorem of_reachable
    (hS : ((sysLts cfg pc names).restrict fun _ l => l.Delivered).Reachable S) :
    ∃ σ φ γ, S.Sound pc names.owner σ φ γ :=
  Lts.Reachable.invariant (P := fun S => ∃ σ φ γ, Sys.Sound pc names.owner S σ φ γ)
    (fun _ hS => ⟨_, _, _, hS ▸ init names⟩) (fun _ _ _ ⟨_, _, _, h⟩ hst => h.step hst.1 hst.2) hS

/-- A connected client is known to be so. -/
theorem fd_of_connected (h : S.Sound pc owner σ φ γ) {fd : UInt8}
    (hi : (S.clients i).Connected fd) : (φ i).fd = some fd := by
  have key : ∀ {psmq : PsmqObj}, psmq.At (φ i) → psmq.Open → psmq.fd = fd →
      (φ i).fd = some fd := fun {psmq} hat hopen hfd => by
    cases hφ : φ i with
    | out =>
      rw [hφ] at hat
      rcases hat with heq | ⟨-, hz⟩
      · exact absurd heq hopen.2.2
      · exact absurd hz hopen.2.1
    | connected qsub qpub fd' =>
      rw [hφ] at hat
      obtain ⟨rfl, -⟩ := hat
      exact congrArg some hfd
    | _ =>
      rw [hφ] at hat
      exact hat.elim
  have hs := h.clients i
  cases hc : S.clients i with
  | idle psmq =>
    rw [hc] at hi hs
    exact key hs hi.1 hi.2
  | busy c psmq tr p =>
    rw [hc] at hi hs
    exact key (hs.2 hi.2.2) hi.1 hi.2.1

end Sys.Sound

/-- Descriptor ownership: as long as all the broker sends is delivered, a request
    that is no open request finds the slot it names holding the queue of the client
    that sent it, the only slots changed by a request to close, subscribe,
    unsubscribe or for an ioctl are those of its sender, and no two clients
    connected have the same descriptor. -/
theorem descriptor_ownership {names : QueueNames pc} {S : Sys cfg}
    (hS : ((sysLts cfg pc names).restrict fun _ l => l.Delivered).Reachable S) :
    (∀ s x S', S.broker = .idle s → (sysLts cfg pc names).step S (.take x) S' →
      x.cmd cfg ≠ cmdOpen → ∃ k q i, slotOf cfg (x.data cfg) = some k ∧
        S.os.fd .broker (s.clients k).mq = some q ∧ x.via = some q ∧ x.sender = .client i ∧
        S.os.creator q = some (.client i)) ∧
    (∀ s x tr s' S', Handled pc names S s x tr s' S' →
      x.cmd cfg ∈ [cmdClose, cmdSubscribe, cmdUnsubscribe, cmdIoctl] →
      ∀ k, s'.clients k ≠ s.clients k → ∃ i, x.sender = .client i ∧ S.Holds s k i) ∧
    (∀ i j fd, (S.clients i).Connected fd → (S.clients j).Connected fd → i = j) := by
  obtain ⟨σ, φ, γ, h⟩ := Sys.Sound.of_reachable hS
  have htake : ∀ s x S', S.broker = .idle s → (sysLts cfg pc names).step S (.take x) S' →
      x.cmd cfg ≠ cmdOpen → ∃ k q i, slotOf cfg (x.data cfg) = some k ∧
        S.os.fd .broker (s.clients k).mq = some q ∧ x.via = some q ∧ x.sender = .client i ∧
        S.os.creator q = some (.client i) := fun s x S' hs hst hopen => by
    cases hst with
    | @take s' q _ l hs' hq hl =>
      obtain rfl : s = s' := BrokerProc.idle.inj (hs.symm.trans hs')
      obtain ⟨t, rfl, hm, -, hq⟩ := h.serving hs hq
      obtain ⟨k, q', i, hk, hslot, hx⟩ :=
        h.accounts.slot_of_request hq (hl ▸ List.mem_cons_self) hopen
      exact ⟨k, q', i, hk, by rwa [hm.2], hx⟩
  refine ⟨htake, fun s x tr s' S' hx hcmd k hne => ?_, fun i j fd hi hj =>
    h.accounts.eq_of_fd_eq (h.fd_of_connected hi) (h.fd_of_connected hj)⟩
  -- A request only changes the slot it names, in which it has found the queue
  -- of its sender as it was taken.
  have hk : slotOf cfg (x.data cfg) = some k := by
    by_contra hk
    exact hne (clients_eq_of_ne hx.exec hcmd hk)
  have hopen : x.cmd cfg ≠ cmdOpen := fun ho => by
    rw [ho] at hcmd
    exact absurd hcmd (by decide)
  obtain ⟨S₁, ls, hst, -⟩ := hx.run
  obtain ⟨k', q, i, hk', hq, -, hsender, hcreat⟩ := htake s x S₁ hx.idle hst hopen
  obtain rfl : k = k' := Option.mem_unique hk hk'
  exact ⟨i, hsender, by rw [Sys.Holds, hq]; exact hcreat⟩

instance (o : Op cfg) (r : Op.Res o) : Decidable (brokerMay o r) := by
  cases o <;> unfold brokerMay <;> infer_instance

instance (l : SysLabel cfg) : Decidable l.Delivered := by
  cases l <;> unfold SysLabel.Delivered <;> infer_instance

/-- The second of two clients subscribes to a topic. -/
theorem descriptor_ownership_subscribe : ∃ (S S' : Sys smallest) (s s' : Broker smallest)
    (x : Item) (tr : Trace smallest), Handled psmqdCfgInit twoNames S s x tr s' S' ∧
      x.cmd smallest = cmdSubscribe ∧ s'.clients 1 ≠ s.clients 1 ∧
      (∃ k q i, slotOf smallest (x.data smallest) = some k ∧
        S.os.fd .broker (s.clients k).mq = some q ∧ x.via = some q ∧ x.sender = .client i ∧
        S.os.creator q = some (.client i)) ∧ ∃ i, x.sender = .client i ∧ S.Holds s 1 i := by
  obtain ⟨⟨ls, S⟩, hS, hls, ⟨s, x, tr, s', S'⟩, hx, hcmd, hne⟩ :
      ∃ y ∈ Sys.turns psmqdCfgInit twoNames (List.replicate 2 .broker ++ connecting 0 nameA 10 ++
        connecting 1 nameB 10 ++ requesting 1 (.subscribe (some nameB)))
        (.start smallest psmqdCfgInit),
      (∀ l ∈ y.1, l.Delivered) ∧ ∃ z ∈ y.2.handle, z.2.1.cmd smallest = cmdSubscribe ∧
        z.2.2.2.1.clients 1 ≠ z.1.clients 1 := by
    decide +kernel
  have hx : Handled psmqdCfgInit twoNames S s x tr s' S' := Sys.handled_of_handle hx
  obtain ⟨S₁, ls', hst, -⟩ := hx.run
  have h := descriptor_ownership (((Sys.run_of_turns hS).restrict hls).reachable (.init rfl))
  exact ⟨S, S', s, s', x, tr, hx, hcmd, hne, h.1 s x S₁ hx.idle hst (by rw [hcmd]; decide),
    h.2.1 s x tr s' S' hx (by rw [hcmd]; decide) 1 hne⟩

end Psmq
