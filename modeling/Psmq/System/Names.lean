import Psmq.Lib.Lts
import Psmq.Library.Handles
import Mathlib.Data.Set.Insert

/-!
# Generated names

A client that gives no name for its queue gets one from the library: the first
of `/psmqc000`, `/psmqc001`, … that no queue has. What is followed here is the
names of the queues of the system, along successful calls of `psmq_init` and
`psmq_cleanup` on any objects (`namesLts`).

`psmq_cleanup` closes the queue of the client, but leaves its name, and nothing
else has it: a name is used once. The search fails for want of a name as soon
as it has succeeded `PSMQ_MAX_CLIENTS` times, however many objects are
connected (`psmqInit_finds_name_iff`).
-/

namespace Psmq

open CMem Prog

variable {cfg : Config}

/-- `psmq_init`. -/
def psmqInit (fuel : ℕ) (psmq : PsmqObj) (maxmsg : ℤ) : P cfg (PsmqObj × Except Errno Unit) :=
  psmqInitNamed fuel psmq none none maxmsg

/-! ## The names of the queues -/

/-- The calls about the name of a queue. -/
def Op.naming : Op cfg → Bool
  | mqOpen _ _ => true
  | mqUnlink _ => true
  | _ => false

/-- What a call does to the names of the queues. A name is found taken only if
    a queue has it. -/
inductive NameStep (N : Set CString) : Event (Op cfg) Op.Res → Set CString → Prop
  | openFail {name : CString} {flags : OpenFlags} {e : Errno} : (e = EEXIST → name ∈ N) →
      NameStep N ⟨.mqOpen name flags, .error e⟩ N
  | opened {name : CString} {flags : OpenFlags} {d : ℕ} : name ∈ N →
      ¬(flags.creat = true ∧ flags.excl = true) → NameStep N ⟨.mqOpen name flags, .ok d⟩ N
  | created {name : CString} {flags : OpenFlags} {d : ℕ} : name ∉ N → flags.creat = true →
      NameStep N ⟨.mqOpen name flags, .ok d⟩ (insert name N)
  | unlinkFail {name : CString} {e : Errno} : NameStep N ⟨.mqUnlink name, some e⟩ N
  | unlinked {name : CString} {r : Option Errno} : NameStep N ⟨.mqUnlink name, r⟩ (N \ {name})
  | other {o : Op cfg} {r : Op.Res o} : o.naming = false → NameStep N ⟨o, r⟩ N

/-- The names of the queues, along the calls of a process. -/
def nameLts (cfg : Config) : Lts (Set CString) (Event (Op cfg) Op.Res) where
  init _ := True
  step := NameStep

/-- A call that changes no name. -/
def Quiet (e : Event (Op cfg) Op.Res) : Prop := ∀ N N', NameStep N e N' → N' = N

theorem Quiet.other {o : Op cfg} {r : Op.Res o} (h : o.naming = false) : Quiet ⟨o, r⟩ :=
  fun N N' hst => by
    cases hst with
    | other => rfl
    | openFail => rfl
    | unlinkFail => rfl
    | opened => rfl
    | created => exact nomatch h
    | unlinked => exact nomatch h

theorem Quiet.open {name : CString} {flags : OpenFlags} {r : Except Errno ℕ}
    (h : flags.creat = false) : Quiet (⟨.mqOpen name flags, r⟩ : Event (Op cfg) Op.Res) :=
  fun N N' hst => by
    cases hst with
    | openFail => rfl
    | opened => rfl
    | created _ hcreat => exact absurd hcreat (by simp [h])
    | other h => exact nomatch h

/-- Quiet calls change no name. -/
theorem names_of_quiet {N N' : Set CString} {tr : Trace cfg} (h : (nameLts cfg).Run N tr N')
    (hq : ∀ e ∈ tr, Quiet e) : N' = N := by
  refine h.eq_of_still fun e he N N' hst => ?_
  exact hq e he N N' hst

/-! ## Connecting and disconnecting -/

theorem quiet_of_only {α : Type} {p : P cfg α} {tr : Trace cfg} {x : α}
    (hp : p.Only (·.naming = false)) (h : Exec p tr x) : ∀ e ∈ tr, Quiet e :=
  fun e he => .other (hp.exec h e he)

theorem naming_psmqPublishMsg {psmq : PsmqObj} {cmd data : UInt8} {topic : Option CString}
    {payload : Option Ptr} {paylen prio : ℕ} :
    (psmqPublishMsg psmq cmd data topic payload paylen prio : P cfg _).Only
      (·.naming = false) :=
  (psmqPublishMsg_only ..).mono <| by
    rintro _ ⟨_, _, _, _, _, rfl⟩
    rfl

theorem naming_awaitAck {fuel : ℕ} {psmq : PsmqObj} :
    (awaitAck fuel psmq : P cfg _).Only (·.naming = false) :=
  (awaitAck_only fuel psmq).mono <| by
    rintro _ ⟨_, _, rfl⟩
    rfl

/-- Connecting with the queue of the client changes no name, if it succeeds. -/
theorem quiet_psmqInitWq {fuel : ℕ} {psmq psmq' : PsmqObj} {brokername mqname : CString}
    {tr : Trace cfg} (h : Exec (psmqInitWq fuel psmq brokername mqname) tr (psmq', .ok ())) :
    ∀ e ∈ tr, Quiet e := by
  have error : ∀ {psmq : PsmqObj} {e : Errno} {tr : Trace cfg},
      ¬Exec (initWqError psmq mqname e) tr (psmq', .ok ()) := fun h => by
    obtain ⟨_, _, _, -, heq⟩ := exec_initWqError_iff.1 h
    exact nomatch (Prod.mk.inj heq).2
  obtain ⟨ro, tr₁, rfl, h₁⟩ := exec_perform_bind_iff.1 h
  rw [List.forall_mem_cons]
  refine ⟨.open rfl, ?_⟩
  cases ro with
  | error e =>
    obtain ⟨_, _, -, h₂⟩ := exec_perform_bind_iff.1 h₁
    exact nomatch (Prod.mk.inj (exec_ret_iff.1 h₂).2).2
  | ok qpub =>
    obtain ⟨_, rp, _, h₂, h₃, rfl⟩ := exec_bind_iff.1 h₁
    cases rp with
    | error e => exact absurd h₃ error
    | ok u =>
      obtain ⟨_, ⟨psmq₁, ack⟩, _, h₄, h₅, rfl⟩ := exec_bind_iff.1 h₃
      rw [List.forall_mem_append, List.forall_mem_append]
      refine ⟨quiet_of_only naming_psmqPublishMsg h₂, quiet_of_only naming_awaitAck h₄, ?_⟩
      cases ack with
      | error e => exact absurd h₅ error
      | ok e =>
        cases e with
        | zero => simp [(exec_ret_iff.1 h₅).1]
        | succ e => exact absurd h₅ error

/-- Disconnecting changes no name. -/
theorem quiet_psmqCleanup {psmq : PsmqObj} {tr : Trace cfg} {x : PsmqObj × Except Errno Unit}
    (h : Exec (psmqCleanup psmq) tr x) : ∀ e ∈ tr, Quiet e := by
  have hp : (psmqCleanup psmq : P cfg _).Only (·.naming = false) :=
    .ite trivial <| naming_psmqPublishMsg.bind fun _ => only_perform_bind rfl fun _ =>
      only_perform_bind rfl fun _ => trivial
  exact quiet_of_only hp h

/-- Only a live object is disconnected. -/
theorem live_of_psmqCleanup {psmq psmq' : PsmqObj} {tr : Trace cfg}
    (h : Exec (psmqCleanup psmq) tr (psmq', .ok ())) : psmq.qsub ≠ psmq.qpub := fun heq => by
  simp [psmqCleanup, heq] at h

/-! ## The search -/

/-- A digit tells the number it is the last digit of. -/
theorem digit_inj {a b : ℕ} (h : digit a = digit b) : a % 10 = b % 10 := by
  have h' : (digit a).toNat = (digit b).toNat := congrArg UInt8.toNat h
  simp only [digit, UInt8.toNat_ofNat'] at h'
  omega

/-- The generated names are not the same. -/
theorem generatedName_inj {i k : ℕ} (hi : i < 1000) (hk : k < 1000)
    (h : generatedName i = generatedName k) : i = k := by
  have h' := congrArg CString.bytes h
  simp only [generatedName, List.cons.injEq, true_and, and_true] at h'
  have h₁ := digit_inj h'.1
  have h₂ := digit_inj h'.2.1
  have h₃ := digit_inj h'.2.2
  omega

/-- The name of the first queue created among the calls. -/
def createdName (tr : Trace cfg) : Option CString :=
  tr.findSome? fun
    | ⟨.mqOpen name flags, .ok _⟩ => if flags.creat then some name else none
    | _ => none

/-- A call that finds a name taken. -/
def Taken (e : Event (Op cfg) Op.Res) : Prop :=
  ∃ name flags, e = ⟨.mqOpen name flags, .error EEXIST⟩

/-- The search starts with the first name. -/
theorem exec_initGenerated_cons {fuel i : ℕ} {psmq : PsmqObj} {brokername : CString} {maxmsg : ℤ}
    {is : List ℕ} {tr : Trace cfg} {x : PsmqObj × Except Errno Unit} :
    Exec (initGenerated fuel psmq brokername maxmsg (i :: is)) tr x ↔
      (∃ q tr', tr = ⟨.mqOpen (generatedName i) ⟨.rdonly, true, true, maxmsg⟩, .ok q⟩ :: tr' ∧
        Exec (psmqInitWq fuel { psmq with qsub := some q } brokername (generatedName i)) tr' x) ∨
      (∃ tr', tr = ⟨.mqOpen (generatedName i) ⟨.rdonly, true, true, maxmsg⟩, .error EEXIST⟩ :: tr' ∧
        Exec (initGenerated fuel psmq brokername maxmsg is) tr' x) ∨
      ∃ e, e ≠ EEXIST ∧
        tr = [⟨.mqOpen (generatedName i) ⟨.rdonly, true, true, maxmsg⟩, .error e⟩] ∧
        x = ({ psmq with qsub := none }, .error e) := by
  rw [initGenerated_cons, mqOpen, exec_perform_bind_iff]
  constructor
  · rintro ⟨r, tr', rfl, h⟩
    cases r with
    | ok q => exact .inl ⟨q, tr', rfl, h⟩
    | error e =>
      simp only at h
      split_ifs at h with he
      · exact .inr (.inl ⟨tr', by rw [he], h⟩)
      · obtain ⟨rfl, rfl⟩ := exec_ret_iff.1 h
        exact .inr (.inr ⟨e, he, rfl, rfl⟩)
  · rintro (⟨q, tr', rfl, h⟩ | ⟨tr', rfl, h⟩ | ⟨e, he, rfl, rfl⟩)
    · exact ⟨.ok q, tr', rfl, h⟩
    · exact ⟨.error EEXIST, tr', rfl, by simpa using h⟩
    · exact ⟨.error e, [], rfl, by simp [he]⟩

/-- `psmq_init` searches through all the names. -/
theorem exec_psmqInit_iff {fuel : ℕ} {psmq : PsmqObj} {maxmsg : ℤ} {tr : Trace cfg}
    {x : PsmqObj × Except Errno Unit} : Exec (psmqInit fuel psmq maxmsg) tr x ↔
      (0 < maxmsg ∧ Exec (initGenerated fuel .zero psmqdDefaultQname maxmsg
        (List.range' 0 cfg.maxClients)) tr x) ∨
      (¬0 < maxmsg ∧ tr = [] ∧ x = (psmq, .error EINVAL)) := by
  by_cases h : 0 < maxmsg <;> simp [psmqInit, psmqInitNamed, h, List.range_eq_range']

/-- A search that succeeds has found the names before taken, and takes the first free one. -/
theorem names_initGenerated {fuel a n : ℕ} {psmq psmq' : PsmqObj} {brokername : CString}
    {maxmsg : ℤ} {tr : Trace cfg} {N N' : Set CString} (hrun : (nameLts cfg).Run N tr N')
    (h : Exec (initGenerated fuel psmq brokername maxmsg (List.range' a n)) tr (psmq', .ok ())) :
    ∃ i < a + n, (∀ k, a ≤ k → k < i → generatedName k ∈ N) ∧ generatedName i ∉ N ∧ a ≤ i ∧
      N' = insert (generatedName i) N ∧ createdName tr = some (generatedName i) := by
  induction n generalizing a tr with
  | zero => exact nomatch (Prod.mk.inj (exec_ret_iff.1 h).2).2
  | succ n ih =>
    rw [List.range'_succ, exec_initGenerated_cons] at h
    rcases h with ⟨q, tr', rfl, h⟩ | ⟨tr', rfl, h⟩ | ⟨e, -, -, hx⟩
    · cases hrun with
      | cons hst hrun =>
        have hN' := names_of_quiet hrun (quiet_psmqInitWq h)
        cases hst with
        | opened _ hex => exact absurd ⟨rfl, rfl⟩ hex
        | created hfree => exact ⟨a, by omega, by omega, hfree, le_rfl, hN', rfl⟩
        | other h => exact nomatch h
    · cases hrun with
      | cons hst hrun =>
        cases hst with
        | openFail hmem =>
          obtain ⟨i, hi, hlt, hfree, hle, hN', hc⟩ := ih hrun h
          refine ⟨i, by omega, fun k hk hki => ?_, hfree, by omega, hN', hc⟩
          rcases Nat.eq_or_lt_of_le hk with rfl | hk
          · exact hmem rfl
          · exact hlt k hk hki
        | other h => exact nomatch h
    · exact nomatch (Prod.mk.inj hx).2

/-- A search that only finds names taken has found them all. -/
theorem taken_initGenerated {fuel : ℕ} {psmq psmq' : PsmqObj} {brokername : CString} {maxmsg : ℤ}
    {is : List ℕ} {tr : Trace cfg} {r : Except Errno Unit} {N N' : Set CString}
    (hrun : (nameLts cfg).Run N tr N') (ht : ∀ e ∈ tr, Taken e)
    (h : Exec (initGenerated fuel psmq brokername maxmsg is) tr (psmq', r)) :
    ∀ i ∈ is, generatedName i ∈ N := by
  induction is generalizing tr with
  | nil => simp
  | cons i is ih =>
    rw [exec_initGenerated_cons] at h
    rcases h with ⟨q, tr', rfl, -⟩ | ⟨tr', rfl, h⟩ | ⟨e, he, rfl, -⟩
    · obtain ⟨_, _, he⟩ := ht _ (List.mem_cons_self ..)
      exact nomatch he
    · rw [List.forall_mem_cons] at ht ⊢
      cases hrun with
      | cons hst hrun =>
        cases hst with
        | openFail hmem => exact ⟨hmem rfl, ih hrun ht.2 h⟩
        | other h => exact nomatch h
    · obtain ⟨_, _, heq⟩ := ht _ (List.mem_singleton_self _)
      cases heq
      exact absurd rfl he

/-- The search fails for want of a name when they are all taken. -/
theorem exists_initGenerated {fuel : ℕ} {psmq : PsmqObj} {brokername : CString} {maxmsg : ℤ}
    {is : List ℕ} {N : Set CString} (hN : ∀ i ∈ is, generatedName i ∈ N) :
    ∃ (tr : Trace cfg) (psmq' : PsmqObj), (nameLts cfg).Run N tr N ∧ (∀ e ∈ tr, Taken e) ∧
      Exec (initGenerated fuel psmq brokername maxmsg is) tr (psmq', .error ENOSPC) := by
  induction is with
  | nil => exact ⟨[], _, .nil _, by simp, .ret _⟩
  | cons i is ih =>
    rw [List.forall_mem_cons] at hN
    obtain ⟨tr, psmq', hrun, ht, h⟩ := ih hN.2
    exact ⟨_, psmq', .cons (.openFail fun _ => hN.1) hrun, List.forall_mem_cons.2 ⟨⟨_, _, rfl⟩, ht⟩,
      exec_initGenerated_cons.2 (.inr (.inl ⟨tr, rfl, h⟩))⟩

/-! ## Connecting again and again -/

/-- The objects of the clients, and the names of the queues. -/
structure Names where
  names : Set CString
  objs : ℕ → PsmqObj
  /-- The name of the queue an object is connected with. The object does not have it. -/
  queue : ℕ → Option CString

/-- What happens to the names: a successful call on the object `j`, with its
    system calls, or something else. -/
inductive NamesLabel (cfg : Config)
  | init (j : ℕ) (tr : Trace cfg)
  | cleanup (j : ℕ) (tr : Trace cfg)
  | other

/-- A successful `psmq_init`, of an object not connected, or `psmq_cleanup`; or
    queues are created and removed by others, under names that are not generated. -/
inductive NamesStep (S : Names) : NamesLabel cfg → Names → Prop
  | init {j fuel : ℕ} {maxmsg : ℤ} {tr : Trace cfg} {psmq : PsmqObj} {N : Set CString} :
      S.queue j = none → (nameLts cfg).Run S.names tr N →
      Exec (psmqInit fuel (S.objs j) maxmsg) tr (psmq, .ok ()) →
      NamesStep S (.init j tr)
        ⟨N, Function.update S.objs j psmq, Function.update S.queue j (createdName tr)⟩
  | cleanup {j : ℕ} {tr : Trace cfg} {psmq : PsmqObj} {N : Set CString} :
      (nameLts cfg).Run S.names tr N → Exec (psmqCleanup (S.objs j)) tr (psmq, .ok ()) →
      NamesStep S (.cleanup j tr)
        ⟨N, Function.update S.objs j psmq, Function.update S.queue j none⟩
  | other {N : Set CString} : (∀ i, generatedName i ∈ N ↔ generatedName i ∈ S.names) →
      NamesStep S .other { S with names := N }

/-- The objects of the clients, first cleared, and the names of the queues,
    first with no generated name. -/
def namesLts (cfg : Config) : Lts Names (NamesLabel cfg) where
  init S := (∀ i, generatedName i ∉ S.names) ∧ S.objs = (fun _ => .zero) ∧ S.queue = fun _ => none
  step := NamesStep

/-- How many times `psmq_init` has succeeded. -/
def inits (ls : List (NamesLabel cfg)) : ℕ :=
  ls.countP fun
    | .init _ _ => true
    | _ => false

/-- How many times `psmq_cleanup` has succeeded. -/
def cleanups (ls : List (NamesLabel cfg)) : ℕ :=
  ls.countP fun
    | .cleanup _ _ => true
    | _ => false

/-- `psmq_init` may fail for want of a name: it returns `ENOSPC`, all the names
    it has tried being taken. -/
def WantsName (cfg : Config) (N : Set CString) : Prop :=
  ∃ (fuel : ℕ) (psmq psmq' : PsmqObj) (maxmsg : ℤ) (tr : Trace cfg) (N' : Set CString),
    (nameLts cfg).Run N tr N' ∧ (∀ e ∈ tr, Taken e) ∧
      Exec (psmqInit fuel psmq maxmsg) tr (psmq', .error ENOSPC)

/-- The search wants a name exactly when all the names are taken. -/
theorem wantsName_iff {N : Set CString} :
    WantsName cfg N ↔ ∀ i < cfg.maxClients, generatedName i ∈ N := by
  constructor
  · rintro ⟨fuel, psmq, psmq', maxmsg, tr, N', hrun, ht, h⟩ i hi
    rcases exec_psmqInit_iff.1 h with ⟨-, h⟩ | ⟨-, -, hx⟩
    · exact taken_initGenerated hrun ht h i (by simpa using hi)
    · simp [EINVAL, ENOSPC] at hx
  · intro hN
    have hN' : ∀ i ∈ List.range' 0 cfg.maxClients, generatedName i ∈ N := by simpa using hN
    obtain ⟨tr, psmq', hrun, ht, h⟩ := exists_initGenerated hN'
    exact ⟨0, .zero, psmq', 1, tr, N, hrun, ht, exec_psmqInit_iff.2 (.inl ⟨Int.one_pos, h⟩)⟩

/-- What is known of the names after some calls: the names taken are those of
    the initialisations made so far, connected or not. -/
structure NamesInv (S : Names) (ls : List (NamesLabel cfg)) : Prop where
  le : inits ls ≤ cfg.maxClients
  mem_iff : ∀ i < cfg.maxClients, generatedName i ∈ S.names ↔ i < inits ls
  queue_eq : ∀ j n, S.queue j = some n → ∃ i < inits ls, n = generatedName i
  queue_inj : ∀ j k n, S.queue j = some n → S.queue k = some n → j = k
  dead : ∀ j, S.queue j = none → (S.objs j).qsub = (S.objs j).qpub
  /-- A name is lost when an object is disconnected. -/
  lost_iff : (∃ i < inits ls, ∀ j, S.queue j ≠ some (generatedName i)) ↔ 0 < cleanups ls

variable {S S' : Names} {ls : List (NamesLabel cfg)}

/-- The generated names used are all different. -/
theorem NamesInv.inj (h : NamesInv S ls) {i k : ℕ} (hi : i ≤ inits ls) (hk : k ≤ inits ls)
    (heq : generatedName i = generatedName k) : i = k := by
  have hle := h.le
  have hmax := cfg.maxClients_le
  exact generatedName_inj (by omega) (by omega) heq

/-- The queues of the objects, that of `j` being changed. -/
theorem update_eq_some_iff {queue : ℕ → Option CString} {j k : ℕ} {q : Option CString}
    {n : CString} : Function.update queue j q k = some n ↔
      (k = j ∧ q = some n) ∨ (k ≠ j ∧ queue k = some n) := by
  rw [Function.update_apply]
  split_ifs with h <;> simp [h]

/-- A successful `psmq_init` takes the next name. -/
theorem NamesInv.init (h : NamesInv S ls) {j fuel : ℕ} {maxmsg : ℤ} {tr : Trace cfg}
    {psmq : PsmqObj} {N : Set CString} (hj : S.queue j = none)
    (hrun : (nameLts cfg).Run S.names tr N)
    (hx : Exec (psmqInit fuel (S.objs j) maxmsg) tr (psmq, .ok ())) :
    NamesInv ⟨N, Function.update S.objs j psmq, Function.update S.queue j (createdName tr)⟩
      (ls ++ [.init j tr]) := by
  rcases exec_psmqInit_iff.1 hx with ⟨-, hx⟩ | ⟨-, -, hx⟩
  swap
  · exact nomatch (Prod.mk.inj hx).2
  obtain ⟨i, hi, hlt, hfree, -, rfl, hc⟩ := names_initGenerated hrun hx
  rw [Nat.zero_add] at hi
  have hinits : inits (ls ++ [.init j tr]) = inits ls + 1 := by simp [inits]
  have hcleanups : cleanups (ls ++ [.init j tr]) = cleanups ls := by simp [cleanups]
  -- The first free name is the next one.
  obtain rfl : i = inits ls := by
    have h₁ : ¬i < inits ls := fun hlt => hfree ((h.mem_iff i hi).2 hlt)
    by_contra hne
    have h₂ := (h.mem_iff (inits ls) (by omega)).1 (hlt _ (Nat.zero_le _) (by omega))
    omega
  have hnew : ∀ k, S.queue k ≠ some (generatedName (inits ls)) := fun k hk => by
    obtain ⟨i, hlt, heq⟩ := h.queue_eq k _ hk
    exact hlt.ne (h.inj le_rfl hlt.le heq).symm
  rw [hc]
  refine ⟨by omega, fun k hk => ?_, fun k n hk => ?_, fun k k' n hk hk' => ?_, fun k hk => ?_, ?_⟩
  · rw [Set.mem_insert_iff, h.mem_iff k hk, hinits]
    constructor
    · rintro (heq | hlt)
      · have hmax := cfg.maxClients_le
        have := generatedName_inj (by omega) (by omega) heq
        omega
      · omega
    · intro hk
      rcases Nat.lt_succ_iff_lt_or_eq.1 hk with hlt | rfl
      · exact .inr hlt
      · exact .inl rfl
  · rw [hinits]
    rcases update_eq_some_iff.1 hk with ⟨-, hn⟩ | ⟨-, hk⟩
    · exact ⟨_, Nat.lt_succ_self _, (Option.some.inj hn).symm⟩
    · obtain ⟨i, hlt, heq⟩ := h.queue_eq k n hk
      exact ⟨i, by omega, heq⟩
  · rcases update_eq_some_iff.1 hk with ⟨rfl, hn⟩ | ⟨-, hq⟩ <;>
      rcases update_eq_some_iff.1 hk' with ⟨rfl, hn'⟩ | ⟨-, hq'⟩
    · rfl
    · exact absurd (hq'.trans hn.symm) (hnew k')
    · exact absurd (hq.trans hn'.symm) (hnew k)
    · exact h.queue_inj k k' n hq hq'
  · have hkj : k ≠ j := by
      rintro rfl
      simp at hk
    simp only [Function.update_of_ne hkj] at hk ⊢
    exact h.dead k hk
  · rw [hcleanups, ← h.lost_iff, hinits]
    constructor
    · rintro ⟨i, hlt, hi⟩
      have hne : i ≠ inits ls := by
        rintro rfl
        exact hi j (update_eq_some_iff.2 (.inl ⟨rfl, rfl⟩))
      refine ⟨i, by omega, fun k hk => hi k (update_eq_some_iff.2 (.inr ⟨?_, hk⟩))⟩
      rintro rfl
      exact absurd hk (by simp [hj])
    · rintro ⟨i, hlt, hi⟩
      refine ⟨i, by omega, fun k hk => ?_⟩
      rcases update_eq_some_iff.1 hk with ⟨-, hn⟩ | ⟨-, hk⟩
      · exact hlt.ne (h.inj le_rfl hlt.le (Option.some.inj hn)).symm
      · exact hi k hk

/-- A successful `psmq_cleanup` loses a name. -/
theorem NamesInv.cleanup (h : NamesInv S ls) {j : ℕ} {tr : Trace cfg} {psmq : PsmqObj}
    {N : Set CString} (hrun : (nameLts cfg).Run S.names tr N)
    (hx : Exec (psmqCleanup (S.objs j)) tr (psmq, .ok ())) :
    NamesInv ⟨N, Function.update S.objs j psmq, Function.update S.queue j none⟩
      (ls ++ [.cleanup j tr]) := by
  have hinits : inits (ls ++ [.cleanup j tr]) = inits ls := by simp [inits]
  have hcleanups : cleanups (ls ++ [.cleanup j tr]) = cleanups ls + 1 := by simp [cleanups]
  -- Every name used after the call was used before it, by another object.
  have huse : ∀ {k n}, Function.update S.queue j none k = some n → k ≠ j ∧ S.queue k = some n :=
    fun hk => (update_eq_some_iff.1 hk).resolve_left fun h => nomatch h.2
  obtain rfl := names_of_quiet hrun (quiet_psmqCleanup hx)
  refine ⟨hinits ▸ h.le, fun k hk => hinits ▸ h.mem_iff k hk,
    fun k n hk => hinits ▸ h.queue_eq k n (huse hk).2,
    fun k k' n hk hk' => h.queue_inj k k' n (huse hk).2 (huse hk').2, fun k hk => ?_, ?_⟩
  · by_cases hkj : k = j
    · subst hkj
      simpa only [Function.update_self] using exec_psmqCleanup hx
    · simp only [Function.update_of_ne hkj] at hk ⊢
      exact h.dead k hk
  · refine iff_of_true ?_ (by omega)
    cases hj : S.queue j with
    | none => exact absurd (h.dead j hj) (live_of_psmqCleanup hx)
    | some n =>
      obtain ⟨i, hlt, rfl⟩ := h.queue_eq j n hj
      exact ⟨i, hinits ▸ hlt, fun k hk => (huse hk).1 (h.queue_inj k j _ (huse hk).2 hj)⟩

theorem namesInv_of_step {l : NamesLabel cfg} (h : NamesInv S ls) (hst : NamesStep S l S') :
    NamesInv S' (ls ++ [l]) := by
  cases hst with
  | init hj hrun hx => exact h.init hj hrun hx
  | cleanup hrun hx => exact h.cleanup hrun hx
  | other hN =>
    have hinits : inits (ls ++ [.other]) = inits ls := by simp [inits]
    have hcleanups : cleanups (ls ++ [.other]) = cleanups ls := by simp [cleanups]
    exact ⟨hinits ▸ h.le, fun k hk => by rw [hN, h.mem_iff k hk, hinits],
      fun k n hk => hinits ▸ h.queue_eq k n hk, h.queue_inj, h.dead, by
        rw [hinits, hcleanups]
        exact h.lost_iff⟩

theorem namesInv_of_run {S₀ : Names} (h₀ : (namesLts cfg).init S₀)
    (h : (namesLts cfg).Run S₀ ls S) : NamesInv S ls := by
  refine h.history (R := NamesInv) (fun S l S' ls hinv hst => ?_) ?_
  · exact namesInv_of_step hinv hst
  · obtain ⟨hN, hobjs, hq⟩ := h₀
    exact ⟨Nat.zero_le _, fun i _ => by simp [hN i, inits], fun j n hj => by simp [hq] at hj,
      fun j k n hj => by simp [hq] at hj, fun j _ => by rw [hobjs]; rfl, by simp [inits, cleanups]⟩

/-- After any successful calls of `psmq_init` and `psmq_cleanup`: the generated
    names taken are those of the connected objects exactly when there was no
    `psmq_cleanup`; and `psmq_init` cannot fail for want of a name exactly when
    less than `PSMQ_MAX_CLIENTS` of them have succeeded. -/
theorem psmqInit_finds_name_iff {S₀ S : Names} {ls : List (NamesLabel cfg)}
    (h₀ : (namesLts cfg).init S₀) (h : (namesLts cfg).Run S₀ ls S) :
    ((∀ i < cfg.maxClients, generatedName i ∈ S.names ↔
      ∃ j, S.queue j = some (generatedName i)) ↔ cleanups ls = 0) ∧
    (¬WantsName cfg S.names ↔ inits ls < cfg.maxClients) := by
  have hinv := namesInv_of_run h₀ h
  have hle := hinv.le
  constructor
  · rw [← Nat.le_zero, ← not_lt, ← hinv.lost_iff]
    constructor
    · rintro hconn ⟨i, hlt, hi⟩
      obtain ⟨j, hj⟩ := (hconn i (by omega)).1 ((hinv.mem_iff i (by omega)).2 hlt)
      exact hi j hj
    · intro hlost i hi
      rw [hinv.mem_iff i hi]
      constructor
      · intro hlt
        by_contra hno
        exact hlost ⟨i, hlt, fun j hj => hno ⟨j, hj⟩⟩
      · rintro ⟨j, hj⟩
        obtain ⟨k, hlt, heq⟩ := hinv.queue_eq j _ hj
        have hmax := cfg.maxClients_le
        rwa [generatedName_inj (by omega) (by omega) heq]
  · rw [wantsName_iff]
    constructor
    · intro hno
      by_contra hall
      exact hno fun i hi => (hinv.mem_iff i hi).2 (by omega)
    · intro hlt hall
      exact absurd ((hinv.mem_iff _ hlt).1 (hall _ hlt)) (lt_irrefl _)

/-- The smallest build where a generated name fits in a message. -/
def smallestNamed : Config := { smallest with
  msgMax := 10
  six_le_msgMax := by decide
  msgMax_le := by decide }

/-- Results for the calls of a client, if some names are taken. -/
def namedAnswers (taken : List CString) :
    Trace smallestNamed → (o : Op smallestNamed) → Op.Res o
  | _, .mqOpen name flags =>
    if flags.creat then (if name ∈ taken then .error EEXIST else .ok 3) else .ok 4
  | past, o => libAnswers smallestNamed (.ok 3) past o

/-- The names with the queue of the broker, then with the first generated names. -/
def namedSmallest : ℕ → Set CString
  | 0 => {psmqdDefaultQname}
  | n + 1 => insert (generatedName n) (namedSmallest n)

theorem generatedName_ne_psmqd (i : ℕ) : generatedName i ≠ psmqdDefaultQname := fun h =>
  absurd (congrArg CString.length h) (by simp [CString.length, generatedName, psmqdDefaultQname,
    psmqdCfgInit])

/-- The first client to connect takes the first name. -/
theorem exec_psmqInit_first : ∃ tr,
    Exec (psmqInit 1 .zero 1) tr (⟨some 3, some 4, 0⟩, .ok ()) ∧
    (nameLts smallestNamed).Run (namedSmallest 0) tr (namedSmallest 1) := by
  obtain ⟨msg, len, h⟩ : ∃ msg len, eval (namedAnswers []) [] (psmqInit 1 .zero 1) =
      some ([⟨.mqOpen (generatedName 0) ⟨.rdonly, true, true, 1⟩, .ok 3⟩,
        ⟨.mqOpen psmqdDefaultQname ⟨.wronly, false, false, 0⟩, .ok 4⟩,
        ⟨.mqSend (some 3) (some 4) msg len 0, .ok ()⟩,
        ⟨.mqTimedreceive (some 3) 30000, .ok ([111, 0, 1, 0, 0], 0)⟩],
        (⟨some 3, some 4, 0⟩, .ok ())) := ⟨_, _, rfl⟩
  refine ⟨_, exec_of_eval h, ?_⟩
  exact .cons (.created (generatedName_ne_psmqd 0) rfl) <| .cons (.opened (.inr rfl) (by simp)) <|
    .cons (.other rfl) <| .cons (.other rfl) <| .nil _

/-- The second client takes the second name. -/
theorem exec_psmqInit_second : ∃ tr,
    Exec (psmqInit 1 .zero 1) tr (⟨some 3, some 4, 0⟩, .ok ()) ∧
    (nameLts smallestNamed).Run (namedSmallest 1) tr (namedSmallest 2) := by
  obtain ⟨msg, len, h⟩ : ∃ msg len, eval (namedAnswers [generatedName 0]) [] (psmqInit 1 .zero 1) =
      some ([⟨.mqOpen (generatedName 0) ⟨.rdonly, true, true, 1⟩, .error EEXIST⟩,
        ⟨.mqOpen (generatedName 1) ⟨.rdonly, true, true, 1⟩, .ok 3⟩,
        ⟨.mqOpen psmqdDefaultQname ⟨.wronly, false, false, 0⟩, .ok 4⟩,
        ⟨.mqSend (some 3) (some 4) msg len 0, .ok ()⟩,
        ⟨.mqTimedreceive (some 3) 30000, .ok ([111, 0, 1, 0, 0], 0)⟩],
        (⟨some 3, some 4, 0⟩, .ok ())) := ⟨_, _, rfl⟩
  have hfree : generatedName 1 ∉ namedSmallest 1 := by
    rintro (h | h)
    · exact Nat.one_ne_zero (generatedName_inj (by decide) (by decide) h)
    · exact generatedName_ne_psmqd 1 h
  refine ⟨_, exec_of_eval h, ?_⟩
  exact .cons (.openFail fun _ => .inl rfl) <| .cons (.created hfree rfl) <|
    .cons (.opened (.inr (.inr rfl)) (by simp)) <| .cons (.other rfl) <|
    .cons (.other rfl) <| .nil _

/-- A client disconnects, and leaves its name. -/
theorem exec_psmqCleanup_names (N : Set CString) : ∃ tr,
    Exec (psmqCleanup ⟨some 3, some 4, 0⟩) tr (⟨none, none, 0⟩, .ok ()) ∧
    (nameLts smallestNamed).Run N tr N := by
  obtain ⟨msg, len, h⟩ : ∃ msg len, eval (namedAnswers []) [] (psmqCleanup ⟨some 3, some 4, 0⟩) =
      some ([⟨.mqSend (some 3) (some 4) msg len 0, .ok ()⟩, ⟨.mqClose (some 4), none⟩,
        ⟨.mqClose (some 3), none⟩], (⟨none, none, 0⟩, .ok ())) := ⟨_, _, rfl⟩
  refine ⟨_, exec_of_eval h, ?_⟩
  exact .cons (.other rfl) <| .cons (.other rfl) <| .cons (.other rfl) <|
    .nil _

/-- A client is connected: another one can connect. -/
theorem psmqInit_finds_name_second : ∃ (S₀ S : Names) (tr : Trace smallestNamed),
    (namesLts smallestNamed).init S₀ ∧ (namesLts smallestNamed).Run S₀ [.init 0 tr] S ∧
    ¬WantsName smallestNamed S.names := by
  obtain ⟨tr, h, hr⟩ := exec_psmqInit_first
  let S₀ : Names := ⟨namedSmallest 0, fun _ => .zero, fun _ => none⟩
  have h₀ : (namesLts smallestNamed).init S₀ := ⟨generatedName_ne_psmqd, rfl, rfl⟩
  have hrun : (namesLts smallestNamed).Run S₀ [.init 0 tr] _ := .cons (.init rfl hr h) (.nil _)
  exact ⟨S₀, _, tr, h₀, hrun, (psmqInit_finds_name_iff h₀ hrun).2.2 (by decide : 1 < 2)⟩

/-- Two clients connect and disconnect, one after the other: then nobody can
    connect, although nobody is connected. -/
theorem psmqInit_wears_out : ∃ (S₀ S : Names) (tr₁ tr₂ tr₃ tr₄ : Trace smallestNamed),
    (namesLts smallestNamed).init S₀ ∧
    (namesLts smallestNamed).Run S₀
      [.init 0 tr₁, .cleanup 0 tr₂, .init 1 tr₃, .cleanup 1 tr₄] S ∧
    (∀ j, S.queue j = none) ∧ WantsName smallestNamed S.names := by
  obtain ⟨tr₁, h₁, hr₁⟩ := exec_psmqInit_first
  obtain ⟨tr₂, h₂, hr₂⟩ := exec_psmqCleanup_names (namedSmallest 1)
  obtain ⟨tr₃, h₃, hr₃⟩ := exec_psmqInit_second
  obtain ⟨tr₄, h₄, hr₄⟩ := exec_psmqCleanup_names (namedSmallest 2)
  have hrun : (namesLts smallestNamed).Run ⟨namedSmallest 0, fun _ => .zero, fun _ => none⟩
      [.init 0 tr₁, .cleanup 0 tr₂, .init 1 tr₃, .cleanup 1 tr₄] _ :=
    .cons (.init rfl hr₁ h₁) <| .cons (.cleanup hr₂ h₂) <| .cons (.init rfl hr₃ h₃) <|
      .cons (.cleanup hr₄ h₄) <| .nil _
  refine ⟨_, _, tr₁, tr₂, tr₃, tr₄, ⟨fun i => ?_, rfl, rfl⟩, hrun, fun j => ?_,
    wantsName_iff.2 fun i hi => ?_⟩
  · exact generatedName_ne_psmqd i
  · simp only [Function.update_apply]
    split_ifs <;> rfl
  · have hi : i < 2 := hi
    obtain rfl | rfl : i = 0 ∨ i = 1 := by omega
    · exact .inr (.inl rfl)
    · exact .inl rfl

end Psmq
