import Psmq.Broker.Subscriptions
import Psmq.Library.Handles
import Psmq.Sub
import Psmq.Wire

/-!
# Starting psmq-sub

For every option `-t`, `psmq-sub` sends a request and reads one message: the
reply, if nothing comes before it. But messages are published on the topics
already confirmed, and what is read then may be one of them: the program takes
it for a wrong reply, and returns. It also takes any refusal but `EBADMSG` for
a confirmation.

The broker answers every request, after any messages published before its
reply is read (`Answer`). The start of the program is robust (`Robust`)
exactly when no message comes before a reply, and the refusals are `EBADMSG`,
as long as the program goes on (`start_robust_iff`).
-/

namespace Psmq

open CMem Prog

variable {cfg : Config}

/-! ## The calls made -/

/-- The messages received. -/
def receivedIn (tr : Trace cfg) : List (List UInt8 × ℕ) :=
  tr.filterMap fun
    | ⟨.mqReceive _, .ok x⟩ => some x
    | _ => none

/-- A request to subscribe is not sent, or a reception is interrupted. -/
def disturbs : Event (Op cfg) Op.Res → Bool
  | ⟨.mqReceive _, .error _⟩ => true
  | ⟨.mqSend _ _ msg _ _, .error _⟩ => msg.ctrl.cmd = cmdSubscribe
  | _ => false

/-- All the requests to subscribe are sent, and no reception is interrupted. -/
def Undisturbed (tr : Trace cfg) : Prop := ∀ e ∈ tr, disturbs e = false

theorem receivedIn_append (tr₁ tr₂ : Trace cfg) :
    receivedIn (tr₁ ++ tr₂) = receivedIn tr₁ ++ receivedIn tr₂ := List.filterMap_append ..

theorem Undisturbed.append {tr₁ tr₂ : Trace cfg} (h : Undisturbed (tr₁ ++ tr₂)) :
    Undisturbed tr₁ ∧ Undisturbed tr₂ := List.forall_mem_append.1 h

/-- A request receives nothing but with a timeout. -/
theorem receivedIn_eq_nil {α : Type} {p : P cfg α} {cmd : UInt8} (hp : p.Only (Op.ofRequest cmd))
    {tr : Trace cfg} {a : α} (h : Exec p tr a) : receivedIn tr = [] := by
  rw [receivedIn, List.filterMap_eq_nil_iff]
  rintro ⟨o, r⟩ he
  have ho := hp.exec h _ he
  cases o with
  | mqReceive => exact ho.elim
  | _ => rfl

theorem only_fail {s : Sub} {r : Report} : (s.fail r : P cfg _).Only (Op.ofRequest cmdClose) :=
  only_psmqCleanup.bind fun _ => trivial

/-! ## What the broker answers -/

/-- What `psmq-sub` receives for a request to subscribe: messages published on
    the topics it is subscribed to, then the reply, with the `code` of the broker. -/
structure Answer where
  before : List (List UInt8 × ℕ)
  reply : List UInt8 × ℕ
  code : UInt8
  cmd_before : ∀ x ∈ before, x.1[0]? = some cmdPublish
  cmd_reply : reply.1[0]? = some cmdSubscribe
  data_reply : reply.1[1]? = some code

/-- What is received for some requests, in order. -/
def delivered (answers : List Answer) : List (List UInt8 × ℕ) :=
  answers.flatMap fun a => a.before ++ [a.reply]

/-- The answers to the requests of a program that goes on until it is refused. -/
def asked : List Answer → List Answer
  | [] => []
  | a :: as => a :: if a.code = 0 then asked as else []

/-- A message is printed by the program. -/
def Shown (stack : PsmqMsg cfg) (out : List Report) (x : List UInt8 × ℕ) : Prop :=
  ∃ r goOn, onReceive (stack.recvInto x.1) x.2 = some (r, goOn) ∧ r ∈ out

/-- How many requests the program has told to be confirmed. -/
def subscribedTo (out : List Report) : ℕ :=
  out.countP fun
    | .subscribed _ => true
    | _ => false

/-- The start of the program is as it should be, given the answers of the broker
    to all its requests, the calls made, what is printed and the code returned,
    if the program returns. -/
structure Robust (stack : PsmqMsg cfg) (answers : List Answer) (tr : Trace cfg)
    (out : List Report) (exit : Option ℤ) : Prop where
  /-- The loop is reached if all the requests are confirmed, and only then. -/
  reached_iff : exit = none ↔ ∀ a ∈ answers, a.code = 0
  /-- The messages published are not lost. -/
  shown : ∀ x ∈ receivedIn tr, x.1[0]? = some cmdPublish → Shown stack out x
  /-- They do not make the program return. -/
  goesOn : ∀ l x, receivedIn tr = l ++ [x] → x.1[0]? = some cmdPublish → exit = none
  /-- Only the requests confirmed are told to be. -/
  honest : ∀ a ∈ answers.take (subscribedTo out), a.code = 0

/-- The topics of the options. -/
def topicsOf (opts : List SubOpt) : List CString :=
  opts.filterMap fun
    | .t topic => some topic
    | _ => none

/-- The option makes `psmq-sub` subscribe, or go on; the topic is one `psmq_subscribe` accepts. -/
def SubOpt.Valid (cfg : Config) : SubOpt → Prop
  | .n _ | .b _ => True
  | .t topic => topic.bytes[0]? = some slash ∧ topic.length + 1 ≤ cfg.msgMax
  | .o opened => opened = true
  | .v | .h | .bad => False

/-! ## What is printed -/

/-- A report about neither a subscription nor a message. -/
def Report.plain : Report → Bool
  | subscribed _ | binary _ _ _ _ | text _ _ _ _ => false
  | _ => true

/-- Only plain reports are printed between two states. -/
def Sub.Prints (s s' : Sub) : Prop := ∃ rs, s'.out = s.out ++ rs ∧ ∀ r ∈ rs, r.plain = true

/-- The program is connected once it has read an option to, with two queues. -/
structure Sub.Ready (s : Sub) : Prop where
  connected_iff : s.connected = true ↔ s.gotB = true ∨ s.gotT = true
  live : s.connected = true → s.psmq.Live

theorem Sub.Prints.refl (s : Sub) : s.Prints s := ⟨[], by simp, by simp⟩

theorem Sub.Prints.trans {s₁ s₂ s₃ : Sub} (h₁ : s₁.Prints s₂) (h₂ : s₂.Prints s₃) :
    s₁.Prints s₃ := by
  obtain ⟨rs₁, hrs₁, hp₁⟩ := h₁
  obtain ⟨rs₂, hrs₂, hp₂⟩ := h₂
  exact ⟨rs₁ ++ rs₂, by rw [hrs₂, hrs₁, List.append_assoc], List.forall_mem_append.2 ⟨hp₁, hp₂⟩⟩

theorem Sub.Prints.print {s : Sub} {r : Report} (h : r.plain = true) : s.Prints (s.print r) :=
  ⟨[r], rfl, by simpa using h⟩

/-! ## One request -/

section Request

variable {stack : PsmqMsg cfg} {s s' : Sub} {tr : Trace cfg} {exit : Option ℤ}

theorem recvInto_cmd {bytes : List UInt8} {c : UInt8} (hc : bytes[0]? = some c) :
    (stack.recvInto bytes).ctrl.cmd = c := by
  cases bytes with
  | nil => exact nomatch hc
  | cons b bytes => exact Option.some.inj hc

theorem recvInto_data {bytes : List UInt8} {d : UInt8} (hd : bytes[1]? = some d) :
    (stack.recvInto bytes).ctrl.data = d := by
  match bytes with
  | _ :: b :: bytes => exact Option.some.inj hd

theorem exec_psmqSubscribe {psmq : PsmqObj} (hlive : psmq.Live) {topic : CString}
    (ht : topic.bytes[0]? = some slash ∧ topic.length + 1 ≤ cfg.msgMax) {r : Except Errno Unit}
    (h : Exec (psmqSubscribe psmq topic) tr r) :
    ∃ (pub : PsmqMsg cfg) (len : ℕ), pub.ctrl.cmd = cmdSubscribe ∧
      tr = [⟨.mqSend psmq.qsub psmq.qpub pub len 0, r⟩] := by
  have hne : topic.bytes ≠ [] := fun h => by simp [h] at ht
  simp only [psmqSubscribe, psmqTopicRequest, if_neg hne, ht.1, ht.2, ne_eq, not_true_eq_false,
    if_false, if_neg hlive.qsub_ne, if_neg hlive.ne] at h
  obtain ⟨pub, len, hpub, htr⟩ := exec_psmqPublishMsg_of_live hlive h
  exact ⟨pub, len, by rw [(publishMsg_eq_some hpub).1], htr⟩

/-- What the program does with the message `x` read after a request. -/
inductive TakesReply (stack : PsmqMsg cfg) (s : Sub) (x : List UInt8 × ℕ) : Sub → Option ℤ → Prop
  | wrong {s' : Sub} : (stack.recvInto x.1).ctrl.cmd ≠ cmdSubscribe → s.Prints s' →
      TakesReply stack s x s' (some 1)
  | refused {s' : Sub} : (stack.recvInto x.1).ctrl.cmd = cmdSubscribe →
      (stack.recvInto x.1).ctrl.data.toNat = EBADMSG → s.Prints s' →
      TakesReply stack s x s' (some 1)
  | subscribed {printed : CString} : (stack.recvInto x.1).ctrl.cmd = cmdSubscribe →
      (stack.recvInto x.1).ctrl.data.toNat ≠ EBADMSG →
      TakesReply stack s x (s.print (.subscribed printed)) none

theorem exec_fail {r : Report} (hr : r.plain = true) (h : Exec (s.fail r) tr (s', exit)) :
    receivedIn tr = [] ∧ exit = some 1 ∧ s.Prints s' := by
  refine ⟨receivedIn_eq_nil only_fail h, ?_⟩
  obtain ⟨_, x, _, -, h₁, -⟩ := exec_bind_iff.1 h
  obtain ⟨rfl, rfl⟩ := Prod.mk.inj (exec_ret_iff.1 h₁).2
  exact ⟨rfl, [r], rfl, by simpa using hr⟩

/-- After a request, the program reads one message. -/
theorem exec_subscribe (hlive : s.psmq.Live) {topic : CString}
    (ht : topic.bytes[0]? = some slash ∧ topic.length + 1 ≤ cfg.msgMax) (hu : Undisturbed tr)
    (h : Exec (s.subscribe stack topic) tr (s', exit)) :
    ∃ x, receivedIn tr = [x] ∧ TakesReply stack s x s' exit := by
  obtain ⟨tr₁, r, tr₂, h₁, h₂, rfl⟩ := exec_bind_iff.1 h
  obtain ⟨pub, len, hcmd, rfl⟩ := exec_psmqSubscribe hlive ht h₁
  obtain ⟨hu₁, hu₂⟩ := hu.append
  cases r with
  | error e => exact absurd hcmd (by simpa [disturbs] using hu₁ _ (List.mem_singleton_self _))
  | ok u =>
    obtain ⟨tr₃, r, tr₄, h₃, h₄, rfl⟩ := exec_bind_iff.1 h₂
    rw [psmqReceivePrio, if_neg hlive.qpub_ne, if_neg hlive.ne] at h₃
    obtain ⟨res, tr₅, rfl, h₅⟩ := exec_perform_bind_iff.1 h₃
    cases res with
    | error e => exact absurd (hu₂ _ (List.mem_cons_self ..)) (by simp [disturbs])
    | ok x =>
      obtain ⟨rfl, rfl⟩ := exec_ret_iff.1 h₅
      have hrec : receivedIn ([⟨.mqSend s.psmq.qsub s.psmq.qpub pub len 0, .ok u⟩] ++
          ([⟨.mqReceive s.psmq.qsub, .ok x⟩] ++ tr₄)) = x :: receivedIn tr₄ := rfl
      refine ⟨x, ?_⟩
      rw [hrec]
      simp only at h₄
      split_ifs at h₄ with hc hd
      · obtain ⟨hnil, rfl, hp⟩ := exec_fail rfl h₄
        exact ⟨by rw [hnil], .wrong hc hp⟩
      · obtain ⟨printed, -, h₆⟩ := exec_deref_bind_iff.1 h₄
        obtain ⟨hnil, rfl, hp⟩ := exec_fail rfl h₆
        exact ⟨by rw [hnil], .refused (not_not.1 hc) hd hp⟩
      · obtain ⟨printed, -, h₆⟩ := exec_deref_bind_iff.1 h₄
        obtain ⟨rfl, hx⟩ := exec_ret_iff.1 h₆
        obtain ⟨rfl, rfl⟩ := Prod.mk.inj hx
        exact ⟨rfl, .subscribed (not_not.1 hc) hd⟩

/-! ## One option -/

/-- Connecting succeeds, or the program returns. -/
theorem exec_connect {fuel : ℕ} {brokname : CString} (hlive : s.connected = true → s.psmq.Live)
    (h : Exec (s.connect fuel brokname) tr (s', exit)) : receivedIn tr = [] ∧
      ((exit = none ∧ s'.connected = true ∧ s'.psmq.Live ∧ s.Prints s' ∧ s'.gotB = s.gotB ∧
        s'.gotT = s.gotT) ∨ (exit = some 1 ∧ s'.connected = false)) := by
  rw [Sub.connect] at h
  split_ifs at h with hc
  · obtain ⟨rfl, hx⟩ := exec_ret_iff.1 h
    obtain ⟨rfl, rfl⟩ := Prod.mk.inj hx
    exact ⟨rfl, .inl ⟨rfl, hc, hlive hc, .print rfl, rfl, rfl⟩⟩
  · obtain ⟨tr₁, ⟨psmq, r⟩, tr₂, h₁, h₂, rfl⟩ := exec_bind_iff.1 h
    rw [receivedIn_append, receivedIn_eq_nil only_psmqInitNamed h₁]
    cases r with
    | ok u =>
      obtain ⟨rfl, hx⟩ := exec_ret_iff.1 h₂
      obtain ⟨rfl, rfl⟩ := Prod.mk.inj hx
      exact ⟨rfl, .inl ⟨rfl, rfl, live_of_psmqInitNamed h₁, ⟨[_], rfl, by simp [Report.plain]⟩,
        rfl, rfl⟩⟩
    | error e =>
      obtain ⟨rfl, hx⟩ := exec_ret_iff.1 h₂
      obtain ⟨rfl, rfl⟩ := Prod.mk.inj hx
      exact ⟨rfl, .inr ⟨rfl, by simpa [Sub.print] using hc⟩⟩

/-- The option `-t` connects first, if it must; then the program reads a message. -/
theorem exec_option_t {fuel : ℕ} {topic : CString} (hr : s.Ready)
    (ht : topic.bytes[0]? = some slash ∧ topic.length + 1 ≤ cfg.msgMax) (hu : Undisturbed tr)
    (h : Exec (s.option fuel stack (.t topic)) tr (s', exit)) :
    (exit = some 1 ∧ s'.connected = false) ∨
    ∃ s₁ x, receivedIn tr = [x] ∧ s.Prints s₁ ∧ s₁.Ready ∧ s₁.gotT = true ∧
      TakesReply stack s₁ x s' exit := by
  obtain ⟨tr₁, ⟨s₂, exit₂⟩, tr₂, h₁, h₂, rfl⟩ := exec_bind_iff.1 h
  have hu₂ := hu.append.2
  rw [Sub.connectFirst] at h₁
  split_ifs at h₁ with hgot
  · obtain ⟨hrec, ⟨rfl, hc, hlive, hp, hb, hgt⟩ | ⟨rfl, hc⟩⟩ := exec_connect hr.live h₁
    · obtain ⟨x, hx, htake⟩ := exec_subscribe (s := { s₂ with gotT := true }) hlive ht hu₂ h₂
      exact .inr ⟨{ s₂ with gotT := true }, x,
        by rw [receivedIn_append, hrec, hx, List.nil_append], hp,
        ⟨iff_of_true hc (.inr rfl), fun _ => hlive⟩, rfl, htake⟩
    · obtain ⟨rfl, hx⟩ := exec_ret_iff.1 h₂
      obtain ⟨rfl, rfl⟩ := Prod.mk.inj hx
      exact .inl ⟨rfl, hc⟩
  · obtain ⟨rfl, hx⟩ := exec_ret_iff.1 h₁
    obtain ⟨rfl, rfl⟩ := Prod.mk.inj hx
    have hc : s₂.connected = true := hr.connected_iff.2 (by
      by_contra hno
      simp only [not_or, Bool.not_eq_true] at hno
      exact hgot hno)
    obtain ⟨x, hx, htake⟩ := exec_subscribe (s := { s₂ with gotT := true }) (hr.live hc) ht hu₂ h₂
    exact .inr ⟨{ s₂ with gotT := true }, x, hx, .refl _,
      ⟨iff_of_true hc (.inr rfl), fun _ => hr.live hc⟩, rfl, htake⟩

/-- The other options receive nothing: the program goes on, unless it cannot connect. -/
theorem exec_option {fuel : ℕ} {opt : SubOpt} (hr : s.Ready) (hv : opt.Valid cfg)
    (hopt : ∀ topic, opt ≠ .t topic) (h : Exec (s.option fuel stack opt) tr (s', exit)) :
    receivedIn tr = [] ∧ ((exit = some 1 ∧ s'.connected = false) ∨
      (exit = none ∧ s'.Ready ∧ s.Prints s' ∧ s'.gotT = s.gotT)) := by
  cases opt with
  | n qname =>
    obtain ⟨rfl, hx⟩ := exec_ret_iff.1 h
    obtain ⟨rfl, rfl⟩ := Prod.mk.inj hx
    exact ⟨rfl, .inr ⟨rfl, ⟨hr.connected_iff, hr.live⟩, .refl _, rfl⟩⟩
  | b brokname =>
    obtain ⟨hrec, ⟨rfl, hc, hlive, hp, hb, hgt⟩ | ⟨rfl, hc⟩⟩ :=
      exec_connect (s := { s with gotB := true }) hr.live h
    · exact ⟨hrec, .inr ⟨rfl, ⟨iff_of_true hc (.inl hb), fun _ => hlive⟩, hp, hgt⟩⟩
    · exact ⟨hrec, .inl ⟨rfl, hc⟩⟩
  | t topic => exact absurd rfl (hopt topic)
  | o opened =>
    obtain rfl : opened = true := hv
    obtain ⟨rfl, hx⟩ := exec_ret_iff.1 h
    obtain ⟨rfl, rfl⟩ := Prod.mk.inj hx
    exact ⟨rfl, .inr ⟨rfl, hr, .refl _, rfl⟩⟩
  | v => exact absurd hv id
  | h => exact absurd hv id
  | bad => exact absurd hv id

/-! ## All the options -/

/-- What the program reads, given the answers to its requests, how many of them
    it tells to be confirmed, and the code it returns, if it does. -/
inductive Startup : List Answer → List (List UInt8 × ℕ) → ℕ → Option ℤ → Prop
  | done : Startup [] [] 0 none
  | published {a : Answer} {as : List Answer} {x : List UInt8 × ℕ} {l : List (List UInt8 × ℕ)} :
      a.before = x :: l → Startup (a :: as) [x] 0 (some 1)
  | refused {a : Answer} {as : List Answer} : a.before = [] → a.code.toNat = EBADMSG →
      Startup (a :: as) [a.reply] 0 (some 1)
  | subscribed {a : Answer} {as : List Answer} {l : List (List UInt8 × ℕ)} {n : ℕ}
      {exit : Option ℤ} : a.before = [] → a.code.toNat ≠ EBADMSG → Startup as l n exit →
      Startup (a :: as) (a.reply :: l) (n + 1) exit

/-- No message is printed. -/
def NoMessage (out : List Report) : Prop :=
  ∀ r ∈ out, r.plain = true ∨ ∃ printed, r = .subscribed printed

theorem subscribedTo_of_prints (h : s.Prints s') : subscribedTo s'.out = subscribedTo s.out := by
  obtain ⟨rs, hrs, hplain⟩ := h
  rw [hrs, subscribedTo, subscribedTo, List.countP_append, Nat.add_eq_left, List.countP_eq_zero]
  intro r hr
  have := hplain r hr
  cases r <;> simp_all [Report.plain]

theorem noMessage_of_prints (h : s.Prints s') (hs : NoMessage s.out) : NoMessage s'.out := by
  obtain ⟨rs, hrs, hplain⟩ := h
  intro r hr
  rw [hrs, List.mem_append] at hr
  exact hr.elim (hs r) fun hr => .inl (hplain r hr)

theorem exec_options {fuel : ℕ} {opts : List SubOpt} {answers : List Answer} (hr : s.Ready)
    (hv : ∀ opt ∈ opts, opt.Valid cfg) (hlen : (topicsOf opts).length = answers.length)
    (hu : Undisturbed tr) (hd : receivedIn tr <+: delivered answers)
    (h : Exec (s.options fuel stack opts) tr (s', exit))
    (hc : exit ≠ none → s'.connected = true) :
    ∃ n, Startup answers (receivedIn tr) n exit ∧
      subscribedTo s'.out = subscribedTo s.out + n ∧ (NoMessage s.out → NoMessage s'.out) ∧
      (exit = none → s.gotT = true ∨ topicsOf opts ≠ [] → s'.gotT = true) := by
  induction opts generalizing s tr answers with
  | nil =>
    obtain ⟨rfl, hx⟩ := exec_ret_iff.1 h
    obtain ⟨rfl, rfl⟩ := Prod.mk.inj hx
    obtain rfl := List.eq_nil_of_length_eq_zero hlen.symm
    exact ⟨0, .done, rfl, id, fun _ h => h.resolve_right fun h => h rfl⟩
  | cons opt opts ih =>
    rw [List.forall_mem_cons] at hv
    obtain ⟨tr₁, ⟨s₁, exit₁⟩, tr₂, h₁, h₂, rfl⟩ := exec_bind_iff.1 h
    obtain ⟨hu₁, hu₂⟩ := hu.append
    by_cases hopt : ∃ topic, opt = .t topic
    · obtain ⟨topic, rfl⟩ := hopt
      rcases exec_option_t hr hv.1 hu₁ h₁ with ⟨rfl, hc₁⟩ | ⟨s₂, x, hx, hp, hr₂, hgt, htake⟩
      · obtain ⟨-, hx⟩ := exec_ret_iff.1 h₂
        obtain ⟨rfl, rfl⟩ := Prod.mk.inj hx
        exact absurd (hc nofun) (by simp [hc₁])
      obtain ⟨a, as, rfl⟩ : ∃ a as, answers = a :: as :=
        List.exists_cons_of_length_pos (by rw [← hlen]; exact Nat.succ_pos _)
      rw [receivedIn_append, hx, List.singleton_append] at hd ⊢
      rw [delivered, List.flatMap_cons] at hd
      cases hb : a.before with
      | cons y l =>
        -- A message published comes first: it is not a reply.
        rw [hb] at hd
        obtain ⟨rfl, -⟩ := List.cons_prefix_cons.1 hd
        have hcmd : (stack.recvInto x.1).ctrl.cmd = cmdPublish :=
          recvInto_cmd (a.cmd_before x (by rw [hb]; exact .head _))
        cases htake with
        | refused hsub => exact cmd_absurd hcmd hsub
        | subscribed hsub => exact cmd_absurd hcmd hsub
        | wrong _ hp' =>
          obtain ⟨rfl, hx'⟩ := exec_ret_iff.1 h₂
          obtain ⟨rfl, rfl⟩ := Prod.mk.inj hx'
          exact ⟨0, .published hb, subscribedTo_of_prints (hp.trans hp'),
            noMessage_of_prints (hp.trans hp'), nofun⟩
      | nil =>
        rw [hb] at hd
        obtain ⟨rfl, hd₂⟩ := List.cons_prefix_cons.1 hd
        have hcmd : (stack.recvInto a.reply.1).ctrl.cmd = cmdSubscribe := recvInto_cmd a.cmd_reply
        have hdata : (stack.recvInto a.reply.1).ctrl.data = a.code := recvInto_data a.data_reply
        cases htake with
        | wrong hsub => exact absurd hcmd hsub
        | refused _ hcode hp' =>
          obtain ⟨rfl, hx'⟩ := exec_ret_iff.1 h₂
          obtain ⟨rfl, rfl⟩ := Prod.mk.inj hx'
          rw [hdata] at hcode
          exact ⟨0, .refused hb hcode, subscribedTo_of_prints (hp.trans hp'),
            noMessage_of_prints (hp.trans hp'), nofun⟩
        | @subscribed printed _ hcode =>
          rw [hdata] at hcode
          obtain ⟨n, hst, hn, hno, hgot⟩ := ih (s := s₂.print (.subscribed printed))
            ⟨hr₂.connected_iff, hr₂.live⟩ hv.2 (Nat.succ.inj hlen) hu₂ hd₂ h₂
          refine ⟨n + 1, .subscribed hb hcode hst, ?_, fun h => hno fun r hr => ?_,
            fun he _ => hgot he (.inl hgt)⟩
          · rw [hn, ← subscribedTo_of_prints hp]
            simp [subscribedTo, Sub.print, List.countP_append]
            omega
          · rw [Sub.print, List.mem_append, List.mem_singleton] at hr
            exact hr.elim (noMessage_of_prints hp h r) fun hr => .inr ⟨printed, hr⟩
    · replace hopt : ∀ topic, opt ≠ .t topic := fun topic h => hopt ⟨topic, h⟩
      have htopics : topicsOf (opt :: opts) = topicsOf opts := by
        cases opt with
        | t topic => exact absurd rfl (hopt topic)
        | _ => rfl
      rw [htopics] at hlen ⊢
      obtain ⟨hrec, ⟨rfl, hc₁⟩ | ⟨rfl, hr₁, hp, hgt⟩⟩ := exec_option hr hv.1 hopt h₁
      · obtain ⟨-, hx⟩ := exec_ret_iff.1 h₂
        obtain ⟨rfl, rfl⟩ := Prod.mk.inj hx
        exact absurd (hc nofun) (by simp [hc₁])
      · rw [receivedIn_append, hrec, List.nil_append] at hd ⊢
        obtain ⟨n, hst, hn, hno, hgot⟩ := ih hr₁ hv.2 hlen hu₂ hd h₂
        rw [subscribedTo_of_prints hp] at hn
        exact ⟨n, hst, hn, fun h => hno (noMessage_of_prints hp h), by rwa [← hgt]⟩

/-- The program up to its loop. -/
theorem exec_start {fuel : ℕ} {opts : List SubOpt} {answers : List Answer}
    (hv : ∀ opt ∈ opts, opt.Valid cfg) (ht : topicsOf opts ≠ [])
    (hlen : (topicsOf opts).length = answers.length) (hu : Undisturbed tr)
    (hd : receivedIn tr <+: delivered answers) (h : Exec (Sub.start fuel stack opts) tr (s', exit))
    (hc : s'.connected = true) :
    Startup answers (receivedIn tr) (subscribedTo s'.out) exit ∧ NoMessage s'.out := by
  obtain ⟨tr₁, ⟨s₁, exit₁⟩, tr₂, h₁, h₂, rfl⟩ := exec_bind_iff.1 h
  have hready : Sub.init.Ready := ⟨by simp [Sub.init], by simp [Sub.init]⟩
  rw [receivedIn_append] at hd ⊢
  have spec := exec_options hready hv hlen hu.append.1 ((List.prefix_append ..).trans hd) h₁
  cases exit₁ with
  | some code =>
    obtain ⟨rfl, hx⟩ := exec_ret_iff.1 h₂
    obtain ⟨rfl, rfl⟩ := Prod.mk.inj hx
    obtain ⟨n, hst, hn, hno, -⟩ := spec fun _ => hc
    rw [show subscribedTo s'.out = n by simpa [Sub.init, subscribedTo] using hn]
    exact ⟨by simpa [receivedIn] using hst, hno (by simp [NoMessage, Sub.init])⟩
  | none =>
    obtain ⟨n, hst, hn, hno, hgot⟩ := spec (absurd rfl)
    have hn : subscribedTo s₁.out = n := by simpa [Sub.init, subscribedTo] using hn
    simp only [hgot rfl (.inr ht), Bool.true_eq_false, if_false] at h₂
    obtain ⟨tr₃, r, tr₄, h₃, h₄, rfl⟩ := exec_bind_iff.1 h₂
    have hprints : s₁.Prints s' ∧ exit = none ∧ tr₄ = [] := by
      cases r with
      | error e =>
        obtain ⟨rfl, hx⟩ := exec_ret_iff.1 h₄
        obtain ⟨rfl, rfl⟩ := Prod.mk.inj hx
        exact ⟨(Sub.Prints.print rfl).trans (.print rfl), rfl, rfl⟩
      | ok u =>
        obtain ⟨rfl, hx⟩ := exec_ret_iff.1 h₄
        obtain ⟨rfl, rfl⟩ := Prod.mk.inj hx
        exact ⟨.print rfl, rfl, rfl⟩
    obtain ⟨hp, rfl, rfl⟩ := hprints
    rw [List.append_nil, receivedIn_eq_nil only_psmqIoctl h₃, List.append_nil,
      subscribedTo_of_prints hp, hn]
    exact ⟨hst, noMessage_of_prints hp (hno (by simp [NoMessage, Sub.init]))⟩

/-- A message published is printed as such. -/
theorem onReceive_publish {msg : PsmqMsg cfg} {prio : ℕ} {r : Report} {goOn : Bool}
    (hcmd : msg.ctrl.cmd = cmdPublish) (h : onReceive msg prio = some (r, goOn)) :
    r.plain = false ∧ ∀ printed, r ≠ .subscribed printed := by
  have hc : cmdPublish ≠ cmdClose := by decide
  have hi : cmdPublish ≠ cmdIoctl := by decide
  simp only [onReceive, hcmd, if_neg hc, if_neg hi, if_true, Option.bind_eq_bind,
    Option.bind_eq_some_iff, Option.pure_def] at h
  obtain ⟨payload, -, topic, -, binary, -, h⟩ := h
  split_ifs at h
  · obtain ⟨rfl, -⟩ := Prod.mk.inj (Option.some.inj h)
    exact ⟨rfl, nofun⟩
  · obtain ⟨text, -, h⟩ := Option.bind_eq_some_iff.1 h
    obtain ⟨rfl, -⟩ := Prod.mk.inj (Option.some.inj h)
    exact ⟨rfl, nofun⟩

theorem not_shown {out : List Report} (hno : NoMessage out) {x : List UInt8 × ℕ}
    (hx : x.1[0]? = some cmdPublish) : ¬Shown stack out x := by
  rintro ⟨r, goOn, h, hr⟩
  obtain ⟨hplain, hsub⟩ := onReceive_publish (recvInto_cmd hx) h
  rcases hno r hr with hp | ⟨printed, hp⟩
  · exact absurd hp (by simp [hplain])
  · exact hsub printed hp

end Request

/-- What the start should be, told by what the program reads: by induction on
    the requests made. -/
theorem Startup.robust_iff {answers : List Answer} {l : List (List UInt8 × ℕ)} {n : ℕ}
    {exit : Option ℤ} (h : Startup answers l n exit) :
    ((exit = none ↔ ∀ a ∈ answers, a.code = 0) ∧ (∀ x ∈ l, x.1[0]? ≠ some cmdPublish) ∧
      ∀ a ∈ answers.take n, a.code = 0) ↔
    ∀ a ∈ asked answers, a.before = [] ∧ (a.code = 0 ∨ a.code.toNat = EBADMSG) := by
  have hreply : ∀ a : Answer, a.reply.1[0]? ≠ some cmdPublish := fun a h =>
    absurd (Option.some.inj (h.symm.trans a.cmd_reply)) (by decide)
  induction h with
  | done => simp [asked]
  | @published a as x l hb =>
    refine iff_of_false (fun h => ?_) fun h => ?_
    · exact h.2.1 x (List.mem_singleton_self _) (a.cmd_before x (by rw [hb]; exact .head _))
    · exact absurd (h a (.head _)).1 (by simp [hb])
  | @refused a as hb hcode =>
    have hne : a.code ≠ 0 := fun h => by simp [h, EBADMSG] at hcode
    simp [asked, hb, hcode, hne, hreply]
  | @subscribed a as l n exit hb hcode _ ih =>
    by_cases hz : a.code = 0
    · simp only [List.forall_mem_cons, hz, true_and, asked, if_true, List.take_succ_cons, hb,
        true_or, ← ih]
      exact and_congr_right fun _ => and_congr_left fun _ => and_iff_right (hreply a)
    · refine iff_of_false (fun h => ?_) fun h => ?_
      · exact hz (h.2.2 a (by simp))
      · exact (h a (.head _)).2.elim hz hcode

/-- `psmq-sub` connects and subscribes to its topics, and the broker answers each
    of its requests: it starts as it should exactly when, as long as its requests
    are confirmed, no message is published before the reply, and the broker
    refuses none but with `EBADMSG`. -/
theorem start_robust_iff {fuel : ℕ} {stack : PsmqMsg cfg} {opts : List SubOpt}
    {answers : List Answer} {tr : Trace cfg} {s : Sub} {exit : Option ℤ}
    (hv : ∀ opt ∈ opts, opt.Valid cfg) (ht : topicsOf opts ≠ [])
    (hlen : (topicsOf opts).length = answers.length) (hu : Undisturbed tr)
    (hd : receivedIn tr <+: delivered answers) (h : Exec (Sub.start fuel stack opts) tr (s, exit))
    (hc : s.connected = true) :
    Robust stack answers tr s.out exit ↔
      ∀ a ∈ asked answers, a.before = [] ∧ (a.code = 0 ∨ a.code.toNat = EBADMSG) := by
  obtain ⟨hst, hno⟩ := exec_start hv ht hlen hu hd h hc
  rw [← hst.robust_iff]
  constructor
  · exact fun hrob => ⟨hrob.reached_iff, fun x hx hp => not_shown hno hp (hrob.shown x hx hp),
      hrob.honest⟩
  · rintro ⟨hreached, hread, hhonest⟩
    refine ⟨hreached, fun x hx hp => absurd hp (hread x hx), fun l x hl hp => ?_, hhonest⟩
    exact absurd hp (hread x (by simp [hl]))

/-- Results for the calls of `psmq-sub`: it connects, with the reply `first`, and
    then receives the messages `rest`. -/
def subAnswers (first : List UInt8 × ℕ) (rest : List (List UInt8 × ℕ)) :
    Trace smallest → (o : Op smallest) → Op.Res o
  | _, .mqTimedreceive _ _ => .ok first
  | past, .mqReceive _ =>
    match rest[(receivedIn past).length]? with
    | some x => .ok x
    | none => .error EINTR
  | past, o => libAnswers smallest (.ok 3) past o

theorem zero_notMem_subName : 0 ∉ ([47, 115] : List UInt8) := by decide

theorem zero_notMem_topicB : 0 ∉ ([47, 98] : List UInt8) := by decide

/-- `psmq-sub -n /s -t /a -t /b`. -/
def subTwice : List SubOpt :=
  [.n ⟨[47, 115], zero_notMem_subName⟩, .t topicA, .t ⟨[47, 98], zero_notMem_topicB⟩]

/-- The two confirmations, with the messages published before the second one. -/
def twoAnswers (before : List (List UInt8 × ℕ))
    (h : ∀ x ∈ before, x.1[0]? = some cmdPublish) : List Answer :=
  [⟨[], ([115, 0, 0, 0, 47, 97, 0], 0), 0, nofun, rfl, rfl⟩,
    ⟨before, ([115, 0, 0, 0, 47, 98, 0], 0), 0, h, rfl, rfl⟩]

/-- With nothing published, the loop is reached. -/
theorem start_robust_twice : ∃ (tr : Trace smallest) (s : Sub),
    Exec (Sub.start 1 (.zero smallest) subTwice) tr (s, none) ∧
    Robust (.zero smallest) (twoAnswers [] nofun) tr s.out none := by
  obtain ⟨tr, s, h, hu, hd, hc⟩ : ∃ tr s,
      eval (subAnswers ([111, 0, 1, 0, 0, 0], 0) (delivered (twoAnswers [] nofun))) []
        (Sub.start 1 (.zero smallest) subTwice) = some (tr, (s, none)) ∧
      (∀ e ∈ tr, disturbs e = false) ∧ receivedIn tr = delivered (twoAnswers [] nofun) ∧
      s.connected = true := ⟨_, _, rfl, by decide, by decide, rfl⟩
  have hv : ∀ opt ∈ subTwice, opt.Valid smallest := by
    simp only [subTwice, List.forall_mem_cons]
    exact ⟨trivial, ⟨rfl, by decide⟩, ⟨rfl, by decide⟩, by simp⟩
  refine ⟨tr, s, exec_of_eval h, (start_robust_iff hv (List.cons_ne_nil _ _) rfl hu
    (hd ▸ List.prefix_refl _) (exec_of_eval h) hc).2 ?_⟩
  simp [asked, twoAnswers]

/-- What the broker has put on the queue of the slot `k` in some steps. -/
def putOn (k : Slot cfg) (ls : List (BrokerLabel cfg)) : List (List UInt8 × ℕ) :=
  ((ls.flatMap fun l => sendsTo k l.trace).filter (·.ok)).map fun e =>
    (e.msg.toBytes.take e.len, e.prio)

/-- A message is published on `/a` once the broker has confirmed it, and before
    it confirms `/b`: the two are confirmed, but `psmq-sub` takes the message for a
    wrong reply, prints nothing of it, and returns 1. -/
theorem start_stops : ∃ (s : Broker smallest) (ls : List (BrokerLabel smallest))
    (before : List (List UInt8 × ℕ)) (hb : ∀ x ∈ before, x.1[0]? = some cmdPublish)
    (tr : Trace smallest) (s' : Sub),
    (brokerLts smallest psmqdCfgInit).init (started smallest) ∧
    (brokerLts smallest psmqdCfgInit).Run (started smallest) ls s ∧
    putOn 0 ls = ([111, 0, 1, 0, 0, 0], 0) :: delivered (twoAnswers before hb) ∧
    (∀ a ∈ twoAnswers before hb, a.code = 0) ∧
    Exec (Sub.start 1 (.zero smallest) subTwice) tr (s', some 1) ∧ s'.connected = true ∧
    Undisturbed tr ∧ receivedIn tr <+: delivered (twoAnswers before hb) ∧
    ∃ x ∈ receivedIn tr, x ∈ before ∧ ¬Shown (.zero smallest) s'.out x := by
  obtain ⟨ls, s, hf, hput⟩ : ∃ ls s,
      feedRun (answers smallest true) [([111, 0, 0, 0, 47, 115, 0], 0),
        ([115, 0, 0, 0, 47, 97, 0], 0), ([112, 0, 0, 0, 47, 97, 0], 0),
        ([115, 0, 0, 0, 47, 98, 0], 0)] (started smallest) = some (ls, s) ∧
      putOn 0 ls = [([111, 0, 1, 0, 0, 0], 0), ([115, 0, 0, 0, 47, 97, 0], 0),
        ([112, 0, 0, 0, 47, 97, 0], 0), ([115, 0, 0, 0, 47, 98, 0], 0)] :=
    ⟨_, _, rfl, by decide⟩
  obtain ⟨tr, s', h, hu, hrec, hc, hout⟩ : ∃ tr s',
      eval (subAnswers ([111, 0, 1, 0, 0, 0], 0) [([115, 0, 0, 0, 47, 97, 0], 0),
        ([112, 0, 0, 0, 47, 97, 0], 0), ([115, 0, 0, 0, 47, 98, 0], 0)]) []
        (Sub.start 1 (.zero smallest) subTwice) = some (tr, (s', some 1)) ∧
      (∀ e ∈ tr, disturbs e = false) ∧
      receivedIn tr = [([115, 0, 0, 0, 47, 97, 0], 0), ([112, 0, 0, 0, 47, 97, 0], 0)] ∧
      s'.connected = true ∧
      s'.out = [.connected, .subscribed topicA, .invalidReply cmdPublish] :=
    ⟨_, _, rfl, by decide, by decide, rfl, rfl⟩
  let pub : List UInt8 × ℕ := ([112, 0, 0, 0, 47, 97, 0], 0)
  have hb : ∀ x ∈ [pub], x.1[0]? = some cmdPublish := by simp [pub, cmdPublish]
  refine ⟨s, ls, [pub], hb, tr, s', started_init _, (run_of_feedRun hf (by decide)).1, hput,
    by simp [twoAnswers], exec_of_eval h, hc, hu, ?_, pub, by simp [hrec, pub], by simp, ?_⟩
  · rw [hrec]
    exact ⟨[([115, 0, 0, 0, 47, 98, 0], 0)], rfl⟩
  · refine not_shown (fun r hr => ?_) (hb pub (by simp))
    rw [hout] at hr
    simp only [List.mem_cons, List.not_mem_nil, or_false] at hr
    rcases hr with rfl | rfl | rfl
    · exact .inl rfl
    · exact .inr ⟨_, rfl⟩
    · exact .inl rfl

/-- Results for the calls of a broker that is out of memory. -/
def noMemory : Trace smallest → (o : Op smallest) → Op.Res o
  | _, .malloc _ => false
  | past, o => answers smallest true past o

/-- The broker is out of memory, and refuses `/a` with `ENOMEM`: `psmq-sub` tells
    that it is subscribed to it, and goes on. -/
theorem start_tells_refused : ∃ (s : Broker smallest) (ls : List (BrokerLabel smallest))
    (x : List UInt8 × ℕ) (tr : Trace smallest) (s' : Sub),
    (brokerLts smallest psmqdCfgInit).Run (started smallest) ls s ∧
    putOn 0 ls = [([111, 0, 1, 0, 0, 0], 0), x] ∧ x.1[0]? = some cmdSubscribe ∧
    x.1[1]? = some (UInt8.ofNat ENOMEM) ∧
    Exec (Sub.start 1 (.zero smallest) (subTwice.take 2)) tr (s', none) ∧ receivedIn tr = [x] ∧
    subscribedTo s'.out = 1 := by
  obtain ⟨ls, s, hf, hput⟩ : ∃ ls s,
      feedRun noMemory [([111, 0, 0, 0, 47, 115, 0], 0), ([115, 0, 0, 0, 47, 97, 0], 0)]
        (started smallest) = some (ls, s) ∧
      putOn 0 ls = [([111, 0, 1, 0, 0, 0], 0), ([115, 12, 0, 0, 47, 97, 0], 0)] :=
    ⟨_, _, rfl, by decide⟩
  obtain ⟨tr, s', h, hrec, hout⟩ : ∃ tr s',
      eval (subAnswers ([111, 0, 1, 0, 0, 0], 0) [([115, 12, 0, 0, 47, 97, 0], 0)]) []
        (Sub.start 1 (.zero smallest) (subTwice.take 2)) = some (tr, (s', none)) ∧
      receivedIn tr = [([115, 12, 0, 0, 47, 97, 0], 0)] ∧ subscribedTo s'.out = 1 :=
    ⟨_, _, rfl, by decide, rfl⟩
  exact ⟨s, ls, _, tr, s', (run_of_feedRun hf (by decide)).1, hput, rfl, rfl, exec_of_eval h, hrec,
    hout⟩

end Psmq
