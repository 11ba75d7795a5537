import Psmq.Pub.Lines

/-!
# Input published in binary by psmq-pub

`send_stdin_binary` asks `read` for as many bytes as the topic leaves in a
message, and publishes what it gets; it stops when it gets none. The size asked
for is a difference of unsigned numbers, and the topic is not checked: with one
that leaves no room the loop takes its first read for the end of the input, and
with a longer one it asks for more than its array has.

* `sendBinary_splits`: with some room, and lengths that are kept by
  `psmq_publish_prio`, the input is split into payloads, however it is read;
* `binary_split_iff`: so it is only then, or if there is nothing to read.
-/

namespace Psmq

open CMem Prog

variable {cfg : Config} {psmq : PsmqObj} {topic : CString} {prio fuel size : ℕ}
  {topiclen : UInt32} {data : Buf cfg.msgMax} {input : List UInt8} {reads : ℕ → Except Errno ℕ}

/-! ## A round of the loop -/

section Round

/-- More bytes than the array has are asked for. -/
theorem sendBinary_overrun (h : cfg.msgMax < sizeSub cfg cfg.msgMax topiclen.toNat)
    (stdin : BinaryStdin) :
    sendBinary psmq topic prio topiclen (fuel + 1) data stdin = fault .bounds := by
  rw [sendBinary, BinaryStdin.read, if_neg (Nat.not_le.2 h)]
  rfl

theorem sendBinary_error (hsize : sizeSub cfg cfg.msgMax topiclen.toNat = size)
    (hle : size ≤ cfg.msgMax) {e : Errno} (he : reads 0 = .error e) :
    sendBinary psmq topic prio topiclen (fuel + 1) data ⟨input, reads⟩ =
      ret (some (.readFailed e)) := by
  simp only [sendBinary, BinaryStdin.read, hsize, if_pos hle, he]
  rfl

/-- The loop ends when nothing is read: at the end of the input, or if nothing is asked for. -/
theorem sendBinary_end (hsize : sizeSub cfg cfg.msgMax topiclen.toNat = size)
    (hle : size ≤ cfg.msgMax) {k : ℕ} (hk : reads 0 = .ok k) (hnone : size = 0 ∨ input = []) :
    sendBinary psmq topic prio topiclen (fuel + 1) data ⟨input, reads⟩ = ret none := by
  have hread : input.take (min size (k + 1)) = [] := by
    rcases hnone with rfl | rfl <;> simp
  obtain ⟨data', hdata', -⟩ := @Buf.exists_write _ data 0 [] (Nat.zero_le _)
  simp only [sendBinary, BinaryStdin.read, hsize, if_pos hle, hk, hread, hdata']
  rfl

/-- What is read is published. -/
theorem sendBinary_read (hsize : sizeSub cfg cfg.msgMax topiclen.toNat = size)
    (hle : size ≤ cfg.msgMax) {k : ℕ} (hk : reads 0 = .ok k) {chunk rest : List UInt8}
    (hinput : input = chunk ++ rest) (hchunk : input.take (min size (k + 1)) = chunk)
    (hne : chunk ≠ []) :
    ∃ data' : Buf cfg.msgMax, data'.bytes.take chunk.length = chunk ∧
      sendBinary psmq topic prio topiclen (fuel + 1) data ⟨input, reads⟩ =
        publish psmq topic (some data'.bytes) chunk.length prio >>= fun
          | some report => ret (some (.publish report))
          | none =>
            sendBinary psmq topic prio topiclen fuel data' ⟨rest, fun i => reads (i + 1)⟩ := by
  have hlen : chunk.length ≤ size := by
    rw [← hchunk, List.length_take]
    omega
  obtain ⟨data', hdata', hbytes⟩ := @Buf.exists_write _ data 0 chunk (by omega)
  refine ⟨data', ?_, ?_⟩
  · rw [hbytes]
    simp
  · have hdrop : input.drop chunk.length = rest := by rw [hinput, List.drop_left]
    have hpos : chunk.length ≠ 0 := fun h => hne (List.length_eq_zero_iff.1 h)
    simp only [sendBinary, BinaryStdin.read, hsize, if_pos hle, hk, hchunk, hdata', hdrop,
      Option.map_some, deref_some, ret_bind, if_neg hpos]
    rfl

end Round

/-! ## Publishing what is read -/

section Chunk

variable {chunk : List UInt8}

/-- A payload whose size wraps to one that fits is copied out of the message. -/
theorem publish_overrun (hlive : psmq.Live) (hslash : topic.bytes[0]? = some slash) {payload : Ptr}
    {paylen : ℕ} (hp : paylen ≤ payload.length)
    (hsum : sizeAdd cfg (topic.length + 1) paylen ≤ cfg.msgMax)
    (hbig : cfg.msgMax < topic.length + 1 + paylen) :
    publish psmq topic (some payload) paylen prio = (fault .bounds : P cfg _) := by
  have hnone : publishMsg cfg cmdPublish psmq.fd (some topic) (some payload) paylen = none := by
    refine Option.eq_none_iff_forall_ne_some.2 fun msg hmsg => ?_
    have hlen := congrArg List.length (publishMsg_eq_some hmsg).2.2
    have hpay : (payloadBytes (some payload) paylen).length = paylen :=
      length_payloadBytes fun p h => Option.some.inj h ▸ hp
    simp only [Buf.length_eq, List.length_append, Carries.length_topicBytes_some, hpay,
      List.length_replicate] at hlen
    omega
  simp only [publish, psmqPublishPrio, if_neg (not_not.2 hsum), if_neg (not_not.2 hslash),
    psmqPublishMsg, if_neg hlive.qpub_ne, if_neg hlive.ne, hnone, deref_none, fault_bind]

/-- The message sent for what was read: its payload has the length of what was
    read, modulo that of an `unsigned short`, and is that if it is not longer. -/
theorem publishes_chunk {payload : Ptr} (htake : payload.take chunk.length = chunk)
    {msg : PsmqMsg cfg} {len : ℕ} (hlen : msg.realMsgSize = some len)
    (hmsg : publishMsg cfg cmdPublish psmq.fd (some topic) (some payload) chunk.length = some msg) :
    (chunk.length ≤ ushrtMax →
      Publishes psmq topic prio chunk ⟨.mqSend psmq.qsub psmq.qpub msg len prio, .ok ()⟩) ∧
    ∀ body, Publishes psmq topic prio body ⟨.mqSend psmq.qsub psmq.qpub msg len prio, .ok ()⟩ →
      body.length = chunk.length % 65536 := by
  have hsends : SendsMsg psmq prio msg ⟨.mqSend psmq.qsub psmq.qpub msg len prio, .ok ()⟩ :=
    ⟨len, hlen, rfl⟩
  constructor
  · intro hshort
    obtain ⟨hctrl, hcarry⟩ := carries_of_publishMsg hmsg (Nat.lt_succ_of_le hshort)
    rw [payloadBytes, htake] at hcarry
    exact ⟨msg, hsends, hctrl, hcarry⟩
  · rintro body ⟨msg', hsends', -, hcarry⟩
    obtain rfl := sendsMsg_unique hsends hsends'
    rw [← hcarry.paylen_eq, paylen_of_publishMsg hmsg]

end Chunk

/-! ## The input split -/

/-- The program returns, without going out of its objects, and if it reports no
    error, it has published the input, in payloads that fit in messages. -/
def Splits (psmq : PsmqObj) (topic : CString) (prio : ℕ) (input : List UInt8)
    (p : P cfg (Option BinaryReport)) : Prop :=
  p.Safe ∧ ∀ tr, Exec p tr none → ∃ payloads : List (List UInt8), payloads.flatten = input ∧
    List.Forall₂ (Publishes psmq topic prio) payloads tr ∧
      ∀ payload ∈ payloads, topic.length + 1 + payload.length ≤ cfg.msgMax

namespace Splits

theorem done : Splits psmq topic prio [] (ret none : P cfg _) := by
  refine ⟨trivial, fun tr h => ⟨[], rfl, ?_, by simp⟩⟩
  obtain ⟨rfl, -⟩ := exec_ret_iff.1 h
  exact .nil

theorem failed (report : BinaryReport) :
    Splits psmq topic prio input (ret (some report) : P cfg _) :=
  ⟨trivial, fun _ h => absurd (exec_ret_iff.1 h).2 nofun⟩

/-- A payload is sent, then the rest of the input is split. -/
theorem cons {chunk rest : List UInt8} {o : Op cfg} {k : Op.Res o → P cfg (Option BinaryReport)}
    (hk : ∀ r, (∃ report, k r = ret (some report)) ∨
      Publishes psmq topic prio chunk ⟨o, r⟩ ∧ Splits psmq topic prio rest (k r)) :
    Splits psmq topic prio (chunk ++ rest) (perform o >>= k) := by
  constructor
  · intro r
    rcases hk r with ⟨report, heq⟩ | ⟨-, hsplit⟩
    · exact (congrArg Safe heq).mpr (safe_ret _)
    · exact hsplit.1
  · intro tr hx
    obtain ⟨r, tr', rfl, hk'⟩ := exec_perform_bind_iff.1 hx
    rcases hk r with ⟨report, heq⟩ | ⟨hpub, hsplit⟩
    · rw [heq] at hk'
      exact absurd (exec_ret_iff.1 hk').2 nofun
    · obtain ⟨payloads, rfl, hpubs, hfit⟩ := hsplit.2 tr' hk'
      obtain ⟨msg, -, -, hcarry⟩ := id hpub
      have hlen := hcarry.length_le
      rw [Carries.length_topicBytes_some] at hlen
      exact ⟨chunk :: payloads, rfl, .cons hpub hpubs, List.forall_mem_cons.2 ⟨hlen, hfit⟩⟩

end Splits

/-- With some room for payloads whose lengths are kept, the loop splits its input. -/
theorem sendBinary_splits (hlive : psmq.Live)
    (hsize : sizeSub cfg cfg.msgMax topiclen.toNat = size) (hpos : 0 < size)
    (hle : size ≤ cfg.msgMax)
    (hkept : topic.bytes[0]? = some slash →
      ∀ r, 0 < r → r ≤ input.length → r ≤ size → LengthKept cfg topic r)
    (hfuel : input.length < fuel) (data : Buf cfg.msgMax) (reads : ℕ → Except Errno ℕ) :
    Splits psmq topic prio input
      (sendBinary psmq topic prio topiclen fuel data ⟨input, reads⟩) := by
  induction fuel generalizing input data reads with
  | zero => exact absurd hfuel (Nat.not_lt_zero _)
  | succ fuel ih =>
    cases hread : reads 0 with
    | error e =>
      rw [sendBinary_error hsize hle hread]
      exact .failed _
    | ok k =>
      by_cases hnil : input = []
      · rw [sendBinary_end hsize hle hread (.inr hnil), hnil]
        exact .done
      have hinput : 0 < input.length := List.length_pos_iff.2 hnil
      generalize hchunk : input.take (min size (k + 1)) = chunk
      generalize hrest : input.drop (min size (k + 1)) = rest
      have happ : input = chunk ++ rest := by rw [← hchunk, ← hrest, List.take_append_drop]
      have hlen : chunk.length = min (min size (k + 1)) input.length := by
        rw [← hchunk, List.length_take]
      have hne : chunk ≠ [] := List.ne_nil_of_length_pos (by omega)
      have hlen' : input.length = chunk.length + rest.length := by
        rw [happ, List.length_append]
      obtain ⟨data', htake, heq⟩ := @sendBinary_read cfg psmq topic prio fuel _ _ data _ reads
        hsize hle _ hread _ _ happ hchunk hne
      rw [heq]
      by_cases hrefused : topic.bytes[0]? ≠ some slash ∨
          cfg.msgMax < sizeAdd cfg (topic.length + 1) chunk.length
      · obtain ⟨report, hreport⟩ := @publish_refused cfg psmq topic prio _ _ hrefused
        rw [hreport]
        exact .failed _
      · obtain ⟨hslash, hsum⟩ := not_or.1 hrefused
        have hslash := not_not.1 hslash
        obtain ⟨hfit, hshort⟩ := hkept hslash chunk.length (by omega) (by omega) (by omega)
        have hfit := hfit (Nat.not_lt.1 hsum)
        obtain ⟨msg, len, report, hmsg, hmsglen, hpub⟩ := @publish_eq cfg psmq topic prio hlive
          hslash data'.bytes _ (by rw [Buf.length_eq]; omega) hfit
        rw [hpub, Prog.bind_assoc, happ]
        refine .cons fun r => ?_
        cases r with
        | error e => exact .inl ⟨_, rfl⟩
        | ok =>
          refine .inr ⟨(publishes_chunk htake hmsglen hmsg).1 (hshort hfit), ?_⟩
          exact ih (fun hslash r hr hle => hkept hslash r hr (by omega)) (by omega) _ _

/-! ## What goes wrong -/

/-- What is read, if it fits in a message, is sent with its length modulo that of
    an `unsigned short`, and the loop goes on. -/
theorem exists_exec_round (hlive : psmq.Live) (hslash : topic.bytes[0]? = some slash)
    (hsize : sizeSub cfg cfg.msgMax topiclen.toNat = size)
    (hfit : topic.length + 1 + size ≤ cfg.msgMax) {k : ℕ} (hk : reads 0 = .ok k)
    {chunk rest : List UInt8} (hinput : input = chunk ++ rest)
    (hchunk : input.take (min size (k + 1)) = chunk) (hne : chunk ≠ []) :
    ∃ (data' : Buf cfg.msgMax) (e : Event (Op cfg) Op.Res),
      (∀ body, Publishes psmq topic prio body e → body.length = chunk.length % 65536) ∧
      ∀ tr, Exec (sendBinary psmq topic prio topiclen fuel data' ⟨rest, fun i => reads (i + 1)⟩)
          tr none →
        Exec (sendBinary psmq topic prio topiclen (fuel + 1) data ⟨input, reads⟩)
          (e :: tr) none := by
  have hlen : chunk.length ≤ size := by
    rw [← hchunk, List.length_take]
    omega
  obtain ⟨data', htake, heq⟩ := @sendBinary_read cfg psmq topic prio fuel _ _ data _ reads
    hsize (by omega) _ hk _ _ hinput hchunk hne
  obtain ⟨msg, len, report, hmsg, hmsglen, hpub⟩ := @publish_eq cfg psmq topic prio hlive hslash
    data'.bytes chunk.length (by rw [Buf.length_eq]; omega) (by omega)
  refine ⟨data', ⟨.mqSend psmq.qsub psmq.qpub msg len prio, .ok ()⟩,
    (publishes_chunk htake hmsglen hmsg).2, fun tr hx => ?_⟩
  rw [heq, hpub, Prog.bind_assoc]
  exact exec_perform_bind_iff.2 ⟨.ok (), tr, rfl, hx⟩

/-- The loop may publish all it reads, in payloads that are not longer. -/
theorem exists_exec_sendBinary (hlive : psmq.Live) (hslash : topic.bytes[0]? = some slash)
    (hsize : sizeSub cfg cfg.msgMax topiclen.toNat = size) (hpos : 0 < size)
    (hfit : topic.length + 1 + size ≤ cfg.msgMax) {k : ℕ} (hreads : ∀ i, reads i = .ok k)
    (hfuel : input.length < fuel) (data : Buf cfg.msgMax) :
    ∃ tr, Exec (sendBinary psmq topic prio topiclen fuel data ⟨input, reads⟩) tr none ∧
      ∀ payloads, List.Forall₂ (Publishes psmq topic prio) payloads tr →
        payloads.flatten.length ≤ input.length := by
  induction fuel generalizing input data reads with
  | zero => exact absurd hfuel (Nat.not_lt_zero _)
  | succ fuel ih =>
    by_cases hnil : input = []
    · refine ⟨[], ?_, fun payloads h => ?_⟩
      · rw [sendBinary_end hsize (by omega) (hreads 0) (.inr hnil)]
        exact .ret none
      · cases h
        exact Nat.zero_le _
    · have hinput : 0 < input.length := List.length_pos_iff.2 hnil
      obtain ⟨data', e, hbody, hexec⟩ := @exists_exec_round cfg psmq topic prio fuel _ _ data input
        reads hlive hslash hsize hfit k (hreads 0) _ _ (List.take_append_drop _ input).symm rfl
        (List.ne_nil_of_length_pos (by rw [List.length_take]; omega))
      obtain ⟨tr, hx, hlen⟩ := @ih (input.drop (min size (k + 1))) (fun i => reads (i + 1))
        (fun i => hreads (i + 1)) (by rw [List.length_drop]; omega) data'
      refine ⟨e :: tr, hexec tr hx, fun payloads h => ?_⟩
      cases h with
      | @cons body _ payloads _ hpub hpubs =>
        have hrest := hlen payloads hpubs
        have hmod := Nat.mod_le (input.take (min size (k + 1))).length 65536
        rw [List.length_take] at hmod
        rw [List.length_drop] at hrest
        rw [List.flatten_cons, List.length_append, hbody body hpub, List.length_take]
        omega

/-- A longer read than a message can tell is not published in full. -/
theorem not_splits_of_long (hlive : psmq.Live) (hslash : topic.bytes[0]? = some slash)
    (hsize : sizeSub cfg cfg.msgMax topiclen.toNat = size)
    (hfit : topic.length + 1 + size ≤ cfg.msgMax) {r : ℕ} (hlong : ushrtMax < r) (hr : r ≤ size)
    (hle : r ≤ input.length) (hreads : ∀ i, reads i = .ok (r - 1)) (data : Buf cfg.msgMax) :
    ¬Splits psmq topic prio input
      (sendBinary psmq topic prio topiclen (input.length + 1) data ⟨input, reads⟩) := by
  rw [ushrtMax] at hlong
  have hread : min size (r - 1 + 1) = r := by omega
  obtain ⟨data', e, hbody, hexec⟩ := @exists_exec_round cfg psmq topic prio input.length _ _ data
    input reads hlive hslash hsize hfit _ (hreads 0) _ _ (List.take_append_drop _ input).symm rfl
    (List.ne_nil_of_length_pos (by rw [List.length_take]; omega))
  rw [hread] at hbody hexec
  obtain ⟨tr, hx, hlen⟩ := @exists_exec_sendBinary cfg psmq topic prio input.length _ _
    (input.drop r) (fun i => reads (i + 1)) hlive hslash hsize (by omega) hfit (r - 1)
    (fun i => hreads (i + 1)) (by rw [List.length_drop]; omega) data'
  rintro ⟨-, hsplit⟩
  obtain ⟨payloads, hflat, hpubs, -⟩ := hsplit _ (hexec tr hx)
  cases hpubs with
  | @cons body _ payloads _ hpub hpubs =>
    have hrest := hlen payloads hpubs
    have hbody := hbody body hpub
    have hmod := Nat.mod_lt r (show 0 < 65536 by decide)
    have htotal := congrArg List.length hflat
    rw [List.length_take, Nat.min_eq_left hle] at hbody
    rw [List.length_drop] at hrest
    rw [List.flatten_cons, List.length_append] at htotal
    omega

/-! ## The inputs split -/

/-- Nothing wraps, when the topic leaves some room. -/
theorem sizeSub_of_le {len : ℕ} (h : len ≤ cfg.msgMax) :
    sizeSub cfg cfg.msgMax len = cfg.msgMax - len := by
  have hmax := cfg.msgMax_le
  rw [sizeSub]
  rcases cfg.sizeWidth_eq with hw | hw <;> rw [hw] <;> omega

/-- With a longer topic, the size asked for wraps to one that is too large. -/
theorem lt_sizeSub {len : ℕ} (h : cfg.msgMax < len) (hlen : len < 2 ^ 32) :
    cfg.msgMax < sizeSub cfg cfg.msgMax len := by
  have hmax := cfg.msgMax_le
  rw [sizeSub]
  rcases cfg.sizeWidth_eq with hw | hw <;> rw [hw] <;> omega

/-- The input is split by `send_stdin_binary`, however it is read. -/
def SplitsInput (cfg : Config) (psmq : PsmqObj) (topic : CString) (input : List UInt8) : Prop :=
  ∀ prio fuel (data : Buf cfg.msgMax) reads, input.length < fuel →
    Splits psmq topic prio input (sendStdinBinary psmq topic prio fuel data ⟨input, reads⟩)

/-- The topic, with its NUL, leaves some room in a message, or exactly none and
    there is nothing to read; and the lengths of what may be read are kept by
    `psmq_publish_prio`, unless it refuses the topic. -/
def LeavesRoom (cfg : Config) (topic : CString) (input : List UInt8) : Prop :=
  let topiclen := (UInt32.ofNat (topic.length + 1)).toNat
  topiclen ≤ cfg.msgMax ∧ (topiclen = cfg.msgMax → input = []) ∧
    (topic.bytes[0]? = some slash →
      ∀ r, 0 < r → r ≤ input.length → r ≤ cfg.msgMax - topiclen → LengthKept cfg topic r)

/-- A topic that leaves room for the input has it split. -/
theorem splitsInput_of_leavesRoom (hlive : psmq.Live) (h : LeavesRoom cfg topic input) :
    SplitsInput cfg psmq topic input := by
  obtain ⟨hle, hnone, hkept⟩ := h
  intro prio fuel data reads hfuel
  have hsize := sizeSub_of_le hle
  rw [sendStdinBinary]
  rcases Nat.lt_or_eq_of_le hle with hlt | heq
  · exact sendBinary_splits hlive hsize (Nat.sub_pos_of_lt hlt) (Nat.sub_le _ _) hkept hfuel data
      reads
  · obtain rfl := hnone heq
    obtain ⟨fuel, rfl⟩ := Nat.exists_eq_add_one_of_ne_zero (Nat.ne_of_gt hfuel)
    cases hread : reads 0 with
    | error e =>
      rw [sendBinary_error hsize (Nat.sub_le _ _) hread]
      exact .failed _
    | ok k =>
      rw [sendBinary_end hsize (Nat.sub_le _ _) hread (.inr rfl)]
      exact .done

/-- The topic fits in a message: else, more is asked for than the array has. -/
theorem le_of_splitsInput (h : SplitsInput cfg psmq topic input) :
    (UInt32.ofNat (topic.length + 1)).toNat ≤ cfg.msgMax := by
  by_contra hlt
  have hsplit := h 0 (input.length + 1) (.zero _) (fun _ => .ok 0) (Nat.lt_succ_self _)
  rw [sendStdinBinary, sendBinary_overrun (lt_sizeSub (Nat.not_le.1 hlt) (UInt32.toNat_lt _))]
    at hsplit
  exact not_safe_fault _ hsplit.1

/-- When the topic leaves no room, there is nothing to read, as nothing is published. -/
theorem eq_nil_of_splitsInput (h : SplitsInput cfg psmq topic input)
    (hfull : (UInt32.ofNat (topic.length + 1)).toNat = cfg.msgMax) : input = [] := by
  have hsize : sizeSub cfg cfg.msgMax (UInt32.ofNat (topic.length + 1)).toNat = 0 := by
    rw [sizeSub_of_le (le_of_eq hfull), hfull, Nat.sub_self]
  have hsplit := h 0 (input.length + 1) (.zero _) (fun _ => .ok 0) (Nat.lt_succ_self _)
  rw [sendStdinBinary, @sendBinary_end cfg psmq topic 0 _ 0 _ _ _ (fun _ => .ok 0) hsize
    (Nat.zero_le _) 0 rfl (.inl rfl)] at hsplit
  obtain ⟨payloads, rfl, hpubs, -⟩ := hsplit.2 [] (.ret none)
  cases hpubs
  rfl

/-- The lengths that may be read are kept. -/
theorem lengthKept_of_splitsInput (hlive : psmq.Live) (h : SplitsInput cfg psmq topic input)
    (hslash : topic.bytes[0]? = some slash) {r : ℕ} (hpos : 0 < r) (hr : r ≤ input.length)
    (hroom : r ≤ cfg.msgMax - (UInt32.ofNat (topic.length + 1)).toNat) :
    LengthKept cfg topic r := by
  have hsize := sizeSub_of_le (le_of_splitsInput h)
  have hmax := cfg.msgMax_le
  have hsplit := h 0 (input.length + 1) (.zero _) (fun _ => .ok (r - 1)) (Nat.lt_succ_self _)
  rw [sendStdinBinary] at hsplit
  constructor
  · intro hsum
    by_contra hbig
    have hmin := Nat.min_eq_right hroom
    have hchunk := congrArg input.take ((congrArg (min _) (Nat.sub_add_cancel hpos)).trans hmin)
    have hlen : (input.take r).length = r := List.length_take_of_le hr
    have hinput := (List.take_append_drop r input).symm
    obtain ⟨data', -, heq⟩ := @sendBinary_read cfg psmq topic 0 input.length _ _ (.zero _) _
      (fun _ => .ok (r - 1)) hsize (Nat.sub_le _ _) _ rfl _ _ hinput hchunk
      (List.ne_nil_of_length_pos (hlen.symm ▸ hpos))
    rw [heq, hlen, publish_overrun hlive hslash (by rw [Buf.length_eq]; omega) hsum
      (Nat.not_le.1 hbig)] at hsplit
    exact not_safe_fault _ hsplit.1
  · intro hfit
    by_contra hlong
    have htopic := @toNat_ofNat_of_le cfg (topic.length + 1) (by omega)
    exact not_splits_of_long hlive hslash hsize (by omega) (Nat.not_le.1 hlong) hroom hr
      (fun _ => rfl) _ hsplit

/-- The input is split, however it is read, exactly when the topic leaves room for it. -/
theorem binary_split_iff (hlive : psmq.Live) :
    SplitsInput cfg psmq topic input ↔ LeavesRoom cfg topic input := by
  constructor
  · exact fun h => ⟨le_of_splitsInput h, eq_nil_of_splitsInput h,
      fun hslash _ hpos hr hroom => lengthKept_of_splitsInput hlive h hslash hpos hr hroom⟩
  · exact splitsInput_of_leavesRoom hlive

/-- In the smallest build, five bytes are split on `/a`. -/
theorem binary_split_iff_smallest :
    SplitsInput smallest ⟨some 2, some 3, 0⟩ ⟨[47, 97], by decide⟩ [1, 0, 10, 0, 2] :=
  (binary_split_iff ⟨by decide, by decide, by decide⟩).2 ⟨by decide, by decide,
    fun _ r _ hr _ => by
      simp only [List.length_cons, List.length_nil] at hr
      simp only [LengthKept, sizeAdd, CString.length, smallest, ushrtMax, List.length_cons,
        List.length_nil]
      omega⟩

/-- In the smallest build, a byte is lost on `/aaaa`, and too much is asked for on `/aaaaa`. -/
theorem binary_lost :
    ¬SplitsInput smallest ⟨some 2, some 3, 0⟩ ⟨[47, 97, 97, 97, 97], by decide⟩ [120] ∧
      ¬SplitsInput smallest ⟨some 2, some 3, 0⟩ ⟨[47, 97, 97, 97, 97, 97], by decide⟩ [120] :=
  ⟨fun h => absurd (eq_nil_of_splitsInput h (by decide)) (by decide),
    fun h => absurd (le_of_splitsInput h) (by decide)⟩

end Psmq
