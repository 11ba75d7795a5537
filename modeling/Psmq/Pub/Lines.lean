import Psmq.Pub
import Psmq.Library.Numbers

/-!
# Lines published by psmq-pub

`send_stdin` reads lines to a buffer of the size left by the topic in a
message. A marker at its end tells whether a line filled it, and the last
character of a line is overwritten by a NUL, as it is taken for the newline.

* `sendLines_run`: the messages sent, for the lines up to the first that is
  too long;
* `lines_published_iff`: they have the lines and their NULs exactly when the
  last line sent ends in a newline, and their lengths go in a message.
-/

namespace Psmq

open CMem Prog Text

variable {cfg : Config}

/-! ## A line in the buffer -/

section Buffer

variable {m n : ℕ} {linemax : UInt32} {line line' : Buf m} {cs text rest : List UInt8}
  {fails : Bool}

/-- No line is read at the end of the text, or if reading fails before its end. -/
theorem fgets_none (line : Buf m) (hn : 0 < n) (hread : readLine newline n text = (cs, rest))
    (h : cs = [] ∨ fails = true ∧ cs.length < n ∧ cs.getLast? ≠ some newline) :
    fgets line (n + 1) ⟨text, fails⟩ = some (none, ⟨rest, fails⟩) := by
  by_cases hnil : cs = []
  · simp [fgets, hread, hnil, hn]
  · obtain ⟨hfails, hlen, hlast⟩ := h.resolve_left hnil
    simp [fgets, hread, hnil, hfails, hlen, hlast]

/-- A line read is in the buffer with its NUL, before what was there. -/
theorem fgets_eq (line : Buf m) (hread : readLine newline n text = (cs, rest)) (hne : cs ≠ [])
    (hlen : cs.length < m)
    (hfails : fails = true → cs.length < n → cs.getLast? = some newline) :
    ∃ line', fgets line (n + 1) ⟨text, fails⟩ = some (some line', ⟨rest, fails⟩) ∧
      line'.bytes = cs ++ 0 :: line.bytes.drop (cs.length + 1) := by
  obtain ⟨line', hline', hbytes⟩ := @Buf.exists_write _ line 0 (cs ++ [0])
    (by simpa [Nat.succ_le_iff] using hlen)
  refine ⟨line', ?_, ?_⟩
  · have hread' : ¬(fails = true ∧ cs.length < n ∧ cs.getLast? ≠ some newline) :=
      fun h => h.2.2 (hfails h.1 h.2.1)
    simp only [fgets, hread, hne, and_false, if_false, if_neg hread', hline', Option.map_some]
  · rw [hbytes]
    simp

theorem toNat_sub_one (hmax : linemax.toNat = n + 1) : (linemax - 1).toNat = n := by
  rw [UInt32.toNat_sub_of_le _ _ (UInt32.le_iff_toNat_le.2 (by simp [hmax])), hmax]
  rfl

theorem toNat_sub_two (hmax : linemax.toNat = n + 1) (hn : 0 < n) :
    (linemax - 2).toNat = n - 1 := by
  rw [UInt32.toNat_sub_of_le _ _ (UInt32.le_iff_toNat_le.2 (by simp [hmax]; omega)), hmax]
  simp

/-- The marker is overwritten exactly by a line of `n` characters, whose last
    one is then looked at. -/
theorem isCut_eq (hmax : linemax.toNat = n + 1) (hn : 0 < n) (hmark : line.bytes[n]? = some 0x55)
    (hline' : line'.bytes = cs ++ 0 :: line.bytes.drop (cs.length + 1)) (hlen : cs.length ≤ n) :
    isCut line' linemax = some (decide (cs.length = n ∧ cs.getLast? ≠ some newline)) := by
  rw [isCut, toNat_sub_one hmax, toNat_sub_two hmax hn, hline']
  rcases Nat.lt_or_eq_of_le hlen with hlt | rfl
  · have hn : (cs ++ 0 :: line.bytes.drop (cs.length + 1))[n]? = some 0x55 := by
      rw [List.getElem?_append_right hlen, ← hmark]
      obtain ⟨k, rfl⟩ := Nat.exists_eq_add_of_lt hlt
      rw [show cs.length + k + 1 - cs.length = k + 1 by omega, List.getElem?_cons_succ,
        List.getElem?_drop, show cs.length + 1 + k = cs.length + k + 1 by omega]
    simp [hn, Nat.ne_of_lt hlt]
  · have hlast : (cs ++ 0 :: line.bytes.drop (cs.length + 1))[cs.length - 1]? = cs.getLast? := by
      rw [List.getElem?_append_left (by omega), List.getLast?_eq_getElem?]
    have hne : cs ≠ [] := List.ne_nil_of_length_pos hn
    rw [hlast, List.getLast?_eq_some_getLast hne]
    simp

/-- The string in the buffer is the line, up to its first NUL if it has one. -/
theorem strlen_eq : strlen (cs ++ 0 :: rest) = some (cs.idxOf 0) := by
  have hsome : (str (cs ++ 0 :: rest)).isSome := isSome_str_iff.2 (by simp)
  obtain ⟨s, hs⟩ := Option.isSome_iff_exists.1 hsome
  rw [strlen, hs, Option.map_some, length_of_str hs, List.idxOf_append]
  split_ifs with h0
  · rfl
  · rw [List.idxOf_cons_self, Nat.zero_add, List.idxOf_eq_length h0]

/-- The last character of the line is overwritten by a NUL. -/
theorem write_last (hline : line.bytes = cs ++ 0 :: rest) (hne : cs ≠ []) :
    ∃ line', line.write (cs.length - 1) [0] = some line' ∧
      line'.bytes.take cs.length = cs.dropLast ++ [0] := by
  have hpos := List.length_pos_iff.2 hne
  have hlen : cs.length < m := by
    rw [← line.length_eq, hline, List.length_append, List.length_cons]
    omega
  obtain ⟨line', hline', hbytes⟩ := @Buf.exists_write _ line (cs.length - 1) [0]
    (by rw [List.length_singleton]; omega)
  refine ⟨line', hline', ?_⟩
  rw [hbytes, hline, List.take_append_of_le_length (Nat.sub_le _ _),
    ← List.dropLast_eq_take, List.take_left']
  rw [List.length_append, List.length_dropLast, List.length_singleton]
  omega

end Buffer

/-! ## A round of the loop -/

section Round

variable {psmq : PsmqObj} {topic : CString} {prio n fuel : ℕ} {linemax : UInt32}
  {line : Buf cfg.msgMax} {text rest cs : List UInt8} {fails : Bool}

/-- No length of a message is cut by the type of `paylen`. -/
theorem toNat_ofNat_of_le {len : ℕ} (h : len ≤ cfg.msgMax) : (UInt32.ofNat len).toNat = len :=
  UInt32.toNat_ofNat_of_lt' (by
    have := cfg.msgMax_le
    simp only [UInt32.size]
    omega)

theorem exists_mark (line : Buf cfg.msgMax) (hn : n < cfg.msgMax) :
    ∃ line', line.write n [0x55] = some line' ∧ line'.bytes[n]? = some 0x55 := by
  obtain ⟨line', hline', hbytes⟩ := @Buf.exists_write _ line n [0x55] hn
  refine ⟨line', hline', ?_⟩
  have hlen : (line.bytes.take n).length = n := by
    rw [List.length_take, line.length_eq, Nat.min_eq_left (Nat.le_of_lt hn)]
  rw [hbytes, List.append_assoc, List.getElem?_append_right (by omega), hlen]
  simp

/-- The loop ends when no line is read. -/
theorem sendLines_none (hmax : linemax.toNat = n + 1) (hm : n < cfg.msgMax)
    (hfgets : ∀ line : Buf cfg.msgMax,
      fgets line (n + 1) ⟨text, fails⟩ = some (none, ⟨rest, fails⟩)) :
    sendLines psmq topic prio linemax (fuel + 1) line ⟨text, fails⟩ =
      ret (if fails then some .readFailed else none) := by
  obtain ⟨line', hline', -⟩ := exists_mark line hm
  simp only [sendLines, toNat_sub_one hmax, hline', hmax, hfgets, deref_some, ret_bind, pure_eq,
    Stdin.feof]
  cases fails <;> rfl

/-- A round publishes what `strlen` gives of the line read, unless it is cut,
    after having its last character overwritten. -/
theorem sendLines_round (hmax : linemax.toNat = n + 1) (hn : 0 < n) (hm : n < cfg.msgMax)
    (hread : readLine newline n text = (cs, rest)) (hne : cs ≠ []) (hlen : cs.length ≤ n)
    (hfails : fails = true → cs.length < n → cs.getLast? = some newline) :
    ∃ (line' : Buf cfg.msgMax) (after : List UInt8), line'.bytes = cs ++ 0 :: after ∧
      sendLines psmq topic prio linemax (fuel + 1) line ⟨text, fails⟩ =
        if cs.length = n ∧ cs.getLast? ≠ some newline then
          ret (some (.lineTooLong (linemax - 2)))
        else
          deref (line'.write (UInt32.ofNat (cs.idxOf 0) - 1).toNat [0]) >>= fun line =>
            publish psmq topic (some line.bytes) (cs.idxOf 0) prio >>= fun
              | some report => ret (some report)
              | none => sendLines psmq topic prio linemax fuel line ⟨rest, fails⟩ := by
  obtain ⟨line₁, hline₁, hmark⟩ := exists_mark line hm
  obtain ⟨line₂, hfgets, hline₂⟩ := fgets_eq line₁ hread hne (Nat.lt_of_le_of_lt hlen hm) hfails
  refine ⟨line₂, _, hline₂, ?_⟩
  have hidx : cs.idxOf 0 ≤ n := List.idxOf_le_length.trans hlen
  have hpaylen := toNat_ofNat_of_le (Nat.le_of_lt (Nat.lt_of_le_of_lt hidx hm))
  simp only [sendLines, toNat_sub_one hmax, hline₁, deref_some, ret_bind, hmax, hfgets,
    isCut_eq hmax hn hmark hline₂ hlen, decide_eq_true_eq]
  split_ifs with hcut
  · rfl
  · rw [hline₂, strlen_eq, deref_some, ret_bind, hpaylen]
    rfl

/-- A line that is too long ends the loop. -/
theorem sendLines_long (hmax : linemax.toNat = n + 1) (hn : 0 < n) (hm : n < cfg.msgMax)
    {l t : List UInt8} (hl : newline ∉ l) (hlong : n ≤ l.length) :
    sendLines psmq topic prio linemax (fuel + 1) line ⟨l ++ t, fails⟩ =
      ret (some (.lineTooLong (linemax - 2))) := by
  have hlen : (l.take n).length = n := List.length_take_of_le hlong
  obtain ⟨line', -, -, heq⟩ := @sendLines_round cfg psmq topic prio n fuel linemax line _ _ _ fails
    hmax hn hm (readLine_append hl hlong) (List.ne_nil_of_length_pos (by omega)) (le_of_eq hlen)
    fun _ h => absurd hlen (Nat.ne_of_lt h)
  rw [heq, if_pos ⟨hlen, fun h => hl (List.mem_of_mem_take (List.mem_of_getLast? h))⟩]

/-- The loop ends at the end of the text. -/
theorem sendLines_nil (hmax : linemax.toNat = n + 1) (hn : 0 < n) (hm : n < cfg.msgMax) :
    sendLines psmq topic prio linemax (fuel + 1) line ⟨[], false⟩ = ret none :=
  sendLines_none hmax hm fun line => fgets_none line hn
    (readLine_of_notMem List.not_mem_nil (Nat.zero_le n)) (.inl rfl)

/-- A round publishes the line read, unless it is cut. -/
theorem sendLines_succ (hmax : linemax.toNat = n + 1) (hn : 0 < n) (hm : n < cfg.msgMax)
    (hread : readLine newline n text = (cs, rest)) (hne : cs ≠ []) (h0 : 0 ∉ cs)
    (hlen : cs.length ≤ n) :
    ∃ line', line'.bytes.take cs.length = cs.dropLast ++ [0] ∧
      sendLines psmq topic prio linemax (fuel + 1) line ⟨text, false⟩ =
        if cs.length = n ∧ cs.getLast? ≠ some newline then
          ret (some (.lineTooLong (linemax - 2)))
        else
          publish psmq topic (some line'.bytes) cs.length prio >>= fun
            | some report => ret (some report)
            | none => sendLines psmq topic prio linemax fuel line' ⟨rest, false⟩ := by
  obtain ⟨line₁, after, hline₁, heq⟩ := @sendLines_round cfg psmq topic prio n fuel linemax line
    text rest cs false hmax hn hm hread hne hlen nofun
  obtain ⟨line₂, hline₂, htake⟩ := write_last hline₁ hne
  refine ⟨line₂, htake, ?_⟩
  have hpos := List.length_pos_iff.2 hne
  have hpaylen := toNat_ofNat_of_le (Nat.le_of_lt (Nat.lt_of_le_of_lt hlen hm))
  have hlast : (UInt32.ofNat cs.length - 1).toNat = cs.length - 1 := toNat_sub_one (by omega)
  rw [heq, List.idxOf_eq_length h0, hlast, hline₂, deref_some, ret_bind]

end Round

/-! ## Runs with every message sent -/

/-- A message is sent, if the call is to send one. -/
def Succeeds : Event (Op cfg) Op.Res → Prop
  | ⟨.mqSend _ _ _ _ _, r⟩ => r = .ok ()
  | _ => True

/-- With every message sent, the program returns, and its calls are those for
    the list `ls`, one for each element, in order. -/
def Sends {β : Type} (R : β → Event (Op cfg) Op.Res → Prop) (p : P cfg (Option PubReport))
    (ls : List β) : Prop :=
  (∃ tr r, Exec p tr r ∧ ∀ e ∈ tr, Succeeds e) ∧
    ∀ tr r, Exec p tr r ∧ (∀ e ∈ tr, Succeeds e) → List.Forall₂ R ls tr

/-- The call sends a message to the broker, in full. -/
def SendsMsg (psmq : PsmqObj) (prio : ℕ) (msg : PsmqMsg cfg) (e : Event (Op cfg) Op.Res) : Prop :=
  ∃ len, msg.realMsgSize = some len ∧ e = ⟨.mqSend psmq.qsub psmq.qpub msg len prio, .ok ()⟩

/-- The call publishes a payload on a topic. -/
def Publishes (psmq : PsmqObj) (topic : CString) (prio : ℕ) (payload : List UInt8)
    (e : Event (Op cfg) Op.Res) : Prop :=
  ∃ msg, SendsMsg psmq prio msg e ∧ msg.ctrl = ⟨cmdPublish, psmq.fd⟩ ∧
    Carries msg (some topic) payload

/-- The call sends what a round makes of a line, given with its newline. -/
def SendsLine (psmq : PsmqObj) (topic : CString) (prio : ℕ) (l : List UInt8)
    (e : Event (Op cfg) Op.Res) : Prop :=
  ∃ msg, SendsMsg psmq prio msg e ∧
    publishMsg cfg cmdPublish psmq.fd (some topic) (some (l.dropLast ++ [0])) l.length = some msg

/-- The characters a line may have, in messages on a topic. -/
def maxLine (cfg : Config) (topic : CString) : ℕ := cfg.msgMax - (topic.length + 3)

/-- `send_stdin` publishes the lines of the text, up to the first that is too
    long: one message for every line, with the line and a NUL; and it returns. -/
def PublishesLines (cfg : Config) (psmq : PsmqObj) (topic : CString) (text : List UInt8) : Prop :=
  ∀ prio fuel (line : Buf cfg.msgMax), text.length < fuel →
    Sends (Publishes psmq topic prio) (sendStdin psmq topic prio fuel line ⟨text, false⟩)
      (((lines newline text).takeWhile fun l => l.length ≤ maxLine cfg topic).map (· ++ [0]))

namespace Sends

variable {β : Type} {R : β → Event (Op cfg) Op.Res → Prop} {p q : P cfg (Option PubReport)}

theorem ret (r : Option PubReport) : Sends R (ret r) [] := by
  refine ⟨⟨[], r, .ret r, by simp⟩, fun tr r h => ?_⟩
  obtain ⟨rfl, -⟩ := exec_ret_iff.1 h.1
  exact .nil

/-- A program sending a message, and going on as another one. -/
theorem cons {b : β} {ls : List β} {e : Event (Op cfg) Op.Res} (hb : R b e)
    (hp : ∀ tr r, Exec p tr r ∧ (∀ e ∈ tr, Succeeds e) ↔
      ∃ tr', tr = e :: tr' ∧ Exec q tr' r ∧ ∀ e ∈ tr', Succeeds e)
    (hq : Sends R q ls) : Sends R p (b :: ls) := by
  obtain ⟨⟨tr, r, hx⟩, hall⟩ := hq
  refine ⟨⟨e :: tr, r, (hp _ _).2 ⟨tr, rfl, hx⟩⟩, fun tr r h => ?_⟩
  obtain ⟨tr', rfl, hx⟩ := (hp tr r).1 h
  exact .cons hb (hall tr' r hx)

/-- What the calls do for each element decides what they do for the list. -/
theorem map_iff {γ : Type} {R' : γ → Event (Op cfg) Op.Res → Prop} {f : β → γ} {Q : β → Prop}
    {ls : List β} (h : Sends R p ls) (hiff : ∀ b e, R b e → (R' (f b) e ↔ Q b)) :
    Sends R' p (ls.map f) ↔ ∀ b ∈ ls, Q b := by
  have hall : ∀ {ls tr}, List.Forall₂ R ls tr →
      (List.Forall₂ R' (ls.map f) tr ↔ ∀ b ∈ ls, Q b) := fun hls => by
    induction hls with
    | nil => simp
    | cons hb _ ih => rw [List.map_cons, List.forall₂_cons, hiff _ _ hb, ih, List.forall_mem_cons]
  constructor
  · rintro ⟨⟨tr, r, hx⟩, hmap⟩
    exact (hall (h.2 tr r hx)).1 (hmap tr r hx)
  · exact fun hQ => ⟨h.1, fun tr r hx => (hall (h.2 tr r hx)).2 hQ⟩

end Sends

/-- Only the bytes copied matter. -/
theorem publishMsg_take {cmd data : UInt8} {topic : Option CString} {payload : Ptr} {paylen : ℕ}
    (hp : paylen ≤ payload.length) :
    publishMsg cfg cmd data topic (some (payload.take paylen)) paylen =
      publishMsg cfg cmd data topic (some payload) paylen := by
  simp [publishMsg, putPayload, hp, List.take_take]

section Runs

variable {psmq : PsmqObj} {topic : CString} {prio : ℕ}

/-- A payload is refused with its topic, or because of its size. -/
theorem publish_refused {payload : Option Ptr} {paylen : ℕ}
    (h : topic.bytes[0]? ≠ some slash ∨ cfg.msgMax < sizeAdd cfg (topic.length + 1) paylen) :
    ∃ report, publish psmq topic payload paylen prio = (ret (some report) : P cfg _) := by
  by_cases hsum : sizeAdd cfg (topic.length + 1) paylen ≤ cfg.msgMax
  · have hslash := h.resolve_right (Nat.not_lt.2 hsum)
    simp only [publish, psmqPublishPrio, if_neg (not_not.2 hsum), if_pos hslash]
    exact ⟨.invalidTopic topic, rfl⟩
  · simp only [publish, psmqPublishPrio, if_pos hsum]
    exact ⟨.tooLong, rfl⟩

/-- Publishing a payload that fits is sending its message, and reporting an error. -/
theorem publish_eq (hlive : psmq.Live) (hslash : topic.bytes[0]? = some slash) {payload : Ptr}
    {paylen : ℕ} (hp : paylen ≤ payload.length) (hfit : topic.length + 1 + paylen ≤ cfg.msgMax) :
    ∃ (msg : PsmqMsg cfg) (len : ℕ) (report : Errno → PubReport),
      publishMsg cfg cmdPublish psmq.fd (some topic) (some payload) paylen = some msg ∧
      msg.realMsgSize = some len ∧
      publish psmq topic (some payload) paylen prio =
        perform (Op.mqSend psmq.qsub psmq.qpub msg len prio) >>= fun
          | .ok () => ret none
          | .error e => ret (some (report e)) := by
  obtain ⟨msg, len, hmsg, hlen, heq⟩ :=
    @exists_exec_psmqPublishPrio cfg _ hlive _ hslash _ _ prio hp hfit
  refine ⟨msg, len, fun e => if e = EINVAL then .invalidPrio prio else if e = EBADMSG then
    .invalidTopic topic else if e = ENOBUFS then .tooLong else .unknown e, hmsg, hlen, ?_⟩
  rw [publish, heq]
  refine congrArg (perform (Op.mqSend psmq.qsub psmq.qpub msg len prio) >>= ·) (funext fun r => ?_)
  cases r with
  | ok => rfl
  | error e =>
    simp only [pure_eq]
    split_ifs <;> rfl

/-- Publishing a line, and going on once it is sent. -/
theorem exec_publish_bind_iff (hlive : psmq.Live) (hslash : topic.bytes[0]? = some slash)
    {payload : Ptr} {l : List UInt8} (htake : payload.take l.length = l.dropLast ++ [0])
    (hne : l ≠ []) (hfit : topic.length + 1 + l.length ≤ cfg.msgMax)
    (k : Option PubReport → P cfg (Option PubReport)) :
    ∃ e, SendsLine psmq topic prio l e ∧ ∀ tr r,
      Exec (publish psmq topic (some payload) l.length prio >>= k) tr r ∧
          (∀ e ∈ tr, Succeeds e) ↔
        ∃ tr', tr = e :: tr' ∧ Exec (k none) tr' r ∧ ∀ e ∈ tr', Succeeds e := by
  have hp : l.length ≤ payload.length := by
    have := congrArg List.length htake
    have hpos := List.length_pos_iff.2 hne
    rw [List.length_take, List.length_append, List.length_dropLast, List.length_singleton] at this
    omega
  obtain ⟨msg, len, report, hmsg, hlen, heq⟩ := @publish_eq cfg _ _ prio hlive hslash _ _ hp hfit
  refine ⟨⟨.mqSend psmq.qsub psmq.qpub msg len prio, .ok ()⟩,
    ⟨msg, ⟨len, hlen, rfl⟩, ?_⟩, fun tr r => ?_⟩
  · rw [← htake, publishMsg_take hp, hmsg]
  · rw [heq, Prog.bind_assoc, exec_perform_bind_iff]
    constructor
    · rintro ⟨⟨res, tr', rfl, hx⟩, hok⟩
      rw [List.forall_mem_cons] at hok
      obtain rfl : res = .ok () := hok.1
      exact ⟨tr', rfl, hx, hok.2⟩
    · rintro ⟨tr', rfl, hx, hok⟩
      exact ⟨⟨.ok (), tr', rfl, hx⟩, List.forall_mem_cons.2 ⟨rfl, hok⟩⟩

variable {linemax : UInt32}

/-- The lines sent, with their newlines: those before the first that is too long. -/
def linesSent (cfg : Config) (topic : CString) (text : List UInt8) : List (List UInt8) :=
  (rawLines newline text).takeWhile fun l => (chomp newline l).length ≤ maxLine cfg topic

/-- A line that fits is sent, and the loop goes on. -/
theorem exec_sendLines_iff (hlive : psmq.Live) (hslash : topic.bytes[0]? = some slash)
    (hmax : linemax.toNat = maxLine cfg topic + 2) (hroom : topic.length + 4 ≤ cfg.msgMax)
    {text l t : List UInt8} (hread : readLine newline (maxLine cfg topic + 1) text = (l, t))
    (hne : l ≠ []) (h0 : 0 ∉ l) (hlen : l.length ≤ maxLine cfg topic + 1)
    (hfits : l.length = maxLine cfg topic + 1 → l.getLast? = some newline) (fuel : ℕ)
    (line : Buf cfg.msgMax) :
    ∃ e line', SendsLine psmq topic prio l e ∧ ∀ tr r,
      Exec (sendLines psmq topic prio linemax (fuel + 1) line ⟨text, false⟩) tr r ∧
          (∀ e ∈ tr, Succeeds e) ↔
        ∃ tr', tr = e :: tr' ∧
          Exec (sendLines psmq topic prio linemax fuel line' ⟨t, false⟩) tr' r ∧
            ∀ e ∈ tr', Succeeds e := by
  obtain ⟨line', htake, heq⟩ := @sendLines_succ cfg psmq topic prio _ fuel _ line _ _ _ hmax
    (Nat.succ_pos _) (by simp only [maxLine]; omega) hread hne h0 hlen
  obtain ⟨e, hsend, hiff⟩ := @exec_publish_bind_iff cfg psmq topic prio hlive hslash _ _ htake hne
    (by simp only [maxLine] at hlen; omega) _
  refine ⟨e, line', hsend, fun tr r => ?_⟩
  rw [heq, if_neg fun h => h.2 (hfits h.1)]
  exact hiff tr r

/-- What the loop does with every message sent: it sends the lines up to the
    first that is too long. -/
theorem sendLines_run (hlive : psmq.Live) (hslash : topic.bytes[0]? = some slash)
    (hmax : linemax.toNat = maxLine cfg topic + 2) (hroom : topic.length + 4 ≤ cfg.msgMax)
    {text : List UInt8} (h0 : 0 ∉ text) {fuel : ℕ} (hfuel : text.length < fuel)
    (line : Buf cfg.msgMax) : Sends (SendsLine psmq topic prio)
      (sendLines psmq topic prio linemax fuel line ⟨text, false⟩) (linesSent cfg topic text) := by
  have hm : maxLine cfg topic + 1 < cfg.msgMax := by
    simp only [maxLine]
    omega
  have hend : ∀ fuel (line : Buf cfg.msgMax), Sends (SendsLine psmq topic prio)
      (sendLines psmq topic prio linemax (fuel + 1) line ⟨[], false⟩) [] := fun fuel line => by
    rw [sendLines_nil hmax (Nat.succ_pos _) hm]
    exact .ret none
  induction text using lines_induction newline generalizing fuel line with
  | nil =>
    obtain ⟨fuel, rfl⟩ := Nat.exists_eq_add_one_of_ne_zero (Nat.ne_of_gt hfuel)
    exact hend fuel line
  | last l hl hne =>
    obtain ⟨fuel, rfl⟩ : ∃ k, fuel = k + 2 := ⟨fuel - 2, by
      have := List.length_pos_iff.2 hne
      omega⟩
    rw [linesSent, rawLines_of_notMem hl hne, List.takeWhile_cons, chomp_of_notMem hl]
    by_cases hlong : l.length ≤ maxLine cfg topic
    · obtain ⟨e, line', hsend, hiff⟩ := @exec_sendLines_iff cfg psmq topic prio linemax hlive
        hslash hmax hroom _ l [] (readLine_of_notMem hl (Nat.le_succ_of_le hlong)) hne h0
        (Nat.le_succ_of_le hlong) (fun h => by omega) (fuel + 1) line
      rw [decide_eq_true hlong]
      exact .cons hsend hiff (hend fuel line')
    · rw [decide_eq_false hlong, ← List.append_nil l,
        sendLines_long hmax (Nat.succ_pos _) hm hl (Nat.not_le.1 hlong)]
      exact .ret _
  | cons l t hl ih =>
    rw [List.mem_append, List.mem_cons, not_or, not_or] at h0
    rw [List.length_append, List.length_cons] at hfuel
    obtain ⟨fuel, rfl⟩ := Nat.exists_eq_add_one_of_ne_zero (Nat.ne_of_gt (Nat.zero_lt_of_lt hfuel))
    rw [linesSent, rawLines_append_cons hl, List.takeWhile_cons, chomp_append]
    by_cases hlong : l.length ≤ maxLine cfg topic
    · have hlen : (l ++ [newline]).length = l.length + 1 := by simp
      have h0' : 0 ∉ l ++ [newline] := by simp [h0.1, newline]
      obtain ⟨e, line', hsend, hiff⟩ := @exec_sendLines_iff cfg psmq topic prio linemax hlive
        hslash hmax hroom _ _ t (readLine_append_cons hl (Nat.lt_succ_of_le hlong)) (by simp) h0'
        (by omega) (fun _ => by simp) fuel line
      rw [decide_eq_true hlong]
      exact .cons hsend hiff (ih h0.2.2 (by omega) line')
    · rw [decide_eq_false hlong,
        sendLines_long hmax (Nat.succ_pos _) hm hl (Nat.not_le.1 hlong)]
      exact .ret _

end Runs

/-! ## The lines published -/

section Published

variable {psmq : PsmqObj} {topic : CString} {prio : ℕ} {text : List UInt8}

theorem sendsMsg_unique {msg msg' : PsmqMsg cfg} {e : Event (Op cfg) Op.Res}
    (h : SendsMsg psmq prio msg e) (h' : SendsMsg psmq prio msg' e) : msg = msg' := by
  obtain ⟨len, -, rfl⟩ := h
  obtain ⟨len', -, he⟩ := h'
  injection he with ho
  injection ho

/-- What is sent for a line has the line and a NUL exactly when the line has
    its newline, and a length that goes in a message. -/
theorem publishes_iff {l : List UInt8} {e : Event (Op cfg) Op.Res}
    (h : SendsLine psmq topic prio l e) :
    Publishes psmq topic prio (chomp newline l ++ [0]) e ↔
      l.getLast? = some newline ∧ l.length < 65536 := by
  obtain ⟨msg, hsend, hmsg⟩ := h
  obtain ⟨hctrl, -, hdata⟩ := publishMsg_eq_some hmsg
  have hlen := paylen_of_publishMsg hmsg
  constructor
  · rintro ⟨msg', hsend', -, hcarry⟩
    obtain rfl := sendsMsg_unique hsend hsend'
    have hbody := hcarry.paylen_eq
    rw [hlen, List.length_append, List.length_singleton] at hbody
    by_cases hl : l.getLast? = some newline
    · refine ⟨hl, ?_⟩
      rw [chomp, if_pos hl, List.length_dropLast] at hbody
      omega
    · -- The NUL would have to be sent besides the characters of the line.
      rw [chomp, if_neg hl] at hbody
      omega
  · rintro ⟨hl, hlt⟩
    have hne : l ≠ [] := fun h => by simp [h] at hl
    have hpos := List.length_pos_iff.2 hne
    have hbody : payloadBytes (some (l.dropLast ++ [0])) l.length = l.dropLast ++ [0] :=
      List.take_of_length_le (by simp; omega)
    rw [hbody] at hdata
    rw [chomp, if_pos hl]
    refine ⟨msg, hsend, hctrl, .of_bytes_eq hdata ?_⟩
    rw [hlen, Nat.mod_eq_of_lt hlt, List.length_append, List.length_dropLast, List.length_singleton]
    omega

/-- The value of `linemax` in `send_stdin`: what the topic leaves of a message. -/
def linemaxOf (cfg : Config) (topic : CString) : UInt32 :=
  UInt32.ofNat cfg.msgMax - (UInt32.ofNat topic.length + 1)

theorem toNat_linemaxOf (htopic : topic.length < cfg.msgMax) :
    (linemaxOf cfg topic).toNat = cfg.msgMax - (topic.length + 1) := by
  have hmax := cfg.msgMax_le
  rw [linemaxOf, UInt32.toNat_sub, UInt32.toNat_add, toNat_ofNat_of_le (Nat.le_of_lt htopic),
    toNat_ofNat_of_le (Nat.le_refl _), UInt32.toNat_one]
  omega

theorem sendStdin_eq (htopic : topic.length < cfg.msgMax) {fuel : ℕ} {line : Buf cfg.msgMax}
    {stdin : Stdin} : sendStdin psmq topic prio fuel line stdin =
      sendLines psmq topic prio (linemaxOf cfg topic) fuel line stdin := by
  rw [sendStdin, toNat_ofNat_of_le (Nat.le_of_lt htopic), if_neg (Nat.not_le.2 htopic)]
  rfl

/-- `send_stdin` does what its loop does, if the topic leaves room for a line. -/
theorem sendStdin_run (hlive : psmq.Live) (hslash : topic.bytes[0]? = some slash)
    (hroom : topic.length + 4 ≤ cfg.msgMax) (h0 : 0 ∉ text) {fuel : ℕ}
    (hfuel : text.length < fuel) (line : Buf cfg.msgMax) : Sends (SendsLine psmq topic prio)
      (sendStdin psmq topic prio fuel line ⟨text, false⟩) (linesSent cfg topic text) := by
  have htopic : topic.length < cfg.msgMax := by omega
  rw [sendStdin_eq htopic]
  refine sendLines_run hlive hslash ?_ hroom h0 hfuel line
  rw [toNat_linemaxOf htopic, maxLine]
  omega

/-- The lines to publish are those sent, without their newlines. -/
theorem takeWhile_lines : ((lines newline text).takeWhile fun l => l.length ≤ maxLine cfg topic) =
    (linesSent cfg topic text).map (chomp newline) := by
  rw [lines, List.takeWhile_map]
  rfl

/-- The lines of the text are published exactly when those sent have their
    newlines, and lengths that go in a message. -/
theorem publishesLines_iff (hlive : psmq.Live) (hslash : topic.bytes[0]? = some slash)
    (hroom : topic.length + 4 ≤ cfg.msgMax) (h0 : 0 ∉ text) :
    PublishesLines cfg psmq topic text ↔
      ∀ l ∈ linesSent cfg topic text, l.getLast? = some newline ∧ l.length < 65536 := by
  simp only [PublishesLines, takeWhile_lines, List.map_map]
  constructor
  · intro h
    exact ((sendStdin_run hlive hslash hroom h0 (Nat.lt_succ_self _) (.zero _)).map_iff
      fun _ _ => publishes_iff).1 (h 0 _ _ (Nat.lt_succ_self _))
  · intro h prio fuel line hfuel
    exact ((sendStdin_run hlive hslash hroom h0 hfuel line).map_iff fun _ _ => publishes_iff).2 h

/-- The lines of the text are published exactly when the last one of them has a
    newline, if the text is read to its end, and those published have lengths
    that go in a message, with their NULs. -/
theorem lines_published_iff (hlive : psmq.Live) (hslash : topic.bytes[0]? = some slash)
    (hroom : topic.length + 4 ≤ cfg.msgMax) (h0 : 0 ∉ text) :
    PublishesLines cfg psmq topic text ↔
      ((∃ l ∈ lines newline text, maxLine cfg topic < l.length) ∨ text = [] ∨
        text.getLast? = some newline) ∧
      ∀ l ∈ (lines newline text).takeWhile fun l => l.length ≤ maxLine cfg topic,
        l.length + 1 ≤ ushrtMax := by
  rw [publishesLines_iff hlive hslash hroom h0, ← takeWhile_ended_iff, takeWhile_lines,
    List.forall_mem_map]
  refine Iff.trans ?_ forall₂_and
  refine forall₂_congr fun l _ => and_congr_right fun hl => ?_
  have hpos := List.length_pos_of_mem (List.mem_of_getLast? hl)
  rw [chomp, if_pos hl, List.length_dropLast, ushrtMax]
  omega

/-- In the smallest build, two lines of one character, with an empty one between
    them, are published on `/a`. -/
theorem lines_published_iff_three :
    PublishesLines smallest ⟨some 2, some 3, 0⟩ ⟨[47, 97], by decide⟩ [120, 10, 10, 121, 10] :=
  (lines_published_iff ⟨by decide, by decide, by decide⟩ rfl (by decide) (by decide)).2
    ⟨.inr (.inr rfl), by decide⟩

/-- A line without its newline is not. -/
theorem last_line_cut :
    ¬PublishesLines smallest ⟨some 2, some 3, 0⟩ ⟨[47, 97], by decide⟩ [120] := fun h => by
  have hsent := (publishesLines_iff ⟨by decide, by decide, by decide⟩ rfl (by decide)
    (by decide)).1 h [120] (by decide)
  exact absurd hsent.1 (by decide)

end Published

end Psmq
