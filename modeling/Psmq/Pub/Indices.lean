import Psmq.Pub.Lines

/-!
# The line of psmq-pub, and its indices

`send_stdin` keeps a line in an array, and writes and reads it at three indices
that are differences of unsigned numbers: `linemax - 1`, `linemax - 2` and
`paylen - 1`. Each wraps to an index out of the array where the number is too
small: the topic may leave one byte to the line, or none, as only its length is
checked; and a line may be empty, when a NUL comes first in it.

* `inBounds_sendLines_iff`: when the topic leaves more, an access is out of the
  array only for a line that begins with a NUL;
* `indices_in_line_iff`: `send_stdin` stays in its array exactly when the topic
  leaves two bytes, and no line it ships begins with a NUL.
-/

namespace Psmq

open CMem Prog Text

variable {cfg : Config} {psmq : PsmqObj} {topic : CString} {prio fuel : ℕ} {linemax : UInt32}
  {line : Buf cfg.msgMax} {text : List UInt8} {fails : Bool}

/-! ## The lines shipped -/

/-- The lines that are handed to `publish`, with their newlines, if it succeeds:
    those before the first that is too long, or is not read to its end. Only the
    first is, with a topic that is refused. -/
def linesShipped (cfg : Config) (topic : CString) (stdin : Stdin) : List (List UInt8) :=
  let ls := (rawLines newline stdin.text).takeWhile fun l =>
    (chomp newline l).length ≤ maxLine cfg topic ∧ (stdin.fails → l.getLast? = some newline)
  if topic.bytes[0]? = some slash then ls else ls.take 1

@[simp] theorem linesShipped_nil : linesShipped cfg topic ⟨[], fails⟩ = [] := by
  simp [linesShipped]

theorem linesShipped_of_notMem {l : List UInt8} (hl : newline ∉ l) (hne : l ≠ []) :
    linesShipped cfg topic ⟨l, fails⟩ =
      if l.length ≤ maxLine cfg topic ∧ fails = false then [l] else [] := by
  have hlast : l.getLast? ≠ some newline := fun h => hl (List.mem_of_getLast? h)
  simp only [linesShipped, rawLines_of_notMem hl hne, List.takeWhile_cons, chomp_of_notMem hl,
    hlast]
  cases fails <;> split_ifs <;> simp_all

theorem linesShipped_append_cons {l t : List UInt8} (hl : newline ∉ l) :
    linesShipped cfg topic ⟨l ++ newline :: t, fails⟩ =
      if l.length ≤ maxLine cfg topic then
        (l ++ [newline]) ::
          if topic.bytes[0]? = some slash then linesShipped cfg topic ⟨t, fails⟩ else []
      else [] := by
  simp only [linesShipped, rawLines_append_cons hl, List.takeWhile_cons, chomp_append]
  split_ifs <;> simp_all

/-! ## A round of the loop -/

section Round

/-- Nothing is written past the end of the line. -/
theorem write_eq_none {m off : ℕ} {line : Buf m} (h : m ≤ off) (c : UInt8) :
    line.write off [c] = none :=
  dif_neg (Nat.not_le.2 (Nat.lt_succ_of_le h))

/-- The index before the first one is not in the line. -/
theorem write_wrapped (c : UInt8) : line.write ((0 : UInt32) - 1).toNat [c] = none := by
  have hmax := cfg.msgMax_le
  have hwrap : ((0 : UInt32) - 1).toNat = 4294967295 := by decide
  exact write_eq_none (by omega) c

/-- When the topic leaves nothing, the marker is written out of the line. -/
theorem sendLines_of_zero (hmax : linemax.toNat = 0) (stdin : Stdin) :
    sendLines psmq topic prio linemax (fuel + 1) line stdin = fault .bounds := by
  obtain rfl : linemax = 0 := UInt32.toNat_inj.1 hmax
  rw [sendLines, write_wrapped]
  rfl

/-- When the topic leaves one byte, `fgets` stores a NUL in it, over the marker,
    and the character before is looked at. -/
theorem sendLines_of_one (hmax : linemax.toNat = 1) (stdin : Stdin) :
    sendLines psmq topic prio linemax (fuel + 1) line stdin = fault .bounds := by
  obtain rfl : linemax = 1 := UInt32.toNat_inj.1 hmax
  have hpos := cfg.six_le_msgMax
  have hle := cfg.msgMax_le
  obtain ⟨line₁, hline₁, -⟩ := @exists_mark cfg 0 line (by omega)
  obtain ⟨line₂, hline₂, hbytes⟩ := @Buf.exists_write _ line₁ 0 [0]
    (by rw [List.length_singleton]; omega)
  have hfgets : fgets line₁ 1 stdin = some (some line₂, stdin) := by
    simp [fgets, readLine, hline₂]
  have hzero : line₂.bytes[0]? = some 0 := by
    rw [hbytes]
    simp
  have hwrap : line₂.bytes[((1 : UInt32) - 2).toNat]? = none := by
    refine List.getElem?_eq_none ?_
    rw [Buf.length_eq, show ((1 : UInt32) - 2).toNat = 4294967295 by decide]
    omega
  have hlast : ((1 : UInt32) - 1).toNat = 0 := by decide
  have hcut : isCut line₂ 1 = none := by
    rw [isCut, hlast, hzero, hwrap]
    rfl
  rw [sendLines, hlast, hline₁, deref_some, ret_bind, UInt32.toNat_one, hfgets, deref_some,
    ret_bind]
  simp only [hcut, deref_none, fault_bind]

/-- A line in the array is shipped without going out of it exactly when it does
    not begin with a NUL, and nothing goes wrong after it is sent. -/
theorem inBounds_ship_iff (hlive : psmq.Live) {cs after : List UInt8} (hne : cs ≠ [])
    (hline : line.bytes = cs ++ 0 :: after) (hfit : topic.length + 1 + cs.length ≤ cfg.msgMax)
    {p : Buf cfg.msgMax → P cfg (Option PubReport)} {Q : Prop}
    (hp : ∀ line, (p line).InBounds ↔ Q) :
    (deref (line.write (UInt32.ofNat (cs.idxOf 0) - 1).toNat [0]) >>= fun line =>
        publish psmq topic (some line.bytes) (cs.idxOf 0) prio >>= fun
          | some report => ret (some report)
          | none => p line).InBounds ↔
      cs.head? ≠ some 0 ∧ (topic.bytes[0]? = some slash → Q) := by
  cases cs with
  | nil => exact absurd rfl hne
  | cons c cs =>
    rw [List.length_cons] at hfit
    by_cases hc : c = 0
    · subst hc
      rw [List.idxOf_cons_self, show UInt32.ofNat 0 = 0 from rfl, write_wrapped, deref_none,
        fault_bind]
      exact iff_of_false not_inBounds_fault fun h => h.1 rfl
    · have hidx : cs.idxOf 0 ≤ cs.length := List.idxOf_le_length
      have hpaylen : (UInt32.ofNat (cs.idxOf 0 + 1)).toNat = cs.idxOf 0 + 1 :=
        @toNat_ofNat_of_le cfg _ (by omega)
      obtain ⟨line', hline', -⟩ := @Buf.exists_write _ line (cs.idxOf 0) [0]
        (by rw [List.length_singleton]; omega)
      have hhead : (c :: cs).head? ≠ some 0 := fun h => hc (Option.some.inj h)
      rw [List.idxOf_cons_ne _ hc, toNat_sub_one hpaylen, hline', deref_some, ret_bind,
        and_iff_right hhead]
      by_cases hslash : topic.bytes[0]? = some slash
      · obtain ⟨msg, len, report, -, -, hpub⟩ := @publish_eq cfg psmq topic prio hlive hslash
          line'.bytes (cs.idxOf 0 + 1) (by rw [Buf.length_eq]; omega) (by omega)
        rw [hpub, Prog.bind_assoc, inBounds_perform_bind_iff, ← hp line']
        constructor
        · exact fun h _ => h (.ok ())
        · intro h r
          cases r with
          | ok => exact h hslash
          | error e => trivial
      · obtain ⟨report, hreport⟩ := @publish_refused cfg psmq topic prio (some line'.bytes)
          (cs.idxOf 0 + 1) (.inl hslash)
        rw [hreport]
        exact iff_of_true trivial fun h => absurd h hslash

/-- No line is read: the loop ends. -/
theorem inBounds_of_none (hmax : linemax.toNat = maxLine cfg topic + 2)
    (hroom : topic.length + 3 ≤ cfg.msgMax) {cs rest : List UInt8}
    (hread : readLine newline (maxLine cfg topic + 1) text = (cs, rest))
    (h : cs = [] ∨ fails = true ∧ cs.length < maxLine cfg topic + 1 ∧ cs.getLast? ≠ some newline) :
    (sendLines psmq topic prio linemax (fuel + 1) line ⟨text, fails⟩).InBounds := by
  rw [sendLines_none hmax (by simp only [maxLine]; omega) fun line =>
    fgets_none line (Nat.succ_pos _) hread h]
  trivial

/-- A line that fits is shipped. -/
theorem inBounds_round_iff (hlive : psmq.Live) (hmax : linemax.toNat = maxLine cfg topic + 2)
    (hroom : topic.length + 3 ≤ cfg.msgMax) {cs rest : List UInt8}
    (hread : readLine newline (maxLine cfg topic + 1) text = (cs, rest)) (hne : cs ≠ [])
    (hlen : cs.length ≤ maxLine cfg topic + 1)
    (hended : cs.length = maxLine cfg topic + 1 ∨ fails = true → cs.getLast? = some newline)
    {Q : Prop} (hQ : ∀ line : Buf cfg.msgMax,
      (sendLines psmq topic prio linemax fuel line ⟨rest, fails⟩).InBounds ↔ Q) :
    (sendLines psmq topic prio linemax (fuel + 1) line ⟨text, fails⟩).InBounds ↔
      cs.head? ≠ some 0 ∧ (topic.bytes[0]? = some slash → Q) := by
  obtain ⟨line', after, hline', heq⟩ := @sendLines_round cfg psmq topic prio _ fuel _ line _ _ _
    fails hmax (Nat.succ_pos _) (by simp only [maxLine]; omega) hread hne hlen
    fun h _ => hended (.inr h)
  rw [heq, if_neg fun h => h.2 (hended (.inl h.1))]
  exact inBounds_ship_iff hlive hne hline' (by simp only [maxLine] at hlen; omega) hQ

end Round

/-! ## A run of the loop -/

section Run

theorem inBounds_sendLines_nil (hmax : linemax.toNat = maxLine cfg topic + 2)
    (hroom : topic.length + 3 ≤ cfg.msgMax) (fuel : ℕ) (line : Buf cfg.msgMax) :
    (sendLines psmq topic prio linemax fuel line ⟨[], fails⟩).InBounds := by
  cases fuel with
  | zero => exact inBounds_fuel
  | succ fuel =>
    exact inBounds_of_none hmax hroom (readLine_of_notMem List.not_mem_nil (Nat.zero_le _))
      (.inl rfl)

/-- When the topic leaves two bytes or more, the loop goes out of the array
    exactly at a line that begins with a NUL. -/
theorem inBounds_sendLines_iff (hlive : psmq.Live) (hmax : linemax.toNat = maxLine cfg topic + 2)
    (hroom : topic.length + 3 ≤ cfg.msgMax) (fuel : ℕ) (line : Buf cfg.msgMax) :
    (sendLines psmq topic prio linemax fuel line ⟨text, fails⟩).InBounds ↔
      ∀ l ∈ (linesShipped cfg topic ⟨text, fails⟩).take fuel, l.head? ≠ some 0 := by
  have hm : maxLine cfg topic + 1 < cfg.msgMax := by
    simp only [maxLine]
    omega
  induction text using lines_induction newline generalizing fuel line with
  | nil =>
    rw [linesShipped_nil, List.take_nil]
    exact iff_of_true (inBounds_sendLines_nil hmax hroom fuel line) (by simp)
  | last l hl hne =>
    cases fuel with
    | zero => exact iff_of_true inBounds_fuel (by simp)
    | succ fuel =>
      rw [linesShipped_of_notMem hl hne]
      by_cases hlong : l.length ≤ maxLine cfg topic
      · have hread : readLine newline (maxLine cfg topic + 1) l = (l, []) :=
          readLine_of_notMem hl (Nat.le_succ_of_le hlong)
        cases hfails : fails with
        | true =>
          have hlast : l.getLast? ≠ some newline := fun h => hl (List.mem_of_getLast? h)
          refine iff_of_true (inBounds_of_none hmax hroom hread
            (.inr ⟨rfl, Nat.lt_succ_of_le hlong, hlast⟩)) ?_
          simp
        | false =>
          rw [inBounds_round_iff hlive hmax hroom hread hne (Nat.le_succ_of_le hlong) ?_
            fun line => iff_true_intro (inBounds_sendLines_nil hmax hroom fuel line)]
          · simp [hlong]
          · rintro (h | h)
            · omega
            · cases h
      · have hlines : sendLines psmq topic prio linemax (fuel + 1) line ⟨l ++ [], fails⟩ = _ :=
          sendLines_long hmax (Nat.succ_pos _) hm hl (Nat.not_le.1 hlong)
        rw [List.append_nil] at hlines
        rw [hlines]
        exact iff_of_true trivial (by simp [hlong])
  | cons l t hl ih =>
    cases fuel with
    | zero => exact iff_of_true inBounds_fuel (by simp)
    | succ fuel =>
      rw [linesShipped_append_cons hl]
      by_cases hlong : l.length ≤ maxLine cfg topic
      · rw [inBounds_round_iff hlive hmax hroom
          (readLine_append_cons hl (Nat.lt_succ_of_le hlong)) (by simp) (by simp; omega) (by simp)
          (ih fuel), if_pos hlong, List.take_succ_cons, List.forall_mem_cons]
        refine and_congr_right fun _ => ?_
        by_cases hslash : topic.bytes[0]? = some slash <;> simp [hslash]
      · rw [if_neg hlong, List.take_nil,
          sendLines_long hmax (Nat.succ_pos _) hm hl (Nat.not_le.1 hlong)]
        exact iff_of_true trivial (by simp)

end Run

/-! ## The indices used -/

section Indices

variable {stdin : Stdin}

/-- `send_stdin` gives `fgets` no more than the size of its array, and does not
    go out of it, in any number of rounds. -/
def StaysInLine (cfg : Config) (psmq : PsmqObj) (topic : CString) (stdin : Stdin) : Prop :=
  (linemaxOf cfg topic).toNat ≤ cfg.msgMax ∧
    ∀ prio fuel (line : Buf cfg.msgMax), (sendStdin psmq topic prio fuel line stdin).InBounds

/-- The first round goes out of the array, when the topic leaves less than two bytes. -/
theorem not_staysInLine_of_full (htopic : topic.length < cfg.msgMax)
    (hfull : cfg.msgMax < topic.length + 3) : ¬StaysInLine cfg psmq topic stdin := fun h => by
  have hbounds := h.2 0 1 (.zero _)
  have hmax := toNat_linemaxOf htopic
  rw [sendStdin_eq htopic] at hbounds
  by_cases hzero : topic.length + 1 = cfg.msgMax
  · rw [sendLines_of_zero (by omega)] at hbounds
    exact not_inBounds_fault hbounds
  · rw [sendLines_of_one (by omega)] at hbounds
    exact not_inBounds_fault hbounds

/-- With more room, the lines shipped decide. -/
theorem staysInLine_iff (hlive : psmq.Live) (hroom : topic.length + 3 ≤ cfg.msgMax) :
    StaysInLine cfg psmq topic stdin ↔ ∀ l ∈ linesShipped cfg topic stdin, l.head? ≠ some 0 := by
  have htopic : topic.length < cfg.msgMax := by omega
  have hmax : (linemaxOf cfg topic).toNat = maxLine cfg topic + 2 := by
    rw [toNat_linemaxOf htopic, maxLine]
    omega
  constructor
  · intro h
    have hbounds := h.2 0 (linesShipped cfg topic stdin).length (.zero _)
    rw [sendStdin_eq htopic, inBounds_sendLines_iff hlive hmax hroom, List.take_length] at hbounds
    exact hbounds
  · refine fun h => ⟨by simp only [hmax, maxLine]; omega, fun prio fuel line => ?_⟩
    rw [sendStdin_eq htopic]
    exact (inBounds_sendLines_iff hlive hmax hroom fuel line).2
      fun l hl => h l (List.mem_of_mem_take hl)

/-- `send_stdin` stays in its array exactly when the topic leaves two bytes or
    more to a line, and no line shipped begins with a NUL. -/
theorem indices_in_line_iff (hlive : psmq.Live) (htopic : topic.length < cfg.msgMax) :
    StaysInLine cfg psmq topic stdin ↔ topic.length + 3 ≤ cfg.msgMax ∧
      ∀ l ∈ linesShipped cfg topic stdin, l.head? ≠ some 0 := by
  by_cases hroom : topic.length + 3 ≤ cfg.msgMax
  · rw [staysInLine_iff hlive hroom, and_iff_right hroom]
  · exact iff_of_false (not_staysInLine_of_full htopic (Nat.not_le.1 hroom)) fun h => hroom h.1

/-- In the smallest build, it does for two lines on `/a`. -/
theorem indices_in_line_iff_smallest :
    StaysInLine smallest ⟨some 2, some 3, 0⟩ ⟨[47, 97], by decide⟩ ⟨[120, 10, 10], false⟩ :=
  (indices_in_line_iff ⟨by decide, by decide, by decide⟩ (by decide)).2 (by decide)

/-- With nothing to read, it does not on `/aaaa`, nor on `/aaa`; nor, on `/a`,
    for a line that is a NUL. -/
theorem indices_wrapped :
    ¬StaysInLine smallest ⟨some 2, some 3, 0⟩ ⟨[47, 97, 97, 97, 97], by decide⟩ ⟨[], false⟩ ∧
      ¬StaysInLine smallest ⟨some 2, some 3, 0⟩ ⟨[47, 97, 97, 97], by decide⟩ ⟨[], false⟩ ∧
      ¬StaysInLine smallest ⟨some 2, some 3, 0⟩ ⟨[47, 97], by decide⟩ ⟨[0, 10], false⟩ :=
  ⟨not_staysInLine_of_full (by decide) (by decide),
    not_staysInLine_of_full (by decide) (by decide),
    fun h => absurd ((staysInLine_iff ⟨by decide, by decide, by decide⟩ (by decide)).1 h)
      (by decide)⟩

end Indices

end Psmq
