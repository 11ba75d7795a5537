import Psmq.Lib.Tokens
import Psmq.Topic

/-!
# The parts of topics

A well-formed topic is given as the list of its parts (`topicOf`); it starts
with a slash, does not end with one, and has no two in a row
(`wellFormed_iff`). The tokens `brokerTopicMatches` compares are the parts of
its topics (`topicLoop_iff_of_tokens`), well-formed or not. Their comparison is
then read off position by position:

* `LoopMatches`: the comparison of the loop, part by part;
* `Documented`: the rules of the manual, in terms of the positions of the
  parts — a `+` stands for any part, a `*` at the end for the rest of the topic;
* `loopMatches_of_notMem`, `loopMatches_append_star`: the loop compares the
  parts before the first `*` of the subscription, and stops there.
-/

namespace Psmq

open CMem Tokens

variable {cfg : Config}

/-- A part of a topic: not empty, and without slashes. -/
structure Part where
  bytes : List UInt8
  isWord : IsWord slash bytes
  zero_notMem : 0 ∉ bytes

namespace Part

theorem eq_iff {p q : Part} : p = q ↔ p.bytes = q.bytes := by
  cases p
  cases q
  simp

instance : DecidableEq Part := fun _ _ => decidable_of_iff' _ eq_iff

/-- The part `+`. -/
def plus : Part := ⟨[43], by decide, by decide⟩

/-- The part `*`. -/
def star : Part := ⟨[42], by decide, by decide⟩

theorem plus_ne_star : plus ≠ star := by decide

end Part

/-- The topic with these parts, each after a slash. -/
def topicOf (parts : List Part) : CString :=
  ⟨join slash (parts.map Part.bytes), by
    induction parts with
    | nil => exact List.not_mem_nil
    | cons p parts ih =>
      rw [List.map_cons, join_cons, List.mem_cons, List.mem_append, not_or, not_or]
      exact ⟨by decide, p.zero_notMem, ih⟩⟩

theorem bytes_topicOf (parts : List Part) :
    (topicOf parts).bytes = join slash (parts.map Part.bytes) := rfl

/-- A topic that is words after slashes is well-formed. -/
theorem exists_topicOf {topic : CString} {ws : List (List UInt8)} (hne : ws ≠ [])
    (hws : ∀ w ∈ ws, IsWord slash w) (htopic : topic.bytes = join slash ws) :
    ∃ parts, parts ≠ [] ∧ topic = topicOf parts := by
  have hzero : ∀ w ∈ ws, 0 ∉ w := fun w hw h0 => topic.zero_notMem <| by
    rw [htopic]
    exact List.mem_flatMap.2 ⟨w, hw, List.mem_cons_of_mem _ h0⟩
  refine ⟨ws.pmap (P := fun w => IsWord slash w ∧ 0 ∉ w) (fun w hw => ⟨w, hw.1, hw.2⟩)
    fun w hw => ⟨hws w hw, hzero w hw⟩, ?_, ?_⟩
  · simpa using hne
  · exact CString.ext (by simp [htopic, bytes_topicOf, List.map_pmap])

/-- A well-formed topic: one part or more, each after a slash. -/
def WellFormed (topic : CString) : Prop := ∃ parts, parts ≠ [] ∧ topic = topicOf parts

/-- A topic is well-formed if it starts with a slash, does not end with one,
    and has no two in a row. -/
theorem wellFormed_iff {topic : CString} : WellFormed topic ↔
    topic.bytes.head? = some slash ∧ topic.bytes.getLast? ≠ some slash ∧
      NoDouble slash topic.bytes := by
  rw [← exists_join_iff]
  constructor
  · rintro ⟨parts, hne, rfl⟩
    refine ⟨parts.map Part.bytes, by simpa using hne, fun w hw => ?_, rfl⟩
    obtain ⟨p, -, rfl⟩ := List.mem_map.1 hw
    exact p.isWord
  · rintro ⟨ws, hne, hws, htopic⟩
    exact exists_topicOf hne hws htopic

instance (topic : CString) : Decidable (WellFormed topic) := decidable_of_iff' _ wellFormed_iff

/-! ## Tokens are parts -/

theorem strtokR_eq_next (text : List UInt8) : strtokR text = next slash text := by
  rw [strtokR, next]
  cases text.dropWhile (· = slash) <;> rfl

theorem strtokR_of_tokens_nil {text : List UInt8} (h : tokens slash text = []) :
    strtokR text = none := by
  rw [strtokR_eq_next]
  cases hnext : next slash text with
  | none => rfl
  | some x => rw [tokens_eq, hnext] at h; simp at h

theorem strtokR_of_tokens_cons {text w : List UInt8} {ws : List (List UInt8)}
    (h : tokens slash text = w :: ws) :
    ∃ rest, strtokR text = some (w, rest) ∧ tokens slash rest = ws := by
  rw [strtokR_eq_next]
  rw [tokens_eq] at h
  cases hnext : next slash text with
  | none => rw [hnext] at h; simp at h
  | some x =>
    rw [hnext, List.cons_eq_cons] at h
    obtain ⟨rfl, hrest⟩ := h
    exact ⟨x.2, rfl, hrest⟩

/-- What the loop of `psmqd_broker_topic_matches` finds of the parts of two
    topics, the published one first. -/
def LoopMatches : List Part → List Part → Prop
  | p :: pub, q :: sub => q = .star ∨ (q = .plus ∨ q = p) ∧ LoopMatches pub sub
  | [], [] => True
  | _, _ => False

instance decidableLoopMatches : (pub sub : List Part) → Decidable (LoopMatches pub sub)
  | p :: pub, q :: sub =>
    have := decidableLoopMatches pub sub
    inferInstanceAs (Decidable (q = .star ∨ (q = .plus ∨ q = p) ∧ LoopMatches pub sub))
  | [], [] => .isTrue trivial
  | [], _ :: _ => .isFalse id
  | _ :: _, [] => .isFalse id

/-- The loop on the tokens of two texts goes over them, the parts of topics. -/
theorem topicLoop_iff_of_tokens {fuel : ℕ} {pubts subts : List UInt8} {pub sub : List Part}
    (hpub : tokens slash pubts = pub.map Part.bytes)
    (hsub : tokens slash subts = sub.map Part.bytes) (h : pub.length < fuel) :
    topicLoop fuel (strtokR pubts) (strtokR subts) = true ↔ LoopMatches pub sub := by
  induction fuel generalizing pubts subts pub sub with
  | zero => exact absurd h (Nat.not_lt_zero _)
  | succ fuel ih =>
    cases pub with
    | nil =>
      rw [strtokR_of_tokens_nil hpub]
      cases sub with
      | nil =>
        rw [strtokR_of_tokens_nil hsub]
        exact iff_of_true rfl trivial
      | cons q sub =>
        obtain ⟨subts', hs, -⟩ := strtokR_of_tokens_cons hsub
        rw [hs]
        exact iff_of_false (by simp [topicLoop]) id
    | cons p pub =>
      obtain ⟨pubts', hp, hpub'⟩ := strtokR_of_tokens_cons hpub
      rw [hp]
      cases sub with
      | nil =>
        rw [strtokR_of_tokens_nil hsub]
        exact iff_of_false (by simp [topicLoop]) id
      | cons q sub =>
        obtain ⟨subts', hs, hsub'⟩ := strtokR_of_tokens_cons hsub
        have hstar : q.bytes = [42] ↔ q = .star := (Part.eq_iff (q := .star)).symm
        have hplus : q.bytes = [43] ↔ q = .plus := (Part.eq_iff (q := .plus)).symm
        have heq : q.bytes = p.bytes ↔ q = p := Part.eq_iff.symm
        have ih : topicLoop fuel (strtokR pubts') (strtokR subts') = true ↔ LoopMatches pub sub :=
          ih hpub' hsub' (by simpa using h)
        rw [hs, topicLoop, LoopMatches]
        simp only [hstar, hplus, heq, ne_eq, ite_not]
        -- The three tests of the body of the loop, in its order.
        split
        · exact iff_of_true rfl (.inl ‹_›)
        · rename_i hs
          rw [or_iff_right hs]
          split
          · rw [ih, and_iff_right (.inl ‹_›)]
          · rename_i hp
            rw [or_iff_right hp]
            split
            · rw [ih, and_iff_right ‹_›]
            · exact iff_of_false Bool.false_ne_true fun h => absurd h.1 ‹_›

/-- The parts of a topic are its tokens. -/
theorem tokens_topicOf (parts : List Part) :
    tokens slash (topicOf parts).bytes = parts.map Part.bytes :=
  tokens_join fun w hw => by
    obtain ⟨p, -, rfl⟩ := List.mem_map.1 hw
    exact p.isWord

/-- The parts of any topic, well-formed or not: what is between its slashes,
    but for what is empty. -/
def partsOf (topic : CString) : List Part :=
  (tokens slash topic.bytes).pmap (P := fun w => IsWord slash w ∧ 0 ∉ w)
    (fun w hw => ⟨w, hw.1, hw.2⟩) fun _ hw =>
      ⟨(isWord_of_mem_tokens hw).1, fun h0 => topic.zero_notMem ((isWord_of_mem_tokens hw).2 h0)⟩

theorem map_bytes_partsOf (topic : CString) :
    (partsOf topic).map Part.bytes = tokens slash topic.bytes := by
  simp [partsOf, List.map_pmap]

@[simp] theorem partsOf_topicOf (parts : List Part) : partsOf (topicOf parts) = parts :=
  List.map_injective_iff.2 (fun _ _ => Part.eq_iff.2) <| by
    rw [map_bytes_partsOf, tokens_topicOf]

theorem length_partsOf_le (topic : CString) : (partsOf topic).length ≤ topic.length := by
  rw [← List.length_map (f := Part.bytes), map_bytes_partsOf]
  exact length_tokens_le _

/-! ## The rules of the manual -/

/-- Before the position `n`, the parts of the subscription `sub` are `+`, or
    those of the published topic `pub`. -/
def AgreeBefore (n : ℕ) (pub sub : List Part) : Prop :=
  ∀ i < n, sub[i]? = some .plus ∨ sub[i]? = pub[i]?

instance (n : ℕ) (pub sub : List Part) : Decidable (AgreeBefore n pub sub) :=
  inferInstanceAs (Decidable (∀ i < n, _))

/-- The subscription `sub` is to match what is published on `pub`: either both
    have as many parts, which agree, or `sub` ends with a `*`, which stands for
    all the parts of `pub` from its position on, at least one. -/
def Documented (pub sub : List Part) : Prop :=
  (pub.length = sub.length ∧ AgreeBefore sub.length pub sub) ∨
    (sub.getLast? = some .star ∧ sub.length ≤ pub.length ∧
      AgreeBefore (sub.length - 1) pub sub)

instance (pub sub : List Part) : Decidable (Documented pub sub) :=
  inferInstanceAs (Decidable (_ ∨ _))

theorem agreeBefore_zero (pub sub : List Part) : AgreeBefore 0 pub sub :=
  fun _ h => absurd h (Nat.not_lt_zero _)

theorem AgreeBefore.mono {m n : ℕ} {pub sub : List Part} (h : AgreeBefore n pub sub) (hmn : m ≤ n) :
    AgreeBefore m pub sub := fun i hi => h i (Nat.lt_of_lt_of_le hi hmn)

theorem agreeBefore_succ_cons {n : ℕ} {p q : Part} {pub sub : List Part} :
    AgreeBefore (n + 1) (p :: pub) (q :: sub) ↔ (q = .plus ∨ q = p) ∧ AgreeBefore n pub sub := by
  constructor
  · intro h
    exact ⟨by simpa using h 0 (Nat.succ_pos n), fun i hi => by simpa using h (i + 1) (by omega)⟩
  · rintro ⟨h₀, h⟩ i hi
    cases i with
    | zero => simpa using h₀
    | succ i => simpa using h i (by omega)

theorem agreeBefore_add {m n : ℕ} {pub sub : List Part} :
    AgreeBefore (m + n) pub sub ↔
      AgreeBefore m pub sub ∧ AgreeBefore n (pub.drop m) (sub.drop m) := by
  simp only [AgreeBefore, List.getElem?_drop]
  constructor
  · exact fun h => ⟨fun i hi => h i (by omega), fun i hi => h (m + i) (by omega)⟩
  · rintro ⟨h₁, h₂⟩ i hi
    rcases Nat.lt_or_ge i m with him | him
    · exact h₁ i him
    · have := h₂ (i - m) (by omega)
      rwa [Nat.add_sub_cancel' him] at this

/-- Without a `*` in the subscription, the loop compares all the parts. -/
theorem loopMatches_of_notMem {pub sub : List Part} (h : .star ∉ sub) :
    LoopMatches pub sub ↔ pub.length = sub.length ∧ AgreeBefore sub.length pub sub := by
  induction sub generalizing pub with
  | nil =>
    cases pub with
    | nil => exact iff_of_true trivial ⟨rfl, agreeBefore_zero _ _⟩
    | cons p pub => exact iff_of_false id (by simp)
  | cons q sub ih =>
    rw [List.mem_cons, not_or] at h
    cases pub with
    | nil => exact iff_of_false id (by simp)
    | cons p pub =>
      simp only [LoopMatches, Ne.symm h.1, false_or, ih h.2, List.length_cons,
        agreeBefore_succ_cons, Nat.add_right_cancel_iff]
      exact and_left_comm

/-- The loop stops at the first `*` of the subscription, and takes whatever is
    published there. -/
theorem loopMatches_append_star {pub sub rest : List Part} (h : .star ∉ sub) :
    LoopMatches pub (sub ++ .star :: rest) ↔
      sub.length < pub.length ∧ AgreeBefore sub.length pub (sub ++ .star :: rest) := by
  induction sub generalizing pub with
  | nil =>
    cases pub with
    | nil => exact iff_of_false id (by simp)
    | cons p pub => exact iff_of_true (.inl rfl) ⟨Nat.succ_pos _, agreeBefore_zero _ _⟩
  | cons q sub ih =>
    rw [List.mem_cons, not_or] at h
    cases pub with
    | nil => exact iff_of_false id (by simp)
    | cons p pub =>
      simp only [List.cons_append, LoopMatches, Ne.symm h.1, false_or, ih h.2, List.length_cons,
        agreeBefore_succ_cons, Nat.add_lt_add_iff_right]
      exact and_left_comm

/-- A `*` that is not at the end of the subscription stands for itself. -/
theorem Documented.star {pub sub : List Part} (h : Documented pub sub) {i : ℕ}
    (hi : i + 1 < sub.length) (hs : sub[i]? = some .star) : pub[i]? = some .star := by
  have hag : AgreeBefore (sub.length - 1) pub sub := h.elim (fun h => h.2.mono (by omega)) (·.2.2)
  rcases hag i (by omega) with hp | hp
  · exact absurd (Option.some.inj (hp.symm.trans hs)) Part.plus_ne_star
  · exact hp.symm.trans hs

/-- The rules compare the parts before a position, and apply to what is left. -/
theorem documented_iff_drop {n : ℕ} {pub sub : List Part} (h : n < sub.length) :
    Documented pub sub ↔ n < pub.length ∧ AgreeBefore n pub sub ∧
      Documented (pub.drop n) (sub.drop n) := by
  have hall : AgreeBefore sub.length pub sub ↔
      AgreeBefore n pub sub ∧ AgreeBefore (sub.length - n) (pub.drop n) (sub.drop n) := by
    rw [← agreeBefore_add, Nat.add_sub_cancel' (by omega)]
  have hlast : AgreeBefore (sub.length - 1) pub sub ↔
      AgreeBefore n pub sub ∧ AgreeBefore (sub.length - n - 1) (pub.drop n) (sub.drop n) := by
    rw [← agreeBefore_add, show n + (sub.length - n - 1) = sub.length - 1 by omega]
  have hget : (sub.drop n).getLast? = sub.getLast? := by
    rw [List.getLast?_drop, if_neg (by omega)]
  simp only [Documented, List.length_drop, hget, hall, hlast]
  constructor
  · rintro (⟨hl, h₁, h₂⟩ | ⟨hs, hl, h₁, h₂⟩)
    · exact ⟨by omega, h₁, .inl ⟨by omega, h₂⟩⟩
    · exact ⟨by omega, h₁, .inr ⟨hs, by omega, h₂⟩⟩
  · rintro ⟨hn, h₁, ⟨hl, h₂⟩ | ⟨hs, hl, h₂⟩⟩
    · exact .inl ⟨by omega, h₁, h₂⟩
    · exact .inr ⟨hs, by omega, h₁, h₂⟩

/-- The loop follows the rules, if only the last part of the subscription can
    be a `*`. -/
theorem loopMatches_iff_documented {pub sub : List Part} (h : .star ∉ sub.dropLast) :
    LoopMatches pub sub ↔ Documented pub sub := by
  rcases List.eq_nil_or_concat sub with rfl | ⟨init, q, rfl⟩
  · rw [loopMatches_of_notMem List.not_mem_nil]
    exact (or_iff_left fun h => by simp at h).symm
  · rw [List.concat_eq_append] at h ⊢
    rw [List.dropLast_concat] at h
    by_cases hq : q = .star
    · subst hq
      rw [loopMatches_append_star h]
      simp only [Documented, List.length_append, List.length_singleton, List.getLast?_concat,
        true_and, Nat.add_sub_cancel]
      constructor
      · exact .inr
      · rintro (⟨hl, hag⟩ | h)
        · exact ⟨by omega, hag.mono (Nat.le_succ _)⟩
        · exact h
    · rw [loopMatches_of_notMem (by simp [h, Ne.symm hq])]
      refine (or_iff_left fun h => hq ?_).symm
      simpa using h.1

end Psmq
