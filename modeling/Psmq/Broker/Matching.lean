import Psmq.Broker
import Psmq.Topic.Parts

/-!
# What a subscription matches

`psmqd_broker_topic_matches` on well-formed topics, against the rules of the
manual (`Documented`).

* `matches_documented`: the rules are implemented, for the subscriptions in
  which only the last part can be a `*`;
* `exists_topicOf_of_accepted`: the topics `psmqd_broker_subscribe` accepts are
  well-formed — a `*` that is not at their end included;
* `inner_star_literal_iff`: such a `*` is compared as any other part only if
  the published topic differs before it, or follows the rules anyway.
-/

namespace Psmq

open CMem Tokens

variable {cfg : Config}

theorem loopMatches_self (pub : List Part) : LoopMatches pub pub := by
  induction pub with
  | nil => trivial
  | cons p pub ih => exact .inr ⟨.inr rfl, ih⟩

/-- Topics are compared by their parts, what is published well-formed or not:
    taking equal ones as a match at once makes no difference. -/
theorem topicMatches_partsOf_iff {pub : CString} {sub : List Part} (hpub : pub.length < cfg.msgMax)
    (hsub : (topicOf sub).length < cfg.msgMax) :
    TopicMatches cfg pub (topicOf sub) ↔ LoopMatches (partsOf pub) sub := by
  rw [TopicMatches, brokerTopicMatches]
  split
  · rename_i heq
    rw [heq, partsOf_topicOf]
    exact iff_of_true rfl (loopMatches_self sub)
  · obtain ⟨pubt, hp⟩ := Option.isSome_iff_exists.1
      (Buf.isSome_strcpy_iff (b := .zero cfg.msgMax) (s := pub) |>.2 hpub)
    obtain ⟨subt, hs⟩ := Option.isSome_iff_exists.1
      (Buf.isSome_strcpy_iff (b := .zero cfg.msgMax) (s := topicOf sub) |>.2 hsub)
    have hloop : topicLoop (pub.length + 1) (strtokR pub.bytes) (strtokR (topicOf sub).bytes) =
        true ↔ LoopMatches (partsOf pub) sub :=
      topicLoop_iff_of_tokens (map_bytes_partsOf pub).symm (tokens_topicOf sub)
        (Nat.lt_succ_of_le (length_partsOf_le pub))
    simp [hp, hs, str_of_strcpy hp, str_of_strcpy hs, hloop]

theorem topicMatches_iff {pub sub : List Part} (hpub : (topicOf pub).length < cfg.msgMax)
    (hsub : (topicOf sub).length < cfg.msgMax) :
    TopicMatches cfg (topicOf pub) (topicOf sub) ↔ LoopMatches pub sub := by
  rw [topicMatches_partsOf_iff hpub hsub, partsOf_topicOf]

/-- The matcher implements the rules of the manual, for the subscriptions in
    which no part but the last one is a `*`. -/
theorem matches_documented {pub sub : List Part} (hpub : (topicOf pub).length < cfg.msgMax)
    (hsub : (topicOf sub).length < cfg.msgMax) (hstar : .star ∉ sub.dropLast) :
    brokerTopicMatches cfg (topicOf pub) (topicOf sub) = some (decide (Documented pub sub)) := by
  have h := (topicMatches_iff hpub hsub).trans (loopMatches_iff_documented hstar)
  obtain ⟨b, hb⟩ := Option.isSome_iff_exists.1 (isSome_brokerTopicMatches hpub hsub)
  rw [TopicMatches, hb, Option.some.injEq] at h
  rw [hb, Option.some.injEq, Bool.eq_iff_iff, h, decide_eq_true_iff]

/-- On `/a/b`, the subscription `/+/*`. -/
theorem matches_documented_plus_star :
    let a : Part := ⟨[97], by decide, by decide⟩
    let b : Part := ⟨[98], by decide, by decide⟩
    Documented [a, b] [.plus, .star] ∧
      brokerTopicMatches smallest (topicOf [a, b]) (topicOf [.plus, .star]) = some true := by
  intro a b
  have h : Documented [a, b] [.plus, .star] := by decide
  refine ⟨h, ?_⟩
  exact (matches_documented (by decide) (by decide) (by decide)).trans
    (congrArg some (decide_eq_true h))

/-! ## Accepted subscriptions -/

/-- The loop over an accepted topic finds no two slashes in a row in it. -/
theorem noDouble_of_hasDoubleSlash {s rest : List UInt8} (h0 : 0 ∉ s)
    (h : hasDoubleSlash (s ++ 0 :: rest) = some false) : NoDouble slash s := by
  induction s with
  | nil => exact .nil
  | cons c s ih =>
    rw [List.mem_cons, not_or] at h0
    rw [List.cons_append, hasDoubleSlash.eq_def] at h
    dsimp only at h
    rw [if_neg (Ne.symm h0.1)] at h
    cases s with
    | nil => exact .singleton _
    | cons d s =>
      by_cases hc : c = slash
      · rw [if_pos hc] at h
        by_cases hd : d = slash
        · simp [hd] at h
        · simp only [List.cons_append, if_neg hd] at h
          exact .cons_cons (fun h => hd h.2) (ih h0.2 h)
      · rw [if_neg hc] at h
        exact .cons_cons (fun h => hc h.1) (ih h0.2 h)

/-- What `psmqd_broker_subscribe` has checked of the topic it accepts. -/
theorem topic_of_accepted {msg : PsmqMsg cfg} {stopic : CString}
    (hstr : str msg.data.bytes = some stopic) (herr : subscribeErr msg stopic.length = some 0) :
    stopic.bytes.head? = some slash ∧ stopic.bytes.getLast? ≠ some slash ∧
      NoDouble slash stopic.bytes := by
  obtain ⟨rest, hrest⟩ := str_eq_some_iff.1 hstr
  have hbad : EBADMSG ≠ 0 := by decide
  simp only [subscribeErr, Option.pure_def, Option.bind_eq_bind] at herr
  split at herr
  · exact absurd (Option.some.inj herr) hbad
  · rename_i hlen
    have hget : ∀ i < stopic.length, msg.data.bytes[i]? = stopic.bytes[i]? := fun i hi => by
      rw [hrest, List.getElem?_append_left hi]
    rw [hget 0 (by omega), hget (stopic.length - 1) (by omega), CString.length,
      ← List.getLast?_eq_getElem?, ← List.head?_eq_getElem?] at herr
    split at herr
    · exact absurd (Option.some.inj herr) hbad
    · obtain ⟨c, hc, herr⟩ := Option.bind_eq_some_iff.1 herr
      split at herr
      · exact absurd (Option.some.inj herr) hbad
      · rename_i hhead
        obtain ⟨d, hd, herr⟩ := Option.bind_eq_some_iff.1 herr
        split at herr
        · exact absurd (Option.some.inj herr) hbad
        · rename_i hlast
          obtain ⟨b, hb, herr⟩ := Option.bind_eq_some_iff.1 herr
          cases b with
          | true => exact absurd (Option.some.inj herr) hbad
          | false =>
            rw [hrest] at hb
            exact ⟨hc.trans (congrArg some (not_not.1 hhead)),
              fun h => hlast (Option.some.inj (hd.symm.trans h)),
              noDouble_of_hasDoubleSlash stopic.zero_notMem hb⟩

/-- The topics `psmqd_broker_subscribe` accepts are well-formed. -/
theorem exists_topicOf_of_accepted {msg : PsmqMsg cfg} {stopic : CString}
    (hstr : str msg.data.bytes = some stopic) (herr : subscribeErr msg stopic.length = some 0) :
    ∃ sub, sub ≠ [] ∧ stopic = topicOf sub := by
  obtain ⟨hhead, hlast, hdouble⟩ := topic_of_accepted hstr herr
  obtain ⟨ws, hne, hws, hjoin⟩ := exists_join hhead hlast hdouble
  exact exists_topicOf hne hws hjoin

/-! ## A star that is not at the end -/

/-- The matcher stops at the first `*` of the subscription. -/
theorem loopMatches_iff_of_mem {pub sub : List Part} (h : .star ∈ sub) :
    LoopMatches pub sub ↔
      sub.idxOf .star < pub.length ∧ AgreeBefore (sub.idxOf .star) pub sub := by
  obtain ⟨init, rest, rfl, hinit⟩ := List.eq_append_cons_of_mem h
  rw [loopMatches_append_star hinit, List.idxOf_append_of_notMem hinit, List.idxOf_cons_self,
    Nat.add_zero]

/-- A `*` that is not at the end of an accepted subscription is compared as
    any other part when there is nothing published at its position, when the
    published topic differs from the subscription before it, or when both agree
    from it on under the rules; else the subscription gets a message it is not
    to get. -/
theorem inner_star_literal_iff {msg : PsmqMsg cfg} {stopic : CString}
    (hstr : str msg.data.bytes = some stopic) (herr : subscribeErr msg stopic.length = some 0) :
    ∃ sub, sub ≠ [] ∧ stopic = topicOf sub ∧ (.star ∈ sub.dropLast →
      ∀ pub, (topicOf pub).length < cfg.msgMax →
        ((TopicMatches cfg (topicOf pub) stopic → Documented pub sub ∧
            ∀ i, i + 1 < sub.length → sub[i]? = some .star → pub[i]? = some .star) ↔
          (sub.idxOf .star < pub.length → AgreeBefore (sub.idxOf .star) pub sub →
            Documented (pub.drop (sub.idxOf .star)) (sub.drop (sub.idxOf .star))))) := by
  obtain ⟨sub, hne, rfl⟩ := exists_topicOf_of_accepted hstr herr
  have hsub : (topicOf sub).length < cfg.msgMax := by
    simpa using length_lt_of_str hstr
  refine ⟨sub, hne, rfl, fun hstar pub hpub => ?_⟩
  have hmem : .star ∈ sub := List.dropLast_subset sub hstar
  have hdoc : Documented pub sub ↔ _ := documented_iff_drop (List.idxOf_lt_length_of_mem hmem)
  rw [topicMatches_iff hpub hsub, loopMatches_iff_of_mem hmem]
  constructor
  · exact fun h hn hag => (hdoc.1 (h ⟨hn, hag⟩).1).2.2
  · rintro h ⟨hn, hag⟩
    have hd : Documented pub sub := hdoc.2 ⟨hn, hag, h hn hag⟩
    exact ⟨hd, fun i hi hs => hd.star hi hs⟩

/-- The subscription request for `/*/b`. -/
def innerStar : PsmqMsg smallest := ⟨⟨cmdSubscribe, 0⟩, 0, ⟨[47, 42, 47, 98, 0, 0], rfl⟩⟩

/-- The subscription `/*/b` is accepted, and gets what is published on `/a/c`. -/
theorem inner_star_matches :
    let a : Part := ⟨[97], by decide, by decide⟩
    let b : Part := ⟨[98], by decide, by decide⟩
    let c : Part := ⟨[99], by decide, by decide⟩
    str innerStar.data.bytes = some (topicOf [.star, b]) ∧
      subscribeErr innerStar (topicOf [.star, b]).length = some 0 ∧
      TopicMatches smallest (topicOf [a, c]) (topicOf [.star, b]) ∧
      ¬ Documented [a, c] [.star, b] := by
  decide

/-- Its topic is well-formed. -/
theorem inner_star_literal_iff_innerStar :
    let b : Part := ⟨[98], by decide, by decide⟩
    ∃ sub, sub ≠ [] ∧ topicOf [.star, b] = topicOf sub ∧ (.star ∈ sub.dropLast →
      ∀ pub, (topicOf pub).length < smallest.msgMax →
        ((TopicMatches smallest (topicOf pub) (topicOf [.star, b]) → Documented pub sub ∧
            ∀ i, i + 1 < sub.length → sub[i]? = some .star → pub[i]? = some .star) ↔
          (sub.idxOf .star < pub.length → AgreeBefore (sub.idxOf .star) pub sub →
            Documented (pub.drop (sub.idxOf .star)) (sub.drop (sub.idxOf .star))))) := by
  intro b
  have hstr : str innerStar.data.bytes = some (topicOf [.star, b]) := by decide
  exact inner_star_literal_iff hstr (by decide)

end Psmq
