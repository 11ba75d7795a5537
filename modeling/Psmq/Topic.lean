import Psmq.Msg

/-!
# Topics

Matching a published topic against the topic of a subscription
(`brokerTopicMatches`), and the list of the topics a client is subscribed to
(`tlAdd`, `tlDelete`), of `topic-list.c`.

The topics of a client are given as the list of the strings of its nodes, from
the head of the linked list on.
-/

namespace Psmq

open CMem

variable {cfg : Config}

/-! ## Matching -/

/-- `strtok_r` with the delimiter `/`: the next token, and the text after it;
    `none` if only delimiters are left. -/
def strtokR (text : List UInt8) : Option (List UInt8 × List UInt8) :=
  match text.dropWhile (· = slash) with
  | [] => none
  | text => some (text.takeWhile (· ≠ slash), (text.dropWhile (· ≠ slash)).tail)

/-- The loop of `psmqd_broker_topic_matches`, over the current tokens of both
    topics, each with the text left after it. The bound `fuel` on the number of
    rounds is the length of the published topic: a round takes a token of it. -/
def topicLoop : ℕ → Option (List UInt8 × List UInt8) → Option (List UInt8 × List UInt8) → Bool
  | fuel + 1, some (pubtok, pubts), some (subtok, subts) =>
    if subtok = [42] then true          -- '*'
    else if subtok = [43] then          -- '+'
      topicLoop fuel (strtokR pubts) (strtokR subts)
    else if subtok ≠ pubtok then false
    else topicLoop fuel (strtokR pubts) (strtokR subts)
  | _, pub, sub => pub.isNone && sub.isNone

/-- `psmqd_broker_topic_matches`: equal topics match, others are compared token
    by token, in copies of them. -/
def brokerTopicMatches (cfg : Config) (pub sub : CString) : Option Bool :=
  if pub = sub then some true
  else do
    let pubt ← (Buf.zero cfg.msgMax).strcpy pub
    let subt ← (Buf.zero cfg.msgMax).strcpy sub
    let pubs ← str pubt.bytes
    let subs ← str subt.bytes
    return topicLoop (pub.length + 1) (strtokR pubs.bytes) (strtokR subs.bytes)

/-- What is copied by `strcpy` is the string. -/
theorem str_of_strcpy {n : ℕ} {b b' : Buf n} {s : CString} (h : b.strcpy s = some b') :
    str b'.bytes = some s := by
  rw [(Buf.bytes_of_write h).2, List.take_zero, List.nil_append, List.append_assoc]
  exact str_append s _

/-- Topics shorter than the buffers are compared within them. -/
theorem isSome_brokerTopicMatches {pub sub : CString} (hpub : pub.length < cfg.msgMax)
    (hsub : sub.length < cfg.msgMax) : (brokerTopicMatches cfg pub sub).isSome := by
  obtain ⟨pubt, hp⟩ := Option.isSome_iff_exists.1
    (Buf.isSome_strcpy_iff (b := .zero cfg.msgMax) (s := pub) |>.2 hpub)
  obtain ⟨subt, hs⟩ := Option.isSome_iff_exists.1
    (Buf.isSome_strcpy_iff (b := .zero cfg.msgMax) (s := sub) |>.2 hsub)
  rw [brokerTopicMatches]
  split
  · rfl
  · simp [hp, hs, str_of_strcpy hp, str_of_strcpy hs]

/-- The subscription `sub` matches what is published on `pub`. -/
def TopicMatches (cfg : Config) (pub sub : CString) : Prop :=
  brokerTopicMatches cfg pub sub = some true

instance (pub sub : CString) : Decidable (TopicMatches cfg pub sub) :=
  inferInstanceAs (Decidable (_ = _))

/-! ## The list of topics -/

/-- `psmqd_tl_add`, after the allocation of the node: the topic comes after
    the head of the list. -/
def tlInsert : List CString → CString → List CString
  | [], topic => [topic]
  | head :: rest, topic => head :: topic :: rest

/-- `psmqd_tl_add`. The node holds two pointers, and the topic with its NUL. -/
def tlAdd (topics : List CString) (topic : CString) : P cfg (Except Errno (List CString)) := do
  if ← malloc (2 * (cfg.sizeWidth / 8) + topic.length + 1) then
    return .ok (tlInsert topics topic)
  else
    return .error ENOMEM

/-- `psmqd_tl_find_node`: the nodes before the first one with the topic, and
    those after it. -/
def tlFindNode : List CString → CString → Option (List CString × List CString)
  | [], _ => none
  | node :: rest, topic =>
    if node = topic then some ([], rest)
    else (tlFindNode rest topic).map fun x => (node :: x.1, x.2)

/-- `psmqd_tl_delete`: the node found is unlinked. -/
def tlDelete (topics : List CString) (topic : CString) : Except Errno (List CString) :=
  match topics with
  | [] => .error ENOENT
  | topics =>
    match tlFindNode topics topic with
    | none => .error ENOENT
    | some (before, after) => .ok (before ++ after)

theorem tlInsert_perm (topics : List CString) (topic : CString) :
    (tlInsert topics topic).Perm (topic :: topics) := by
  cases topics with
  | nil => exact .refl _
  | cons head rest => exact .swap topic head rest

@[simp] theorem mem_tlInsert {topics : List CString} {topic t : CString} :
    t ∈ tlInsert topics topic ↔ t = topic ∨ t ∈ topics :=
  (tlInsert_perm topics topic).mem_iff.trans List.mem_cons

@[simp] theorem tlInsert_ne_nil (topics : List CString) (topic : CString) :
    tlInsert topics topic ≠ [] := by
  cases topics <;> exact List.cons_ne_nil _ _

theorem tlFindNode_of_notMem {topics : List CString} {topic : CString} (h : topic ∉ topics) :
    tlFindNode topics topic = none := by
  induction topics with
  | nil => rfl
  | cons node rest ih =>
    rw [List.mem_cons, not_or] at h
    rw [tlFindNode, if_neg (Ne.symm h.1), ih h.2, Option.map_none]

theorem tlFindNode_of_mem {topics : List CString} {topic : CString} (h : topic ∈ topics) :
    ∃ x, tlFindNode topics topic = some x ∧ x.1 ++ x.2 = topics.erase topic := by
  induction topics with
  | nil => exact absurd h List.not_mem_nil
  | cons node rest ih =>
    rw [tlFindNode]
    by_cases hn : node = topic
    · rw [if_pos hn, hn, List.erase_cons_head]
      exact ⟨_, rfl, rfl⟩
    · obtain ⟨x, hx, he⟩ := ih ((List.mem_cons.1 h).resolve_left (Ne.symm hn))
      rw [if_neg hn, hx, List.erase_cons_tail (by simpa using hn), ← he]
      exact ⟨_, rfl, rfl⟩

/-- Deleting a topic removes its first occurrence, and fails if there is none. -/
theorem tlDelete_eq (topics : List CString) (topic : CString) :
    tlDelete topics topic =
      if topic ∈ topics then .ok (topics.erase topic) else .error ENOENT := by
  cases topics with
  | nil => rfl
  | cons node rest =>
    rw [tlDelete.eq_2 _ _ (List.cons_ne_nil _ _)]
    by_cases h : topic ∈ node :: rest
    · obtain ⟨x, hx, he⟩ := tlFindNode_of_mem h
      simp only [hx, if_pos h, he]
    · simp only [tlFindNode_of_notMem h, if_neg h]

end Psmq
