import Mathlib.Data.List.Chain
import Mathlib.Data.List.TakeDrop

/-!
# Tokens

Texts made of words, each after a separator (`join`), and reading the words
off such a text one by one (`next`), as `strtok_r` does.

* `next_join_cons`: the next token of a text is its first word;
* `exists_join_iff`: the texts of words are those that start with a separator,
  do not end with one, and have no two in a row;
* `tokens_eq`: reading a text to its end, the words between its separators are
  found (`tokens`), however many separators are between them.
-/

namespace Tokens

variable {α : Type*} {sep : α}

/-- A word: not empty, and without separators. -/
def IsWord (sep : α) (w : List α) : Prop := w ≠ [] ∧ sep ∉ w

/-- The text of words, each after a separator. -/
def join (sep : α) (words : List (List α)) : List α := words.flatMap (sep :: ·)

@[simp] theorem join_nil : join sep [] = [] := rfl

@[simp] theorem join_cons (w : List α) (ws : List (List α)) :
    join sep (w :: ws) = sep :: (w ++ join sep ws) := rfl

variable [DecidableEq α]

instance (w : List α) : Decidable (IsWord sep w) := inferInstanceAs (Decidable (_ ∧ _))

/-- The next token of a text, and the text after the separator that ends it;
    `none` if only separators are left. -/
def next (sep : α) (text : List α) : Option (List α × List α) :=
  match text.dropWhile (· = sep) with
  | [] => none
  | text => some (text.takeWhile (· ≠ sep), (text.dropWhile (· ≠ sep)).tail)

@[simp] theorem next_nil : next sep [] = none := rfl

/-- Separators before a token are skipped. -/
@[simp] theorem next_sep_cons (text : List α) : next sep (sep :: text) = next sep text := by
  rw [next, List.dropWhile_cons_of_pos (by simp)]
  rfl

theorem takeWhile_word_append {w text : List α} (hw : sep ∉ w) :
    (w ++ text).takeWhile (· ≠ sep) = w ++ text.takeWhile (· ≠ sep) :=
  List.takeWhile_append_of_pos fun a ha => by simpa using fun h : a = sep => hw (h ▸ ha)

theorem dropWhile_word_append {w text : List α} (hw : sep ∉ w) :
    (w ++ text).dropWhile (· ≠ sep) = text.dropWhile (· ≠ sep) :=
  List.dropWhile_append_of_pos fun a ha => by simpa using fun h : a = sep => hw (h ▸ ha)

/-- The text of words is empty, or starts with a separator. -/
theorem dropWhile_join (ws : List (List α)) :
    (join sep ws).dropWhile (· ≠ sep) = join sep ws ∧ (join sep ws).takeWhile (· ≠ sep) = [] := by
  cases ws <;> simp

/-- The next token of a text of words is the first one. -/
theorem next_join_cons {w : List α} {ws : List (List α)} (hw : IsWord sep w) :
    next sep (join sep (w :: ws)) = some (w, (join sep ws).tail) := by
  obtain ⟨c, l, rfl⟩ := List.exists_cons_of_ne_nil hw.1
  have hc : c ≠ sep := fun h => hw.2 (h ▸ List.mem_cons_self)
  rw [join_cons, next_sep_cons, next, List.cons_append, List.dropWhile_cons_of_neg (by simpa)]
  dsimp only
  rw [← List.cons_append, takeWhile_word_append hw.2, dropWhile_word_append hw.2,
    (dropWhile_join ws).1, (dropWhile_join ws).2, List.append_nil]

/-- The separator that ended a token is not missed by the next one. -/
theorem next_tail_join (ws : List (List α)) :
    next sep (join sep ws).tail = next sep (join sep ws) := by
  cases ws <;> simp

/-- Two separators in a row make an empty word. -/
abbrev NoDouble (sep : α) (text : List α) : Prop :=
  text.IsChain fun a b => ¬ (a = sep ∧ b = sep)

/-- After its first separator, a text is a word and the text of the others. -/
theorem exists_word_append_join : ∀ text : List α, text.head? ≠ some sep → text ≠ [] →
    text.getLast? ≠ some sep → NoDouble sep text →
    ∃ w ws, IsWord sep w ∧ (∀ v ∈ ws, IsWord sep v) ∧ text = w ++ join sep ws
  | [], _, hne, _, _ => absurd rfl hne
  | [c], hc, _, _, _ =>
    ⟨[c], [], ⟨List.cons_ne_nil _ _, by simpa [eq_comm] using hc⟩, by simp, by simp⟩
  | c :: d :: text, hc, _, hlast, hchain => by
    have hcs : c ≠ sep := by simpa using hc
    have hchain' := (List.isChain_cons_cons.1 hchain).2
    rw [List.getLast?_cons_cons] at hlast
    by_cases hd : d = sep
    · -- The word ends here: what is after the separator starts another.
      cases text with
      | nil => exact absurd (congrArg some hd) hlast
      | cons e text =>
        have he : e ≠ sep := fun he => (List.isChain_cons_cons.1 hchain').1 ⟨hd, he⟩
        obtain ⟨w, ws, hw, hws, htext⟩ := exists_word_append_join (e :: text)
          (by simpa using he) (List.cons_ne_nil _ _) (by rwa [List.getLast?_cons_cons] at hlast)
          (List.isChain_cons_cons.1 hchain').2
        refine ⟨[c], w :: ws, ⟨List.cons_ne_nil _ _, by simpa [eq_comm] using hcs⟩, ?_, ?_⟩
        · exact List.forall_mem_cons.2 ⟨hw, hws⟩
        · simp [hd, htext]
    · obtain ⟨w, ws, hw, hws, htext⟩ := exists_word_append_join (d :: text)
        (by simpa using hd) (List.cons_ne_nil _ _) hlast hchain'
      exact ⟨c :: w, ws, ⟨List.cons_ne_nil _ _, by simpa [hw.2, eq_comm] using hcs⟩, hws, by
        simp [htext]⟩

/-- A text that starts with a separator, does not end with one, and has no two
    in a row is one of words. -/
theorem exists_join {text : List α} (hhead : text.head? = some sep)
    (hlast : text.getLast? ≠ some sep) (hchain : NoDouble sep text) :
    ∃ ws, ws ≠ [] ∧ (∀ w ∈ ws, IsWord sep w) ∧ text = join sep ws := by
  cases text with
  | nil => exact absurd hhead (by simp)
  | cons c text =>
    obtain rfl : c = sep := by simpa using hhead
    cases text with
    | nil => exact absurd rfl hlast
    | cons d text =>
      have hd : d ≠ c := fun hd => (List.isChain_cons_cons.1 hchain).1 ⟨rfl, hd⟩
      obtain ⟨w, ws, hw, hws, htext⟩ := exists_word_append_join (d :: text)
        (by simpa using hd) (List.cons_ne_nil _ _) (by rwa [List.getLast?_cons_cons] at hlast)
        (List.isChain_cons_cons.1 hchain).2
      exact ⟨w :: ws, List.cons_ne_nil _ _, List.forall_mem_cons.2 ⟨hw, hws⟩, by
        rw [join_cons, htext]⟩

omit [DecidableEq α] in
/-- A word after which a text of words starts does not end with a separator. -/
theorem getLast?_word_append_join {w : List α} (hw : IsWord sep w) :
    ∀ {ws : List (List α)}, (∀ v ∈ ws, IsWord sep v) → (w ++ join sep ws).getLast? ≠ some sep
  | [], _ => by
    rw [join_nil, List.append_nil]
    exact fun h => hw.2 (List.mem_of_getLast? h)
  | v :: ws, hws => by
    rw [List.forall_mem_cons] at hws
    have ih : (v ++ join sep ws).getLast? ≠ some sep := getLast?_word_append_join hws.1 hws.2
    have hne : v ++ join sep ws ≠ [] := by simp [hws.1.1]
    rwa [join_cons, List.getLast?_append_of_ne_nil _ (List.cons_ne_nil _ _),
      ← List.singleton_append, List.getLast?_append_of_ne_nil _ hne]

omit [DecidableEq α] in
/-- A text without separators has no two in a row. -/
theorem noDouble_of_notMem {w : List α} (hw : sep ∉ w) : NoDouble sep w := by
  induction w with
  | nil => exact .nil
  | cons c w ih =>
    rw [List.mem_cons, not_or] at hw
    exact List.isChain_cons.2 ⟨fun _ _ h => hw.1 h.1.symm, ih hw.2⟩

omit [DecidableEq α] in
/-- The text of words has no two separators in a row. -/
theorem noDouble_join {ws : List (List α)} (hws : ∀ w ∈ ws, IsWord sep w) :
    NoDouble sep (join sep ws) := by
  induction ws with
  | nil => exact .nil
  | cons w ws ih =>
    rw [List.forall_mem_cons] at hws
    obtain ⟨c, l, rfl⟩ := List.exists_cons_of_ne_nil hws.1.1
    have hc : c ≠ sep := fun h => hws.1.2 (h ▸ List.mem_cons_self)
    rw [join_cons, List.cons_append, NoDouble, List.isChain_cons_cons, ← List.cons_append,
      List.isChain_append]
    refine ⟨fun h => hc h.2, noDouble_of_notMem hws.1.2, ih hws.2, fun a ha b _ h => ?_⟩
    exact hws.1.2 (h.1 ▸ List.mem_of_getLast? ha)

/-- The texts of words are those that start with a separator, do not end with
    one, and have no two in a row. -/
theorem exists_join_iff {text : List α} :
    (∃ ws, ws ≠ [] ∧ (∀ w ∈ ws, IsWord sep w) ∧ text = join sep ws) ↔
      text.head? = some sep ∧ text.getLast? ≠ some sep ∧ NoDouble sep text := by
  refine ⟨?_, fun ⟨hhead, hlast, hchain⟩ => exists_join hhead hlast hchain⟩
  rintro ⟨ws, hne, hws, rfl⟩
  refine ⟨?_, ?_, noDouble_join hws⟩
  · obtain ⟨w, ws, rfl⟩ := List.exists_cons_of_ne_nil hne
    rfl
  · obtain ⟨w, ws, rfl⟩ := List.exists_cons_of_ne_nil hne
    rw [List.forall_mem_cons] at hws
    have hne : w ++ join sep ws ≠ [] := by simp [hws.1.1]
    rw [join_cons, ← List.singleton_append, List.getLast?_append_of_ne_nil _ hne]
    exact getLast?_word_append_join hws.1 hws.2

/-! ## All the tokens -/

/-- The words of a text, whatever separators are before, between and after them. -/
def tokens (sep : α) (text : List α) : List (List α) := (text.splitOn sep).filter (· ≠ [])

@[simp] theorem tokens_nil : tokens sep [] = [] := rfl

theorem splitOn_sep_cons (text : List α) : (sep :: text).splitOn sep = [] :: text.splitOn sep := by
  rw [List.splitOn, List.splitOnP_cons_eq_if_modifyHead, if_pos (by simp)]
  rfl

/-- A character that is not a separator belongs to the first of the texts between them. -/
theorem exists_splitOn_cons {c : α} (hc : c ≠ sep) (text : List α) :
    ∃ w ws, text.splitOn sep = w :: ws ∧ (c :: text).splitOn sep = (c :: w) :: ws := by
  obtain ⟨w, ws, hw⟩ := List.exists_cons_of_ne_nil (List.splitOnP_ne_nil (· == sep) text)
  refine ⟨w, ws, hw, ?_⟩
  rw [List.splitOn, List.splitOnP_cons_eq_if_modifyHead, if_neg (by simpa using hc), hw]
  rfl

/-- There are no separators in the texts between them. -/
theorem notMem_of_mem_splitOn {text w : List α} (hw : w ∈ text.splitOn sep) :
    sep ∉ w ∧ w ⊆ text := by
  induction text generalizing w with
  | nil =>
    obtain rfl := List.mem_singleton.1 hw
    exact ⟨List.not_mem_nil, List.nil_subset _⟩
  | cons c text ih =>
    by_cases hc : c = sep
    · rw [hc, splitOn_sep_cons, List.mem_cons] at hw
      rcases hw with rfl | hw
      · exact ⟨List.not_mem_nil, List.nil_subset _⟩
      · exact ⟨(ih hw).1, fun _ ha => List.mem_cons_of_mem _ ((ih hw).2 ha)⟩
    · obtain ⟨v, ws, hv, hcons⟩ := exists_splitOn_cons hc text
      rw [hv] at ih
      rw [hcons, List.mem_cons] at hw
      rcases hw with rfl | hw
      · obtain ⟨hsep, hsub⟩ := ih List.mem_cons_self
        exact ⟨by simpa [hsep] using Ne.symm hc, List.cons_subset_cons _ hsub⟩
      · obtain ⟨hsep, hsub⟩ := ih (List.mem_cons_of_mem _ hw)
        exact ⟨hsep, fun _ ha => List.mem_cons_of_mem _ (hsub ha)⟩

/-- The tokens of a text are words, made of its characters. -/
theorem isWord_of_mem_tokens {text w : List α} (hw : w ∈ tokens sep text) :
    IsWord sep w ∧ w ⊆ text := by
  obtain ⟨hmem, hne⟩ := List.mem_filter.1 hw
  exact ⟨⟨by simpa using hne, (notMem_of_mem_splitOn hmem).1⟩, (notMem_of_mem_splitOn hmem).2⟩

/-- There are at most as many tokens as characters. -/
theorem length_tokens_le (text : List α) : (tokens sep text).length ≤ text.length := by
  induction text with
  | nil => exact Nat.le_refl _
  | cons c text ih =>
    by_cases hc : c = sep
    · rw [hc, tokens, splitOn_sep_cons, List.filter_cons_of_neg (by simp)]
      exact Nat.le_succ_of_le ih
    · obtain ⟨w, ws, hw, hcons⟩ := exists_splitOn_cons hc text
      rw [tokens, hw] at ih
      rw [tokens, hcons, List.filter_cons_of_pos (by simp)]
      have hsub : (ws.filter (· ≠ [])).length ≤ ((w :: ws).filter (· ≠ [])).length :=
        ((List.sublist_cons_self w ws).filter _).length_le
      exact Nat.succ_le_succ (hsub.trans ih)

/-- A text up to its first separator, and the text after it. -/
theorem splitOn_eq (text : List α) : text.splitOn sep =
    text.takeWhile (· ≠ sep) :: match text.dropWhile (· ≠ sep) with
      | [] => []
      | _ :: rest => rest.splitOn sep := by
  induction text with
  | nil => rfl
  | cons c text ih =>
    by_cases hc : c = sep
    · rw [hc, splitOn_sep_cons]
      simp
    · obtain ⟨w, ws, hw, hcons⟩ := exists_splitOn_cons hc text
      rw [hw, List.cons_eq_cons] at ih
      rw [hcons, List.takeWhile_cons_of_pos (by simpa using hc),
        List.dropWhile_cons_of_pos (by simpa using hc), ← ih.1, ← ih.2]

/-- The words of a text are its next token, and those of the text after it. -/
theorem tokens_eq (text : List α) : tokens sep text = match next sep text with
    | none => []
    | some (w, rest) => w :: tokens sep rest := by
  induction text with
  | nil => rfl
  | cons c text ih =>
    by_cases hc : c = sep
    · rw [hc, next_sep_cons, ← ih, tokens, splitOn_sep_cons, List.filter_cons_of_neg (by simp),
        tokens]
    · have hskip : (c :: text).dropWhile (· = sep) = c :: text :=
        List.dropWhile_cons_of_neg (by simpa using hc)
      rw [tokens, splitOn_eq, next, hskip, List.filter_cons_of_pos (by simp [hc])]
      dsimp only
      cases (c :: text).dropWhile (· ≠ sep) with
      | nil => rfl
      | cons d rest => rfl

/-- The tokens of a text of words are the words. -/
theorem tokens_join {ws : List (List α)} (hws : ∀ w ∈ ws, IsWord sep w) :
    tokens sep (join sep ws) = ws := by
  induction ws with
  | nil => rfl
  | cons w ws ih =>
    rw [List.forall_mem_cons] at hws
    rw [tokens_eq, next_join_cons hws.1]
    dsimp only
    rw [tokens_eq, next_tail_join, ← tokens_eq, ih hws.2]

end Tokens
