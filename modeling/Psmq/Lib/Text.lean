import Mathlib.Data.List.Basic
import Mathlib.Data.List.Forall2

/-!
# Lines of a text

A text is a list, cut into lines by the newlines `nl` in it. A newline ends
the line before it: the last line has none if the text does not end with one.

* `rawLines`: the lines with the newlines that end them, and `lines`: without;
* `readLine`: a line read from a text, up to a number of characters;
* `lines_induction`: a text is empty, or a line without newline, or a line and
  its newline before another text. The functions above have a rule for each.
-/

namespace Text

variable {α : Type*} [DecidableEq α] (nl : α)

/-- The lines of a text, each with the newline that ends it: the last one may have none. -/
def rawLines : List α → List (List α)
  | [] => []
  | c :: t =>
    if c = nl then [c] :: rawLines t
    else match rawLines t with
      | [] => [[c]]
      | l :: ls => (c :: l) :: ls

/-- A line without the newline that ends it. -/
def chomp (l : List α) : List α := if l.getLast? = some nl then l.dropLast else l

/-- The lines of a text, without their newlines. -/
def lines (t : List α) : List (List α) := (rawLines nl t).map (chomp nl)

/-- The characters read from a text, up to `n` of them, and up to a newline; and
    the text left. -/
def readLine : ℕ → List α → List α × List α
  | 0, t => ([], t)
  | _ + 1, [] => ([], [])
  | n + 1, c :: t =>
    if c = nl then ([c], t) else (c :: (readLine n t).1, (readLine n t).2)

/-- What holds of the empty text, of a line without newline, and of a line and
    its newline before a text of which it holds, holds of every text. -/
theorem lines_induction {motive : List α → Prop} (nil : motive [])
    (last : ∀ l, nl ∉ l → l ≠ [] → motive l)
    (cons : ∀ l t, nl ∉ l → motive t → motive (l ++ nl :: t)) (t : List α) : motive t := by
  by_cases h : nl ∈ t
  · obtain ⟨l, t', ht, hl⟩ := List.eq_append_cons_of_mem h
    exact ht ▸ cons l t' hl (lines_induction nil last cons t')
  · by_cases hne : t = []
    · exact hne ▸ nil
    · exact last t h hne
termination_by t.length
decreasing_by
  rw [ht, List.length_append, List.length_cons]
  omega

variable {nl}

@[simp] theorem rawLines_nil : rawLines nl [] = [] := rfl

theorem rawLines_append_cons {l t : List α} (hl : nl ∉ l) :
    rawLines nl (l ++ nl :: t) = (l ++ [nl]) :: rawLines nl t := by
  induction l with
  | nil => simp [rawLines]
  | cons c l ih =>
    rw [List.mem_cons, not_or] at hl
    rw [List.cons_append, rawLines, if_neg (Ne.symm hl.1), ih hl.2]
    rfl

theorem rawLines_of_notMem {l : List α} (hl : nl ∉ l) (hne : l ≠ []) : rawLines nl l = [l] := by
  induction l with
  | nil => exact absurd rfl hne
  | cons c l ih =>
    rw [List.mem_cons, not_or] at hl
    rw [rawLines, if_neg (Ne.symm hl.1)]
    by_cases h : l = []
    · rw [h, rawLines]
    · rw [ih hl.2 h]

@[simp] theorem chomp_append (l : List α) : chomp nl (l ++ [nl]) = l := by
  simp [chomp]

theorem chomp_of_notMem {l : List α} (hl : nl ∉ l) : chomp nl l = l :=
  if_neg fun h => hl (List.mem_of_getLast? h)

@[simp] theorem lines_nil : lines nl [] = [] := rfl

theorem lines_append_cons {l t : List α} (hl : nl ∉ l) :
    lines nl (l ++ nl :: t) = l :: lines nl t := by
  rw [lines, rawLines_append_cons hl, List.map_cons, chomp_append]
  rfl

theorem lines_of_notMem {l : List α} (hl : nl ∉ l) (hne : l ≠ []) : lines nl l = [l] := by
  rw [lines, rawLines_of_notMem hl hne, List.map_singleton, chomp_of_notMem hl]

/-- A line is read to its newline, if there is room for both. -/
theorem readLine_append_cons {l t : List α} {n : ℕ} (hl : nl ∉ l) (hn : l.length < n) :
    readLine nl n (l ++ nl :: t) = (l ++ [nl], t) := by
  induction l generalizing n with
  | nil =>
    obtain ⟨n, rfl⟩ := Nat.exists_eq_add_one_of_ne_zero (Nat.ne_of_gt hn)
    simp [readLine]
  | cons c l ih =>
    rw [List.mem_cons, not_or] at hl
    obtain ⟨n, rfl⟩ := Nat.exists_eq_add_one_of_ne_zero (Nat.ne_of_gt (Nat.zero_lt_of_lt hn))
    rw [List.cons_append, readLine, if_neg (Ne.symm hl.1), ih hl.2 (Nat.lt_of_succ_lt_succ hn)]
    rfl

/-- A line that is too long is cut. -/
theorem readLine_append {l t : List α} {n : ℕ} (hl : nl ∉ l) (hn : n ≤ l.length) :
    readLine nl n (l ++ t) = (l.take n, l.drop n ++ t) := by
  induction l generalizing n with
  | nil =>
    obtain rfl := Nat.le_zero.1 hn
    rfl
  | cons c l ih =>
    cases n with
    | zero => rfl
    | succ n =>
      rw [List.mem_cons, not_or] at hl
      rw [List.cons_append, readLine, if_neg (Ne.symm hl.1), ih hl.2 (Nat.le_of_succ_le_succ hn)]
      rfl

/-- A line without newline is read to the end of the text. -/
theorem readLine_of_notMem {l : List α} {n : ℕ} (hl : nl ∉ l) (hn : l.length ≤ n) :
    readLine nl n l = (l, []) := by
  induction l generalizing n with
  | nil => cases n <;> rfl
  | cons c l ih =>
    rw [List.mem_cons, not_or] at hl
    obtain ⟨n, rfl⟩ := Nat.exists_eq_add_one_of_ne_zero (Nat.ne_of_gt (Nat.zero_lt_of_lt hn))
    rw [readLine, if_neg (Ne.symm hl.1), ih hl.2 (Nat.le_of_succ_le_succ hn)]

/-- The lines before the first that is too long all have their newlines, unless
    the last line of the text is among them and has none. -/
theorem takeWhile_ended_iff (n : ℕ) (t : List α) :
    (∀ l ∈ (rawLines nl t).takeWhile fun l => (chomp nl l).length ≤ n, l.getLast? = some nl) ↔
      (∃ l ∈ lines nl t, n < l.length) ∨ t = [] ∨ t.getLast? = some nl := by
  induction t using lines_induction nl with
  | nil => simp
  | last l hl hne =>
    have hlast : l.getLast? ≠ some nl := fun h => hl (List.mem_of_getLast? h)
    rw [rawLines_of_notMem hl hne, lines_of_notMem hl hne, List.takeWhile_cons, chomp_of_notMem hl]
    by_cases hn : l.length ≤ n
    · simp [hn, hne, hlast]
    · simp [hn, Nat.not_le.1 hn]
  | cons l t hl ih =>
    have hlast : (l ++ nl :: t).getLast? = some nl ↔ t = [] ∨ t.getLast? = some nl := by
      rw [List.getLast?_append_cons]
      cases t with
      | nil => simp
      | cons c t => rw [List.getLast?_cons_cons, or_iff_right (List.cons_ne_nil c t)]
    rw [rawLines_append_cons hl, lines_append_cons hl, List.takeWhile_cons, chomp_append, hlast]
    by_cases hn : l.length ≤ n
    · simp [hn, Nat.not_lt.2 hn, ih]
    · simp [hn, Nat.not_le.1 hn]

end Text
