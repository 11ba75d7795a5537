import Psmq.Lib.CInt
import Mathlib.Data.List.TakeWhile

/-!
# Numerals

Integers written in decimal, as `strtol` reads them: spaces, a sign or none,
then digits (`Numeral`). A number too large for the type it is read to is
brought back to the closest value of the type (`IntType.clamp`).

* `scan_eq_some_iff`: a whole text is read as a number exactly when it is a
  numeral;
* `strtol_eq_iff`: so it is by `strtol`, but for the empty text, that it reads
  to its end too.
-/

namespace CInt.IntType

/-- The value of the type closest to a number. -/
def clamp (T : IntType) (n : ℤ) : ℤ := Max.max T.min (Min.min n T.max)

end CInt.IntType

namespace Numerals

open CInt

/-- `isspace`, in the C locale. -/
def isSpace (c : UInt8) : Bool := c == 32 || (9 ≤ c && c ≤ 13)

/-- `isdigit`. -/
def isDigit (c : UInt8) : Bool := 48 ≤ c && c ≤ 57

/-- The number written by some digits, the most significant one first. -/
def value (ds : List UInt8) : ℕ := ds.foldl (fun n d => 10 * n + (d.toNat - 48)) 0

/-- Some digits. -/
def IsDigits (ds : List UInt8) : Prop := ds ≠ [] ∧ ∀ d ∈ ds, isDigit d = true

/-- A text writing a number. -/
inductive Numeral : List UInt8 → ℤ → Prop
  | digits {ds : List UInt8} : IsDigits ds → Numeral ds (value ds)
  | plus {ds : List UInt8} : IsDigits ds → Numeral (43 :: ds) (value ds)
  | minus {ds : List UInt8} : IsDigits ds → Numeral (45 :: ds) (-(value ds : ℤ))
  | space {c : UInt8} {text : List UInt8} {n : ℤ} : isSpace c = true → Numeral text n →
      Numeral (c :: text) n

/-! ## Reading a number -/

/-- The sign before some digits: it is a minus, and what is after it. -/
def readSign : List UInt8 → Bool × List UInt8
  | [] => (false, [])
  | c :: text =>
    if c = 45 then (true, text) else if c = 43 then (false, text) else (false, c :: text)

/-- The number at the start of a text, and the text after it. -/
def scan (text : List UInt8) : Option (ℤ × List UInt8) :=
  let (neg, text) := readSign (text.dropWhile isSpace)
  match text.takeWhile isDigit with
  | [] => none
  | ds => some (if neg then -(value ds : ℤ) else value ds, text.dropWhile isDigit)

/-- `strtol`, in base 10, to the type `T`: the value, and the text at `endptr`. -/
def strtol (T : IntType) (text : List UInt8) : ℤ × List UInt8 :=
  match scan text with
  | none => (0, text)
  | some (n, rest) => (T.clamp n, rest)

theorem scan_space {c : UInt8} (hc : isSpace c = true) (text : List UInt8) :
    scan (c :: text) = scan text := by
  rw [scan, List.dropWhile_cons_of_pos hc, scan]

theorem not_isSpace_of_isDigit {c : UInt8} (hc : isDigit c = true) : isSpace c = false := by
  simp only [isDigit, isSpace, Bool.and_eq_true, decide_eq_true_eq, UInt8.le_iff_toNat_le] at *
  rw [Bool.or_eq_false_iff, beq_eq_false_iff_ne, Bool.and_eq_false_iff]
  have h32 : (32 : UInt8).toNat = 32 := rfl
  have h48 : (48 : UInt8).toNat = 48 := rfl
  have h13 : (13 : UInt8).toNat = 13 := rfl
  refine ⟨fun h => ?_, .inr ?_⟩
  · rw [h] at hc
    omega
  · rw [decide_eq_false_iff_not]
    omega

theorem readSign_of_isDigit {c : UInt8} (hc : isDigit c = true) (text : List UInt8) :
    readSign (c :: text) = (false, c :: text) := by
  have h45 : c ≠ 45 := by
    rintro rfl
    exact absurd hc (by decide)
  have h43 : c ≠ 43 := by
    rintro rfl
    exact absurd hc (by decide)
  rw [readSign, if_neg h45, if_neg h43]

/-- Once its spaces and its sign are read, a numeral is made of digits. -/
theorem scan_eq_of_isDigits {text ds : List UInt8} {neg : Bool} (hds : IsDigits ds)
    (h : readSign (text.dropWhile isSpace) = (neg, ds)) :
    scan text = some (if neg then -(value ds : ℤ) else value ds, []) := by
  have htake : ds.takeWhile isDigit = ds := List.takeWhile_eq_self_iff.2 hds.2
  have hdrop : ds.dropWhile isDigit = [] := List.dropWhile_eq_nil_iff.2 hds.2
  simp only [scan, h, htake, hdrop]
  split
  · exact absurd rfl hds.1
  · rfl

/-- A numeral is read to its end. -/
theorem Numeral.scan_eq {text : List UInt8} {n : ℤ} (h : Numeral text n) :
    scan text = some (n, []) := by
  induction h with
  | @digits ds hds =>
    obtain ⟨d, l, rfl⟩ := List.exists_cons_of_ne_nil hds.1
    have hd : isDigit d = true := hds.2 d List.mem_cons_self
    have hspace : ¬isSpace d = true := by simp [not_isSpace_of_isDigit hd]
    refine @scan_eq_of_isDigits (d :: l) (d :: l) false hds ?_
    rw [List.dropWhile_cons_of_neg hspace, readSign_of_isDigit hd]
  | plus hds => exact @scan_eq_of_isDigits (43 :: _) _ false hds rfl
  | minus hds => exact @scan_eq_of_isDigits (45 :: _) _ true hds rfl
  | space hc _ ih => rw [scan_space hc, ih]

/-- A text that does not start with a space, and is read to its end, is a sign
    or none, and digits. -/
theorem numeral_of_scan_eq {text : List UInt8} {n : ℤ}
    (hspace : text.dropWhile isSpace = text) (h : scan text = some (n, [])) : Numeral text n := by
  rw [scan, hspace] at h
  obtain ⟨⟨neg, ds⟩, hsign⟩ : ∃ x, readSign text = x := ⟨_, rfl⟩
  rw [hsign] at h
  simp only at h
  split at h
  · exact absurd h (by simp)
  · next hne =>
    obtain ⟨rfl, hrest⟩ := Prod.mk.inj (Option.some.inj h)
    have hall : ∀ d ∈ ds, isDigit d = true := List.dropWhile_eq_nil_iff.1 hrest
    rw [List.takeWhile_eq_self_iff.2 hall] at hne ⊢
    have hds : IsDigits ds := ⟨hne, hall⟩
    cases text with
    | nil =>
      obtain ⟨-, rfl⟩ := Prod.mk.inj hsign
      exact absurd rfl hne
    | cons c text =>
      rw [readSign] at hsign
      split_ifs at hsign with h45 h43
      · obtain ⟨rfl, rfl⟩ := Prod.mk.inj hsign
        exact h45 ▸ .minus hds
      · obtain ⟨rfl, rfl⟩ := Prod.mk.inj hsign
        exact h43 ▸ .plus hds
      · obtain ⟨rfl, rfl⟩ := Prod.mk.inj hsign
        exact .digits hds

/-- The texts read to their end are the numerals. -/
theorem scan_eq_some_iff {text : List UInt8} {n : ℤ} :
    scan text = some (n, []) ↔ Numeral text n := by
  refine ⟨fun h => ?_, Numeral.scan_eq⟩
  induction text with
  | nil => exact absurd h (by simp [scan, readSign])
  | cons c text ih =>
    by_cases hc : isSpace c = true
    · exact .space hc (ih (scan_space hc text ▸ h))
    · exact numeral_of_scan_eq (List.dropWhile_cons_of_neg hc) h

/-- `strtol` reads to its end a numeral, or the empty text. -/
theorem strtol_eq_iff {T : IntType} {text : List UInt8} {x : ℤ} :
    strtol T text = (x, []) ↔ text = [] ∧ x = 0 ∨ ∃ n, Numeral text n ∧ x = T.clamp n := by
  rw [strtol]
  cases hs : scan text with
  | none =>
    have hno : ∀ n, ¬Numeral text n := fun n hn => by simp [hn.scan_eq] at hs
    simp [hno, and_comm, eq_comm]
  | some y =>
    obtain ⟨n, rest⟩ := y
    have hne : text ≠ [] := by
      rintro rfl
      simp [scan, readSign] at hs
    simp only [Prod.mk.injEq, hne, false_and, false_or]
    constructor
    · rintro ⟨rfl, rfl⟩
      exact ⟨n, scan_eq_some_iff.1 hs, rfl⟩
    · rintro ⟨m, hm, rfl⟩
      obtain ⟨rfl, rfl⟩ := Prod.mk.inj (Option.some.inj (hs.symm.trans hm.scan_eq))
      exact ⟨rfl, rfl⟩

end Numerals
