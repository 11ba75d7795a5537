import Mathlib.Data.List.Basic
import Mathlib.Data.List.TakeDrop

/-!
# C strings and byte buffers

The memory a C program reads and writes byte by byte: buffers of a fixed size
(`Buf`), strings (`CString`, bytes other than NUL), and pointers into a buffer
(`Ptr`), given as the bytes from the pointer on, up to the end of the object
they point into. Every access is checked: reading or writing out of the range
of an object gives `none`.

* `strlen`, `str`: the string at a pointer — out of range if no NUL follows;
* `Buf.write`: `memcpy` into a buffer, and `strcpy` (`Buf.strcpy`);
* `loadU16`, `storeU16`: a 16-bit number in memory, in either byte order.
-/

namespace CMem

/-- A pointer to bytes: those from the pointer on, to the end of its object. -/
abbrev Ptr := List UInt8

/-- A C string, without its terminating NUL. -/
@[ext] structure CString where
  bytes : List UInt8
  zero_notMem : 0 ∉ bytes
  deriving DecidableEq

/-- The length of a string, as `strlen` gives it. -/
def CString.length (s : CString) : ℕ := s.bytes.length

/-- The string at a pointer: the bytes before the first NUL. -/
def str : Ptr → Option CString
  | [] => none
  | c :: p =>
    if hc : c = 0 then some ⟨[], List.not_mem_nil⟩
    else (str p).map fun s => ⟨c :: s.bytes, fun h => by
      rcases List.mem_cons.1 h with h | h
      exacts [hc h.symm, s.zero_notMem h]⟩

/-- `strlen` of a pointer. -/
def strlen (p : Ptr) : Option ℕ := (str p).map CString.length

theorem str_zero (p : Ptr) : str (0 :: p) = some ⟨[], List.not_mem_nil⟩ := by simp [str]

/-- A string is where its bytes are, followed by a NUL. -/
theorem str_eq_some_iff {p : Ptr} {s : CString} :
    str p = some s ↔ ∃ rest, p = s.bytes ++ 0 :: rest := by
  induction p generalizing s with
  | nil => simp [str]
  | cons c p ih =>
    by_cases hc : c = 0
    · subst hc
      rw [str_zero, Option.some.injEq]
      constructor
      · rintro rfl
        exact ⟨p, rfl⟩
      · rintro ⟨rest, h⟩
        obtain ⟨_ | ⟨d, l⟩, hs⟩ := s
        · rfl
        · simp only [List.cons_append, List.cons.injEq] at h
          exact absurd (h.1 ▸ List.mem_cons_self) hs
    · rw [str, dite_cond_eq_false (eq_false hc), Option.map_eq_some_iff]
      constructor
      · rintro ⟨s', hs', rfl⟩
        obtain ⟨rest, rfl⟩ := ih.1 hs'
        exact ⟨rest, rfl⟩
      · rintro ⟨rest, h⟩
        obtain ⟨_ | ⟨d, l⟩, hs⟩ := s
        · simp only [List.nil_append, List.cons.injEq] at h
          exact absurd h.1 hc
        · simp only [List.cons_append, List.cons.injEq] at h
          obtain ⟨rfl, rfl⟩ := h
          exact ⟨⟨l, fun h => hs (List.mem_cons_of_mem _ h)⟩, ih.2 ⟨rest, rfl⟩, rfl⟩

theorem str_append (s : CString) (rest : List UInt8) : str (s.bytes ++ 0 :: rest) = some s :=
  str_eq_some_iff.2 ⟨rest, rfl⟩

/-- The string and its NUL are within the object pointed into. -/
theorem length_lt_of_str {p : Ptr} {s : CString} (h : str p = some s) : s.length < p.length := by
  obtain ⟨rest, rfl⟩ := str_eq_some_iff.1 h
  simp only [CString.length, List.length_append, List.length_cons]
  omega

/-- A string does not go past a NUL. -/
theorem length_le_of_str {p q : Ptr} {s : CString} (h : str (p ++ 0 :: q) = some s) :
    s.length ≤ p.length := by
  obtain ⟨rest, hr⟩ := str_eq_some_iff.1 h
  refine Nat.not_lt.1 fun hlt => s.zero_notMem ?_
  have h0 : (s.bytes ++ 0 :: rest)[p.length]? = some 0 := by
    rw [← hr, List.getElem?_append_right (Nat.le_refl _), Nat.sub_self, List.getElem?_cons_zero]
  rw [List.getElem?_append_left hlt] at h0
  exact List.mem_of_getElem? h0

/-- There is a string at a pointer as soon as a NUL follows. -/
theorem isSome_str_iff {p : Ptr} : (str p).isSome ↔ 0 ∈ p := by
  induction p with
  | nil => simp [str]
  | cons c p ih =>
    by_cases hc : c = 0
    · subst hc
      simp [str]
    · rw [str, dite_cond_eq_false (eq_false hc), Option.isSome_map, ih, List.mem_cons]
      exact (or_iff_right fun h => hc h.symm).symm

/-- The length of the string at a pointer is the index of the first NUL. -/
theorem length_of_str {p : Ptr} {s : CString} (h : str p = some s) : s.length = p.idxOf 0 := by
  obtain ⟨rest, rfl⟩ := str_eq_some_iff.1 h
  rw [List.idxOf_append_of_notMem s.zero_notMem, List.idxOf_cons_self, Nat.add_zero]
  rfl

/-! ## Buffers -/

/-- A buffer of `n` bytes. -/
@[ext] structure Buf (n : ℕ) where
  bytes : List UInt8
  length_eq : bytes.length = n
  deriving DecidableEq

namespace Buf

variable {n : ℕ}

attribute [simp] length_eq

/-- The buffer cleared by `memset`. -/
def zero (n : ℕ) : Buf n := ⟨List.replicate n 0, List.length_replicate⟩

/-- `memcpy` to the offset `off` of a buffer. -/
def write (b : Buf n) (off : ℕ) (src : List UInt8) : Option (Buf n) :=
  if h : off + src.length ≤ n then
    some ⟨b.bytes.take off ++ src ++ b.bytes.drop (off + src.length), by
      simp only [List.length_append, List.length_take, List.length_drop, length_eq]
      omega⟩
  else none

/-- `strcpy` to the start of a buffer: the string and its NUL are copied. -/
def strcpy (b : Buf n) (s : CString) : Option (Buf n) := b.write 0 (s.bytes ++ [0])

theorem isSome_write_iff {b : Buf n} {off : ℕ} {src : List UInt8} :
    (b.write off src).isSome ↔ off + src.length ≤ n := by
  unfold write
  split <;> simp_all

theorem isSome_strcpy_iff {b : Buf n} {s : CString} : (b.strcpy s).isSome ↔ s.length + 1 ≤ n := by
  simp [strcpy, isSome_write_iff, CString.length]

theorem bytes_of_write {b b' : Buf n} {off : ℕ} {src : List UInt8} (h : b.write off src = some b') :
    off + src.length ≤ n ∧
      b'.bytes = b.bytes.take off ++ src ++ b.bytes.drop (off + src.length) := by
  unfold write at h
  split at h
  · obtain rfl := Option.some.inj h
    exact ⟨‹_›, rfl⟩
  · exact absurd h (by simp)

/-- Bytes are written where they fit. -/
theorem exists_write (b : Buf n) {off : ℕ} {src : List UInt8} (h : off + src.length ≤ n) :
    ∃ b', b.write off src = some b' ∧
      b'.bytes = b.bytes.take off ++ src ++ b.bytes.drop (off + src.length) := by
  obtain ⟨b', hb'⟩ := Option.isSome_iff_exists.1 (isSome_write_iff.2 h)
  exact ⟨b', hb', (bytes_of_write hb').2⟩

end Buf

/-! ## Numbers in memory -/

/-- The most significant byte of a 16-bit number. -/
def hiByte (v : UInt16) : UInt8 := UInt8.ofNat (v.toNat / 256)

/-- The least significant byte of a 16-bit number. -/
def loByte (v : UInt16) : UInt8 := UInt8.ofNat v.toNat

/-- The 16-bit number made of two bytes. -/
def joinBytes (hi lo : UInt8) : UInt16 := UInt16.ofNat (hi.toNat * 256 + lo.toNat)

theorem joinBytes_split (v : UInt16) : joinBytes (hiByte v) (loByte v) = v := by
  have hv : v.toNat < 65536 := v.toNat_lt
  apply UInt16.toNat_inj.1
  simp only [joinBytes, hiByte, loByte, UInt8.toNat_ofNat', UInt16.toNat_ofNat']
  omega

/-- A 16-bit number in memory: its most significant byte first, if `be`. -/
def storeU16 (be : Bool) (v : UInt16) : List UInt8 :=
  if be then [hiByte v, loByte v] else [loByte v, hiByte v]

/-- The 16-bit number at a pointer. -/
def loadU16 (be : Bool) : Ptr → Option UInt16
  | b₀ :: b₁ :: _ => some (if be then joinBytes b₀ b₁ else joinBytes b₁ b₀)
  | _ => none

@[simp] theorem length_storeU16 (be : Bool) (v : UInt16) : (storeU16 be v).length = 2 := by
  cases be <;> rfl

theorem loadU16_storeU16 (be : Bool) (v : UInt16) (p : Ptr) :
    loadU16 be (storeU16 be v ++ p) = some v := by
  cases be <;> simp [storeU16, loadU16, joinBytes_split]

end CMem
