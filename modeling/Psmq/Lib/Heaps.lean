import Psmq.Lib.LinkedList

/-!
# Several lists on one heap

A heap with more nodes beside its own (`Heap.beside`), none at the address of
one of its own (`Heap.Apart`). What is done on a heap is done in the same way
with the nodes beside it, and leaves them alone: reading, changing and freeing
a node (`Heap.load_beside`, `Heap.setNext_beside`, `Heap.free_beside`).

A heap may be made of several lists, that share no node (`Family`). One of them
can be taken out of the heap, changed by whatever changes a heap that is this
list only, and put back: the others are as they were (`Family.takeOut`).
-/

namespace LinkedList

variable {α ι : Type*} {h h' : Heap α} {rest : Addr → Option (Node α)} {p q : Option Addr}
  {a : Addr} {n : Node α}

theorem bind_eq_ok_iff {β γ : Type*} {x : Except Fault β} {f : β → Except Fault γ} {c : γ} :
    x.bind f = .ok c ↔ ∃ b, x = .ok b ∧ f b = .ok c := by
  cases x <;> simp [Except.bind]

/-! ## Nodes beside a heap -/

namespace Heap

/-- The heap with the nodes `rest` beside its own. -/
def beside (h : Heap α) (rest : Addr → Option (Node α)) : Heap α :=
  { h with cells := fun a => (h.cells a).or (rest a) }

/-- No address is one of the heap and of `rest`. -/
def Apart (h : Heap α) (rest : Addr → Option (Node α)) : Prop :=
  ∀ a, h.cells a = none ∨ rest a = none

@[simp] theorem beside_freed : (h.beside rest).freed = h.freed := rfl

theorem beside_cells (hn : h.cells a = some n) : (h.beside rest).cells a = some n := by
  simp [beside, hn]

theorem beside_cells_eq_none_iff :
    (h.beside rest).cells a = none ↔ h.cells a = none ∧ rest a = none := by
  simp [beside]

theorem load_eq_ok_iff : h.load p = .ok n ↔ ∃ a, p = some a ∧ h.cells a = some n := by
  rw [load]
  cases p with
  | none => simp
  | some a => cases hn : h.cells a <;> simp [hn]

theorem setNext_eq_ok_iff : h.setNext p q = .ok h' ↔
    ∃ a n, p = some a ∧ h.cells a = some n ∧ h' = h.alloc a { n with next := q } := by
  cases p with
  | none => simp [setNext]
  | some a => cases hn : h.cells a <;> simp [setNext, hn, eq_comm]

theorem free_eq_ok_iff : h.free p = .ok h' ↔ (p = none ∧ h' = h) ∨
    ∃ a n, p = some a ∧ h.cells a = some n ∧
      h' = ⟨Function.update h.cells a none, h.freed ++ [a]⟩ := by
  cases p with
  | none => simp [free, eq_comm]
  | some a => cases hn : h.cells a <;> simp [free, hn, eq_comm]

theorem load_beside (hl : h.load p = .ok n) : (h.beside rest).load p = .ok n := by
  obtain ⟨a, rfl, hn⟩ := load_eq_ok_iff.1 hl
  exact load_eq (beside_cells hn)

theorem alloc_beside : (h.alloc a n).beside rest = (h.beside rest).alloc a n := by
  refine Heap.ext (funext fun b => ?_) rfl
  by_cases hb : b = a
  · subst hb
    simp [beside]
  · simp only [beside, alloc_cells_of_ne hb]

theorem setNext_beside (hs : h.setNext p q = .ok h') :
    (h.beside rest).setNext p q = .ok (h'.beside rest) := by
  obtain ⟨a, n, rfl, hn, rfl⟩ := setNext_eq_ok_iff.1 hs
  rw [setNext_eq (beside_cells hn), alloc_beside]

theorem free_beside (hap : h.Apart rest) (hf : h.free p = .ok h') :
    (h.beside rest).free p = .ok (h'.beside rest) := by
  rcases free_eq_ok_iff.1 hf with ⟨rfl, rfl⟩ | ⟨a, n, rfl, hn, rfl⟩
  · rfl
  · rw [free_eq (beside_cells hn)]
    refine congrArg Except.ok (Heap.ext (funext fun b => ?_) rfl)
    by_cases hb : b = a
    · subst hb
      -- The node freed is not one of those beside.
      simpa [beside, hn, eq_comm] using hap b
    · simp [beside, Function.update_of_ne hb]

/-! ### What keeps them apart -/

theorem Apart.alloc (hap : h.Apart rest) (ha : rest a = none) : (h.alloc a n).Apart rest := by
  intro b
  by_cases hb : b = a
  · exact .inr (hb ▸ ha)
  · rw [alloc_cells_of_ne hb]
    exact hap b

theorem Apart.setNext (hap : h.Apart rest) (hs : h.setNext p q = .ok h') : h'.Apart rest := by
  obtain ⟨a, n, rfl, hn, rfl⟩ := setNext_eq_ok_iff.1 hs
  exact hap.alloc ((hap a).resolve_left (by simp [hn]))

theorem Apart.free (hap : h.Apart rest) (hf : h.free p = .ok h') : h'.Apart rest := by
  rcases free_eq_ok_iff.1 hf with ⟨rfl, rfl⟩ | ⟨a, n, rfl, hn, rfl⟩
  · exact hap
  · intro b
    by_cases hb : b = a
    · exact .inl (by simp [hb])
    · exact (hap b).imp_left fun hc => by simpa [Function.update_of_ne hb] using hc

theorem setNext_freed (hs : h.setNext p q = .ok h') : h'.freed = h.freed := by
  obtain ⟨a, n, rfl, hn, rfl⟩ := setNext_eq_ok_iff.1 hs
  rfl

theorem length_freed_of_free (hf : h.free p = .ok h') (hp : p ≠ none) :
    h'.freed.length = h.freed.length + 1 := by
  rcases free_eq_ok_iff.1 hf with ⟨hnone, -⟩ | ⟨a, n, -, -, rfl⟩
  · exact absurd hnone hp
  · exact List.length_append

end Heap

/-! ## Families of lists -/

/-- The heap is made of the lists of the nodes `L i`, from `p i` on, that share no node. -/
structure Family (h : Heap α) (p : ι → Option Addr) (L : ι → List (Addr × α)) : Prop where
  seg : ∀ i, Seg h (p i) (L i) none
  nodup : ∀ i, (addrs (L i)).Nodup
  disjoint : ∀ i j, i ≠ j → ∀ a ∈ addrs (L i), a ∉ addrs (L j)
  mem_iff : ∀ a, (h.cells a).isSome ↔ ∃ i, a ∈ addrs (L i)

theorem family_empty : Family (.empty : Heap α) (fun _ : ι => none) fun _ => [] :=
  ⟨fun _ => rfl, fun _ => .nil, fun _ _ _ _ ha => absurd ha List.not_mem_nil,
    fun a => by simp [Heap.empty]⟩

namespace Family

variable {p : ι → Option Addr} {L : ι → List (Addr × α)}

/-- A list starts at a node, unless it is empty. -/
theorem eq_none_iff (hf : Family h p L) (i : ι) : p i = none ↔ L i = [] := by
  have hs := hf.seg i
  cases hL : L i with
  | nil =>
    rw [hL] at hs
    exact iff_of_true hs rfl
  | cons x l =>
    rw [hL] at hs
    exact iff_of_false (by simp [hs.1]) (List.cons_ne_nil _ _)

/-- The nodes of the list `i`, apart from the others. -/
theorem cut (hf : Family h p L) (i : ι) : ∃ h₁ rest, h = h₁.beside rest ∧ h₁.Apart rest ∧
    Lists h₁ (p i) (L i) ∧ ∀ a, rest a = if a ∈ addrs (L i) then none else h.cells a := by
  refine ⟨⟨fun a => if a ∈ addrs (L i) then h.cells a else none, h.freed⟩,
    fun a => if a ∈ addrs (L i) then none else h.cells a, Heap.ext (funext fun a => ?_) rfl,
    fun a => ?_, ⟨(hf.seg i).congr fun a ha => if_pos ha, hf.nodup i, fun a => ?_⟩, fun a => rfl⟩
  · by_cases ha : a ∈ addrs (L i) <;> simp [Heap.beside, ha]
  · by_cases ha : a ∈ addrs (L i)
    · exact .inr (if_pos ha)
    · exact .inl (if_neg ha)
  · by_cases ha : a ∈ addrs (L i)
    · simpa [ha] using (hf.mem_iff a).2 ⟨i, ha⟩
    · simp [ha]

/-- A list is put beside the nodes of the other ones. -/
theorem putBack [DecidableEq ι] (hf : Family h p L) {i : ι} {h₂ : Heap α} {p' : Option Addr}
    {L' : List (Addr × α)} (hrest : ∀ a, rest a = if a ∈ addrs (L i) then none else h.cells a)
    (hl : Lists h₂ p' L') (hap : h₂.Apart rest) :
    Family (h₂.beside rest) (Function.update p i p') (Function.update L i L') := by
  -- The nodes of the other lists are those of `rest`.
  have hother : ∀ j, j ≠ i → ∀ a ∈ addrs (L j), rest a = h.cells a := fun j hj a ha => by
    rw [hrest, if_neg (hf.disjoint j i hj a ha)]
  have hnew : ∀ j, j ≠ i → ∀ a ∈ addrs (L j), h₂.cells a = none := fun j hj a ha => by
    refine (hap a).resolve_right ?_
    rw [hother j hj a ha, ← Ne, Option.ne_none_iff_isSome]
    exact (hf.mem_iff a).2 ⟨j, ha⟩
  have hnotMem : ∀ j, j ≠ i → ∀ a ∈ addrs (L j), a ∉ addrs L' := fun j hj a ha hmem => by
    simpa [hnew j hj a ha] using (hl.mem_iff a).2 hmem
  refine ⟨fun j => ?_, fun j => ?_, fun j k hjk a ha => ?_, fun a => ?_⟩
  · by_cases hj : j = i
    · subst hj
      simp only [Function.update_self]
      refine hl.seg.congr fun a ha => ?_
      obtain ⟨n, hn⟩ := Option.isSome_iff_exists.1 ((hl.mem_iff a).2 ha)
      rw [hn, Heap.beside_cells hn]
    · simp only [Function.update_of_ne hj]
      refine (hf.seg j).congr fun a ha => ?_
      simp [Heap.beside, hnew j hj a ha, hother j hj a ha]
  · by_cases hj : j = i
    · subst hj
      simpa using hl.nodup
    · simpa [Function.update_of_ne hj] using hf.nodup j
  · by_cases hj : j = i
    · subst hj
      rw [Function.update_self] at ha
      rw [Function.update_of_ne (Ne.symm hjk)]
      exact fun hmem => hnotMem k (Ne.symm hjk) a hmem ha
    · rw [Function.update_of_ne hj] at ha
      by_cases hk : k = i
      · subst hk
        rw [Function.update_self]
        exact hnotMem j hj a ha
      · rw [Function.update_of_ne hk]
        exact hf.disjoint j k hjk a ha
  · rw [← not_iff_not, Option.not_isSome_iff_eq_none, Heap.beside_cells_eq_none_iff]
    constructor
    · rintro ⟨ha₂, har⟩ ⟨j, hj⟩
      by_cases hji : j = i
      · subst hji
        rw [Function.update_self] at hj
        simpa [ha₂] using (hl.mem_iff a).2 hj
      · rw [Function.update_of_ne hji] at hj
        rw [hother j hji a hj] at har
        simpa [har] using (hf.mem_iff a).2 ⟨j, hj⟩
    · intro hno
      refine ⟨?_, ?_⟩
      · rw [← Option.not_isSome_iff_eq_none, hl.mem_iff]
        exact fun hmem => hno ⟨i, by simpa using hmem⟩
      · rw [hrest]
        split_ifs with ha
        · rfl
        · rw [← Option.not_isSome_iff_eq_none, hf.mem_iff]
          rintro ⟨j, hj⟩
          have hji : j ≠ i := by
            rintro rfl
            exact ha hj
          exact hno ⟨j, by simpa [Function.update_of_ne hji] using hj⟩

/-- A list is taken out of the heap, and whatever list it has become is put back. -/
theorem takeOut [DecidableEq ι] (hf : Family h p L) (i : ι) :
    ∃ h₁ rest, h = h₁.beside rest ∧ h₁.Apart rest ∧ Lists h₁ (p i) (L i) ∧
      ∀ {h₂ : Heap α} {p' : Option Addr} {L' : List (Addr × α)}, Lists h₂ p' L' → h₂.Apart rest →
        Family (h₂.beside rest) (Function.update p i p') (Function.update L i L') := by
  obtain ⟨h₁, rest, heq, hap, hl, hrest⟩ := hf.cut i
  exact ⟨h₁, rest, heq, hap, hl, fun hl' hap' => hf.putBack hrest hl' hap'⟩

end Family

end LinkedList
