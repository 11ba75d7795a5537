import Psmq.Lib.Prog
import Mathlib.Data.List.Nodup
import Mathlib.Logic.Function.Basic

/-!
# Linked lists on the heap

Nodes on a heap, each with a value and the address of the next one (`Heap`).
Reading, changing or freeing a node that is not allocated is an access out of
range.

A chain of nodes is described by their addresses and values, in order (`Seg`).
The heap *is* the list of a chain (`Lists`) if the chain ends, goes through no
node twice, and goes through all the nodes there are: nothing is lost, shared
or dangling. Inserting and removing a node keep this (`Lists.insertAfter`,
`Lists.unlink`, `Lists.pop`).
-/

namespace LinkedList

universe u

@[simp] theorem ok_bind {α β : Type u} (a : α) (f : α → Except Fault β) :
    (Except.ok a >>= f) = f a := rfl

@[simp] theorem error_bind {α β : Type u} (e : Fault) (f : α → Except Fault β) :
    (Except.error e >>= f) = .error e := rfl

abbrev Addr := ℕ

/-- A node. -/
structure Node (α : Type*) where
  val : α
  next : Option Addr

/-- A heap of nodes. -/
@[ext] structure Heap (α : Type*) where
  /-- The nodes allocated and not freed. -/
  cells : Addr → Option (Node α)
  /-- The addresses freed, in order. -/
  freed : List Addr

namespace Heap

variable {α : Type*}

/-- No node has been allocated yet. -/
def empty : Heap α := ⟨fun _ => none, []⟩

/-- A new node at the address `a`. -/
def alloc (h : Heap α) (a : Addr) (n : Node α) : Heap α :=
  { h with cells := Function.update h.cells a (some n) }

/-- Reading the node at a pointer. -/
def load (h : Heap α) (p : Option Addr) : Except Fault (Node α) :=
  match p.bind h.cells with
  | none => .error .bounds
  | some n => .ok n

/-- Setting the next node of the one at a pointer. -/
def setNext (h : Heap α) (p next : Option Addr) : Except Fault (Heap α) :=
  match p with
  | none => .error .bounds
  | some a =>
    match h.cells a with
    | none => .error .bounds
    | some n => .ok (h.alloc a { n with next := next })

/-- Freeing the node at a pointer. -/
def free (h : Heap α) (p : Option Addr) : Except Fault (Heap α) :=
  match p with
  | none => .ok h
  | some a =>
    match h.cells a with
    | none => .error .bounds
    | some _ => .ok ⟨Function.update h.cells a none, h.freed ++ [a]⟩

variable {h : Heap α} {a b : Addr} {n : Node α}

@[simp] theorem alloc_cells_self : (h.alloc a n).cells a = some n := Function.update_self ..

theorem alloc_cells_of_ne (hb : b ≠ a) : (h.alloc a n).cells b = h.cells b :=
  Function.update_of_ne hb ..

@[simp] theorem alloc_alloc_self {m : Node α} : (h.alloc a m).alloc a n = h.alloc a n := by
  simp [alloc]

theorem load_eq (hn : h.cells a = some n) : h.load (some a) = .ok n := by
  simp [load, hn]

theorem setNext_eq (hn : h.cells a = some n) (next : Option Addr) :
    h.setNext (some a) next = .ok (h.alloc a { n with next := next }) := by
  simp [setNext, hn]

theorem free_eq (hn : h.cells a = some n) :
    h.free (some a) = .ok ⟨Function.update h.cells a none, h.freed ++ [a]⟩ := by
  simp [free, hn]

end Heap

/-! ## Chains -/

variable {α : Type*} {h h' : Heap α} {p q : Option Addr} {L L₁ L₂ : List (Addr × α)}
  {a b : Addr} {v w : α}

/-- The nodes from `p` up to `q` have the addresses and values `L`. -/
def Seg (h : Heap α) : Option Addr → List (Addr × α) → Option Addr → Prop
  | p, [], q => p = q
  | p, (a, v) :: L, q => p = some a ∧ ∃ next, h.cells a = some ⟨v, next⟩ ∧ Seg h next L q

/-- The addresses of the nodes of a chain. -/
abbrev addrs (L : List (Addr × α)) : List Addr := L.map Prod.fst

/-- The values of the nodes of a chain. -/
abbrev vals (L : List (Addr × α)) : List α := L.map Prod.snd

theorem seg_append_iff : Seg h p (L₁ ++ L₂) q ↔ ∃ m, Seg h p L₁ m ∧ Seg h m L₂ q := by
  induction L₁ generalizing p with
  | nil => simp [Seg]
  | cons x L₁ ih =>
    simp only [List.cons_append, Seg, ih]
    constructor
    · rintro ⟨hp, next, hn, m, h₁, h₂⟩
      exact ⟨m, ⟨hp, next, hn, h₁⟩, h₂⟩
    · rintro ⟨m, ⟨hp, next, hn, h₁⟩, h₂⟩
      exact ⟨hp, next, hn, m, h₁, h₂⟩

/-- A chain only depends on its nodes. -/
theorem Seg.congr (hs : Seg h p L q) (hc : ∀ a ∈ addrs L, h'.cells a = h.cells a) :
    Seg h' p L q := by
  induction L generalizing p with
  | nil => exact hs
  | cons x L ih =>
    obtain ⟨hp, next, hn, hs⟩ := hs
    simp only [addrs, List.map_cons, List.forall_mem_cons] at hc
    exact ⟨hp, next, hc.1.trans hn, ih hs hc.2⟩

/-- A node put after another one in a chain. -/
theorem addrs_perm : (addrs (L₁ ++ (b, w) :: (a, v) :: L₂)).Perm
    (a :: addrs (L₁ ++ (b, w) :: L₂)) := by
  have hperm := @List.perm_middle _ a (addrs L₁ ++ [b]) (addrs L₂)
  simpa using hperm

/-- The heap is the list of the nodes `L`, from `p` on. -/
structure Lists (h : Heap α) (p : Option Addr) (L : List (Addr × α)) : Prop where
  seg : Seg h p L none
  nodup : (addrs L).Nodup
  mem_iff : ∀ a, (h.cells a).isSome ↔ a ∈ addrs L

theorem lists_empty : Lists (.empty : Heap α) none [] :=
  ⟨rfl, .nil, fun a => by simp [Heap.empty]⟩

namespace Lists

/-- The list starts at a node, unless it is empty. -/
theorem eq_none_iff (hl : Lists h p L) : p = none ↔ L = [] := by
  cases L with
  | nil => exact iff_of_true hl.seg rfl
  | cons x L => exact iff_of_false (by simp [hl.seg.1]) (List.cons_ne_nil _ _)

/-- A node that is not the first one is at another address. -/
theorem head_ne (hl : Lists h p (L₁ ++ (a, v) :: L₂)) (hne : L₁ ≠ []) : p ≠ some a := by
  cases L₁ with
  | nil => exact absurd rfl hne
  | cons x L₁ =>
    obtain ⟨rfl, -⟩ := hl.seg
    intro hxa
    refine (List.nodup_cons.1 hl.nodup).1 ?_
    rw [Option.some.inj hxa]
    simp

/-- A first node. -/
theorem alloc_nil (hl : Lists h p []) (a : Addr) (v : α) :
    Lists (h.alloc a ⟨v, none⟩) (some a) [(a, v)] := by
  refine ⟨⟨rfl, none, Heap.alloc_cells_self, rfl⟩, List.nodup_singleton a, fun b => ?_⟩
  by_cases hb : b = a
  · simp [hb]
  · rw [Heap.alloc_cells_of_ne hb, hl.mem_iff]
    simp [hb]

/-- Where a node is in the list, and the chains before and after it. -/
theorem cut (hl : Lists h p (L₁ ++ (b, w) :: L₂)) :
    Seg h p L₁ (some b) ∧ (∃ next, h.cells b = some ⟨w, next⟩ ∧ Seg h next L₂ none) ∧
      b ∉ addrs L₁ ∧ b ∉ addrs L₂ := by
  obtain ⟨m, h₁, rfl, h₂⟩ := seg_append_iff.1 hl.seg
  have hnodup := hl.nodup
  rw [addrs, List.map_append, List.map_cons, List.nodup_middle, List.nodup_cons,
    List.mem_append, not_or] at hnodup
  exact ⟨h₁, h₂, hnodup.1⟩

/-- A new node is inserted after the node at `b`. -/
theorem insertAfter (hl : Lists h p (L₁ ++ (b, w) :: L₂)) (ha : h.cells a = none) (v : α) :
    ∃ next, h.cells b = some ⟨w, next⟩ ∧
      Lists ((h.alloc a ⟨v, next⟩).alloc b ⟨w, some a⟩) p (L₁ ++ (b, w) :: (a, v) :: L₂) := by
  obtain ⟨h₁, ⟨next, hb, h₂⟩, hb₁, hb₂⟩ := hl.cut
  have hnew : a ∉ addrs (L₁ ++ (b, w) :: L₂) := by
    rw [← hl.mem_iff, ha]
    simp
  have hab : a ≠ b := by
    rintro rfl
    simp [hb] at ha
  have hcells : ∀ x, x ≠ a → x ≠ b →
      ((h.alloc a ⟨v, next⟩).alloc b ⟨w, some a⟩).cells x = h.cells x := fun x hxa hxb => by
    rw [Heap.alloc_cells_of_ne hxb, Heap.alloc_cells_of_ne hxa]
  refine ⟨next, hb, seg_append_iff.2 ⟨some b, h₁.congr fun x hx => ?_, rfl, some a,
    Heap.alloc_cells_self, rfl, next, ?_, h₂.congr fun x hx => ?_⟩, ?_, fun x => ?_⟩
  · refine hcells x (fun hxa => hnew ?_) fun hxb => hb₁ (hxb ▸ hx)
    rw [← hxa, addrs, List.map_append]
    exact List.mem_append_left _ hx
  · rw [Heap.alloc_cells_of_ne hab, Heap.alloc_cells_self]
  · refine hcells x (fun hxa => hnew ?_) fun hxb => hb₂ (hxb ▸ hx)
    rw [← hxa, addrs, List.map_append]
    exact List.mem_append_right _ (List.mem_cons_of_mem _ hx)
  · exact addrs_perm.nodup_iff.2 (List.nodup_cons.2 ⟨hnew, hl.nodup⟩)
  · rw [addrs_perm.mem_iff, List.mem_cons, ← hl.mem_iff]
    by_cases hxb : x = b
    · simp [hxb, hb]
    · by_cases hxa : x = a
      · simp [hxa, Heap.alloc_cells_of_ne hab]
      · rw [hcells x hxa hxb]
        simp [hxa]

/-- The node after the one at `b` is removed. -/
theorem unlink (hl : Lists h p (L₁ ++ (b, w) :: (a, v) :: L₂)) :
    h.cells b = some ⟨w, some a⟩ ∧ ∃ next, h.cells a = some ⟨v, next⟩ ∧ a ≠ b ∧
      ∀ freed, Lists ⟨Function.update (h.alloc b ⟨w, next⟩).cells a none, freed⟩ p
        (L₁ ++ (b, w) :: L₂) := by
  obtain ⟨h₁, ⟨m, hb, rfl, next, ha, h₂⟩, hb₁, hb₂⟩ := hl.cut
  have hnodup := addrs_perm.nodup_iff.1 hl.nodup
  obtain ⟨hold, hnodup⟩ := List.nodup_cons.1 hnodup
  have hab : a ≠ b := by
    rintro rfl
    simp at hb₂
  have hcells : ∀ x, x ≠ a → x ≠ b →
      Function.update (h.alloc b ⟨w, next⟩).cells a none x = h.cells x := fun x hxa hxb => by
    rw [Function.update_of_ne hxa, Heap.alloc_cells_of_ne hxb]
  refine ⟨hb, next, ha, hab, fun freed => ⟨seg_append_iff.2 ⟨some b, h₁.congr fun x hx => ?_, rfl,
    next, ?_, h₂.congr fun x hx => ?_⟩, hnodup, fun x => ?_⟩⟩
  · refine hcells x (fun hxa => hold ?_) fun hxb => hb₁ (hxb ▸ hx)
    rw [← hxa, addrs, List.map_append]
    exact List.mem_append_left _ hx
  · simp only [Function.update_of_ne hab.symm, Heap.alloc_cells_self]
  · refine hcells x (fun hxa => hold ?_) fun hxb => hb₂ (hxb ▸ List.mem_cons_of_mem _ hx)
    rw [← hxa, addrs, List.map_append]
    exact List.mem_append_right _ (List.mem_cons_of_mem _ hx)
  · have hx := hl.mem_iff x
    rw [addrs_perm.mem_iff, List.mem_cons] at hx
    by_cases hxa : x = a
    · subst hxa
      exact iff_of_false (by simp) hold
    · by_cases hxb : x = b
      · subst hxb
        simp [Function.update_of_ne hxa]
      · simp only [hcells x hxa hxb, hx, hxa, false_or]

/-- The first node is removed. -/
theorem pop (hl : Lists h p ((a, v) :: L)) : p = some a ∧ ∃ next, h.cells a = some ⟨v, next⟩ ∧
    ∀ freed, Lists ⟨Function.update h.cells a none, freed⟩ next L := by
  obtain ⟨rfl, next, ha, hs⟩ := hl.seg
  obtain ⟨hnot, hnodup⟩ := List.nodup_cons.1 hl.nodup
  refine ⟨rfl, next, ha, fun freed => ⟨hs.congr fun x hx => ?_, hnodup, fun x => ?_⟩⟩
  · refine Function.update_of_ne ?_ ..
    rintro rfl
    exact hnot hx
  · by_cases hxa : x = a
    · subst hxa
      exact iff_of_false (by simp) hnot
    · simp only [Function.update_of_ne hxa, hl.mem_iff, addrs, List.map_cons, List.mem_cons]
      exact or_iff_right hxa

end Lists

end LinkedList
