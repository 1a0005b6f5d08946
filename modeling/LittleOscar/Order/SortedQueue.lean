import Mathlib.Data.List.Sort
import Mathlib.Data.Multiset.ZeroCons

/-!
# Queues of sorted keys

A priority queue whose elements are known by their keys only: the keys in ascending order, in a
block of cells that may be one that is doubled when it is full. Here everything is determined
by the calls, while a heap may arrange the same keys in many ways.
-/

structure SortedQueue (κ : Type*) [LinearOrder κ] where
  keys : List κ
  sorted : keys.Pairwise (· ≤ ·)
  cells : ℕ
  growable : Bool

namespace SortedQueue

variable {κ : Type*} [LinearOrder κ]

/-- The queue without keys. -/
def empty (cells : ℕ) (growable : Bool) : SortedQueue κ := ⟨[], List.Pairwise.nil, cells, growable⟩

/-- The key at its place, unless all cells are in use and the block may not grow. -/
def insert (k : κ) (q : SortedQueue κ) : Bool × SortedQueue κ :=
  if q.keys.length ≠ q.cells then
    (true, { q with
      keys := q.keys.orderedInsert (· ≤ ·) k
      sorted := q.sorted.orderedInsert k _ })
  else if q.growable then
    (true, { q with
      keys := q.keys.orderedInsert (· ≤ ·) k
      sorted := q.sorted.orderedInsert k _
      cells := q.cells * 2 })
  else (false, q)

/-- The least key, and the queue without it. -/
def extractMin (q : SortedQueue κ) : Option κ × SortedQueue κ :=
  (q.keys.head?, { q with keys := q.keys.tail, sorted := q.sorted.tail })

/-- Keys with a least one begin with it. -/
theorem keys_eq_cons (q : SortedQueue κ) {k : κ} {s : Multiset κ}
    (h : (q.keys : Multiset κ) = k ::ₘ s) (hle : ∀ l ∈ s, k ≤ l) :
    q.keys.head? = some k ∧ (q.keys.tail : Multiset κ) = s := by
  cases hkeys : q.keys with
  | nil =>
      rw [hkeys] at h
      exact absurd h.symm (Multiset.cons_ne_zero)
  | cons l ls =>
      have hsorted := q.sorted
      rw [hkeys] at h hsorted
      have hl : l ≤ k := by
        have hk : k ∈ l :: ls := Multiset.mem_coe.mp (h ▸ Multiset.mem_cons_self k s)
        rcases List.mem_cons.mp hk with rfl | hk
        · exact le_rfl
        · exact (List.pairwise_cons.mp hsorted).1 k hk
      have hk : k ≤ l := by
        have hmem : l ∈ k ::ₘ s := h ▸ Multiset.mem_coe.mpr List.mem_cons_self
        rcases Multiset.mem_cons.mp hmem with rfl | hmem
        · exact le_rfl
        · exact hle l hmem
      obtain rfl : l = k := le_antisymm hl hk
      rw [← Multiset.cons_coe, Multiset.cons_inj_right] at h
      exact ⟨rfl, h⟩

end SortedQueue
