import Mathlib.Algebra.Order.Ring.Int
import Mathlib.Data.Multiset.Range
import Mathlib.Logic.Function.Basic

/-!
# Binary heaps in an array

An array is read as a function from positions, of which the first `n` are in use;
the elements are compared by a key in a linear order. Position `i` has the children
`2 * i + 1` and `2 * i + 2`, and the array is a heap when no element comes before
the one above it.

A sift moves one element along a path. While it goes up, the order is broken at
most between the element and the one above it; while it goes down, at most between
the element and its children. `SiftUp` and `SiftDown` say so, and each also says
that the children of the element are in order with the element above it, which is
what an exchange needs.
-/

namespace BinaryHeap

/-- The position above `i`. -/
def parent (i : ℕ) : ℕ := (i - 1) / 2

/-- The position of the left child. -/
def left (i : ℕ) : ℕ := 2 * i + 1

/-- The position of the right child. -/
def right (i : ℕ) : ℕ := 2 * i + 2

theorem parent_lt {i : ℕ} (h : 0 < i) : parent i < i := by
  unfold parent
  omega

@[simp] theorem parent_left (i : ℕ) : parent (left i) = i := by
  unfold parent left
  omega

@[simp] theorem parent_right (i : ℕ) : parent (right i) = i := by
  unfold parent right
  omega

theorem eq_left_or_right {i : ℕ} (h : 0 < i) :
    i = left (parent i) ∨ i = right (parent i) := by
  unfold parent left right
  omega

variable {α β : Type*}

/-! ## The elements as a multiset -/

/-- The elements of the first `n` positions. -/
def contents (n : ℕ) (h : ℕ → α) : Multiset α := (Multiset.range n).map h

/-- The array with two elements exchanged. -/
def swap (h : ℕ → α) (i j : ℕ) : ℕ → α :=
  Function.update (Function.update h i (h j)) j (h i)

theorem swap_left {h : ℕ → α} {i j : ℕ} (hij : i ≠ j) : swap h i j i = h j := by
  rw [swap, Function.update_of_ne hij, Function.update_self]

theorem swap_right (h : ℕ → α) (i j : ℕ) : swap h i j j = h i :=
  Function.update_self _ _ _

theorem swap_of_ne {h : ℕ → α} {i j k : ℕ} (hi : k ≠ i) (hj : k ≠ j) :
    swap h i j k = h k := by
  rw [swap, Function.update_of_ne hj, Function.update_of_ne hi]

theorem contents_succ (n : ℕ) (h : ℕ → α) : contents (n + 1) h = h n ::ₘ contents n h := by
  rw [contents, Multiset.range_succ, Multiset.map_cons]
  rfl

theorem contents_congr {n : ℕ} {h h' : ℕ → α} (heq : ∀ i, i < n → h i = h' i) :
    contents n h = contents n h' := by
  apply Multiset.map_congr rfl
  intro i hi
  exact heq i (Multiset.mem_range.mp hi)

theorem contents_update_of_le {n i : ℕ} (h : ℕ → α) (x : α) (hi : n ≤ i) :
    contents n (Function.update h i x) = contents n h := by
  apply contents_congr
  intro k hk
  exact Function.update_of_ne (by omega) _ _

/-- A new last element. -/
theorem contents_push (n : ℕ) (h : ℕ → α) (x : α) :
    contents (n + 1) (Function.update h n x) = x ::ₘ contents n h := by
  rw [contents_succ, Function.update_self, contents_update_of_le h x le_rfl]

/-- One element in place of another. -/
theorem contents_update {n i : ℕ} (h : ℕ → α) (x : α) (hi : i < n) :
    h i ::ₘ contents n (Function.update h i x) = x ::ₘ contents n h := by
  induction n with
  | zero => omega
  | succ n ih =>
      rw [contents_succ, contents_succ]
      by_cases hlast : i = n
      · rw [hlast, Function.update_self, contents_update_of_le h x le_rfl,
          Multiset.cons_swap]
      · rw [Function.update_of_ne (Ne.symm hlast), Multiset.cons_swap, ih (by omega),
          Multiset.cons_swap]

/-- An exchange neither loses nor duplicates an element. -/
theorem contents_swap {n i j : ℕ} (h : ℕ → α) (hi : i < n) (hj : j < n) :
    contents n (swap h i j) = contents n h := by
  have hfirst := contents_update h (h j) hi
  have hsecond := contents_update (Function.update h i (h j)) (h i) hj
  have hsame : Function.update h i (h j) j = h j := by
    by_cases hij : j = i
    · rw [hij, Function.update_self]
    · rw [Function.update_of_ne hij]
  rw [hsame, hfirst] at hsecond
  exact (Multiset.cons_inj_right _).mp hsecond

/-- The last element in place of the first one. -/
theorem contents_pop (n : ℕ) (h : ℕ → α) :
    contents (n + 1) h = h 0 ::ₘ contents n (Function.update h 0 (h n)) := by
  rw [contents_succ]
  rcases Nat.eq_zero_or_pos n with rfl | hn
  · rfl
  · exact (contents_update h (h n) hn).symm

theorem mem_contents {n : ℕ} {h : ℕ → α} {x : α} :
    x ∈ contents n h ↔ ∃ i, i < n ∧ h i = x := by
  rw [contents, Multiset.mem_map]
  constructor
  · rintro ⟨i, hi, hx⟩
    exact ⟨i, Multiset.mem_range.mp hi, hx⟩
  · rintro ⟨i, hi, hx⟩
    exact ⟨i, Multiset.mem_range.mpr hi, hx⟩

/-! ## The order of a heap -/

variable [LinearOrder β] (key : α → β)

/-- No element comes before the one above it. -/
def IsHeap (n : ℕ) (h : ℕ → α) : Prop :=
  ∀ i, 0 < i → i < n → key (h (parent i)) ≤ key (h i)

variable {key} {n : ℕ} {h : ℕ → α}

theorem IsHeap.mono {m : ℕ} (hheap : IsHeap key n h) (hm : m ≤ n) : IsHeap key m h :=
  fun i hi him => hheap i hi (by omega)

theorem IsHeap.congr {h' : ℕ → α} (hheap : IsHeap key n h) (heq : ∀ i, i < n → h' i = h i) :
    IsHeap key n h' := by
  intro i hi hin
  have hparent := parent_lt hi
  rw [heq i hin, heq (parent i) (by omega)]
  exact hheap i hi hin

/-- The first element of a heap is a least one. -/
theorem IsHeap.le (hheap : IsHeap key n h) {i : ℕ} (hi : i < n) : key (h 0) ≤ key (h i) := by
  induction i using Nat.strong_induction_on with
  | _ i ih =>
      rcases Nat.eq_zero_or_pos i with rfl | hpos
      · exact le_rfl
      · have hparent := parent_lt hpos
        exact (ih (parent i) hparent (by omega)).trans (hheap i hpos hi)

/-! ## Sifting up -/

variable (key)

/-- The element at `ix` may come before the one above it; everything else is in
order, and the children of `ix` are in order with the element above `ix`. -/
structure SiftUp (n : ℕ) (h : ℕ → α) (ix : ℕ) : Prop where
  order : ∀ i, 0 < i → i < n → i ≠ ix → key (h (parent i)) ≤ key (h i)
  across : ∀ i, 0 < i → i < n → parent i = ix → 0 < ix → key (h (parent ix)) ≤ key (h i)

variable {key} {ix : ℕ}

/-- A heap with a new last element. -/
theorem IsHeap.siftUp (hheap : IsHeap key n h) (x : α) :
    SiftUp key (n + 1) (Function.update h n x) n := by
  constructor
  · intro i hi hin hne
    have hparent := parent_lt hi
    rw [Function.update_of_ne (by omega), Function.update_of_ne hne]
    exact hheap i hi (by omega)
  · intro i hi hin hparent
    have hlt := parent_lt hi
    omega

/-- An exchange with the element above moves the place where the order is broken. -/
theorem SiftUp.swap (hsift : SiftUp key n h ix) (hpos : 0 < ix) (hix : ix < n)
    (hlt : key (h ix) < key (h (parent ix))) :
    SiftUp key n (swap h (parent ix) ix) (parent ix) := by
  have hup := parent_lt hpos
  constructor
  · intro i hi hin hne
    have hparent := parent_lt hi
    by_cases hself : i = ix
    · rw [hself, swap_left (by omega), swap_right]
      exact hlt.le
    · rw [swap_of_ne hne hself]
      by_cases hsibling : parent i = parent ix
      · have horder := hsift.order i hi hin hself
        rw [hsibling] at horder ⊢
        rw [swap_left (by omega)]
        exact hlt.le.trans horder
      · by_cases hchild : parent i = ix
        · rw [hchild, swap_right]
          exact hsift.across i hi hin hchild hpos
        · rw [swap_of_ne hsibling hchild]
          exact hsift.order i hi hin hself
  · intro i hi hin hparent hup'
    have hgrand := parent_lt hup'
    have hlti := parent_lt hi
    have habove := hsift.order (parent ix) hup' (by omega) (by omega)
    rw [swap_of_ne (by omega) (by omega)]
    by_cases hself : i = ix
    · rw [hself, swap_right]
      exact habove
    · have horder := hsift.order i hi hin hself
      rw [swap_of_ne (by omega) hself]
      rw [hparent] at horder
      exact habove.trans horder

/-- Once the element is in order with the one above it, the array is a heap. -/
theorem SiftUp.isHeap (hsift : SiftUp key n h ix)
    (hstop : 0 < ix → key (h (parent ix)) ≤ key (h ix)) : IsHeap key n h := by
  intro i hi hin
  by_cases hself : i = ix
  · subst hself
    exact hstop hi
  · exact hsift.order i hi hin hself

/-! ## Sifting down -/

variable (key)

/-- The element at `ix` may come after its children; everything else is in order, and
the children of `ix` are in order with the element above `ix`. -/
structure SiftDown (n : ℕ) (h : ℕ → α) (ix : ℕ) : Prop where
  order : ∀ i, 0 < i → i < n → parent i ≠ ix → key (h (parent i)) ≤ key (h i)
  across : ∀ i, 0 < i → i < n → parent i = ix → 0 < ix → key (h (parent ix)) ≤ key (h i)

/-- Of two positions, the first one when it is in use and its element comes first. -/
def smaller (n : ℕ) (h : ℕ → α) (c s : ℕ) : ℕ :=
  if c < n ∧ key (h c) < key (h s) then c else s

/-- The position of a least element among `ix` and its children. -/
def smallest (n : ℕ) (h : ℕ → α) (ix : ℕ) : ℕ :=
  smaller key n h (right ix) (smaller key n h (left ix) ix)

theorem key_smaller_le (c s : ℕ) : key (h (smaller key n h c s)) ≤ key (h s) := by
  unfold smaller
  split
  next hc => exact hc.2.le
  next => exact le_rfl

theorem key_smaller_le_of_lt {c : ℕ} (hc : c < n) (s : ℕ) :
    key (h (smaller key n h c s)) ≤ key (h c) := by
  unfold smaller
  split
  next => exact le_rfl
  next hle => exact not_lt.mp fun hlt => hle ⟨hc, hlt⟩

/-- No child comes before the smallest of the three. -/
theorem key_smallest_le {i : ℕ} (hi : 0 < i) (hin : i < n) :
    key (h (smallest key n h (parent i))) ≤ key (h i) := by
  rcases eq_left_or_right hi with hleft | hright
  · have hlt : left (parent i) < n := by omega
    have hle := (key_smaller_le key (h := h) (n := n) (right (parent i)) _).trans
      (key_smaller_le_of_lt key hlt (parent i))
    rw [← hleft] at hle
    rw [smallest, ← hleft]
    exact hle
  · have hlt : right (parent i) < n := by omega
    have hle := key_smaller_le_of_lt key (h := h) hlt
      (smaller key n h (left (parent i)) (parent i))
    rw [← hright] at hle
    rw [smallest, ← hright]
    exact hle

/-- When it is not `ix` itself, it is a child with an element that comes before. -/
theorem smallest_cases (n : ℕ) (h : ℕ → α) (ix : ℕ) :
    smallest key n h ix = ix ∨ (smallest key n h ix < n ∧ 0 < smallest key n h ix ∧
      parent (smallest key n h ix) = ix ∧ key (h (smallest key n h ix)) < key (h ix)) := by
  have hleft : 0 < left ix := by unfold left; omega
  have hright : 0 < right ix := by unfold right; omega
  have hle := key_smaller_le key (h := h) (n := n) (left ix) ix
  unfold smallest
  by_cases hr : right ix < n ∧ key (h (right ix)) < key (h (smaller key n h (left ix) ix))
  · rw [smaller, if_pos hr]
    exact Or.inr ⟨hr.1, hright, parent_right ix, hr.2.trans_le hle⟩
  · rw [smaller, if_neg hr]
    by_cases hl : left ix < n ∧ key (h (left ix)) < key (h ix)
    · rw [smaller, if_pos hl]
      exact Or.inr ⟨hl.1, hleft, parent_left ix, hl.2⟩
    · rw [smaller, if_neg hl]
      exact Or.inl rfl

variable {key}

/-- A heap without its first element, another one in its place. -/
theorem IsHeap.siftDown (hheap : IsHeap key n h) (x : α) :
    SiftDown key n (Function.update h 0 x) 0 := by
  constructor
  · intro i hi hin hne
    rw [Function.update_of_ne hne, Function.update_of_ne (by omega)]
    exact hheap i hi hin
  · intro i _ _ _ habs
    exact absurd habs (lt_irrefl 0)

/-- An exchange with the smallest child moves the place where the order is broken. -/
theorem SiftDown.swap (hsift : SiftDown key n h ix) {c : ℕ} (hc : smallest key n h ix = c)
    (hne : c ≠ ix) : SiftDown key n (swap h ix c) c := by
  rcases smallest_cases key n h ix with hself | ⟨hcn, hcpos, hparent, hlt⟩
  · exact absurd (hc.symm.trans hself) hne
  · rw [hc] at hcn hcpos hparent hlt
    have hix : ix < c := hparent ▸ parent_lt hcpos
    constructor
    · intro i hi hin hnotc
      have hpi := parent_lt hi
      by_cases hself : i = ix
      · subst hself
        rw [swap_left (Ne.symm hne), swap_of_ne (by omega) (by omega)]
        exact hsift.across c hcpos hcn hparent hi
      · by_cases hchild : i = c
        · subst hchild
          rw [hparent, swap_left (Ne.symm hne), swap_right]
          exact hlt.le
        · rw [swap_of_ne hself hchild]
          by_cases hsibling : parent i = ix
          · have hle := key_smallest_le key (h := h) hi hin
            rw [hsibling, hc] at hle
            rw [hsibling, swap_left (Ne.symm hne)]
            exact hle
          · rw [swap_of_ne hsibling hnotc]
            exact hsift.order i hi hin hsibling
    · intro i hi hin hpc hcpos'
      have hci := parent_lt hi
      have horder := hsift.order i hi hin (by omega)
      rw [hparent, swap_left (Ne.symm hne), swap_of_ne (by omega) (by omega)]
      rw [hpc] at horder
      exact horder

/-- Once no child comes before the element, the array is a heap. -/
theorem SiftDown.isHeap (hsift : SiftDown key n h ix) (hstop : smallest key n h ix = ix) :
    IsHeap key n h := by
  intro i hi hin
  by_cases hchild : parent i = ix
  · have hle := key_smallest_le key (h := h) hi hin
    rw [hchild, hstop] at hle
    rw [hchild]
    exact hle
  · exact hsift.order i hi hin hchild

end BinaryHeap
