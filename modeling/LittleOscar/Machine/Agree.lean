import LittleOscar.Machine.Memory

/-!
# Objects that agree up to an index

Two objects of which the first `n` bytes are the same cannot be told apart by a read
that stays before `n`. A `strlen` need not stay there. If a NUL lies behind the common bytes
in both objects, it either ends before `n`, and then in both at the same place, or it ends
behind `n` in both (`Agree.strlen_cases`). So a program that takes a string for too long
whenever it reaches `n` behaves the same on both.
-/

namespace Machine

/-- The first `n` bytes of the two objects are the same, and each has a NUL behind them. -/
structure Agree (n : Nat) (m m' : Memory) : Prop where
  take : m.take n = m'.take n
  nul : 0 ∈ m.drop n
  nul' : 0 ∈ m'.drop n

namespace Agree

variable {n : Nat} {m m' : Memory} {p : Int}

theorem symm (h : Agree n m m') : Agree n m' m := ⟨h.take.symm, h.nul', h.nul⟩

theorem lt_length (h : Agree n m m') : n < m.length := by
  have hpos := List.length_pos_of_mem h.nul
  rw [List.length_drop] at hpos
  omega

theorem loadByte_eq (h : Agree n m m') (hp : p < n) : loadByte m p = loadByte m' p := by
  by_cases hneg : 0 ≤ p
  · have hget := congrArg (fun l : Memory => l[p.toNat]?) h.take
    simp only [List.getElem?_take, if_pos (show p.toNat < n by omega)] at hget
    rw [loadByte, loadByte, if_pos hneg, if_pos hneg, hget]
  · rw [loadByte, loadByte, if_neg hneg, if_neg hneg]

theorem loadBytes_eq (h : Agree n m m') {k : Nat} (hp : p + k ≤ n) :
    loadBytes m p k = loadBytes m' p k := by
  induction k generalizing p with
  | zero => rfl
  | succ k ih => rw [loadBytes, loadBytes, h.loadByte_eq (by omega), ih (by omega)]

/-- A string that starts before `n` ends. -/
theorem exists_strlen (h : Agree n m m') (hp : 0 ≤ p) (hle : p ≤ n) :
    ∃ k, strlen m p = some k := by
  obtain ⟨j, hj⟩ := List.getElem?_of_mem h.nul
  rw [List.getElem?_drop] at hj
  obtain ⟨k, hk, -⟩ := Machine.exists_strlen hp (by omega) hj
  exact ⟨k, hk⟩

/-- The bytes from a pointer on are the common ones and the others. -/
theorem drop_eq (h : Agree n m m') {i : Nat} (hi : i ≤ n) :
    m.drop i = (m.take n).drop i ++ m.drop n := by
  have hlen : i ≤ (m.take n).length := by
    have hlt := h.lt_length
    rw [List.length_take]
    omega
  rw [← List.drop_append_of_le_length hlen, List.take_append_drop]

/-- A string ends in both objects at the same place before `n`, or behind it in both. -/
theorem strlen_cases (h : Agree n m m') (hp : p ≤ n) :
    (strlen m p = strlen m' p ∧ ∀ k, strlen m p = some k → p + k < n) ∨
      ∃ k k', strlen m p = some k ∧ strlen m' p = some k' ∧ n ≤ p + k ∧ n ≤ p + k' := by
  by_cases hneg : 0 ≤ p
  swap
  · have hnone : ∀ l : Memory, strlen l p = none := fun l => by rw [strlen, if_neg hneg]
    rw [hnone, hnone]
    exact Or.inl ⟨rfl, fun k habs => by cases habs⟩
  have hlen : ((m.take n).drop p.toNat).length = n - p.toNat := by
    have hlt := h.lt_length
    rw [List.length_drop, List.length_take]
    omega
  have hsplit : ∀ l, (m.take n).drop p.toNat ++ l.drop n = l.drop p.toNat →
      strlen l p = (strlenFrom ((m.take n).drop p.toNat)).or
        ((strlenFrom (l.drop n)).map (· + (n - p.toNat))) := by
    intro l hl
    rw [strlen, if_pos hneg, ← hl, strlenFrom_append_eq, hlen]
  have hfirst := hsplit m (h.drop_eq (by omega)).symm
  have hsecond := hsplit m' (by rw [h.take]; exact (h.symm.drop_eq (by omega)).symm)
  cases hcommon : strlenFrom ((m.take n).drop p.toNat) with
  | some k =>
      rw [hcommon, Option.some_or] at hfirst hsecond
      have hlt := strlenFrom_lt hcommon
      refine Or.inl ⟨hfirst.trans hsecond.symm, fun k' hk' => ?_⟩
      obtain rfl := Option.some.inj (hfirst.symm.trans hk')
      omega
  | none =>
      have hends : ∀ l : Memory, 0 ∈ l → ∃ k, strlenFrom l = some k := by
        intro l hl
        obtain ⟨j, hj⟩ := List.getElem?_of_mem hl
        obtain ⟨k, hk, -⟩ := exists_strlenFrom hj
        exact ⟨k, hk⟩
      obtain ⟨k, hk⟩ := hends _ h.nul
      obtain ⟨k', hk'⟩ := hends _ h.nul'
      rw [hcommon, hk, Option.none_or, Option.map_some] at hfirst
      rw [hcommon, hk', Option.none_or, Option.map_some] at hsecond
      exact Or.inr ⟨k + (n - p.toNat), k' + (n - p.toNat), hfirst, hsecond, by omega, by omega⟩

/-- A string that ends before `n` is the same in both objects. -/
theorem stringAt_eq (h : Agree n m m') {k : Nat} (hk : strlen m p = some k) (hlt : p + k < n) :
    stringAt m p = stringAt m' p := by
  have hk' : strlen m' p = some k := by
    rcases h.strlen_cases (p := p) (by omega) with ⟨heq, -⟩ | ⟨j, j', hj, -, hle, -⟩
    · rw [← heq, hk]
    · obtain rfl := Option.some.inj (hk.symm.trans hj)
      omega
  rw [stringAt, stringAt, hk, hk', Option.bind_eq_bind, Option.bind_some, Option.bind_some,
    h.loadBytes_eq (by omega)]

end Agree

end Machine
