import Mathlib.Data.List.Basic

/-!
# A byte-addressed memory object

A memory object is the list of its bytes and a pointer into it is an `Int`, the
offset from its first byte. Pointers may be moved anywhere, but an access
outside the object has no result: `none` is the undefined behaviour of the
program that makes it. Every theorem that gives `some` is therefore also the
statement that the accesses stay inside.

`At m p bs` says that the bytes `bs` lie at the pointer `p`. It splits along
`++`, which is how the reader of a format walks over what its writer laid out.
-/

namespace Machine

/-- The bytes of a memory object. -/
abbrev Memory := List UInt8

/-- `*p` for a `char` pointer. -/
def loadByte (m : Memory) (p : Int) : Option UInt8 :=
  if 0 ≤ p then m[p.toNat]? else none

/-- `*p = b` for a `char` pointer. -/
def storeByte (m : Memory) (p : Int) (b : UInt8) : Option Memory :=
  if 0 ≤ p ∧ p < m.length then some (m.set p.toNat b) else none

/-- The `n` bytes from `p` on, read in order. -/
def loadBytes (m : Memory) (p : Int) : Nat → Option (List UInt8)
  | 0 => some []
  | n + 1 => do
      let b ← loadByte m p
      let bs ← loadBytes m (p + 1) n
      some (b :: bs)

/-- The bytes `bs` written from `p` on, in order. -/
def storeBytes (m : Memory) (p : Int) : List UInt8 → Option Memory
  | [] => some m
  | b :: bs => do
      let m ← storeByte m p b
      storeBytes m (p + 1) bs

/-- The number of bytes before the first NUL. -/
def strlenFrom : List UInt8 → Option Nat
  | [] => none
  | b :: bs => if b = 0 then some 0 else (strlenFrom bs).map (· + 1)

/-- `strlen(p)`; the scan has no result when it leaves the object. -/
def strlen (m : Memory) (p : Int) : Option Nat :=
  if 0 ≤ p then strlenFrom (m.drop p.toNat) else none

/-- A memory object that a caller passes a pointer to. No object is longer than the
greatest difference of two pointers into it. -/
structure Object where
  bytes : Memory
  length_lt : bytes.length < 9223372036854775808

/-- A C string: the bytes before its NUL. It lies in an object. -/
structure CString where
  bytes : List UInt8
  noNul : 0 ∉ bytes
  length_lt : bytes.length < 9223372036854775808

instance : DecidableEq CString := fun s t =>
  decidable_of_iff (s.bytes = t.bytes) ⟨fun h => by cases s; cases t; cases h; rfl,
    fun h => h ▸ rfl⟩

/-- The empty string. -/
def CString.empty : CString := ⟨[], List.not_mem_nil, Nat.zero_lt_succ _⟩

/-- The string `s` lies in `m` from `p` on. -/
def stringAt (m : Memory) (p : Int) : Option (List UInt8) := do
  let n ← strlen m p
  loadBytes m p n

/-! ## Reading -/

theorem loadByte_natCast (m : Memory) (i : Nat) : loadByte m i = m[i]? := by
  simp [loadByte]

theorem loadByte_eq_some {m : Memory} {p : Int} {b : UInt8} (h : loadByte m p = some b) :
    0 ≤ p ∧ p < m.length := by
  unfold loadByte at h
  split at h
  · obtain ⟨hlt, -⟩ := List.getElem?_eq_some_iff.mp h
    omega
  · cases h

theorem exists_loadByte {m : Memory} {p : Int} (h : 0 ≤ p) (h' : p < m.length) :
    ∃ b, loadByte m p = some b := by
  have hlt : p.toNat < m.length := by omega
  exact ⟨m[p.toNat], by rw [loadByte, if_pos h, List.getElem?_eq_getElem hlt]⟩

theorem loadBytes_eq_take {m : Memory} {p : Int} {n : Nat} (h : 0 ≤ p)
    (h' : p + n ≤ m.length) :
    loadBytes m p n = some ((m.drop p.toNat).take n) := by
  induction n generalizing p with
  | zero => simp [loadBytes]
  | succ n ih =>
      have hlt : p.toNat < m.length := by omega
      have hnext : (p + 1).toNat = p.toNat + 1 := by omega
      rw [loadBytes, loadByte, if_pos h, List.getElem?_eq_getElem hlt,
        ih (by omega) (by omega), hnext]
      rw [List.drop_eq_getElem_cons hlt, List.take_succ_cons]
      rfl

/-- Bytes that could be loaded lie in the object. -/
theorem le_length_of_loadBytes {m : Memory} {p : Int} {n : Nat} {bs : List UInt8} (hn : 0 < n)
    (h : loadBytes m p n = some bs) : p + n ≤ m.length := by
  induction n generalizing p bs with
  | zero => omega
  | succ n ih =>
      simp only [loadBytes, Option.bind_eq_bind, Option.bind_eq_some_iff] at h
      obtain ⟨b, hb, rest, hrest, -⟩ := h
      have hlt := (loadByte_eq_some hb).2
      rcases Nat.eq_zero_or_pos n with rfl | hpos
      · omega
      · have hle := ih hpos hrest
        omega

theorem nonneg_of_loadBytes {m : Memory} {p : Int} {n : Nat} {bs : List UInt8} (hn : 0 < n)
    (h : loadBytes m p n = some bs) : 0 ≤ p := by
  cases n with
  | zero => exact absurd hn (Nat.lt_irrefl 0)
  | succ n =>
      rw [loadBytes, Option.bind_eq_bind, Option.bind_eq_some_iff] at h
      obtain ⟨b, hb, -⟩ := h
      exact (loadByte_eq_some hb).1

/-! ## Writing -/

/-- The object with `bs` over its bytes from `i` on. -/
def overwrite (m : Memory) (i : Nat) (bs : List UInt8) : Memory :=
  m.take i ++ bs ++ m.drop (i + bs.length)

@[simp] theorem overwrite_nil (m : Memory) (i : Nat) : overwrite m i [] = m := by
  simp [overwrite]

theorem length_overwrite {m : Memory} {i : Nat} {bs : List UInt8}
    (h : i + bs.length ≤ m.length) : (overwrite m i bs).length = m.length := by
  simp only [overwrite, List.length_append, List.length_take, List.length_drop]
  omega

/-- Bytes that do not make the object longer end inside it. -/
theorem le_of_length_overwrite {m : Memory} {i : Nat} {bs : List UInt8} (hi : i ≤ m.length)
    (h : (overwrite m i bs).length = m.length) : i + bs.length ≤ m.length := by
  simp only [overwrite, List.length_append, List.length_take, List.length_drop] at h
  omega

theorem overwrite_cons {m : Memory} {i : Nat} (b : UInt8) (bs : List UInt8)
    (h : i < m.length) :
    overwrite m i (b :: bs) = overwrite (m.set i b) (i + 1) bs := by
  have htake : (m.set i b).take (i + 1) = m.take i ++ [b] := by
    rw [List.set_eq_take_append_cons_drop, if_pos h, List.take_append]
    simp [List.take_take, Nat.min_eq_left (Nat.le_of_lt h)]
  have hdrop : (m.set i b).drop (i + 1 + bs.length) = m.drop (i + 1 + bs.length) :=
    List.drop_set_of_lt (by omega)
  have hlen : i + (b :: bs).length = i + 1 + bs.length := by
    simp only [List.length_cons]
    omega
  rw [overwrite, overwrite, htake, hdrop, hlen]
  simp

/-- A run of stores succeeds exactly when it stays inside the object. -/
theorem storeBytes_eq (m : Memory) (p : Int) (bs : List UInt8) :
    storeBytes m p bs =
      if bs = [] ∨ (0 ≤ p ∧ p + bs.length ≤ m.length) then
        some (overwrite m p.toNat bs)
      else none := by
  induction bs generalizing m p with
  | nil => simp [storeBytes]
  | cons b bs ih =>
      rw [storeBytes, storeByte]
      by_cases hp : 0 ≤ p ∧ p < m.length
      · have hnext : (p + 1).toNat = p.toNat + 1 := by omega
        have hcond : (bs = [] ∨ (0 ≤ p + 1 ∧ p + 1 + bs.length ≤ m.length)) ↔
            (b :: bs = [] ∨ (0 ≤ p ∧ p + (b :: bs).length ≤ m.length)) := by
          cases bs with
          | nil => simp; omega
          | cons c cs => simp; omega
        rw [if_pos hp, Option.bind_eq_bind, Option.bind_some, ih, hnext,
          ← overwrite_cons b bs (by omega)]
        simp only [List.length_set, hcond]
      · have hcond : ¬ (b :: bs = [] ∨ (0 ≤ p ∧ p + (b :: bs).length ≤ m.length)) := by
          simp
          omega
        rw [if_neg hp, if_neg hcond]
        rfl

theorem storeBytes_append (m : Memory) (p : Int) (bs cs : List UInt8) :
    storeBytes m p (bs ++ cs) =
      (storeBytes m p bs).bind fun m => storeBytes m (p + bs.length) cs := by
  induction bs generalizing m p with
  | nil =>
      rw [List.nil_append, storeBytes, Option.bind_some, List.length_nil]
      congr 1
      exact (Int.add_zero p).symm
  | cons b bs ih =>
      rw [List.cons_append, storeBytes, storeBytes]
      cases storeByte m p b with
      | none => rfl
      | some m =>
          have hnext : p + 1 + bs.length = p + (b :: bs).length := by
            rw [List.length_cons]
            omega
          simp only [Option.bind_eq_bind, Option.bind_some, ih, hnext]

theorem length_of_storeBytes {m m' : Memory} {p : Int} {bs : List UInt8}
    (h : storeBytes m p bs = some m') : m'.length = m.length := by
  rw [storeBytes_eq] at h
  split at h
  · next hinside =>
      obtain rfl := Option.some.inj h
      rcases hinside with rfl | ⟨hnonneg, hle⟩
      · rw [overwrite_nil]
      · exact length_overwrite (by omega)
  · cases h

theorem overwrite_hole (pre post : List UInt8) {hole bs : List UInt8}
    (h : hole.length = bs.length) :
    overwrite (pre ++ (hole ++ post)) pre.length bs = pre ++ (bs ++ post) := by
  have hdrop : (pre ++ (hole ++ post)).drop (pre.length + bs.length) = post := by
    rw [← h, ← List.append_assoc]
    exact List.drop_left' (by simp)
  rw [overwrite, List.take_left, hdrop, List.append_assoc]

theorem overwrite_append {m : Memory} {i : Nat} (h : i ≤ m.length) (bs cs : List UInt8) :
    overwrite (overwrite m i bs) (i + bs.length) cs = overwrite m i (bs ++ cs) := by
  have hpre : (m.take i ++ bs).length = i + bs.length := by
    rw [List.length_append, List.length_take]
    omega
  have htake : (overwrite m i bs).take (i + bs.length) = m.take i ++ bs := by
    rw [overwrite, ← hpre, List.take_left]
  have hdrop : (overwrite m i bs).drop (i + bs.length + cs.length) =
      m.drop (i + (bs ++ cs).length) := by
    rw [← List.drop_drop, overwrite, ← hpre, List.drop_left, hpre, List.drop_drop,
      List.length_append, Nat.add_assoc]
  rw [overwrite, htake, hdrop, overwrite]
  simp only [List.append_assoc]

theorem overwrite_set {m : Memory} {i j : Nat} (h : i ≤ m.length) {bs : List UInt8}
    (hj : j < bs.length) (b : UInt8) :
    (overwrite m i bs).set (i + j) b = overwrite m i (bs.set j b) := by
  have hpre : (m.take i).length = i := by
    rw [List.length_take]
    omega
  have hset : (m.take i ++ bs).set (i + j) b = m.take i ++ bs.set j b := by
    rw [List.set_append_right _ _ (by omega), hpre, Nat.add_sub_cancel_left]
  rw [overwrite, List.set_append_left _ _ (by rw [List.length_append]; omega), hset, overwrite,
    List.length_set]

/-- Bytes over the beginning of bytes that were written before. -/
theorem overwrite_overwrite {m : Memory} {i : Nat} (h : i ≤ m.length) {hole bs : List UInt8}
    (hlen : hole.length = bs.length) (cs : List UInt8) :
    overwrite (overwrite m i (hole ++ cs)) i bs = overwrite m i (bs ++ cs) := by
  have hpre : (m.take i).length = i := by
    rw [List.length_take]
    omega
  have hhole : overwrite m i (hole ++ cs) =
      m.take i ++ (hole ++ (cs ++ m.drop (i + (hole ++ cs).length))) := by
    simp only [overwrite, List.append_assoc]
  have hover := overwrite_hole (m.take i) (cs ++ m.drop (i + (hole ++ cs).length)) hlen
  rw [hpre] at hover
  rw [hhole, hover]
  simp only [overwrite, List.append_assoc, List.length_append, hlen]

theorem overwrite_take {m : Memory} {i k : Nat} (h : i + k ≤ m.length) :
    overwrite m i ((m.drop i).take k) = m := by
  have hlen : ((m.drop i).take k).length = k := by
    rw [List.length_take, List.length_drop]
    omega
  rw [overwrite, hlen, List.append_assoc, ← List.drop_drop, List.take_append_drop,
    List.take_append_drop]

/-- Bytes in front of bytes that were written before. -/
theorem overwrite_prepend {m : Memory} {i : Nat} {bs : List UInt8}
    (h : i + bs.length ≤ m.length) (cs : List UInt8) :
    overwrite (overwrite m (i + bs.length) cs) i bs = overwrite m i (bs ++ cs) := by
  have hhole : ((m.drop i).take bs.length).length = bs.length := by
    rw [List.length_take, List.length_drop]
    omega
  have hbehind : overwrite m (i + bs.length) cs =
      overwrite m i ((m.drop i).take bs.length ++ cs) := by
    rw [← overwrite_append (by omega), overwrite_take h, hhole]
  rw [hbehind, overwrite_overwrite (by omega) hhole]

theorem take_overwrite {m : Memory} {i : Nat} (h : i ≤ m.length) (bs : List UInt8) :
    (overwrite m i bs).take (i + bs.length) = m.take i ++ bs := by
  have hlen : (m.take i ++ bs).length = i + bs.length := by
    rw [List.length_append, List.length_take]
    omega
  rw [overwrite, ← hlen, List.take_left]

/-- What lies before the bytes that are written stays. -/
theorem take_overwrite_of_le {m : Memory} {i j : Nat} (hi : i ≤ m.length) (hj : j ≤ i)
    (bs : List UInt8) : (overwrite m i bs).take j = m.take j := by
  rw [overwrite, List.append_assoc,
    List.take_append_of_le_length (by rw [List.length_take]; omega), List.take_take,
    Nat.min_eq_left hj]

theorem getElem?_overwrite_of_lt {m : Memory} {i j : Nat} (hi : i ≤ m.length) (hj : j < i)
    (bs : List UInt8) : (overwrite m i bs)[j]? = m[j]? := by
  have htake : j < (m.take i).length := by
    rw [List.length_take]
    omega
  rw [overwrite, List.append_assoc, List.getElem?_append_left htake, List.getElem?_take,
    if_pos hj]

theorem getElem?_overwrite_of_le {m : Memory} {i j : Nat} {bs : List UInt8}
    (hi : i ≤ m.length) (hj : i + bs.length ≤ j) : (overwrite m i bs)[j]? = m[j]? := by
  have hlen : (m.take i ++ bs).length = i + bs.length := by
    rw [List.length_append, List.length_take]
    omega
  rw [overwrite, List.getElem?_append_right (by omega), hlen, List.getElem?_drop,
    show i + bs.length + (j - (i + bs.length)) = j by omega]

/-- A store changes the bytes that it is given room for, and no other one. -/
theorem getElem?_of_storeBytes {m m' : Memory} {p : Int} {bs : List UInt8}
    (h : storeBytes m p bs = some m') {j : Nat} (hj : (j : Int) < p ∨ p + bs.length ≤ j) :
    m'[j]? = m[j]? := by
  rw [storeBytes_eq] at h
  split at h
  · next hinside =>
      obtain rfl := Option.some.inj h
      rcases hinside with rfl | ⟨hnonneg, hle⟩
      · rw [overwrite_nil]
      · rcases hj with hj | hj
        · exact getElem?_overwrite_of_lt (by omega) (by omega) bs
        · exact getElem?_overwrite_of_le (by omega) (by omega)
  · cases h

/-! ## Bytes at a pointer -/

/-- The bytes `bs` lie in `m` from the pointer `p` on. -/
def At (m : Memory) (p : Int) (bs : List UInt8) : Prop :=
  ∃ pre post, m = pre ++ (bs ++ post) ∧ p = (pre.length : Int)

theorem At.self (bs : List UInt8) : At bs 0 bs :=
  ⟨[], [], by simp, rfl⟩

/-- Bytes that were written inside the object lie where they were written. -/
theorem At.overwrite {m : Memory} {p : Int} {bs : List UInt8} (h : 0 ≤ p)
    (h' : p + bs.length ≤ m.length) : At (Machine.overwrite m p.toNat bs) p bs := by
  refine ⟨m.take p.toNat, m.drop (p.toNat + bs.length), ?_, ?_⟩
  · rw [Machine.overwrite, List.append_assoc]
  · rw [List.length_take]
    omega

theorem at_of_storeBytes {m m' : Memory} {p : Int} {bs : List UInt8} (hbs : bs ≠ [])
    (h : storeBytes m p bs = some m') : At m' p bs := by
  rw [storeBytes_eq] at h
  split at h
  · next hinside =>
      obtain rfl := Option.some.inj h
      obtain ⟨hnonneg, hle⟩ := hinside.resolve_left hbs
      exact At.overwrite hnonneg hle
  · cases h

theorem at_overwrite {m : Memory} {i : Nat} {bs : List UInt8}
    (h : i + bs.length ≤ m.length) : At (Machine.overwrite m i bs) i bs :=
  At.overwrite (Int.natCast_nonneg i) (by omega)

/-- Bytes behind those that are written. -/
theorem At.overwrite_of_le {m : Memory} {p : Int} {i : Nat} {bs cs : List UInt8}
    (h : At m p bs) (hle : (i + cs.length : Nat) ≤ p) : At (Machine.overwrite m i cs) p bs := by
  obtain ⟨pre, post, rfl, rfl⟩ := h
  refine ⟨Machine.overwrite pre i cs, post, ?_, by rw [length_overwrite (by omega)]⟩
  rw [Machine.overwrite, Machine.overwrite, List.take_append_of_le_length (by omega),
    List.drop_append_of_le_length (by omega)]
  simp only [List.append_assoc]

theorem At.left {m : Memory} {p : Int} {bs cs : List UInt8} (h : At m p (bs ++ cs)) :
    At m p bs := by
  obtain ⟨pre, post, rfl, rfl⟩ := h
  exact ⟨pre, cs ++ post, by simp, rfl⟩

theorem At.right {m : Memory} {p : Int} {bs cs : List UInt8} (h : At m p (bs ++ cs)) :
    At m (p + bs.length) cs := by
  obtain ⟨pre, post, rfl, rfl⟩ := h
  exact ⟨pre ++ bs, post, by simp, by simp⟩

theorem At.nonneg {m : Memory} {p : Int} {bs : List UInt8} (h : At m p bs) : 0 ≤ p := by
  obtain ⟨pre, post, -, rfl⟩ := h
  omega

theorem At.le_length {m : Memory} {p : Int} {bs : List UInt8} (h : At m p bs) :
    p + bs.length ≤ m.length := by
  obtain ⟨pre, post, rfl, rfl⟩ := h
  simp only [List.length_append]
  omega

theorem At.loadBytes {m : Memory} {p : Int} {bs : List UInt8} (h : At m p bs) :
    loadBytes m p bs.length = some bs := by
  rw [loadBytes_eq_take h.nonneg h.le_length]
  obtain ⟨pre, post, rfl, rfl⟩ := h
  simp

theorem At.loadByte {m : Memory} {p : Int} {b : UInt8} {bs : List UInt8}
    (h : At m p (b :: bs)) : loadByte m p = some b := by
  obtain ⟨pre, post, rfl, rfl⟩ := h
  simp [loadByte_natCast]

theorem At.loadByte_add {m : Memory} {p : Int} {bs : List UInt8} (h : At m p bs) {i : Nat}
    (hi : i < bs.length) : Machine.loadByte m (p + i) = bs[i]? := by
  obtain ⟨pre, post, rfl, rfl⟩ := h
  have hindex : (pre.length : Int) + i = ((pre.length + i : Nat) : Int) := rfl
  rw [hindex, loadByte_natCast, List.getElem?_append_right (Nat.le_add_right _ _),
    Nat.add_sub_cancel_left, List.getElem?_append_left hi]

/-- Bytes before an index on which two objects agree. -/
theorem At.of_take_eq {m m' : Memory} {p : Int} {n : Nat} {bs : List UInt8} (h : At m p bs)
    (hle : p + bs.length ≤ n) (heq : m'.take n = m.take n) : At m' p bs := by
  obtain ⟨pre, post, rfl, rfl⟩ := h
  obtain ⟨k, rfl⟩ : ∃ k, n = pre.length + (bs.length + k) :=
    ⟨n - (pre.length + bs.length), by omega⟩
  refine ⟨pre, post.take k ++ m'.drop (pre.length + (bs.length + k)), ?_, rfl⟩
  rw [List.take_length_add_append, List.take_length_add_append] at heq
  calc m' = m'.take (pre.length + (bs.length + k)) ++ m'.drop (pre.length + (bs.length + k)) :=
        (List.take_append_drop _ _).symm
    _ = pre ++ (bs ++ (post.take k ++ m'.drop (pre.length + (bs.length + k)))) := by
        rw [heq, List.append_assoc, List.append_assoc]

/-- Bytes of a prefix. -/
theorem At.take {m : Memory} {p : Int} {n : Nat} {bs : List UInt8} (h : At m p bs)
    (hle : p + bs.length ≤ n) (post : Memory) : At (m.take n ++ post) p bs := by
  have hsize := h.le_length
  refine h.of_take_eq (n := (p + bs.length).toNat) (by omega) ?_
  rw [List.take_append_of_le_length (by rw [List.length_take]; omega), List.take_take]
  congr 1
  omega

/-! ## Strings -/

theorem strlenFrom_append {s rest : List UInt8} (hs : 0 ∉ s) :
    strlenFrom (s ++ 0 :: rest) = some s.length := by
  induction s with
  | nil => simp [strlenFrom]
  | cons b s ih =>
      have hb : b ≠ 0 := fun h => hs (by simp [h])
      have hrest : 0 ∉ s := fun h => hs (List.mem_cons_of_mem _ h)
      simp [strlenFrom, hb, ih hrest]

theorem strlenFrom_eq_some {bs : List UInt8} {n : Nat} (h : strlenFrom bs = some n) :
    bs[n]? = some 0 ∧ 0 ∉ bs.take n := by
  induction bs generalizing n with
  | nil => simp [strlenFrom] at h
  | cons b bs ih =>
      unfold strlenFrom at h
      split at h
      · next hb =>
          cases h
          simp [hb]
      · next hb =>
          obtain ⟨k, hk, rfl⟩ := Option.map_eq_some_iff.mp h
          obtain ⟨hnul, hfree⟩ := ih hk
          exact ⟨by simpa using hnul, by simp [hfree, Ne.symm hb]⟩

/-- The first NUL of two parts is in the first part, or else in the second. -/
theorem strlenFrom_append_eq (xs ys : List UInt8) :
    strlenFrom (xs ++ ys) = (strlenFrom xs).or ((strlenFrom ys).map (· + xs.length)) := by
  induction xs with
  | nil => simp [strlenFrom]
  | cons x xs ih =>
      by_cases hx : x = 0
      · simp [strlenFrom, hx]
      · simp only [List.cons_append, strlenFrom, if_neg hx, ih, List.length_cons]
        cases strlenFrom xs with
        | none =>
            simp only [Option.map_none, Option.none_or, Option.map_map]
            congr 1
        | some n => rfl

theorem strlenFrom_lt {bs : List UInt8} {n : Nat} (h : strlenFrom bs = some n) :
    n < bs.length :=
  (List.getElem?_eq_some_iff.mp (strlenFrom_eq_some h).1).1

theorem exists_strlenFrom {bs : List UInt8} {k : Nat} (h : bs[k]? = some 0) :
    ∃ n, strlenFrom bs = some n ∧ n ≤ k := by
  induction bs generalizing k with
  | nil => simp at h
  | cons b bs ih =>
      by_cases hb : b = 0
      · exact ⟨0, by simp [strlenFrom, hb], by omega⟩
      · cases k with
        | zero =>
            rw [List.getElem?_cons_zero, Option.some.injEq] at h
            exact absurd h hb
        | succ k =>
            obtain ⟨n, hn, hle⟩ := ih (by simpa using h)
            exact ⟨n + 1, by simp [strlenFrom, hb, hn], by omega⟩

theorem At.strlen {m : Memory} {p : Int} {s rest : List UInt8} (hs : 0 ∉ s)
    (h : At m p (s ++ 0 :: rest)) : strlen m p = some s.length := by
  obtain ⟨pre, post, rfl, rfl⟩ := h
  rw [Machine.strlen, if_pos (by omega), Int.toNat_natCast, List.drop_left,
    List.append_assoc, List.cons_append, strlenFrom_append hs]

theorem At.stringAt {m : Memory} {p : Int} {s rest : List UInt8} (hs : 0 ∉ s)
    (h : At m p (s ++ 0 :: rest)) : stringAt m p = some s := by
  rw [Machine.stringAt, h.strlen hs]
  exact h.left.loadBytes

/-- The NUL that `strlen` finds lies in the object. -/
theorem strlen_eq_some {m : Memory} {p : Int} {n : Nat} (h : strlen m p = some n) :
    0 ≤ p ∧ p + n < m.length ∧ loadByte m (p + n) = some 0 := by
  unfold strlen at h
  split at h
  · next hp =>
      have hnul := (strlenFrom_eq_some h).1
      have hindex : (p + n).toNat = p.toNat + n := by omega
      rw [List.getElem?_drop] at hnul
      obtain ⟨hlt, -⟩ := List.getElem?_eq_some_iff.mp hnul
      exact ⟨hp, by omega, by rw [loadByte, if_pos (by omega), hindex, hnul]⟩
  · cases h

/-- What `strlen` finds is a string. -/
theorem exists_at_of_strlen {m : Memory} {p : Int} {n : Nat} (h : strlen m p = some n) :
    ∃ s rest, s.length = n ∧ 0 ∉ s ∧ At m p (s ++ 0 :: rest) := by
  obtain ⟨hp, hlt, -⟩ := strlen_eq_some h
  rw [strlen, if_pos hp] at h
  obtain ⟨hnul, hfree⟩ := strlenFrom_eq_some h
  obtain ⟨hn, hget⟩ := List.getElem?_eq_some_iff.mp hnul
  refine ⟨(m.drop p.toNat).take n, (m.drop p.toNat).drop (n + 1), ?_, hfree, ?_⟩
  · rw [List.length_take]
    omega
  · refine ⟨m.take p.toNat, [], ?_, ?_⟩
    · rw [List.append_nil, ← hget, ← List.drop_eq_getElem_cons hn, List.take_append_drop,
        List.take_append_drop]
    · rw [List.length_take]
      omega

/-- Before a NUL of the object the scan ends. -/
theorem exists_strlen {m : Memory} {p : Int} {k : Nat} (hp : 0 ≤ p) (hk : p ≤ k)
    (h : m[k]? = some 0) : ∃ n, strlen m p = some n ∧ p + n ≤ k := by
  have hnul : (m.drop p.toNat)[k - p.toNat]? = some 0 := by
    rw [List.getElem?_drop, show p.toNat + (k - p.toNat) = k by omega, h]
  obtain ⟨n, hn, hle⟩ := exists_strlenFrom hnul
  exact ⟨n, by rw [strlen, if_pos hp, hn], by omega⟩

/-- The same for a NUL at a pointer. -/
theorem exists_strlen_of_loadByte {m : Memory} {p e : Int} (hp : 0 ≤ p) (hle : p ≤ e)
    (h : loadByte m e = some 0) : ∃ n, strlen m p = some n ∧ p + n ≤ e := by
  have he : m[e.toNat]? = some 0 := by
    rw [loadByte, if_pos (by omega)] at h
    exact h
  obtain ⟨n, hn, hsize⟩ := exists_strlen hp (by omega) he
  exact ⟨n, hn, by omega⟩

end Machine
