import Mathlib.Data.Int.Notation
import Mathlib.Data.List.Basic

/-! # Checked memory blocks

A block of memory is the list of its cells. `load` and `store` check their bounds, so a program that
runs through without `none` touches no cell outside the block. `window m i n` is what the `n` cells
from `i` on hold; the lemmas say what a store, a move to the front and a reallocation do to it. -/

namespace Libio

universe u

variable {α : Type u}

/-- The contents of the `n` cells from `i` on. -/
def window (m : List α) (i n : ℕ) : List α := (m.drop i).take n

/-- Read `n` cells from index `i` on, if they all lie in the block. -/
def load (m : List α) (i n : ℤ) : Option (List α) :=
  if 0 ≤ i ∧ 0 ≤ n ∧ i + n ≤ m.length then some (window m i.toNat n.toNat) else none

/-- Overwrite the cells from index `i` on, if they all lie in the block. -/
def store (m : List α) (i : ℤ) (xs : List α) : Option (List α) :=
  if 0 ≤ i ∧ i + xs.length ≤ m.length then
    some (m.take i.toNat ++ xs ++ m.drop (i.toNat + xs.length))
  else none

/-- A block enlarged to `n` cells: the old cells keep their contents, the new ones hold what `fill`
says. -/
def enlarge (m : List α) (n : ℕ) (fill : ℕ → α) : List α :=
  m ++ (List.range (n - m.length)).map fun k => fill (m.length + k)

/-- A block given the size `n`, larger or smaller. -/
def realloc (m : List α) (n : ℕ) (fill : ℕ → α) : List α := (enlarge m n fill).take n

/-- The block after `count` cells from index `p` on have been set to `x`, those of them that are
cells of the block. -/
def memset (m : List α) (p count : ℤ) (x : α) : List α :=
  m.mapIdx fun i c => if p ≤ i ∧ i < p + count then x else c

/-! ## Loads and stores in bounds -/

/-- A read within the block. -/
theorem load_eq_some {m : List α} {i n : ℕ} (h : i + n ≤ m.length) :
    load m i n = some (window m i n) := by
  have h' : (0 : ℤ) ≤ i ∧ (0 : ℤ) ≤ n ∧ (i : ℤ) + n ≤ m.length := by omega
  simp [load, h']

/-- A write within the block. -/
theorem store_eq_some {m xs : List α} {i : ℕ} (h : i + xs.length ≤ m.length) :
    store m i xs = some (m.take i ++ xs ++ m.drop (i + xs.length)) := by
  have h' : (0 : ℤ) ≤ i ∧ (i : ℤ) + xs.length ≤ m.length := by omega
  simp [store, h']

/-- The length of a window within the block. -/
theorem length_window {m : List α} {i n : ℕ} (h : i + n ≤ m.length) : (window m i n).length = n := by
  simp [window]; omega

/-- A window of no cells. -/
@[simp] theorem window_zero (m : List α) (i : ℕ) : window m i 0 = [] := by simp [window]

/-- The first cells of a window. -/
theorem take_window (m : List α) (i n k : ℕ) (hk : k ≤ n) :
    (window m i n).take k = window m i k := by
  simp [window, List.take_take, hk]

/-- The cells of a window behind the first `k`. -/
theorem drop_window (m : List α) (i n k : ℕ) :
    (window m i n).drop k = window m (i + k) (n - k) := by
  simp [window, List.drop_take, List.drop_drop]

/-! ## What a store does to a window -/

section Store

variable {m xs : List α} {i n : ℕ}

/-- A write keeps the length of the block. -/
theorem length_stored (h : i + xs.length ≤ m.length) :
    (m.take i ++ xs ++ m.drop (i + xs.length)).length = m.length := by
  simp; omega

/-- A store behind a window leaves it unchanged. -/
theorem window_stored_behind {j : ℕ} (hj : j + xs.length ≤ m.length) (hij : i + n ≤ j) :
    window (m.take j ++ xs ++ m.drop (j + xs.length)) i n = window m i n := by
  have hlen : (m.take j).length = j := by simp; omega
  rw [window, window, List.append_assoc, List.drop_append_of_le_length (by omega),
    List.take_append_of_le_length (by simp; omega), List.drop_take, List.take_take]
  congr 1
  omega

/-- A store in front of a window leaves it unchanged. -/
theorem window_stored_before {j : ℕ} (hj : j + xs.length ≤ m.length) (hij : j + xs.length ≤ i) :
    window (m.take j ++ xs ++ m.drop (j + xs.length)) i n = window m i n := by
  have hlen : (m.take j ++ xs).length = j + xs.length := by simp; omega
  have hdrop : (m.take j ++ xs ++ m.drop (j + xs.length)).drop i = m.drop i := by
    rw [List.drop_append, List.drop_of_length_le (by omega), List.nil_append, hlen, List.drop_drop]
    congr 1
    omega
  rw [window, window, hdrop]

/-- A store right behind a window extends it by the stored cells. -/
theorem window_stored_at_end (h : i + n + xs.length ≤ m.length) :
    window (m.take (i + n) ++ xs ++ m.drop (i + n + xs.length)) i (n + xs.length)
      = window m i n ++ xs := by
  have hlen : (m.take (i + n)).length = i + n := by simp; omega
  have hleft : (m.take (i + n)).drop i = window m i n := by
    rw [window, List.drop_take]; congr 1; omega
  rw [window, List.append_assoc, List.drop_append_of_le_length (by omega), hleft,
    ← List.append_assoc, List.take_append_of_le_length]
  · rw [List.take_of_length_le]
    simp [length_window (show i + n ≤ m.length by omega)]
  · simp [length_window (show i + n ≤ m.length by omega)]

/-- Moving a window to the front of the block keeps its contents. -/
theorem window_moved (h : i + n ≤ m.length) :
    window ((window m i n) ++ m.drop (window m i n).length) 0 n = window m i n := by
  have hlen := length_window h
  rw [window, List.drop_zero, List.take_append_of_le_length (by omega),
    List.take_of_length_le (by omega)]

end Store

/-! ## Enlarging -/

/-- The length of an enlarged block. -/
theorem length_enlarge (m : List α) {n : ℕ} (fill : ℕ → α) (h : m.length ≤ n) :
    (enlarge m n fill).length = n := by
  simp [enlarge]; omega

/-- Enlarging a block keeps every window of it. -/
theorem window_enlarge {m : List α} {i n k : ℕ} (fill : ℕ → α) (h : i + n ≤ m.length) :
    window (enlarge m k fill) i n = window m i n := by
  rw [window, window, enlarge, List.drop_append_of_le_length (by omega),
    List.take_append_of_le_length (by simp; omega)]

/-! ## Resizing and setting -/

section Resize

variable {m : List α} {n i : ℕ} {p count : ℤ} {x : α}

/-- The length of a resized block. -/
@[simp] theorem length_realloc (fill : ℕ → α) : (realloc m n fill).length = n := by
  rw [realloc, List.length_take, enlarge, List.length_append, List.length_map, List.length_range]
  omega

/-- A block that keeps its size stays as it is. -/
theorem realloc_self (fill : ℕ → α) : realloc m m.length fill = m := by
  rw [realloc, enlarge, Nat.sub_self, List.range_zero, List.map_nil, List.append_nil,
    List.take_length]

/-- Setting cells keeps the length. -/
@[simp] theorem length_memset : (memset m p count x).length = m.length := by
  rw [memset, List.length_mapIdx]

/-- A cell that is set. -/
theorem getElem?_memset (hi : i < m.length) (hp : p ≤ i) (hcount : (i : ℤ) < p + count) :
    (memset m p count x)[i]? = some x := by
  rw [memset, List.getElem?_mapIdx, List.getElem?_eq_getElem hi, Option.map_some,
    if_pos ⟨hp, hcount⟩]

/-- A cell that is not. -/
theorem getElem?_memset_of_not (h : ¬(p ≤ i ∧ (i : ℤ) < p + count)) :
    (memset m p count x)[i]? = m[i]? := by
  rw [memset, List.getElem?_mapIdx]
  cases m[i]? with
  | none => rfl
  | some c => rw [Option.map_some, if_neg h]

/-- Setting no cells changes nothing. -/
theorem memset_zero : memset m p 0 x = m := by
  refine List.ext_getElem? fun i => getElem?_memset_of_not ?_
  omega

end Resize

end Libio
