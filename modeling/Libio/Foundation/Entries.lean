import Mathlib.Data.List.Basic
import Std.Data.ExtTreeMap

/-! # Maps filled from a list

A list of keys with values is entered in a map one after the other. Of several values under one key
the last one stays, so two ways to compute the values give the same map exactly when they agree on
the entries that stay. -/

namespace Libio

universe u v w

variable {α : Type u} {κ : Type v} {β : Type w} {key : α → κ}

/-- An element with some key has a last element with this key behind it, or is it. -/
theorem exists_last {l : List α} {k : κ} (hk : ∃ a ∈ l, key a = k) :
    ∃ as a bs, l = as ++ a :: bs ∧ key a = k ∧ ∀ b ∈ bs, key b ≠ k := by
  induction l with
  | nil => simp at hk
  | cons c l ih =>
      by_cases hl : ∃ a ∈ l, key a = k
      · obtain ⟨as, a, bs, rfl, ha, hbs⟩ := ih hl
        exact ⟨c :: as, a, bs, rfl, ha, hbs⟩
      · push Not at hl
        obtain ⟨a, ha, hak⟩ := hk
        obtain rfl | ha := List.mem_cons.mp ha
        · exact ⟨[], a, l, rfl, hak, hl⟩
        · exact absurd hak (hl a ha)

variable [Ord κ] [Std.TransOrd κ]

/-- Enter the elements of a list, `key` and `val` giving the key and the value of each. -/
def enterAll (key : α → κ) (val : α → β) (m : Std.ExtTreeMap κ β) (l : List α) :
    Std.ExtTreeMap κ β :=
  l.foldl (fun m a => m.insert (key a) (val a)) m

variable {val val' : α → β} {m : Std.ExtTreeMap κ β}

/-- Entering nothing changes nothing. -/
@[simp] theorem enterAll_nil : enterAll key val m [] = m := rfl

/-- The first element is entered first. -/
@[simp] theorem enterAll_cons (a : α) (l : List α) :
    enterAll key val m (a :: l) = enterAll key val (m.insert (key a) (val a)) l := rfl

/-- Two lists are entered one after the other. -/
theorem enterAll_append (l l' : List α) :
    enterAll key val m (l ++ l') = enterAll key val (enterAll key val m l) l' :=
  List.foldl_append

variable [Std.LawfulEqOrd κ]

/-- Entering leaves every other key alone. -/
theorem getElem?_enterAll_of_ne {l : List α} {k : κ} (hk : ∀ a ∈ l, key a ≠ k) :
    (enterAll key val m l)[k]? = m[k]? := by
  induction l generalizing m with
  | nil => rfl
  | cons a l ih =>
      rw [enterAll_cons, ih fun b hb => hk b (List.mem_cons_of_mem a hb),
        Std.ExtTreeMap.getElem?_insert]
      simp [hk a]

/-- The last element with a key is the entry of this key. -/
theorem getElem?_enterAll {as bs : List α} {a : α} (hbs : ∀ b ∈ bs, key b ≠ key a) :
    (enterAll key val m (as ++ a :: bs))[key a]? = some (val a) := by
  rw [enterAll_append, enterAll_cons, getElem?_enterAll_of_ne hbs,
    Std.ExtTreeMap.getElem?_insert_self]

/-- **When two ways to compute the values give the same map**: they agree on the last element of
every key. -/
theorem enterAll_eq_iff (l : List α) :
    enterAll key val m l = enterAll key val' m l ↔
      ∀ as a bs, l = as ++ a :: bs → (∀ b ∈ bs, key b ≠ key a) → val a = val' a := by
  constructor
  · intro h as a bs hl hbs
    subst hl
    have hget := congrArg (·[key a]?) h
    simp only [getElem?_enterAll hbs] at hget
    exact Option.some.inj hget
  · intro h
    apply Std.ExtTreeMap.ext_getElem?
    intro k
    by_cases hk : ∃ a ∈ l, key a = k
    · obtain ⟨as, a, bs, rfl, rfl, hbs⟩ := exists_last hk
      rw [getElem?_enterAll hbs, getElem?_enterAll hbs, h as a bs rfl hbs]
    · push Not at hk
      rw [getElem?_enterAll_of_ne hk, getElem?_enterAll_of_ne hk]

end Libio
