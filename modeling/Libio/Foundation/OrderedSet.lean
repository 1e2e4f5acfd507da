import Mathlib.Data.Int.Notation
import Mathlib.Data.List.Basic
import Mathlib.Order.Lattice

/-! # Ordered sets given by a comparison

A set of elements kept in the order of a comparison `lt`, with the operations of `std::set`: an
element is inserted unless an equivalent one is there, and erasing an element erases the one
equivalent to it. Where the comparison is that of a key in a linear order, equivalent elements are
those of equal keys. -/

namespace Libio

namespace OrderedSet

universe u v

variable {α : Type u} {β : Type v}

/-- Insert an element, unless an equivalent one is there. -/
def insertBy (lt : α → α → Bool) (a : α) : List α → List α
  | [] => [a]
  | b :: l => if lt a b then a :: b :: l else if lt b a then b :: insertBy lt a l else b :: l

/-- Erase the element equivalent to a given one. -/
def eraseBy (lt : α → α → Bool) (a : α) : List α → List α
  | [] => []
  | b :: l => if lt a b then b :: l else if lt b a then b :: eraseBy lt a l else l

/-- An insertion puts the element somewhere, or changes nothing. -/
theorem insertBy_cases (lt : α → α → Bool) (a : α) (l : List α) :
    insertBy lt a l = l ∨ ∃ l₁ l₂, l = l₁ ++ l₂ ∧ insertBy lt a l = l₁ ++ a :: l₂ := by
  induction l with
  | nil => exact .inr ⟨[], [], rfl, rfl⟩
  | cons b l ih =>
      rw [insertBy]
      split
      · exact .inr ⟨[], b :: l, rfl, rfl⟩
      · split
        · rcases ih with ih | ⟨l₁, l₂, hl, ih⟩
          · exact .inl (by rw [ih])
          · exact .inr ⟨b :: l₁, l₂, by rw [hl]; rfl, by rw [ih]; rfl⟩
        · exact .inl rfl

/-- What is in the set behind an insertion. -/
theorem mem_of_insertBy {lt : α → α → Bool} {a b : α} {l : List α} (h : b ∈ insertBy lt a l) :
    b = a ∨ b ∈ l := by
  rcases insertBy_cases lt a l with hl | ⟨l₁, l₂, rfl, hl⟩
  · exact .inr (hl ▸ h)
  · rw [hl] at h
    simp only [List.mem_append, List.mem_cons] at h ⊢
    tauto

/-- An insertion keeps what is in the set. -/
theorem mem_insertBy_of_mem {lt : α → α → Bool} {a b : α} {l : List α} (h : b ∈ l) :
    b ∈ insertBy lt a l := by
  rcases insertBy_cases lt a l with hl | ⟨l₁, l₂, rfl, hl⟩
  · rwa [hl]
  · rw [hl]
    simp only [List.mem_append, List.mem_cons] at h ⊢
    tauto

variable [LinearOrder β]

/-- The comparison of an element with those of a list is that of their keys. -/
def Compares (lt : α → α → Bool) (key : α → β) (a : α) (l : List α) : Prop :=
  ∀ b ∈ l, (lt a b = true ↔ key a < key b) ∧ (lt b a = true ↔ key b < key a)

/-- A list in strictly increasing order of keys. -/
def Sorted (key : α → β) (l : List α) : Prop := l.Pairwise (key · < key ·)

variable {lt : α → α → Bool} {key : α → β} {a : α} {l : List α}

/-- An order that agrees with the keys does so on the rest. -/
theorem Compares.tail {b : α} (h : Compares lt key a (b :: l)) : Compares lt key a l :=
  fun c hc => h c (by simp [hc])

/-- Keys of a sorted list differ. -/
theorem Sorted.eq_of_key (h : Sorted key l) {b c : α} (hb : b ∈ l) (hc : c ∈ l)
    (hk : key b = key c) : b = c := by
  induction l with
  | nil => cases hb
  | cons x l ih =>
      obtain ⟨hx, hl⟩ := List.pairwise_cons.mp h
      rcases List.mem_cons.mp hb with rfl | hb' <;> rcases List.mem_cons.mp hc with rfl | hc'
      · rfl
      · exact absurd hk (hx c hc').ne
      · exact absurd hk (hx b hb').ne'
      · exact ih hl hb' hc'

/-- A sorted list has no element twice. -/
theorem Sorted.nodup (h : Sorted key l) : l.Nodup :=
  h.imp fun hlt => fun e => absurd (e ▸ hlt) (lt_irrefl _)

/-- An element of a new key is inserted, and nothing is lost. -/
theorem mem_insertBy (hlt : Compares lt key a l) (hnew : ∀ b ∈ l, key b ≠ key a) (c : α) :
    c ∈ insertBy lt a l ↔ c = a ∨ c ∈ l := by
  induction l with
  | nil => simp [insertBy]
  | cons b l ih =>
      have hb := hlt b (by simp)
      rw [insertBy]
      by_cases hab : key a < key b
      · rw [if_pos (hb.1.mpr hab)]
        simp
      · have hba : key b < key a := lt_of_le_of_ne (not_lt.mp hab) (hnew b (by simp))
        rw [if_neg (fun h => hab (hb.1.mp h)), if_pos (hb.2.mpr hba)]
        simp only [List.mem_cons, ih hlt.tail fun c hc => hnew c (by simp [hc])]
        tauto

/-- Inserting keeps the order. -/
theorem Sorted.insertBy (h : Sorted key l) (hlt : Compares lt key a l)
    (hnew : ∀ b ∈ l, key b ≠ key a) : Sorted key (insertBy lt a l) := by
  induction l with
  | nil => simp [Sorted, OrderedSet.insertBy]
  | cons b l ih =>
      obtain ⟨hbl, hl⟩ := List.pairwise_cons.mp h
      have hb := hlt b (by simp)
      rw [OrderedSet.insertBy]
      by_cases hab : key a < key b
      · rw [if_pos (hb.1.mpr hab)]
        refine List.pairwise_cons.mpr ⟨fun c hc => ?_, h⟩
        rcases List.mem_cons.mp hc with rfl | hc
        · exact hab
        · exact hab.trans (hbl c hc)
      · have hba : key b < key a := lt_of_le_of_ne (not_lt.mp hab) (hnew b (by simp))
        have hnew' : ∀ c ∈ l, key c ≠ key a := fun c hc => hnew c (by simp [hc])
        rw [if_neg (fun h => hab (hb.1.mp h)), if_pos (hb.2.mpr hba)]
        refine List.pairwise_cons.mpr ⟨fun c hc => ?_, ih hl hlt.tail hnew'⟩
        rcases (mem_insertBy hlt.tail hnew' c).mp hc with rfl | hc
        · exact hba
        · exact hbl c hc

/-- Where the key is there, nothing is inserted. -/
theorem insertBy_of_key (h : Sorted key l) (hlt : Compares lt key a l)
    (hkey : ∃ b ∈ l, key b = key a) : insertBy lt a l = l := by
  induction l with
  | nil => simp at hkey
  | cons b l ih =>
      obtain ⟨hbl, hl⟩ := List.pairwise_cons.mp h
      obtain ⟨c, hc, hca⟩ := hkey
      have hb := hlt b (by simp)
      rw [insertBy]
      rcases List.mem_cons.mp hc with rfl | hc
      · rw [if_neg fun h => absurd hca (hb.1.mp h).ne', if_neg fun h => absurd hca (hb.2.mp h).ne]
      · -- the key stands further behind, so `b` is smaller
        have hba : key b < key a := hca ▸ hbl c hc
        rw [if_neg fun h => lt_asymm hba (hb.1.mp h), if_pos (hb.2.mpr hba),
          ih hl hlt.tail ⟨c, hc, hca⟩]

/-- An insertion keeps the order, whether the key is new or not. -/
theorem Sorted.insertBy_any (h : Sorted key l) (hlt : Compares lt key a l) :
    Sorted key (OrderedSet.insertBy lt a l) := by
  by_cases hkey : ∃ b ∈ l, key b = key a
  · rwa [insertBy_of_key h hlt hkey]
  · push Not at hkey
    exact h.insertBy hlt hkey

/-- An element is inserted behind all smaller ones. -/
theorem insertBy_append {l₁ l₂ : List α} (hlt : Compares lt key a l₁)
    (hsmall : ∀ b ∈ l₁, key b < key a) :
    insertBy lt a (l₁ ++ l₂) = l₁ ++ insertBy lt a l₂ := by
  induction l₁ with
  | nil => rfl
  | cons b l ih =>
      have hb := hlt b (by simp)
      have hba := hsmall b (by simp)
      rw [List.cons_append, insertBy, if_neg (fun h => lt_asymm hba (hb.1.mp h)),
        if_pos (hb.2.mpr hba), ih hlt.tail fun c hc => hsmall c (by simp [hc])]
      rfl

/-- Only elements of equal key are erased. -/
theorem mem_eraseBy (h : Sorted key l) (hlt : Compares lt key a l) (c : α) :
    c ∈ eraseBy lt a l ↔ c ∈ l ∧ key c ≠ key a := by
  induction l with
  | nil => simp [eraseBy]
  | cons b l ih =>
      obtain ⟨hbl, hl⟩ := List.pairwise_cons.mp h
      have hb := hlt b (by simp)
      rw [eraseBy]
      rcases lt_trichotomy (key a) (key b) with hab | hab | hba
      · rw [if_pos (hb.1.mpr hab)]
        refine ⟨fun hc => ⟨hc, ?_⟩, And.left⟩
        rcases List.mem_cons.mp hc with rfl | hc
        · exact hab.ne'
        · exact (hab.trans (hbl c hc)).ne'
      · have hirr : ¬key a < key b ∧ ¬key b < key a := by simp [hab]
        rw [if_neg (fun h => hirr.1 (hb.1.mp h)), if_neg (fun h => hirr.2 (hb.2.mp h))]
        constructor
        · intro hc
          exact ⟨by simp [hc], hab ▸ (hbl c hc).ne'⟩
        · rintro ⟨hc, hne⟩
          rcases List.mem_cons.mp hc with rfl | hc
          · exact absurd hab.symm hne
          · exact hc
      · rw [if_neg (fun h => lt_asymm hba (hb.1.mp h)), if_pos (hb.2.mpr hba)]
        simp only [List.mem_cons, ih hl hlt.tail]
        constructor
        · rintro (rfl | hc)
          · exact ⟨.inl rfl, hba.ne⟩
          · exact ⟨.inr hc.1, hc.2⟩
        · rintro ⟨rfl | hc, hne⟩
          · exact .inl rfl
          · exact .inr ⟨hc, hne⟩

/-- Erasing leaves a part of the list. -/
theorem eraseBy_sublist (lt : α → α → Bool) (a : α) (l : List α) : (eraseBy lt a l).Sublist l := by
  induction l with
  | nil => exact .slnil
  | cons b l ih =>
      rw [eraseBy]
      split
      · exact List.Sublist.refl _
      · split
        · exact ih.cons_cons b
        · exact List.sublist_cons_self b l

/-- What follows the elements of small key has large keys. -/
theorem Sorted.lt_of_mem_dropWhile (h : Sorted key l) (x : β) :
    ∀ b ∈ l.dropWhile fun b => decide (key b ≤ x), x < key b := by
  induction l with
  | nil => simp
  | cons a l ih =>
      obtain ⟨hal, hl⟩ := List.pairwise_cons.mp h
      intro b hb
      rw [List.dropWhile_cons] at hb
      by_cases hax : key a ≤ x
      · rw [if_pos (decide_eq_true hax)] at hb
        exact ih hl b hb
      · rw [if_neg (by simpa using hax)] at hb
        have hxa := not_le.mp hax
        rcases List.mem_cons.mp hb with rfl | hb
        · exact hxa
        · exact hxa.trans (hal b hb)

end OrderedSet

end Libio
