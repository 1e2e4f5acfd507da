import Libio.Http.Field

/-! # Folded fields

What a folded header field says: its first value with all its continuation lines behind it, each
without the blanks and tabs it starts with. The header loop computes the value of a continuation from
the value of the first line, not from the one it stored last, so a continuation replaces the one
before it. A header is stored as it says exactly when no line in front of a last continuation has
anything to say. -/

namespace Libio

open ByteQueue

/-- A line of nothing but blanks and tabs. -/
def Blank (l : Str) : Prop := ∀ c ∈ l, c = 32 ∨ c = 9

instance : DecidablePred Blank := fun l => List.decidableBAll (fun c => c = 32 ∨ c = 9) l

/-- What is trimmed to nothing consists of such characters. -/
theorem ltrim_eq_nil_iff {l t : Str} : ltrim l t = [] ↔ ∀ c ∈ l, c ∈ t := by
  rw [ltrim, List.dropWhile_eq_nil_iff]
  simp

/-- A blank line is trimmed to nothing. -/
theorem blank_iff {l : Str} : Blank l ↔ ltrim l [32, 9] = [] := by
  rw [ltrim_eq_nil_iff]
  simp [Blank]

instance : DecidablePred NoFold := fun rest =>
  inferInstanceAs (Decidable (∀ c ∈ rest.head?, c ≠ 32 ∧ c ≠ 9))

namespace Field

instance : DecidablePred IsFold := fun l =>
  have : Decidable (∃ c ∈ l.head?, c = 32 ∨ c = 9) := Option.decidableExistsMem _
  inferInstanceAs (Decidable (Plain l ∧ _))

instance : DecidablePred Readable := fun f =>
  decidable_of_iff
    (NoFold f.name ∧ trim f.name ≠ [] ∧ (58 : UInt8) ∉ f.name ∧ Plain f.name ∧ Plain f.value ∧
      ∀ l ∈ f.folds, IsFold l)
    ⟨fun ⟨h₁, h₂, h₃, h₄, h₅, h₆⟩ => ⟨h₁, h₂, h₃, h₄, h₅, h₆⟩,
      fun ⟨h₁, h₂, h₃, h₄, h₅, h₆⟩ => ⟨h₁, h₂, h₃, h₄, h₅, h₆⟩⟩

/-- The value a folded field stands for. -/
def unfolded (f : Field) : Str := trim f.value ++ f.folds.flatMap fun l => ltrim l [32, 9]

/-- Every continuation line but the last is blank. -/
def FoldedOnce (f : Field) : Prop := ∀ l ∈ f.folds.dropLast, Blank l

instance : DecidablePred FoldedOnce := fun f => List.decidableBAll Blank f.folds.dropLast

/-- The stored value is the one the field stands for exactly when the lines that are lost are
blank. -/
theorem stored_eq_unfolded_iff (f : Field) : f.stored = f.unfolded ↔ f.FoldedOnce := by
  rcases List.eq_nil_or_concat f.folds with hnil | ⟨ls, l, hfolds⟩
  · simp [stored, unfolded, FoldedOnce, hnil]
  · -- both values start with the trimmed one and end with the last line
    have hunfolded : f.unfolded =
        trim f.value ++ ((ls.flatMap fun l => ltrim l [32, 9]) ++ ltrim l [32, 9]) := by
      simp [unfolded, hfolds]
    have hstored : f.stored = trim f.value ++ ltrim l [32, 9] := by
      simp [stored, hfolds]
    rw [hunfolded, hstored, List.append_cancel_left_eq, List.self_eq_append_left,
      List.flatMap_eq_nil_iff, FoldedOnce, hfolds, List.concat_eq_append, List.dropLast_concat]
    exact forall₂_congr fun _ _ => blank_iff.symm

/-- A field that is not folded, or folded once, is stored as it says. -/
theorem foldedOnce_of_length_le {f : Field} (hf : f.folds.length ≤ 1) : f.FoldedOnce := by
  have hnil : f.folds.dropLast = [] := by
    rw [← List.length_eq_zero_iff, List.length_dropLast]
    omega
  intro l hl
  rw [hnil] at hl
  exact absurd hl List.not_mem_nil

end Field

/-- The header loop enters a block of fields, white space around their names or not. -/
theorem readHeaders_block {fs : List Field} (hfs : ∀ f ∈ fs, f.Readable) (k v : Str) (h : Headers)
    (rest : Str) :
    readHeaders k v h (fs.flatMap Field.text ++ (crlf ++ rest)) =
      (.blank, enterAll Field.key Field.stored h fs, rest) := by
  induction fs generalizing k v h with
  | nil => exact readHeaders_crlf k v h rest
  | cons f fs ih =>
      rw [List.flatMap_cons, List.append_assoc, readHeaders_readable (hfs f (by simp)),
        ih fun f' hf' => hfs f' (by simp [hf'])]
      rfl

/-- **When a header block is stored as it says**: a field that is the last one of its name has only
blank lines in front of its last continuation. -/
theorem readHeaders_unfolded_iff {fs : List Field} (hfs : ∀ f ∈ fs, f.Readable) (h : Headers)
    (rest : Str) :
    readHeaders [] [] h (fs.flatMap Field.text ++ (crlf ++ rest)) =
        (.blank, enterAll Field.key Field.unfolded h fs, rest) ↔
      ∀ as f bs, fs = as ++ f :: bs → (∀ g ∈ bs, g.key ≠ f.key) → f.FoldedOnce := by
  rw [readHeaders_block hfs, Prod.mk.injEq, Prod.mk.injEq]
  simp only [true_and, and_true]
  rw [enterAll_eq_iff]
  simp only [Field.stored_eq_unfolded_iff]

/-- Fields with white space in all the places it may stand in, one of them folded twice. -/
def spacedFields : List Field :=
  [{ name := str "Host ", value := str "  somehost " },
   { name := str "X-Multi", value := str "  aaaaaaaa", folds := [str "\t ", str " a"] },
   { name := str "X-Last", value := str " last" }]

/-- A block with a blank line in front of a continuation is stored as it says. -/
theorem readHeaders_spacedFields :
    readHeaders [] [] ∅ (spacedFields.flatMap Field.text ++ (crlf ++ [])) =
      (.blank, enterAll Field.key Field.unfolded ∅ spacedFields, []) := by
  refine (readHeaders_unfolded_iff (by decide +kernel) ∅ []).mpr fun as f bs hfs _ => ?_
  have hf : f ∈ spacedFields := by simp [hfs]
  have hall : ∀ f ∈ spacedFields, f.FoldedOnce := by decide
  exact hall f hf

/-- The folded field of the tests. -/
def multilineField : Field :=
  { name := str "X-Multi", value := str "  aaaaaaaa", folds := [str " a", str "\tEND"] }

/-- The header it stands in. -/
def multilineFields : List Field :=
  [{ name := str "Host", value := str " somehost" },
   { name := str "Connection", value := str " close" }] ++
    multilineField :: [{ name := str "X-Last", value := str " last" }]

/-- The first of two continuation lines is lost: the parser stores `aaaaaaaaEND`, not
`aaaaaaaaaEND`. -/
theorem readHeaders_multilineFields :
    let text := str "Host: somehost\r\nConnection: close\r\nX-Multi:  aaaaaaaa\r\n a\r\n\tEND\r\n" ++
      str "X-Last: last\r\n\r\n"
    text = multilineFields.flatMap Field.text ++ (crlf ++ []) ∧
      (readHeaders [] [] ∅ text).2.1[str "X-Multi"]? = some (str "aaaaaaaaEND") ∧
      readHeaders [] [] ∅ text ≠
        (.blank, enterAll Field.key Field.unfolded ∅ multilineFields, []) := by
  have hread : ∀ f ∈ multilineFields, f.Readable := by decide +kernel
  -- the entry the folded field makes, whatever its value is computed by
  have hentry : ∀ val : Field → Str,
      (enterAll Field.key val ∅ multilineFields)[str "X-Multi"]? = some (val multilineField) := by
    intro val
    have hkey : multilineField.key = str "X-Multi" := by decide
    rw [← hkey]
    exact getElem?_enterAll (by decide)
  intro text
  have htext : text = multilineFields.flatMap Field.text ++ (crlf ++ []) := by decide
  have hget : (readHeaders [] [] ∅ text).2.1[str "X-Multi"]? = some (str "aaaaaaaaEND") := by
    rw [htext, readHeaders_block hread, hentry]
    decide
  refine ⟨htext, hget, fun heq => ?_⟩
  rw [heq] at hget
  simp only [hentry] at hget
  exact absurd hget (by decide)

end Libio
