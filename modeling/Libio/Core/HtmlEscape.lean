import Libio.Core.Text

/-! # HTML escaping

The comment on `htmlescape` in `core/string.hh` documents a substitution of single characters
(`documentedEscape`), which `unescape` undoes. The five passes compute another one: the last pass
escapes what the others have written, and the texts lack the semicolon. The two agree exactly on
strings with none of the five characters (`escapesWell_iff`). -/

namespace Libio

/-- The five characters that are escaped: `<`, `>`, `"`, `'` and `&`. -/
def specials : List UInt8 := [60, 62, 34, 39, 38]

/-- What the comment documents for one character. -/
def entity (c : UInt8) : Str :=
  if c = 60 then str "&lt;"
  else if c = 62 then str "&gt;"
  else if c = 34 then str "&quot;"
  else if c = 39 then str "&#039;"
  else if c = 38 then str "&amp;"
  else [c]

/-- The escaping the comment documents. -/
def documentedEscape (s : Str) : Str := s.flatMap entity

/-- Put the characters back for which the documented texts stand. -/
def unescape : Str → Str
  | 38 :: 108 :: 116 :: 59 :: s => 60 :: unescape s
  | 38 :: 103 :: 116 :: 59 :: s => 62 :: unescape s
  | 38 :: 113 :: 117 :: 111 :: 116 :: 59 :: s => 34 :: unescape s
  | 38 :: 35 :: 48 :: 51 :: 57 :: 59 :: s => 39 :: unescape s
  | 38 :: 97 :: 109 :: 112 :: 59 :: s => 38 :: unescape s
  | c :: s => c :: unescape s
  | [] => []

/-- What the five passes make of one character. -/
def passes (c : UInt8) : Str :=
  if c = 60 then str "&amplt"
  else if c = 62 then str "&ampgt"
  else if c = 34 then str "&ampquot"
  else if c = 39 then str "&amp#039"
  else if c = 38 then str "&amp"
  else [c]

/-- A character is one of the five, or is left alone. -/
theorem specials_cases (c : UInt8) : c = 60 ∨ c = 62 ∨ c = 34 ∨ c = 39 ∨ c = 38 ∨ c ∉ specials := by
  by_cases h : c ∈ specials
  · simp only [specials, List.mem_cons, List.not_mem_nil, or_false] at h
    tauto
  · simp only [h, not_false_eq_true, or_true]

/-- Another character stands for itself in the documented text. -/
theorem entity_plain {c : UInt8} (h : c ∉ specials) : entity c = [c] := by
  simp only [specials, List.mem_cons, List.not_mem_nil, or_false, not_or] at h
  obtain ⟨h1, h2, h3, h4, h5⟩ := h
  simp only [entity, if_neg h1, if_neg h2, if_neg h3, if_neg h4, if_neg h5]

/-- It is left alone by the passes, too. -/
theorem passes_plain {c : UInt8} (h : c ∉ specials) : passes c = [c] := by
  simp only [specials, List.mem_cons, List.not_mem_nil, or_false, not_or] at h
  obtain ⟨h1, h2, h3, h4, h5⟩ := h
  simp only [passes, if_neg h1, if_neg h2, if_neg h3, if_neg h4, if_neg h5]

/-- There is nothing to escape in the empty string. -/
@[simp] theorem documentedEscape_nil : documentedEscape [] = [] := rfl

/-- The documented escaping goes by characters. -/
@[simp] theorem documentedEscape_cons (c : UInt8) (s : Str) :
    documentedEscape (c :: s) = entity c ++ documentedEscape s := rfl

/-! ## What the comment promises -/

/-- A character other than the ampersand stays. -/
theorem unescape_cons {c : UInt8} (h : c ≠ 38) (s : Str) : unescape (c :: s) = c :: unescape s := by
  rw [unescape.eq_def]
  split <;> simp_all

/-- **The documented escaping is undone** by putting the characters back. -/
theorem unescape_documentedEscape (s : Str) : unescape (documentedEscape s) = s := by
  induction s with
  | nil => rfl
  | cons c s ih =>
      rw [documentedEscape_cons]
      rcases specials_cases c with rfl | rfl | rfl | rfl | rfl | hc
      · rw [show entity 60 = [38, 108, 116, 59] from rfl]
        exact congrArg _ ih
      · rw [show entity 62 = [38, 103, 116, 59] from rfl]
        exact congrArg _ ih
      · rw [show entity 34 = [38, 113, 117, 111, 116, 59] from rfl]
        exact congrArg _ ih
      · rw [show entity 39 = [38, 35, 48, 51, 57, 59] from rfl]
        exact congrArg _ ih
      · rw [show entity 38 = [38, 97, 109, 112, 59] from rfl]
        exact congrArg _ ih
      · have hamp : c ≠ 38 := fun h => hc (by simp [specials, h])
        rw [entity_plain hc, List.singleton_append, unescape_cons hamp, ih]

/-! ## What the passes compute -/

/-- A pass after another is one substitution. -/
theorem replace_flatMap (s : Str) (f : UInt8 → Str) (c : UInt8) (new : Str) :
    replace (s.flatMap f) c new = s.flatMap fun x => replace (f x) c new := by
  rw [replace, List.flatMap_assoc]
  rfl

/-- **The five passes** are one substitution of single characters. -/
theorem htmlescape_eq (s : Str) : htmlescape s = s.flatMap passes := by
  have hfirst : replace s 60 (str "&lt") = s.flatMap fun x => replace [x] 60 (str "&lt") := by
    rw [← replace_flatMap s (fun x => [x]), List.flatMap_singleton']
  simp only [htmlescape, hfirst, replace_flatMap]
  congr 1
  funext c
  rcases specials_cases c with rfl | rfl | rfl | rfl | rfl | hc
  iterate 5 decide +kernel
  rw [passes_plain hc]
  simp only [specials, List.mem_cons, List.not_mem_nil, or_false, not_or] at hc
  obtain ⟨h1, h2, h3, h4, h5⟩ := hc
  simp only [replace, List.flatMap_cons, List.flatMap_nil, List.append_nil, if_neg h1, if_neg h2,
    if_neg h3, if_neg h4, if_neg h5]

/-- The passes leave the empty string alone. -/
@[simp] theorem htmlescape_nil : htmlescape [] = [] := rfl

/-- The passes go by characters, taken together. -/
theorem htmlescape_cons (c : UInt8) (s : Str) : htmlescape (c :: s) = passes c ++ htmlescape s := by
  rw [htmlescape_eq, htmlescape_eq, List.flatMap_cons]

/-- A string with none of the five characters is left alone, by both. -/
theorem htmlescape_plain {s : Str} (h : ∀ c ∈ s, c ∉ specials) :
    htmlescape s = s ∧ documentedEscape s = s := by
  induction s with
  | nil => exact ⟨rfl, rfl⟩
  | cons c s ih =>
      simp only [List.mem_cons, forall_eq_or_imp] at h
      obtain ⟨h1, h2⟩ := ih h.2
      rw [htmlescape_cons, documentedEscape_cons, passes_plain h.1, entity_plain h.1, h1, h2]
      exact ⟨rfl, rfl⟩

/-- Every one of the five leaves an ampersand. -/
theorem amp_mem_htmlescape {c : UInt8} {s : Str} (hc : c ∈ specials) (hs : c ∈ s) :
    (38 : UInt8) ∈ htmlescape s := by
  rw [htmlescape_eq, List.mem_flatMap]
  refine ⟨c, hs, ?_⟩
  rcases specials_cases c with rfl | rfl | rfl | rfl | rfl | h
  iterate 5 decide +kernel
  exact absurd hc h

/-- The passes do not write a semicolon in front of what is documented. -/
theorem htmlescape_ne_semicolon (s : Str) : htmlescape s ≠ 59 :: documentedEscape s := by
  induction s with
  | nil => simp
  | cons c s ih =>
      intro h
      rw [htmlescape_cons, documentedEscape_cons] at h
      rcases specials_cases c with rfl | rfl | rfl | rfl | rfl | hc
      -- an escape starts with an ampersand
      iterate 5
        have := congrArg List.head? h
        simp [passes, str] at this
      rw [passes_plain hc, entity_plain hc, List.singleton_append, List.singleton_append] at h
      obtain ⟨rfl, h⟩ := List.cons.inj h
      exact ih h

/-- Where both agree, none of the five characters occurs. -/
theorem plain_of_htmlescape_eq {s : Str} (h : htmlescape s = documentedEscape s) :
    ∀ c ∈ s, c ∉ specials := by
  induction s with
  | nil => simp
  | cons c s ih =>
      rw [htmlescape_cons, documentedEscape_cons] at h
      rcases specials_cases c with rfl | rfl | rfl | rfl | rfl | hc
      -- the texts differ at their second byte
      iterate 4
        have := congrArg (fun l : Str => l[1]?) h
        simp [passes, entity, str] at this
      · -- `&` is written without its semicolon
        have hamp : str "&amp" ++ htmlescape s = str "&amp" ++ (59 :: documentedEscape s) := h
        exact absurd (List.append_cancel_left hamp) (htmlescape_ne_semicolon s)
      · rw [passes_plain hc, entity_plain hc] at h
        simp only [List.mem_cons, forall_eq_or_imp]
        exact ⟨hc, ih (List.append_cancel_left h)⟩

/-- What the comment promises for one string: it is escaped character by character, unescaping gives
it back, and no other string has the same escape. -/
structure EscapesWell (s : Str) : Prop where
  documented : htmlescape s = documentedEscape s
  undone : unescape (htmlescape s) = s
  unique : ∀ t, htmlescape t = htmlescape s → t = s

/-- **`htmlescape` does what its comment says** exactly for strings with none of the five
characters. -/
theorem escapesWell_iff (s : Str) : EscapesWell s ↔ ∀ c ∈ s, c ∉ specials := by
  constructor
  · exact fun h => plain_of_htmlescape_eq h.documented
  · intro h
    obtain ⟨hcode, hdoc⟩ := htmlescape_plain h
    refine ⟨hcode.trans hdoc.symm, ?_, fun t ht => ?_⟩
    · rw [hcode.trans hdoc.symm, unescape_documentedEscape]
    · rw [hcode] at ht
      have hamp : (38 : UInt8) ∉ s := fun hmem => h 38 hmem (by decide)
      have htplain : ∀ c ∈ t, c ∉ specials := fun c hc hspecial =>
        hamp (ht ▸ amp_mem_htmlescape hspecial hc)
      rw [← ht, (htmlescape_plain htplain).1]

/-- `<` becomes `&amplt`, and so does the text `&lt`. -/
theorem htmlescape_less : htmlescape (str "<") = str "&amplt" ∧
    documentedEscape (str "<") = str "&lt;" ∧ htmlescape (str "&lt") = htmlescape (str "<") ∧
    ¬EscapesWell (str "<") := by
  refine ⟨by decide +kernel, by decide +kernel, by decide +kernel, fun h => ?_⟩
  exact absurd (h.unique (str "&lt") (by decide +kernel)) (by decide)

end Libio
