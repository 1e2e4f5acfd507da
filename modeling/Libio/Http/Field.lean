import Libio.Foundation.Entries
import Libio.Http.Parse

/-! # Header fields

A header field on the wire, with its folded lines, and what the header loop of the parser makes of
it: one entry of the map. The loop handles a header field by field, so a whole header is a fold over
its fields. -/

namespace Libio

open ByteQueue

/-- A header field: its name, the text behind the colon, and the continuation lines of a folded
field. -/
structure Field where
  name : Str
  value : Str
  folds : List Str := []
  deriving DecidableEq

/-- A text that can be the name of a field: not empty, no colon, no line end, no NUL, and no white
space at its ends. -/
structure HeaderName (name : Str) : Prop where
  ne_nil : name ≠ []
  plain : Plain name
  colon : (58 : UInt8) ∉ name
  edges : NoEdgeSpace name

instance : DecidablePred HeaderName := fun name =>
  decidable_of_iff (name ≠ [] ∧ Plain name ∧ (58 : UInt8) ∉ name ∧ NoEdgeSpace name)
    ⟨fun ⟨h, h', h'', h'''⟩ => ⟨h, h', h'', h'''⟩, fun ⟨h, h', h'', h'''⟩ => ⟨h, h', h'', h'''⟩⟩

namespace Field

/-- The bytes of a field. -/
def text (f : Field) : Str :=
  f.name ++ 58 :: f.value ++ crlf ++ f.folds.flatMap fun l => l ++ crlf

/-- A continuation line: it starts with a blank or a tab. -/
def IsFold (l : Str) : Prop := Plain l ∧ ∃ c ∈ l.head?, c = 32 ∨ c = 9

/-- A field that can stand in a header. -/
structure WellFormed (f : Field) : Prop where
  name : HeaderName f.name
  value_plain : Plain f.value
  folds_fold : ∀ l ∈ f.folds, IsFold l

/-- The value the parser stores: of several continuation lines only the last one is kept. -/
def stored (f : Field) : Str :=
  match f.folds.getLast? with
  | none => trim f.value
  | some l => trim f.value ++ ltrim l [32, 9]

/-- Enter a field in a map. -/
def enter (h : Headers) (f : Field) : Headers := h.insert f.name f.stored

end Field

/-- What may follow a complete field: nothing, or a line that does not continue it. -/
def NoFold (rest : Str) : Prop := ∀ c ∈ rest.head?, c ≠ 32 ∧ c ≠ 9

/-- The end of the input continues no line. -/
theorem noFold_nil : NoFold [] := by simp [NoFold]

/-- The empty line continues no line. -/
theorem noFold_crlf (rest : Str) : NoFold (crlf ++ rest) := by
  simp [NoFold, crlf, cr]

/-- Half a line end continues no line. -/
theorem noFold_cr : NoFold [cr] := by
  simp [NoFold, cr]

/-- The first byte of a text without edge space is no blank. -/
theorem noFold_of_noEdgeSpace {s : Str} (h : NoEdgeSpace s) : NoFold s := by
  intro c hc
  have hmem : c ∉ ws := h.1 c hc
  constructor <;> rintro rfl <;> exact hmem (by decide)

/-- What stands behind makes no difference to a text that is not empty. -/
theorem noFold_append {s t : Str} (hs : s ≠ []) (h : NoFold s) : NoFold (s ++ t) := by
  obtain ⟨c, s, rfl⟩ := List.exists_cons_of_ne_nil hs
  exact h

/-- A part of a text that is cut off at its end starts as the text does. -/
theorem noFold_of_isPrefix {s t : Str} (hst : s <+: t) (h : NoFold t) : NoFold s := by
  obtain ⟨u, rfl⟩ := hst
  cases s with
  | nil => exact noFold_nil
  | cons c s => exact h

/-- A well-formed field continues no line. -/
theorem Field.WellFormed.noFold {f : Field} (hf : f.WellFormed) (rest : Str) :
    NoFold (f.text ++ rest) := by
  rw [Field.text, List.append_assoc, List.append_assoc, List.append_assoc]
  exact noFold_append hf.name.ne_nil (noFold_of_noEdgeSpace hf.name.edges)

/-- What has arrived of a field starts as the field does. -/
theorem Field.WellFormed.noFold_prefix {f : Field} (hf : f.WellFormed) {z w : Str}
    (hcut : f.text = z ++ w) : NoFold z := by
  have hfold := hf.noFold []
  rw [List.append_nil] at hfold
  exact noFold_of_isPrefix ⟨w, hcut.symm⟩ hfold

/-- Nor do fields with the empty line behind them. -/
theorem noFold_fields {fs : List Field} (hfs : ∀ f ∈ fs, f.WellFormed) (tail : Str) :
    NoFold (fs.flatMap Field.text ++ (crlf ++ tail)) := by
  cases fs with
  | nil => exact noFold_crlf tail
  | cons f fs =>
      rw [List.flatMap_cons, List.append_assoc]
      exact (hfs f (by simp)).noFold _

/-! ## Maps -/

/-- The second of two values for a name replaces the first. -/
theorem Headers.insert_insert (h : Headers) (k v w : Str) : (h.insert k v).insert k w = h.insert k w := by
  apply Std.ExtTreeMap.ext_getElem?
  intro a
  simp only [Std.ExtTreeMap.getElem?_insert]
  split <;> rfl

/-! ## One line -/

/-- The empty line ends the header. -/
theorem readHeaders_crlf (k v : Str) (h : Headers) (rest : Str) :
    readHeaders k v h (crlf ++ rest) = (.blank, h, rest) := by
  have hpop : popLine (crlf ++ rest) = ([], rest) := by
    simpa using popLine_crlf plain_nil rest
  rw [readHeaders_eq, if_neg (by simp [crlf]), hpop]

/-- A line with a colon enters the text in front of it and the text behind it. -/
theorem readHeaders_line {name value : Str} (hname : name ≠ []) (hedge : NoFold name)
    (hcolon : (58 : UInt8) ∉ name) (hplain : Plain (name ++ 58 :: value)) (k v : Str) (h : Headers)
    (rest : Str) :
    readHeaders k v h (name ++ 58 :: value ++ (crlf ++ rest)) =
      readHeaders (trim name) (trim value) (h.insert (trim name) (trim value)) rest := by
  have hfind : find (name ++ 58 :: value) 58 0 = some name.length := find_append_cons hcolon
  have hk : substr (name ++ 58 :: value) 0 name.length = name := by simp [substr]
  have hv : (name ++ 58 :: value).drop (name.length + 1) = value := by
    rw [← List.drop_drop]
    simp
  obtain ⟨c, name', rfl⟩ := List.exists_cons_of_ne_nil hname
  have hc : ¬(c = 32 ∨ c = 9) := by
    have := hedge c rfl
    tauto
  have hpop := popLine_crlf hplain rest
  rw [readHeaders_eq, if_neg (by simp), hpop]
  simp only [List.cons_append] at hfind hk hv ⊢
  simp only [if_neg hc, hfind, hk, hv]

/-- A continuation line replaces the value of the field it continues. -/
theorem readHeaders_fold {l : Str} (hl : Field.IsFold l) {k : Str} (hk : k ≠ []) (v : Str)
    (h : Headers) (rest : Str) :
    readHeaders k v h (l ++ (crlf ++ rest)) =
      readHeaders k v (h.insert k (v ++ ltrim l [32, 9])) rest := by
  obtain ⟨hplain, c, hc, hsp⟩ := hl
  obtain ⟨l', rfl⟩ : ∃ l', l = c :: l' := by
    cases l with
    | nil => simp at hc
    | cons d l' => exact ⟨l', by simpa using hc⟩
  rw [readHeaders_eq, if_neg (by simp), popLine_crlf hplain rest]
  simp only [if_pos hsp, if_neg hk]

/-- The locals of the loop matter only to a continuation line. -/
theorem readHeaders_locals {rest : Str} (hrest : NoFold rest) (k v k' v' : Str) (h : Headers) :
    readHeaders k v h rest = readHeaders k' v' h rest := by
  rw [readHeaders_eq k v, readHeaders_eq k' v']
  by_cases hnil : rest = []
  · simp only [if_pos hnil]
  · simp only [if_neg hnil]
    split
    · rfl
    · next c line rest' hpop =>
        have hc : c ≠ 32 ∧ c ≠ 9 := hrest c (head?_popLine hpop)
        rw [if_neg (by tauto), if_neg (by tauto)]

/-! ## Whole fields -/

/-- Of several values for a name the last one stays. -/
theorem foldl_insert_same (k : Str) (g : Str → Str) (ls : List Str) (h : Headers) (x : Str) :
    ls.foldl (fun h l => h.insert k (g l)) (h.insert k x) =
      h.insert k ((ls.getLast?.map g).getD x) := by
  induction ls generalizing x with
  | nil => rfl
  | cons l ls ih =>
      rw [List.foldl_cons, Headers.insert_insert, ih]
      cases ls with
      | nil => rfl
      | cons l' ls =>
          rw [List.getLast?_cons_cons, List.getLast?_cons, Option.map_some, Option.getD_some]
          rfl

/-- The loop reads continuation lines under the name it has. -/
theorem readHeaders_folds {ls : List Str} (hls : ∀ l ∈ ls, Field.IsFold l) {k : Str} (hk : k ≠ [])
    (v : Str) (h : Headers) (rest : Str) :
    readHeaders k v h ((ls.flatMap fun l => l ++ crlf) ++ rest) =
      readHeaders k v (ls.foldl (fun h l => h.insert k (v ++ ltrim l [32, 9])) h) rest := by
  induction ls generalizing h with
  | nil => rfl
  | cons l ls ih =>
      rw [List.flatMap_cons, List.append_assoc, List.append_assoc, readHeaders_fold (hls l (by simp)) hk,
        ih fun l' hl' => hls l' (by simp [hl'])]
      rfl

namespace Field

/-- A field the header loop can read: white space may stand at the ends of its name, as long as the
line does not start with a blank or a tab. -/
structure Readable (f : Field) : Prop where
  start : NoFold f.name
  named : trim f.name ≠ []
  colon : (58 : UInt8) ∉ f.name
  name_plain : Plain f.name
  value_plain : Plain f.value
  folds_fold : ∀ l ∈ f.folds, IsFold l

/-- The key of the entry of a field. -/
def key (f : Field) : Str := trim f.name

/-- The name of a well-formed field is stored as it is. -/
theorem WellFormed.key_eq {f : Field} (hf : f.WellFormed) : f.key = f.name :=
  trim_of_noEdgeSpace hf.name.edges

/-- A well-formed field can be read. -/
theorem WellFormed.readable {f : Field} (hf : f.WellFormed) : f.Readable where
  start := noFold_of_noEdgeSpace hf.name.edges
  named := by
    rw [trim_of_noEdgeSpace hf.name.edges]
    exact hf.name.ne_nil
  colon := hf.name.colon
  name_plain := hf.name.plain
  value_plain := hf.value_plain
  folds_fold := hf.folds_fold

/-- A field that can be read has a name. -/
theorem Readable.ne_nil {f : Field} (hf : f.Readable) : f.name ≠ [] := by
  intro hnil
  apply hf.named
  rw [hnil]
  rfl

/-- A field that can be read continues no line. -/
theorem Readable.noFold {f : Field} (hf : f.Readable) (rest : Str) : NoFold (f.text ++ rest) := by
  rw [text, List.append_assoc, List.append_assoc, List.append_assoc]
  exact noFold_append hf.ne_nil hf.start

end Field

/-- A field with all its continuation lines is one entry. -/
theorem readHeaders_readable {f : Field} (hf : f.Readable) (k v : Str) (h : Headers) (rest : Str) :
    readHeaders k v h (f.text ++ rest) =
      readHeaders f.key (trim f.value) (h.insert f.key f.stored) rest := by
  have hplain : Plain (f.name ++ 58 :: f.value) := by
    simp [hf.name_plain, hf.value_plain, cr, lf]
  have hstored : f.stored =
      (f.folds.getLast?.map fun l => trim f.value ++ ltrim l [32, 9]).getD (trim f.value) := by
    unfold Field.stored
    cases f.folds.getLast? <;> rfl
  have hkey : f.key ≠ [] := hf.named
  calc readHeaders k v h (f.text ++ rest)
      = readHeaders k v h (f.name ++ 58 :: f.value ++
          (crlf ++ ((f.folds.flatMap fun l => l ++ crlf) ++ rest))) := by
        simp [Field.text]
    _ = readHeaders f.key (trim f.value) (h.insert f.key (trim f.value))
          ((f.folds.flatMap fun l => l ++ crlf) ++ rest) := by
        rw [readHeaders_line hf.ne_nil hf.start hf.colon hplain, Field.key]
    _ = readHeaders f.key (trim f.value) (h.insert f.key f.stored) rest := by
        rw [readHeaders_folds hf.folds_fold hkey, foldl_insert_same, hstored]

/-- The loop reads a well-formed field. -/
theorem readHeaders_field {f : Field} (hf : f.WellFormed) (k v : Str) (h : Headers) (rest : Str) :
    readHeaders k v h (f.text ++ rest) =
      readHeaders f.name (trim f.value) (Field.enter h f) rest := by
  rw [readHeaders_readable hf.readable, hf.key_eq]
  rfl

/-- **A header is entered field by field**, and the loop goes on behind it as if it had just
begun. -/
theorem readHeaders_fields {fs : List Field} (hfs : ∀ f ∈ fs, f.WellFormed) {rest : Str}
    (hrest : NoFold rest) (k v : Str) (h : Headers) :
    readHeaders k v h (fs.flatMap Field.text ++ rest) =
      readHeaders [] [] (fs.foldl Field.enter h) rest := by
  induction fs generalizing k v h with
  | nil => exact readHeaders_locals hrest k v [] [] h
  | cons f fs ih =>
      rw [List.flatMap_cons, List.append_assoc, readHeaders_field (hfs f (by simp)),
        ih fun f' hf' => hfs f' (by simp [hf'])]
      rfl

/-- Entering fields leaves every other key alone. -/
theorem getElem?_foldl_enter_of_ne {fs : List Field} {key : Str} (hkey : ∀ f ∈ fs, f.name ≠ key)
    (h : Headers) : (fs.foldl Field.enter h)[key]? = h[key]? :=
  getElem?_enterAll_of_ne hkey

/-- The entry of a name that only one field has. -/
theorem getElem?_foldl_enter {fs gs : List Field} {f : Field} (hgs : ∀ g ∈ gs, g.name ≠ f.name)
    (h : Headers) : ((fs ++ f :: gs).foldl Field.enter h)[f.name]? = some f.stored :=
  getElem?_enterAll hgs

/-! ## The header a map is sent as -/

/-- The fields of a map that are sent: those with a value. -/
def fieldsOf (h : Headers) : List Field :=
  (h.toList.filter fun kv => kv.2 ≠ []).map fun kv => { name := kv.1, value := str " " ++ kv.2 }

/-- Every entry of a map with a value has the property `P`. -/
def EachEntry (P : Str → Str → Prop) (h : Headers) : Prop :=
  ∀ k v, h[k]? = some v → v ≠ [] → P k v

/-- There is no entry in an empty map. -/
theorem eachEntry_empty (P : Str → Str → Prop) : EachEntry P ∅ := by simp [EachEntry]

/-- What holds of each entry and of a new one holds behind its insertion. -/
theorem EachEntry.insert {P : Str → Str → Prop} {h : Headers} (hh : EachEntry P h) {k v : Str}
    (hkv : P k v) : EachEntry P (h.insert k v) := by
  intro k' v' hget hne
  rw [Std.ExtTreeMap.getElem?_insert] at hget
  split at hget
  · next heq =>
      obtain rfl : k = k' := by simpa using heq
      obtain rfl : v = v' := by simpa using hget
      exact hkv
  · exact hh k' v' hget hne

/-- A map whose fields can be sent. -/
def Sendable (h : Headers) : Prop := EachEntry (fun k v => HeaderName k ∧ Plain v) h

/-- The lines `send_to` writes are the text of these fields. -/
theorem flatMap_headerLine (h : Headers) :
    h.toList.flatMap Request.headerLine = (fieldsOf h).flatMap Field.text := by
  unfold fieldsOf
  induction h.toList with
  | nil => rfl
  | cons kv l ih =>
      rw [List.flatMap_cons, ih, List.filter_cons]
      by_cases hv : kv.2 = []
      · simp [hv, Request.headerLine]
      · have htext : Request.headerLine kv = Field.text { name := kv.1, value := str " " ++ kv.2 } := by
          simp [Request.headerLine, hv, Field.text, str]
        simp [hv, htext]

/-- A field that is sent is an entry of the map that is not empty. -/
theorem mem_fieldsOf {h : Headers} {f : Field} (hf : f ∈ fieldsOf h) :
    ∃ v, h[f.name]? = some v ∧ v ≠ [] ∧ f = { name := f.name, value := str " " ++ v } := by
  simp only [fieldsOf, List.mem_map, List.mem_filter] at hf
  obtain ⟨⟨k, v⟩, ⟨hmem, hv⟩, rfl⟩ := hf
  exact ⟨v, Std.ExtTreeMap.mem_toList_iff_getElem?_eq_some.mp hmem, by simpa using hv, rfl⟩

/-- The fields of a map that can be sent are well formed. -/
theorem Sendable.wellFormed {h : Headers} (hh : Sendable h) : ∀ f ∈ fieldsOf h, f.WellFormed := by
  intro f hf
  obtain ⟨v, hv, hne, hfv⟩ := mem_fieldsOf hf
  obtain ⟨hk, hplain⟩ := hh f.name v hv hne
  rw [hfv]
  exact ⟨hk, plain_append.mpr ⟨by decide, hplain⟩, by simp⟩

/-- No name is sent twice. -/
theorem pairwise_fieldsOf (h : Headers) : (fieldsOf h).Pairwise fun f g => f.name ≠ g.name := by
  have hd : h.toList.Pairwise fun a b => ¬compare a.1 b.1 = .eq :=
    Std.ExtTreeMap.distinct_keys_toList
  refine List.Pairwise.map _ (fun a b hab => ?_) (hd.filter _)
  simpa using hab

/-- **What arrives of a map**: the values without the white space around them, the empty ones not at
all. -/
theorem getElem?_foldl_fieldsOf (h : Headers) (key : Str) :
    ((fieldsOf h).foldl Field.enter ∅)[key]? =
      (h[key]?.filter (· ≠ [])).map fun v => trim (str " " ++ v) := by
  by_cases hkey : ∃ f ∈ fieldsOf h, f.name = key
  · obtain ⟨f, hf, rfl⟩ := hkey
    obtain ⟨v, hv, hne, hfv⟩ := mem_fieldsOf hf
    obtain ⟨fs, gs, hsplit⟩ := List.append_of_mem hf
    have hgs : ∀ g ∈ gs, g.name ≠ f.name := by
      have hp := pairwise_fieldsOf h
      rw [hsplit, List.pairwise_append] at hp
      exact fun g hg => ((List.pairwise_cons.mp hp.2.1).1 g hg).symm
    rw [hsplit, getElem?_foldl_enter hgs, hv]
    rw [hfv]
    simp [Field.stored, hne]
  · push Not at hkey
    rw [getElem?_foldl_enter_of_ne hkey]
    cases hv : h[key]? with
    | none => simp
    | some v =>
        by_cases hne : v = []
        · simp [hne]
        · refine absurd rfl (hkey { name := key, value := str " " ++ v } ?_)
          have hmem : (key, v) ∈ h.toList := Std.ExtTreeMap.mem_toList_iff_getElem?_eq_some.mpr hv
          exact List.mem_map.mpr ⟨(key, v), List.mem_filter.mpr ⟨hmem, by simpa using hne⟩, rfl⟩

/-- **Values arrive as they were set**, when they have no white space at their ends. -/
theorem getD_foldl_fieldsOf {h : Headers} (hh : EachEntry (fun _ v => NoEdgeSpace v) h) (key : Str) :
    ((fieldsOf h).foldl Field.enter ∅)[key]?.getD [] = h[key]?.getD [] := by
  rw [getElem?_foldl_fieldsOf]
  cases hv : h[key]? with
  | none => rfl
  | some v =>
      rw [Option.filter_some]
      by_cases hne : v = []
      · simp [hne]
      · simp [hne, trim_space_cons hne (hh key v hv hne)]

end Libio
