import Libio.Http.Folding
import Libio.Http.HeaderCase

/-! # The numbers in a message

Three fields of a message are numbers: the code of a status line, the value of a `Content-Length` and
the size of a chunk. Where they stand is for the grammar of messages to say. `Request.HasNumber` finds
them in the bytes a call is given, whether the parser converts them or not, and `Request.Refused` says
which bytes are refused for another reason: a first line or a header line that is none, or a length or
a size that is negative. -/

namespace Libio

open ByteQueue

/-- The fields that are numbers. -/
inductive NumericKind
  | responseCode
  | contentLength
  | chunkSize
  deriving DecidableEq, Repr

/-- The text of such a field, without the white space around a header value. -/
structure NumericField where
  kind : NumericKind
  text : Str
  deriving DecidableEq

namespace NumericField

variable (f : NumericField)

/-- The base of the number. -/
def base : ℕ := if f.kind = .chunkSize then 16 else 10

/-- The smallest value of the type it is converted to. -/
def lo : ℤ := if f.kind = .responseCode then intMin else longMin

/-- The largest value of the type it is converted to. -/
def hi : ℤ := if f.kind = .responseCode then intMax else longMax

/-- The conversion. -/
def value : Except Fault ℤ := convert f.base f.lo f.hi f.text

/-- The text is a number and nothing else, in the range of its type. -/
def IsNumber : Prop :=
  ∃ sign ds, sign ∈ [str "", str "+", str "-"] ∧ f.text = sign ++ ds ∧ ds ≠ [] ∧
    (∀ c ∈ ds, isDigit f.base c) ∧
    f.lo ≤ (if sign = str "-" then -(digitsVal f.base ds : ℤ) else digitsVal f.base ds) ∧
    (if sign = str "-" then -(digitsVal f.base ds : ℤ) else digitsVal f.base ds) ≤ f.hi

end NumericField

/-! ## Header lines -/

/-- At most `fuel` lines of `headerLines`. -/
def headerLinesLoop : ℕ → Str → List Str × Option Str
  | 0, _ => ([], none)
  | fuel + 1, buf =>
      if buf = [] then ([], none)
      else
        match popLine buf with
        | ([], rest) => ([], some rest)
        | (c :: line, rest) =>
            let (lines, tail) := headerLinesLoop fuel rest
            ((c :: line) :: lines, tail)

/-- The lines of a header and what follows the empty line behind them, if it has arrived. A line that
has not arrived whole is handed out as an empty one. -/
def headerLines (buf : Str) : List Str × Option Str := headerLinesLoop buf.length buf

/-- Add a line to the fields in front of it, the latest first: a line that starts with a blank or a
tab continues the latest field, any other is a name and a value. -/
def addLine (fs : List Field) (line : Str) : Option (List Field) :=
  if NoFold line then
    (find line 58 0).map fun pos =>
      { name := substr line 0 pos, value := line.drop (pos + 1) } :: fs
  else
    match fs with
    | [] => none
    | f :: fs => if f.key = [] then none else some ({ f with folds := f.folds ++ [line] } :: fs)

/-- The fields of a header, when all its lines belong to one. -/
def fieldsIn (lines : List Str) : Option (List Field) :=
  (lines.foldlM addLine []).map List.reverse

/-- A text without the blanks and tabs around it. -/
def trimBlanks (s : Str) : Str := ltrim (rtrim s [32, 9]) [32, 9]

namespace Field

variable (f : Field)

/-- What a field says, folded or not. -/
def content : Str := trimBlanks (f.value ++ f.folds.flatten)

/-- The field is a `Content-Length`, in any letter case. -/
def IsLength : Prop := SameLetters f.key (str "Content-Length")

instance : DecidablePred IsLength := fun f => inferInstanceAs (Decidable (SameLetters f.key _))

end Field

/-- The header ends in this input, with these fields and this rest behind it. -/
structure Opens (buf : Str) (fs : List Field) (rest : Str) : Prop where
  fields : fieldsIn (headerLines buf).1 = some fs
  blank : (headerLines buf).2 = some rest

/-! ## The fields of a message that are numbers -/

/-- The code in a status line: what stands between its first two blanks. -/
def LineNumber (kind : RequestKind) (line : Str) (f : NumericField) : Prop :=
  kind = .response ∧ ∃ protocol code reason,
    threeFields line = some (protocol, code, reason) ∧ f = ⟨.responseCode, code⟩

/-- A `Content-Length` in the lines of a header, be it looked up or not. -/
def HeaderNumber (buf : Str) (f : NumericField) : Prop :=
  ∃ fs, fieldsIn (headerLines buf).1 = some fs ∧
    ∃ g ∈ fs, g.IsLength ∧ f = ⟨.contentLength, g.content⟩

/-- A `Content-Length` of an earlier input. An empty entry is none: `operator[]` makes one for every
name that is looked up. -/
def EntryNumber (h : Headers) (f : NumericField) : Prop :=
  ∃ k v, h[k]? = some v ∧ SameLetters k (str "Content-Length") ∧ v ≠ [] ∧
    f = ⟨.contentLength, trimBlanks v⟩

/-- The size in a size line, without the extensions behind a semicolon. -/
def sizeField (line : Str) : NumericField := ⟨.chunkSize, line.takeWhile (· ≠ 59)⟩

/-- A number in a chunked body: the sizes of its chunks, and the lengths in its trailer. -/
inductive ChunkNumber : Str → NumericField → Prop
  | size {buf : Str} (hbuf : buf ≠ []) : ChunkNumber buf (sizeField (popLine buf).1)
  | chunk {buf : Str} {n : ℤ} {f : NumericField} (hsize : (sizeField (popLine buf).1).value = .ok n)
      (hpos : 0 < n) (hn : n ≤ (popLine buf).2.length)
      (rest : ChunkNumber ((popLine buf).2.drop (n.toNat + 2)) f) : ChunkNumber buf f
  | trailer {buf : Str} {f : NumericField} (hsize : (sizeField (popLine buf).1).value = .ok 0)
      (rest : HeaderNumber (popLine buf).2 f) : ChunkNumber buf f

/-- The header says that the body is chunked, in any letter case. -/
def SaysChunked (h : Headers) : Prop :=
  ∃ k v, h[k]? = some v ∧ SameLetters k (str "Transfer-Encoding") ∧ SameLetters v (str "chunked")

/-- A number in a body. -/
def BodyNumber (h : Headers) (buf : Str) (f : NumericField) : Prop :=
  SaysChunked h ∧ ChunkNumber buf f

/-- The map a header leaves. -/
def headersBehind (h : Headers) (fs : List Field) : Headers := enterAll Field.key Field.stored h fs

/-- A number in a header, or in the body that follows it if the message has one. -/
def SectionNumber (body : Prop) (h : Headers) (buf : Str) (f : NumericField) : Prop :=
  HeaderNumber buf f ∨ ∃ fs rest, Opens buf fs rest ∧ body ∧ BodyNumber (headersBehind h fs) rest f

/-- The message with this first line may have a body: a POST, and a response with a code that allows
one. -/
def LineBody : RequestKind → Str → Prop
  | .request, line => ∃ uri protocol, threeFields line = some (str "POST", uri, protocol)
  | .response, line => ∃ protocol code reason n, threeFields line = some (protocol, code, reason) ∧
      stoi code = .ok n ∧ ¬(httpCode n = httpNocontent ∨ httpCode n = httpNotmodified ∨
        (100 ≤ httpCode n ∧ httpCode n < 200))

/-! ## Input that is refused -/

/-- A chunked body in which the size of a chunk is negative, or a trailer line belongs to no
field. -/
inductive ChunksRefused : Str → Prop
  | negative {buf : Str} {n : ℤ} (hsize : stol 16 (popLine buf).1 = .ok n) (hneg : n < 0) :
      ChunksRefused buf
  | chunk {buf : Str} {n : ℤ} (hsize : stol 16 (popLine buf).1 = .ok n) (hpos : 0 < n)
      (hn : n ≤ (popLine buf).2.length)
      (rest : ChunksRefused ((popLine buf).2.drop (n.toNat + 2))) : ChunksRefused buf
  | trailer {buf : Str} (hsize : stol 16 (popLine buf).1 = .ok 0)
      (hbad : fieldsIn (headerLines (popLine buf).2).1 = none) : ChunksRefused buf

/-- A body that is refused: by its chunks, or because its length is negative. -/
def BodyRefused (h : Headers) (buf : Str) : Prop :=
  if h[str "Transfer-Encoding"]?.getD [] = str "chunked" then ChunksRefused buf
  else ∃ n, stol 10 (h[str "Content-Length"]?.getD []) = .ok n ∧ n < 0

/-- A header with a line that belongs to no field, or in front of a body that is refused. -/
def SectionRefused (body : Prop) (h : Headers) (buf : Str) : Prop :=
  fieldsIn (headerLines buf).1 = none ∨
    ∃ fs rest, Opens buf fs rest ∧ body ∧ BodyRefused (headersBehind h fs) rest

/-- A first line without two blanks, or with a method or a protocol that is not known. -/
def LineRefused (kind : RequestKind) (line : Str) : Prop :=
  threeFields line = none ∨ ∃ a b c, threeFields line = some (a, b, c) ∧
    match kind with
    | .request => requestType a = none ∨ protocolVersion c = none
    | .response => protocolVersion a = none

/-- A first line that leads on to the header. -/
def LineAccepted (kind : RequestKind) (line : Str) : Prop :=
  ∃ a b c, threeFields line = some (a, b, c) ∧
    match kind with
    | .request => requestType a ≠ none ∧ protocolVersion c ≠ none
    | .response => protocolVersion a ≠ none ∧ ∃ n, stoi b = .ok n

namespace Request

variable (r : Request) (buf : Str)

/-- The numbers of the message in the state and in the input of a call. -/
def HasNumber (f : NumericField) : Prop :=
  EntryNumber r.headers f ∨
    match r.status with
    | .readingFirstline =>
        let (line, rest) := popLine buf
        line ≠ [] ∧ (LineNumber r.kind line f ∨
          SectionNumber (LineBody r.kind line) r.headers rest f)
    | .readingHeaders => SectionNumber (r.bodyless = .ok false) r.headers buf f
    | .readingBody => BodyNumber r.headers buf f
    | .readingTrailer => HeaderNumber buf f

/-- The input of a call is refused for a reason other than a number. -/
def Refused : Prop :=
  match r.status with
  | .readingFirstline =>
      let (line, rest) := popLine buf
      line ≠ [] ∧ (LineRefused r.kind line ∨ LineAccepted r.kind line ∧
        SectionRefused (LineBody r.kind line) r.headers rest)
  | .readingHeaders => SectionRefused (r.bodyless = .ok false) r.headers buf
  | .readingBody => BodyRefused r.headers buf
  | .readingTrailer => fieldsIn (headerLines buf).1 = none

end Request

/-! ## Padded texts -/

/-- Bytes that are all trimmed are trimmed in front of a text. -/
theorem ltrim_append {a s t : Str} (ha : ∀ c ∈ a, c ∈ t) : ltrim (a ++ s) t = ltrim s t :=
  List.dropWhile_append_of_pos (by simpa using ha)

/-- Bytes that are all trimmed are trimmed behind a text. -/
theorem rtrim_append {b s t : Str} (hb : ∀ c ∈ b, c ∈ t) : rtrim (s ++ b) t = rtrim s t := by
  unfold rtrim List.rdropWhile
  rw [List.reverse_append, List.dropWhile_append_of_pos]
  simpa using hb

/-- A text without bytes that are trimmed is what trimming leaves of it with such bytes around. -/
theorem trim_padded {a s b t : Str} (ha : ∀ c ∈ a, c ∈ t) (hb : ∀ c ∈ b, c ∈ t)
    (hs : ∀ c ∈ s, c ∉ t) (hne : s ≠ []) : ltrim (rtrim (a ++ s ++ b) t) t = s := by
  have hlast : rtrim (a ++ s) t = a ++ s := by
    refine rtrim_of_getLast fun c hc => hs c ?_
    rw [List.getLast?_append_of_ne_nil a hne] at hc
    exact List.mem_of_mem_getLast? hc
  rw [rtrim_append hb, hlast, ltrim_append ha]
  exact ltrim_of_head fun c hc => hs c (List.mem_of_mem_head? hc)

/-- Trimming cuts off bytes that are all trimmed. -/
theorem exists_padding (s t : Str) : ∃ a b, (∀ c ∈ a, c ∈ t) ∧ (∀ c ∈ b, c ∈ t) ∧
    s = a ++ ltrim (rtrim s t) t ++ b := by
  refine ⟨(rtrim s t).takeWhile (· ∈ t), s.rtakeWhile (· ∈ t), fun c hc => ?_, fun c hc => ?_, ?_⟩
  · simpa using List.mem_takeWhile_imp hc
  · simpa using List.mem_rtakeWhile_imp hc
  · rw [ltrim, List.takeWhile_append_dropWhile, rtrim, List.rdropWhile_append_rtakeWhile]

/-- A text in which nothing is trimmed anywhere. -/
structure Word (s : Str) : Prop where
  ne_nil : s ≠ []
  noSpace : ∀ c ∈ s, c ∉ ws

/-- A blank or a tab is white space. -/
theorem blank_mem_ws {c : UInt8} (hc : c ∈ ([32, 9] : Str)) : c ∈ ws := by
  rcases List.mem_pair.mp hc with rfl | rfl
  · decide
  · decide

/-- A word has no blank and no tab. -/
theorem Word.noBlank {s : Str} (hs : Word s) : ∀ c ∈ s, c ∉ ([32, 9] : Str) :=
  fun c hc hbl => hs.noSpace c hc (blank_mem_ws hbl)

/-- A text is a word with blanks and tabs around it. -/
theorem Word.trimBlanks_iff {s w : Str} (hw : Word w) : trimBlanks s = w ↔
    ∃ a b, (∀ c ∈ a, c ∈ ([32, 9] : Str)) ∧ (∀ c ∈ b, c ∈ ([32, 9] : Str)) ∧ s = a ++ w ++ b := by
  constructor
  · rintro rfl
    exact exists_padding s [32, 9]
  · rintro ⟨a, b, ha, hb, rfl⟩
    exact trim_padded ha hb hw.noBlank hw.ne_nil

/-- `trim` finds the same word. -/
theorem Word.trim_eq {s w : Str} (hw : Word w) (h : trimBlanks s = w) : trim s = w := by
  obtain ⟨a, b, ha, hb, rfl⟩ := hw.trimBlanks_iff.mp h
  exact trim_padded (fun c hc => blank_mem_ws (ha c hc)) (fun c hc => blank_mem_ws (hb c hc))
    hw.noSpace hw.ne_nil

/-- Blanks and tabs are trimmed to nothing. -/
theorem trim_blank {s : Str} (hs : ∀ c ∈ s, c ∈ ([32, 9] : Str)) : trim s = [] := by
  have hnil : rtrim s ws = [] := by
    rw [rtrim, List.rdropWhile_eq_nil_iff]
    simpa using fun c hc => blank_mem_ws (hs c hc)
  rw [trim, hnil]
  rfl

/-- A word that a text and the continuation lines behind it say is said by one of the two: a
continuation starts with a blank, and a word has none. -/
theorem Word.of_append {a b w : Str} (hw : Word w) (hb : b ≠ [] → ¬NoFold b)
    (h : trimBlanks (a ++ b) = w) :
    ((∀ c ∈ b, c ∈ ([32, 9] : Str)) ∧ trimBlanks a = w) ∨
      ((∀ c ∈ a, c ∈ ([32, 9] : Str)) ∧ trimBlanks b = w) := by
  obtain ⟨x, y, hx, hy, hxy⟩ := hw.trimBlanks_iff.mp h
  rcases List.append_eq_append_iff.mp hxy with ⟨z, hz, rfl⟩ | ⟨z, rfl, rfl⟩
  · -- `b` starts in front of the end of the word
    rcases List.append_eq_append_iff.mp hz with ⟨u, rfl, rfl⟩ | ⟨u, rfl, rfl⟩
    · cases z with
      | nil => exact .inl ⟨hy, hw.trimBlanks_iff.mpr ⟨x, [], hx, by simp, by simp⟩⟩
      | cons c z =>
          refine absurd (fun d hd => ?_) (hb (by simp))
          obtain rfl : c = d := by simpa using hd
          simpa using hw.noBlank c (by simp)
    · exact .inr ⟨fun c hc => hx c (by simp [hc]), hw.trimBlanks_iff.mpr
        ⟨u, y, fun c hc => hx c (by simp [hc]), hy, rfl⟩⟩
  · exact .inl ⟨fun c hc => hy c (by simp [hc]), hw.trimBlanks_iff.mpr
      ⟨x, z, hx, fun c hc => hy c (by simp [hc]), rfl⟩⟩

/-- The text in front of a word does not matter to trimming when it is blank. -/
theorem Word.trimBlanks_ltrim {s w : Str} (hw : Word w) (h : trimBlanks s = w) :
    trimBlanks (ltrim s [32, 9]) = w := by
  obtain ⟨a, b, ha, hb, rfl⟩ := hw.trimBlanks_iff.mp h
  obtain ⟨c, w, rfl⟩ := List.exists_cons_of_ne_nil hw.ne_nil
  rw [List.append_assoc, ltrim_append ha, List.cons_append,
    ltrim_of_head (by simpa using hw.noBlank c (by simp))]
  exact hw.trimBlanks_iff.mpr ⟨[], b, by simp, hb, rfl⟩

/-- **A field that says a word** is stored as that word, or as nothing where the line that says it is
replaced by a blank one. -/
theorem Field.stored_of_content {f : Field} (hf : ∀ l ∈ f.folds, ¬NoFold l) {w : Str} (hw : Word w)
    (h : f.content = w) : f.stored = [] ∨ trimBlanks f.stored = w := by
  have hflat : ∀ ls ⊆ f.folds, ls.flatten ≠ [] → ¬NoFold ls.flatten := by
    intro ls hls hne
    cases ls with
    | nil => exact absurd rfl hne
    | cons l ls =>
        have hl := hf l (hls (by simp))
        cases l with
        | nil => exact absurd noFold_nil hl
        | cons c l => exact hl
  rcases List.eq_nil_or_concat f.folds with hnil | ⟨ls, l, hfolds⟩
  · right
    have hvalue : trimBlanks f.value = w := by simpa [content, hnil] using h
    have hstored : f.stored = w := by simp [stored, hnil, hw.trim_eq hvalue]
    rw [hstored]
    exact hw.trimBlanks_iff.mpr ⟨[], [], by simp, by simp, by simp⟩
  · have hstored : f.stored = trim f.value ++ ltrim l [32, 9] := by simp [stored, hfolds]
    rw [hstored]
    rcases hw.of_append (hflat _ (List.Subset.refl _)) h with ⟨hblank, hvalue⟩ | ⟨hblank, hrest⟩
    · right
      have hl : ltrim l [32, 9] = [] :=
        ltrim_eq_nil_iff.mpr fun c hc => hblank c (by simp [hfolds, hc])
      rw [hl, hw.trim_eq hvalue]
      exact hw.trimBlanks_iff.mpr ⟨[], [], by simp, by simp, by simp⟩
    · rw [trim_blank hblank, List.nil_append]
      rw [hfolds, List.concat_eq_append, List.flatten_append, List.flatten_singleton] at hrest
      have hlast : l ≠ [] → ¬NoFold l := fun _ => hf l (by simp [hfolds])
      rcases hw.of_append hlast hrest with ⟨hl, -⟩ | ⟨-, hl⟩
      · exact .inl (ltrim_eq_nil_iff.mpr hl)
      · exact .inr (hw.trimBlanks_ltrim hl)

/-! ## Conversions -/

namespace NumericField

variable {f : NumericField}

/-- A number has no white space in it. -/
theorem IsNumber.word (h : f.IsNumber) : Word f.text := by
  obtain ⟨sign, ds, hsign, htext, hds, hdigits, -⟩ := h
  refine ⟨by simp [htext, hds], fun c hc => ?_⟩
  rw [htext, List.mem_append] at hc
  rcases hc with hc | hc
  · have hall : ∀ sign ∈ [str "", str "+", str "-"], sign.all (· ∉ ws) = true := by decide
    simpa using List.all_eq_true.mp (hall sign hsign) c hc
  · simpa [isspace] using (isDigit_spec (hdigits c hc)).1

/-- **A number in range is converted**, whatever ends it. -/
theorem IsNumber.converted (h : f.IsNumber) : ∃ n, f.value = .ok n ∧
    ∀ pre post : Str, (∀ c ∈ pre, isspace c) → StopsDigits f.base post →
      convert f.base f.lo f.hi (pre ++ (f.text ++ post)) = .ok n := by
  obtain ⟨sign, ds, hsign, htext, hds, hdigits, hlo, hhi⟩ := h
  have hconv : ∀ pre post : Str, (∀ c ∈ pre, isspace c) → StopsDigits f.base post →
      convert f.base f.lo f.hi (pre ++ (f.text ++ post)) =
        .ok (if sign = str "-" then -(digitsVal f.base ds : ℤ) else digitsVal f.base ds) := by
    intro pre post hpre hpost
    rw [convert, htext, strtol_spaces hpre, List.append_assoc,
      strtol_signed hsign hds hdigits hpost]
    exact if_pos ⟨hlo, hhi⟩
  refine ⟨_, ?_, hconv⟩
  have := hconv [] [] (by simp) (stopsDigits_nil _)
  rwa [List.nil_append, List.append_nil] at this

end NumericField

/-- They stop the digits in front of them. -/
theorem stopsDigits_blank {b : ℕ} {s : Str} (hs : ∀ c ∈ s, c ∈ ([32, 9] : Str)) : StopsDigits b s := by
  intro c hc
  rcases List.mem_pair.mp (hs c (List.mem_of_mem_head? hc)) with rfl | rfl
  · exact ⟨by simp [isDigit, show digitVal 32 = none from rfl], by decide⟩
  · exact ⟨by simp [isDigit, show digitVal 9 = none from rfl], by decide⟩

/-- A length that is a number is converted with the blanks around it. -/
theorem stol_of_isNumber {s : Str} (h : NumericField.IsNumber ⟨.contentLength, trimBlanks s⟩) :
    ∃ n, stol 10 s = .ok n := by
  obtain ⟨n, -, hconv⟩ := h.converted
  obtain ⟨a, b, ha, hb, hs⟩ := exists_padding s [32, 9]
  have := hconv a b (fun c hc => by simpa [isspace] using blank_mem_ws (ha c hc))
    (stopsDigits_blank hb)
  rw [← List.append_assoc] at this
  exact ⟨n, (congrArg (stol 10) hs).trans this⟩

/-- A size that is a number is converted with the extensions behind it. -/
theorem stol_of_sizeField {line : Str} (h : (sizeField line).IsNumber) :
    ∃ n, (sizeField line).value = .ok n ∧ stol 16 line = .ok n := by
  obtain ⟨n, hvalue, hconv⟩ := h.converted
  refine ⟨n, hvalue, ?_⟩
  have hstops : StopsDigits 16 (line.dropWhile (· ≠ 59)) := by
    intro c hc
    have hsemi := List.head?_dropWhile_not (· ≠ 59) line
    rw [Option.mem_def.mp hc] at hsemi
    obtain rfl : c = 59 := by simpa using hsemi
    decide
  have := hconv [] (line.dropWhile (· ≠ 59)) (by simp) hstops
  rw [List.nil_append] at this
  have hline : (sizeField line).text ++ line.dropWhile (· ≠ 59) = line :=
    List.takeWhile_append_dropWhile
  rwa [hline] at this

/-! ## The header loop -/

/-- A line keeps every continuation a line that starts with a blank or a tab. -/
theorem addLine_folds {fs fs' : List Field} {line : Str} (h : addLine fs line = some fs')
    (hfs : ∀ f ∈ fs, ∀ l ∈ f.folds, ¬NoFold l) : ∀ f ∈ fs', ∀ l ∈ f.folds, ¬NoFold l := by
  unfold addLine at h
  split at h
  · obtain ⟨pos, -, rfl⟩ := Option.map_eq_some_iff.mp h
    simpa using hfs
  · next hline =>
      cases fs with
      | nil => cases h
      | cons f fs =>
          simp only at h
          split at h
          · cases h
          · obtain rfl := Option.some.inj h
            have hf := hfs f (by simp)
            intro g hg l hl
            rcases List.mem_cons.mp hg with rfl | hg
            · rcases List.mem_append.mp hl with hl | hl
              · exact hf l hl
              · rwa [List.mem_singleton.mp hl]
            · exact hfs g (by simp [hg]) l hl

/-- The continuations of the fields of a header start with a blank or a tab. -/
theorem fieldsIn_folds {lines : List Str} {fs : List Field} (h : fieldsIn lines = some fs) :
    ∀ f ∈ fs, ∀ l ∈ f.folds, ¬NoFold l := by
  have hrun : ∀ (lines : List Str) {gs gs' : List Field}, lines.foldlM addLine gs = some gs' →
      (∀ f ∈ gs, ∀ l ∈ f.folds, ¬NoFold l) → ∀ f ∈ gs', ∀ l ∈ f.folds, ¬NoFold l := by
    intro lines
    induction lines with
    | nil =>
        intro gs gs' hgs hfolds
        obtain rfl := Option.some.inj hgs
        exact hfolds
    | cons line lines ih =>
        intro gs gs' hgs hfolds
        rw [List.foldlM_cons] at hgs
        obtain ⟨mid, hmid, hgs⟩ := Option.bind_eq_some_iff.mp hgs
        exact ih hgs (addLine_folds hmid hfolds)
  obtain ⟨gs, hgs, rfl⟩ := Option.map_eq_some_iff.mp h
  have := hrun lines hgs (by simp)
  simpa using this

/-- Entering one more field. -/
theorem headersBehind_concat (h : Headers) (f : Field) (fs : List Field) :
    headersBehind h (f :: fs).reverse = (headersBehind h fs.reverse).insert f.key f.stored := by
  rw [headersBehind, List.reverse_cons, enterAll_append]
  rfl

/-- A continuation replaces the entry of its field. -/
theorem headersBehind_continued (h : Headers) (f : Field) (fs : List Field) (line : Str) :
    (headersBehind h (f :: fs).reverse).insert f.key (trim f.value ++ ltrim line [32, 9]) =
      headersBehind h ({ f with folds := f.folds ++ [line] } :: fs).reverse := by
  rw [headersBehind_concat, headersBehind_concat, Headers.insert_insert]
  have hstored : Field.stored { f with folds := f.folds ++ [line] } =
      trim f.value ++ ltrim line [32, 9] := by
    simp [Field.stored]
  rw [hstored]
  rfl

/-- The local `k` of the header loop behind the fields it has read, the latest first. -/
def lastKey (fs : List Field) : Str := (fs.head?.map Field.key).getD []

/-- The local `v`. -/
def lastValue (fs : List Field) : Str := (fs.head?.map fun f => trim f.value).getD []

/-- How the header loop ends on lines that make these fields, with this rest behind them: at a line
that belongs to no field, at the end of the input, or at the empty line. -/
def HeaderOutcome (h : Headers) (res : HeadersStop × Headers × Str) :
    Option (List Field) → Option Str → Prop
  | none, _ => res.1 = .bad
  | some _, none => res.1 = .drained
  | some fs, some rest => res = (.blank, headersBehind h fs.reverse, rest)

/-- What the header loop does behind some fields is what becomes of them with the lines that are
left. -/
theorem readHeadersLoop_lines (h : Headers) (n : ℕ) (fs : List Field) (buf : Str) :
    HeaderOutcome h
      (readHeadersLoop n (lastKey fs) (lastValue fs) (headersBehind h fs.reverse) buf)
      ((headerLinesLoop n buf).1.foldlM addLine fs) (headerLinesLoop n buf).2 := by
  induction n generalizing fs buf with
  | zero => rfl
  | succ n ih =>
      rw [headerLinesLoop, readHeadersLoop]
      by_cases hbuf : buf = []
      · simp only [if_pos hbuf]
        rfl
      · simp only [if_neg hbuf]
        generalize popLine buf = popped
        obtain ⟨line, rest⟩ := popped
        cases line with
        | nil => rfl
        | cons c line =>
            simp only [List.foldlM_cons, addLine]
            by_cases hc : c = 32 ∨ c = 9
            · have hfold : ¬NoFold (c :: line) := by
                intro hno
                have := hno c rfl
                tauto
              simp only [if_pos hc, if_neg hfold]
              cases fs with
              | nil => rfl
              | cons f fs =>
                  have hkey : lastKey (f :: fs) = f.key := rfl
                  have hvalue : lastValue (f :: fs) = trim f.value := rfl
                  simp only [hkey, hvalue]
                  by_cases hempty : f.key = []
                  · simp only [if_pos hempty]
                    rfl
                  · simp only [if_neg hempty, headersBehind_continued]
                    exact ih ({ f with folds := f.folds ++ [c :: line] } :: fs) rest
            · have hno : NoFold (c :: line) := by
                intro d hd
                obtain rfl : c = d := by simpa using hd
                tauto
              simp only [if_neg hc, if_pos hno]
              cases find (c :: line) 58 0 with
              | none => rfl
              | some pos =>
                  have := ih (⟨substr (c :: line) 0 pos, (c :: line).drop (pos + 1), []⟩ :: fs) rest
                  rw [headersBehind_concat] at this
                  exact this

/-- A header with a line that belongs to no field is refused. -/
theorem readHeaders_bad {h : Headers} {buf : Str} (hbad : fieldsIn (headerLines buf).1 = none) :
    (readHeaders [] [] h buf).1 = .bad := by
  have := readHeadersLoop_lines h buf.length [] buf
  rw [fieldsIn, Option.map_eq_none_iff, headerLines] at hbad
  rw [hbad] at this
  exact this

/-- A header without its end is waited for. -/
theorem readHeaders_drained {h : Headers} {buf : Str} {fs : List Field}
    (hfs : fieldsIn (headerLines buf).1 = some fs) (hend : (headerLines buf).2 = none) :
    (readHeaders [] [] h buf).1 = .drained := by
  have := readHeadersLoop_lines h buf.length [] buf
  obtain ⟨gs, hgs, -⟩ := Option.map_eq_some_iff.mp hfs
  rw [headerLines] at hgs hend
  rw [hgs, hend] at this
  exact this

/-- **A whole header** leaves its fields in the map, and what follows it. -/
theorem readHeaders_opens {h : Headers} {buf rest : Str} {fs : List Field} (ho : Opens buf fs rest) :
    readHeaders [] [] h buf = (.blank, headersBehind h fs, rest) := by
  have := readHeadersLoop_lines h buf.length [] buf
  obtain ⟨hfields, hend⟩ := ho
  obtain ⟨gs, hgs, rfl⟩ := Option.map_eq_some_iff.mp hfields
  rw [headerLines] at hgs hend
  rw [hgs, hend] at this
  exact this

/-! ## Entries -/

/-- A length in the map behind a header is an earlier one or that of a field. -/
theorem EntryNumber.behind {h : Headers} {fs : List Field} {f : NumericField}
    (hf : EntryNumber (headersBehind h fs) f) : EntryNumber h f ∨
      ∃ g ∈ fs, g.IsLength ∧ g.stored ≠ [] ∧ f = ⟨.contentLength, trimBlanks g.stored⟩ := by
  induction fs generalizing h with
  | nil => exact .inl hf
  | cons g fs ih =>
      rw [headersBehind, enterAll_cons] at hf
      rcases ih hf with ⟨k, v, hget, hk, hv, rfl⟩ | ⟨g', hg', hrest⟩
      · rw [Std.ExtTreeMap.getElem?_insert] at hget
        split at hget
        · next heq =>
            obtain rfl : g.key = k := by simpa using heq
            obtain rfl := Option.some.inj hget
            exact .inr ⟨g, by simp, hk, hv, rfl⟩
        · exact .inl ⟨k, v, hget, hk, hv, rfl⟩
      · exact .inr ⟨g', by simp [hg'], hrest⟩

/-- When the lengths in front of a header and in it are numbers, so are those in the map behind
it. -/
theorem isNumber_behind {h : Headers} {buf : Str} {fs : List Field}
    (hfs : fieldsIn (headerLines buf).1 = some fs) (hold : ∀ f, EntryNumber h f → f.IsNumber)
    (hnew : ∀ f, HeaderNumber buf f → f.IsNumber) :
    ∀ f, EntryNumber (headersBehind h fs) f → f.IsNumber := by
  intro f hf
  rcases hf.behind with hf | ⟨g, hg, hlen, hne, rfl⟩
  · exact hold f hf
  · have hnum := hnew ⟨.contentLength, g.content⟩ ⟨fs, hfs, g, hg, hlen, rfl⟩
    have hstored := Field.stored_of_content (fieldsIn_folds hfs g hg) hnum.word rfl
    rw [hstored.resolve_left hne]
    exact hnum

/-- The length that is looked up is one of the entries. -/
theorem stol_of_entries {h : Headers} (hh : ∀ f, EntryNumber h f → f.IsNumber)
    (hne : h[str "Content-Length"]?.getD [] ≠ []) :
    ∃ n, stol 10 (h[str "Content-Length"]?.getD []) = .ok n := by
  cases hget : h[str "Content-Length"]? with
  | none => simp [hget] at hne
  | some v =>
      rw [hget, Option.getD_some] at hne
      exact stol_of_isNumber (hh _ ⟨_, v, hget, rfl, hne, rfl⟩)

end Libio
