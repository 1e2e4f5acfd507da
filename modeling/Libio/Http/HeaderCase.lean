import Libio.Http.Effects
import Libio.Http.Message

/-! # The case of header names

The parser files a header field under its name as it was written, and looks three names up:
`Transfer-Encoding`, `Content-Length` and `Connection`. Two streams that differ only in the letter
case of header names are read alike as long as none of the names that differ is one of these three
in either stream (`reading_respelled`). Which bytes of a stream are header names is for the parser
to say, so the relation between the two streams follows it: the first line, the header lines up to
the blank line, and, where the body is read in chunks, the chunks and the trailer. -/

namespace Libio

open ByteQueue

/-! ## Spelling -/

/-- `tolower` of an ASCII byte. -/
def lowerByte (c : UInt8) : UInt8 := if 65 ≤ c ∧ c ≤ 90 then c + 32 else c

/-- Two texts differ only in the case of letters. -/
def SameLetters (n n' : Str) : Prop := n.map lowerByte = n'.map lowerByte

instance (n n' : Str) : Decidable (SameLetters n n') := inferInstanceAs (Decidable (_ = _))

/-- The names under which the code looks fields up. -/
def lookedUpNames : List Str :=
  [str "Transfer-Encoding", str "Content-Length", str "Connection"]

/-- The parser looks up `Transfer-Encoding`. -/
theorem transferEncoding_lookedUp : str "Transfer-Encoding" ∈ lookedUpNames := List.mem_cons_self

/-- The parser looks up `Content-Length`. -/
theorem contentLength_lookedUp : str "Content-Length" ∈ lookedUpNames := by simp [lookedUpNames]

/-- The parser looks up `Connection`. -/
theorem connection_lookedUp : str "Connection" ∈ lookedUpNames := by simp [lookedUpNames]

/-- Two names differ only in case, and if they differ at all, neither is one that is looked up. -/
structure Respelled (n n' : Str) : Prop where
  letters : SameLetters n n'
  unwatched : n = n' ∨ ∀ name ∈ lookedUpNames, trim n ≠ name ∧ trim n' ≠ name

/-! ## Streams -/

section Streams

variable (spelled : Str → Str → Prop)

/-- Two rests of a header differ only in its names, which are spelled in two ways, line ends apart.
The flag says whether a field has been read that a line may continue, and `tail` compares what
follows the blank line. Behind the last name that differs the streams are the same. -/
inductive FieldsAlike (tail : Str → Str → Prop) : Bool → Str → Str → Prop
  | same (named : Bool) (x : Str) : FieldsAlike tail named x x
  | continued {c : UInt8} {line x y x₁ y₁ : Str} (hx : popLine x = (c :: line, x₁))
      (hy : popLine y = (c :: line, y₁)) (hc : c = 32 ∨ c = 9)
      (rest : FieldsAlike tail true x₁ y₁) : FieldsAlike tail true x y
  | field {named : Bool} {n n' v x y x₁ y₁ : Str} (hx : popLine x = (n ++ 58 :: v, x₁))
      (hy : popLine y = (n' ++ 58 :: v, y₁)) (hcolon : 58 ∉ n)
      (hstart : ∀ c ∈ n.head?, c ≠ 32 ∧ c ≠ 9) (hn : spelled n n')
      (rest : FieldsAlike tail (trim n ≠ []) x₁ y₁) : FieldsAlike tail named x y
  | blank {named : Bool} {x y x₁ y₁ : Str} (hx : popLine x = ([], x₁)) (hxne : x ≠ [])
      (hy : popLine y = ([], y₁)) (hyne : y ≠ []) (rest : tail x₁ y₁) : FieldsAlike tail named x y

/-- Two rests of a chunked body differ only in the names of the trailer. -/
inductive ChunksAlike : Str → Str → Prop
  | same (x : Str) : ChunksAlike x x
  | chunk {size data x y x₁ y₁ : Str} {n : ℤ} (hx : popLine x = (size, data ++ x₁))
      (hy : popLine y = (size, data ++ y₁)) (hsize : stol 16 size = .ok n) (hpos : 0 < n)
      (hdata : (data.length : ℤ) = n + 2) (rest : ChunksAlike x₁ y₁) : ChunksAlike x y
  | last {size x y x₁ y₁ : Str} (hx : popLine x = (size, x₁)) (hy : popLine y = (size, y₁))
      (hsize : stol 16 size = .ok 0) (rest : FieldsAlike spelled Eq false x₁ y₁) : ChunksAlike x y

/-- Behind the header `x` a body is read in chunks. -/
def Request.ReadsChunks (r : Request) (x : Str) : Prop :=
  r.bodyless = .ok false ∧
    (readHeaders [] [] r.headers x).2.1[str "Transfer-Encoding"]?.getD [] = str "chunked"

/-- Two streams differ only in header names, as a fresh request `r` reads them. -/
inductive StreamsAlike (r : Request) : Str → Str → Prop
  | same (x : Str) : StreamsAlike r x x
  | message {line x y x₁ y₁ : Str} {r₁ : Request} (hx : popLine x = (line, x₁))
      (hy : popLine y = (line, y₁)) (hline : line ≠ []) (hr : r.parseLine line = .ok (0, r₁))
      (rest : FieldsAlike spelled
        (fun x₂ y₂ => x₂ = y₂ ∨ r₁.ReadsChunks x₁ ∧ ChunksAlike spelled x₂ y₂) false x₁ y₁) :
      StreamsAlike r x y

end Streams

/-- What the parser makes of a stream: the status, the body, the bytes that are left, and whether
`handle_request` is to close the connection; or how it throws. -/
def reading (p : Except Fault Parsed) : Except Fault (ParseStatus × Str × Str × Bool) :=
  p.map fun (status, r, rest) => (status, r.buf, rest, Session.asksClose r)

/-! ## Maps that are looked up alike -/

/-- The two maps hold the same under the names that are looked up. -/
def SameLookups (h h' : Headers) : Prop :=
  ∀ name ∈ lookedUpNames, h[name]?.getD [] = h'[name]?.getD []

/-- The two names are both empty or both not, and the same where they are looked up. -/
structure KeysAlike (k k' : Str) : Prop where
  empty : k = [] ↔ k' = []
  watched : ∀ name ∈ lookedUpNames, k = name ↔ k' = name

variable {h h' : Headers} {k k' n n' : Str}

/-- A key is like itself. -/
theorem KeysAlike.refl (k : Str) : KeysAlike k k := ⟨Iff.rfl, fun _ _ => Iff.rfl⟩

/-- Entries under keys that are alike keep the lookups the same. -/
theorem SameLookups.insert (hh : SameLookups h h') (hk : KeysAlike k k') (v : Str) :
    SameLookups (h.insert k v) (h'.insert k' v) := by
  intro name hname
  rw [Std.ExtTreeMap.getElem?_insert, Std.ExtTreeMap.getElem?_insert]
  have hiff := hk.watched name hname
  by_cases he : k = name
  · simp [he, hiff.mp he]
  · have he' : k' ≠ name := fun h => he (hiff.mpr h)
    simpa [he, he'] using hh name hname

/-- Looking up a name keeps the lookups the same. -/
theorem SameLookups.subscript (hh : SameLookups h h') (name : Str) :
    SameLookups (h.subscript name).2 (h'.subscript name).2 := by
  intro key hkey
  rw [Request.getD_subscript, Request.getD_subscript]
  exact hh key hkey

/-- A name that the parser looks up has the same value. -/
theorem SameLookups.subscript_fst (hh : SameLookups h h') {name : Str}
    (hname : name ∈ lookedUpNames) : (h.subscript name).1 = (h'.subscript name).1 := hh name hname

/-! ## Names -/

/-- A byte in front of the letters has no case. -/
theorem lowerByte_eq_iff {c d : UInt8} (hd : d < 65) : lowerByte c = d ↔ c = d := by
  unfold lowerByte
  split
  · next hc =>
      have hlow := UInt8.le_iff_toNat_le.mp hc.1
      have hhigh := UInt8.le_iff_toNat_le.mp hc.2
      have hd' := UInt8.lt_iff_toNat_lt.mp hd
      have hsum : (c + 32).toNat = c.toNat + 32 := by
        rw [UInt8.toNat_add]
        simp only [UInt8.reduceToNat] at *
        omega
      simp only [UInt8.reduceToNat] at *
      constructor
      · rintro rfl
        omega
      · rintro rfl
        omega
  · exact Iff.rfl

/-- Letters apart, a respelled name has the same bytes. -/
theorem SameLetters.mem_iff (h : SameLetters n n') {d : UInt8} (hd : d < 65) : d ∈ n ↔ d ∈ n' := by
  have hmap : ∀ s : Str, d ∈ s ↔ d ∈ s.map lowerByte := by
    intro s
    simp only [List.mem_map, lowerByte_eq_iff hd, exists_eq_right]
  rw [hmap n, hmap n', h]

/-- A respelled name starts a line when the name does. -/
theorem SameLetters.start (h : SameLetters n n') (hstart : ∀ c ∈ n.head?, c ≠ 32 ∧ c ≠ 9) :
    ∀ c ∈ n'.head?, c ≠ 32 ∧ c ≠ 9 := by
  intro c hc
  have hhead : n.head?.map lowerByte = n'.head?.map lowerByte := by
    rw [← List.head?_map, ← List.head?_map, h]
  rw [Option.mem_def.mp hc] at hhead
  obtain ⟨d, hd, hlower⟩ := Option.map_eq_some_iff.mp hhead
  obtain ⟨hblank, htab⟩ := hstart d hd
  constructor
  · rintro rfl
    exact hblank ((lowerByte_eq_iff (by decide)).mp hlower)
  · rintro rfl
    exact htab ((lowerByte_eq_iff (by decide)).mp hlower)

/-- Nothing is left of a text of white space. -/
theorem trim_eq_nil {s : Str} : trim s = [] ↔ ∀ c ∈ s, c ∈ ws := by
  have hr : rtrim s ws = [] ↔ ∀ c ∈ s, c ∈ ws := by simp [rtrim, List.rdropWhile_eq_nil_iff]
  rw [← hr, trim, ltrim, List.dropWhile_eq_nil_iff]
  constructor
  · intro hall
    by_contra hne
    -- what `rtrim` leaves ends with something else
    have hlast := List.rdropWhile_last_not (fun c => decide (c ∈ ws)) s hne
    exact hlast (hall _ (List.getLast_mem hne))
  · intro hnil
    simp [hnil]

/-- The two names are filed under keys that are treated alike. -/
theorem Respelled.keysAlike (h : Respelled n n') : KeysAlike (trim n) (trim n') := by
  constructor
  · -- white space has no case, so one name is blank where the other is
    have hws : ∀ s : Str, (∀ c ∈ s, c ∈ ws) ↔ ∀ c ∈ s.map lowerByte, c ∈ ws := by
      have hlow : ∀ d ∈ ws, d < 65 := by decide +kernel
      have hmem : ∀ c, lowerByte c ∈ ws ↔ c ∈ ws := by
        intro c
        constructor
        · intro hc
          have := (lowerByte_eq_iff (c := c) (hlow _ hc)).mp rfl
          exact this ▸ hc
        · intro hc
          have := (lowerByte_eq_iff (c := c) (hlow _ hc)).mpr rfl
          exact this.symm ▸ hc
      intro s
      simp [hmem]
    rw [trim_eq_nil, trim_eq_nil, hws n, hws n', h.letters]
  · intro name hname
    rcases h.unwatched with rfl | hne
    · exact Iff.rfl
    · exact iff_of_false (hne name hname).1 (hne name hname).2

/-! ## Header lines -/

/-- How the header loop of one stream ends beside that of the other. -/
structure StopsAlike (tail : Str → Str → Prop) (a b : HeadersStop × Headers × Str) : Prop where
  stop : a.1 = b.1
  headers : SameLookups a.2.1 b.2.1
  rest : a.2.2 = b.2.2 ∨ a.1 = .blank ∧ tail a.2.2 b.2.2

variable {tail : Str → Str → Prop} {v x y x₁ : Str}

/-- A line that continues a field. -/
theorem readHeaders_continuedLine {c : UInt8} {line : Str} (hx : popLine x = (c :: line, x₁))
    (hc : c = 32 ∨ c = 9) (hk : k ≠ []) (v : Str) (h : Headers) :
    readHeaders k v h x = readHeaders k v (h.insert k (v ++ ltrim (c :: line) [32, 9])) x₁ := by
  have hne : x ≠ [] := by
    rintro rfl
    cases hx
  rw [readHeaders_eq, if_neg hne, hx]
  simp only [if_pos hc, if_neg hk]

/-- A line that starts a field. -/
theorem readHeaders_namedLine (hx : popLine x = (n ++ 58 :: v, x₁)) (hcolon : 58 ∉ n)
    (hstart : ∀ c ∈ n.head?, c ≠ 32 ∧ c ≠ 9) (k w : Str) (h : Headers) :
    readHeaders k w h x = readHeaders (trim n) (trim v) (h.insert (trim n) (trim v)) x₁ := by
  have hne : x ≠ [] := by
    rintro rfl
    simp [popLine] at hx
  obtain ⟨c, line, hline⟩ : ∃ c line, n ++ 58 :: v = c :: line :=
    List.exists_cons_of_ne_nil (by simp)
  have hc : ¬(c = 32 ∨ c = 9) := by
    cases n with
    | nil =>
        obtain rfl := (List.cons.inj hline).1
        decide
    | cons d n =>
        obtain rfl := (List.cons.inj hline).1
        simpa using hstart d rfl
  have hfind : find (c :: line) 58 0 = some n.length := hline ▸ find_append_cons hcolon
  rw [readHeaders_eq, if_neg hne, hx, hline]
  simp only [if_neg hc, hfind]
  rw [← hline]
  simp [substr]

/-- The line that ends a header. -/
theorem readHeaders_blankLine (hx : popLine x = ([], x₁)) (hne : x ≠ []) (k v : Str) (h : Headers) :
    readHeaders k v h x = (.blank, h, x₁) := by
  rw [readHeaders_eq, if_neg hne, hx]

/-- The same header lines, behind fields whose names are spelled in two ways. -/
theorem readHeaders_same (tail : Str → Str → Prop) (hk : KeysAlike k k') (v : Str)
    (hh : SameLookups h h') (x : Str) :
    StopsAlike tail (readHeaders k v h x) (readHeaders k' v h' x) := by
  induction hx : x.length using Nat.strong_induction_on generalizing k k' v h h' x with
  | _ m ih =>
      subst hx
      by_cases hne : x = []
      · rw [readHeaders_eq, readHeaders_eq k', if_pos hne, if_pos hne]
        exact ⟨rfl, hh, .inl rfl⟩
      · rw [readHeaders_eq, readHeaders_eq k', if_neg hne, if_neg hne]
        have hlt := length_popLine_lt (q := x)
        rcases hpop : popLine x with ⟨line, rest⟩
        rw [hpop] at hlt
        cases line with
        | nil => exact ⟨rfl, hh, .inl rfl⟩
        | cons c line =>
            have hlt : rest.length < x.length := hlt (List.cons_ne_nil _ _)
            by_cases hc : c = 32 ∨ c = 9
            · simp only [if_pos hc]
              by_cases hempty : k = []
              · rw [if_pos hempty, if_pos (hk.empty.mp hempty)]
                exact ⟨rfl, hh, .inl rfl⟩
              · rw [if_neg hempty, if_neg (mt hk.empty.mpr hempty)]
                exact ih _ hlt hk v (hh.insert hk _) rest rfl
            · simp only [if_neg hc]
              cases find (c :: line) 58 0 with
              | none => exact ⟨rfl, hh, .inl rfl⟩
              | some pos =>
                  -- from the next field on both loops have the same key
                  have hkey := KeysAlike.refl (trim (substr (c :: line) 0 pos))
                  exact ih _ hlt hkey _ (hh.insert hkey _) rest rfl

/-- **Header lines whose names are spelled in two ways** are read alike. -/
theorem readHeaders_alike {named : Bool} (hxy : FieldsAlike Respelled tail named x y)
    (hnamed : named = true → k ≠ []) (hk : KeysAlike k k') (v : Str) (hh : SameLookups h h') :
    StopsAlike tail (readHeaders k v h x) (readHeaders k' v h' y) := by
  induction hxy generalizing k k' v h h' with
  | same named x => exact readHeaders_same tail hk v hh x
  | continued hx hy hc _ ih =>
      have hne : k ≠ [] := hnamed rfl
      rw [readHeaders_continuedLine hx hc hne, readHeaders_continuedLine hy hc (mt hk.empty.mpr hne)]
      exact ih (fun _ => hne) hk v (hh.insert hk _)
  | field hx hy hcolon hstart hn _ ih =>
      have hkey := hn.keysAlike
      have hcolon' := (hn.letters.mem_iff (by decide)).not.mp hcolon
      rw [readHeaders_namedLine hx hcolon hstart,
        readHeaders_namedLine hy hcolon' (hn.letters.start hstart)]
      exact ih (fun htrue => by simpa using htrue) hkey _ (hh.insert hkey _)
  | blank hx hxne hy hyne rest =>
      rw [readHeaders_blankLine hx hxne, readHeaders_blankLine hy hyne]
      exact ⟨rfl, hh, .inr ⟨rfl, rest⟩⟩

/-! ## Requests -/

namespace Request

/-- The two requests differ in nothing but their maps, and these are looked up alike. -/
def Twin (r r' : Request) : Prop :=
  ∃ h : Headers, r' = { r with headers := h } ∧ SameLookups r.headers h

/-- The two calls throw the same, or leave twins with the same status and the same bytes. -/
inductive ResultsAlike : Except Fault Parsed → Except Fault Parsed → Prop
  | error (e : Fault) : ResultsAlike (.error e) (.error e)
  | ok (status : ParseStatus) {r r' : Request} (hr : Twin r r') (rest : Str) :
      ResultsAlike (.ok (status, r, rest)) (.ok (status, r', rest))

variable {r r' : Request} {body body' : Request → Str → Except Fault Parsed}

/-- A parser is a twin of itself. -/
theorem Twin.refl (r : Request) : Twin r r := ⟨r.headers, rfl, fun _ _ => rfl⟩

/-- A result is like itself. -/
theorem ResultsAlike.refl (a : Except Fault Parsed) : ResultsAlike a a := by
  cases a with
  | error e => exact .error e
  | ok p => exact .ok p.1 (.refl p.2.1) p.2.2

/-- Results that are alike are read alike. -/
theorem ResultsAlike.reading {a b : Except Fault Parsed} (h : ResultsAlike a b) :
    reading a = reading b := by
  cases h with
  | error e => rfl
  | @ok status r r' hr rest =>
      obtain ⟨h, rfl, hh⟩ := hr
      have hclose : Session.asksClose { r with headers := h } = Session.asksClose r := by
        unfold Session.asksClose getHeader
        rw [hh _ connection_lookedUp]
      simp only [Libio.reading, Except.map, hclose]

/-- The end of the header: the rests are the same, or a body follows. -/
theorem finishHeaders_alike (hr : Twin r r')
    (hbody : ∀ q q', Twin q q' → q = { r with status := .readingBody } →
      ResultsAlike (body q x) (body q' y))
    (hxy : x = y ∨ r.bodyless = .ok false ∧ r.status = .readingHeaders) :
    ResultsAlike (r.finishHeaders body x) (r'.finishHeaders body y) := by
  obtain ⟨h, rfl, hh⟩ := hr
  have hless : ({ r with headers := h } : Request).bodyless = r.bodyless := rfl
  unfold finishHeaders
  rw [hless]
  cases hb : r.bodyless with
  | error e => exact .error e
  | ok b =>
      cases b with
      | true =>
          obtain rfl : x = y := hxy.resolve_right (by simp [hb])
          exact .ok _ ⟨h, rfl, hh⟩ x
      | false =>
          simp only [bind, Except.bind, Bool.false_eq_true, if_false]
          cases hst : r.status with
          | readingHeaders => exact hbody _ _ ⟨h, rfl, hh⟩ rfl
          | readingTrailer | readingFirstline | readingBody =>
              obtain rfl : x = y := hxy.resolve_right (by simp [hst])
              exact .ok _ ⟨h, by rw [hst], hh⟩ x

/-- **`parse_headers`** on header lines whose names are spelled in two ways, `body` standing for
`parse_body`. -/
theorem parseHeadersWith_alike {tail : Str → Str → Prop} (hr : Twin r r')
    (hxy : FieldsAlike Respelled tail false x y)
    (hsame : ∀ q q' z, Twin q q' → ResultsAlike (body q z) (body q' z))
    (htail : ∀ x₁ y₁, tail x₁ y₁ → x₁ = y₁ ∨ r.bodyless = .ok false ∧ r.status = .readingHeaders ∧
      ∀ q q', Twin q q' → q.headers = (readHeaders [] [] r.headers x).2.1 →
        ResultsAlike (body q x₁) (body q' y₁)) :
    ResultsAlike (r.parseHeadersWith body x) (r'.parseHeadersWith body y) := by
  obtain ⟨h, rfl, hh⟩ := hr
  have hstops := readHeaders_alike hxy (fun hf => absurd hf (by decide)) (KeysAlike.refl []) [] hh
  unfold parseHeadersWith
  simp only
  generalize hb : readHeaders [] [] h y = b at hstops ⊢
  generalize ha : readHeaders [] [] r.headers x = a at hstops htail ⊢
  obtain ⟨stop, hx, restx⟩ := a
  obtain ⟨stop', hy, resty⟩ := b
  obtain ⟨hstop, hmaps, hrest⟩ := hstops
  simp only at hstop hmaps hrest htail ⊢
  subst hstop
  have htwin : Twin { r with headers := hx } { r with headers := hy } := ⟨hy, rfl, hmaps⟩
  cases stop with
  | drained =>
      obtain rfl : restx = resty := hrest.resolve_right (by simp)
      exact .ok _ htwin restx
  | bad =>
      obtain rfl : restx = resty := hrest.resolve_right (by simp)
      exact .ok _ htwin restx
  | blank =>
      -- what follows the blank line is the same, or is a body
      have hcases : restx = resty ∨ _ := hrest.elim .inl fun ht => htail _ _ ht.2
      rcases hcases with rfl | ⟨hless, hst, hbody⟩
      · exact finishHeaders_alike htwin (fun q q' hq _ => hsame q q' restx hq) (.inl rfl)
      · exact finishHeaders_alike htwin (fun q q' hq heq => hbody q q' hq (by rw [heq]))
          (.inr ⟨hless, hst⟩)

/-- **The trailer.** -/
theorem parseTrailer_alike (hr : Twin r r') (hxy : FieldsAlike Respelled Eq false x y) :
    ResultsAlike (r.parseTrailer x) (r'.parseTrailer y) :=
  parseHeadersWith_alike hr hxy (fun _ _ z hq => .ok _ hq z) fun _ _ he => .inl he

/-! ## Bodies -/

/-- The same rest of a chunked body. -/
theorem readChunks_same (hr : Twin r r') (x : Str) :
    ResultsAlike (r.readChunks x) (r'.readChunks x) := by
  induction hx : x.length using Nat.strong_induction_on generalizing r r' x with
  | _ m ih =>
      subst hx
      obtain ⟨h, rfl, hh⟩ := hr
      rw [readChunks_eq, readChunks_eq { r with headers := h }]
      by_cases hne : x = []
      · rw [if_pos hne, if_pos hne]
        exact .ok _ ⟨h, rfl, hh⟩ x
      · rw [if_neg hne, if_neg hne]
        by_cases hneg : r.ntoread < 0
        · simp only [if_pos hneg]
          cases hn : stol 16 (popLine x).1 with
          | error e => exact .error e
          | ok n =>
              have hlt := length_popLine_lt (ne_nil_of_stol hn)
              have hsized : Twin { r with ntoread := n } { r with headers := h, ntoread := n } :=
                ⟨h, rfl, hh⟩
              simp only [bind, Except.bind]
              by_cases hbad : (popLine x).1 = [] ∨ n < 0
              · rw [if_pos hbad, if_pos hbad]
                exact .ok _ hsized _
              · rw [if_neg hbad, if_neg hbad]
                by_cases hzero : n = 0
                · rw [if_pos hzero, if_pos hzero]
                  exact parseTrailer_alike ⟨h, rfl, hh⟩ (.same false _)
                · rw [if_neg hzero, if_neg hzero]
                  exact ih _ hlt hsized _ rfl
        · simp only [if_neg hneg]
          by_cases hwait : (x.length : ℤ) < r.ntoread
          · rw [if_pos hwait, if_pos hwait]
            exact .ok _ ⟨h, rfl, hh⟩ x
          · rw [if_neg hwait, if_neg hwait]
            have hlt : (move r.buf x (r.ntoread + 2)).2.length < x.length :=
              length_move_lt hne (by omega)
            have hmoved : Twin { r with buf := (move r.buf x (r.ntoread + 2)).1, ntoread := -1 }
                { r with
                  headers := h, buf := (move r.buf x (r.ntoread + 2)).1, ntoread := -1 } :=
              ⟨h, rfl, hh⟩
            exact ih _ hlt hmoved _ rfl

/-- A size line with the chunk it announces. -/
theorem readChunks_sized {size data : Str} {n : ℤ} (hr : r.ntoread < 0)
    (hx : popLine x = (size, data ++ x₁)) (hsize : stol 16 size = .ok n) (hpos : 0 < n)
    (hdata : (data.length : ℤ) = n + 2) :
    r.readChunks x = readChunks { r with buf := r.buf ++ data, ntoread := -1 } x₁ := by
  have hline := ne_nil_of_stol hsize
  have hne : x ≠ [] := by
    rintro rfl
    exact hline (Prod.mk.inj hx).1.symm
  have hdne : data ++ x₁ ≠ [] := by
    rintro hnil
    obtain ⟨rfl, -⟩ := List.append_eq_nil_iff.mp hnil
    simp at hdata
    omega
  rw [readChunks_eq, if_neg hne, if_pos hr, hx]
  simp only [hsize, bind, Except.bind]
  rw [if_neg (by simp only [hline, false_or]; omega), if_neg (by omega), readChunks_eq,
    if_neg hdne]
  have hwait : ¬((data ++ x₁).length : ℤ) < n := by
    rw [List.length_append]
    omega
  simp only [if_neg (show ¬n < 0 by omega), if_neg hwait, move_append r.buf data x₁ hdata.symm]

/-- The size line 0. -/
theorem readChunks_zero {size : Str} (hr : r.ntoread < 0) (hx : popLine x = (size, x₁))
    (hsize : stol 16 size = .ok 0) :
    r.readChunks x = parseTrailer { r with ntoread := 0, status := .readingTrailer } x₁ := by
  have hline := ne_nil_of_stol hsize
  have hne : x ≠ [] := by
    rintro rfl
    exact hline (Prod.mk.inj hx).1.symm
  rw [readChunks_eq, if_neg hne, if_pos hr, hx]
  simp only [hsize, bind, Except.bind]
  rw [if_neg (by simp [hline]), if_pos trivial]

/-- **A chunked body** whose trailer names are spelled in two ways. -/
theorem readChunks_alike (hxy : ChunksAlike Respelled x y) (hr : Twin r r') (hneg : r.ntoread < 0) :
    ResultsAlike (r.readChunks x) (r'.readChunks y) := by
  induction hxy generalizing r r' with
  | same x => exact readChunks_same hr x
  | chunk hx hy hsize hpos hdata _ ih =>
      obtain ⟨h, rfl, hh⟩ := hr
      rw [readChunks_sized hneg hx hsize hpos hdata,
        readChunks_sized (r := { r with headers := h }) hneg hy hsize hpos hdata]
      exact ih ⟨h, rfl, hh⟩ (show (-1 : ℤ) < 0 by decide)
  | last hx hy hsize hrest =>
      obtain ⟨h, rfl, hh⟩ := hr
      rw [readChunks_zero hneg hx hsize,
        readChunks_zero (r := { r with headers := h }) hneg hy hsize]
      exact parseTrailer_alike ⟨h, rfl, hh⟩ hrest

/-- Twins read a body alike. -/
theorem readBody_same (hr : Twin r r') (x : Str) : ResultsAlike (r.readBody x) (r'.readBody x) := by
  obtain ⟨h, rfl, hh⟩ := hr
  unfold readBody
  have hmoved : ∀ data, Twin { r with buf := data } { r with headers := h, buf := data } :=
    fun _ => ⟨h, rfl, hh⟩
  by_cases hchunked : r.chunked = true
  · simp only [if_pos hchunked]
    exact readChunks_same ⟨h, rfl, hh⟩ x
  · simp only [if_neg hchunked]
    by_cases hneg : r.ntoread < 0
    · simp only [if_pos hneg]
      exact .ok _ (hmoved _) _
    · simp only [if_neg hneg]
      by_cases hall : (x.length : ℤ) ≥ r.ntoread
      · simp only [if_pos hall]
        exact .ok _ (hmoved _) _
      · simp only [if_neg hall]
        exact .ok _ ⟨h, rfl, hh⟩ x

/-- The same body behind header fields whose names are spelled in two ways. -/
theorem parseBody_same (hr : Twin r r') (x : Str) :
    ResultsAlike (r.parseBody x) (r'.parseBody x) := by
  obtain ⟨h, rfl, hh⟩ := hr
  have hte := hh.subscript_fst transferEncoding_lookedUp
  have hmaps := hh.subscript (str "Transfer-Encoding")
  unfold parseBody
  simp only [← hte]
  by_cases hchunked : (r.headers.subscript (str "Transfer-Encoding")).1 = str "chunked"
  · simp only [if_pos hchunked]
    exact readBody_same ⟨_, rfl, hmaps⟩ x
  · simp only [if_neg hchunked]
    have hcl := hmaps.subscript_fst contentLength_lookedUp
    have hlooked := (hmaps.subscript (str "Content-Length")).subscript (str "Connection")
    unfold getBodyLength
    simp only [← hcl]
    generalize ((r.headers.subscript (str "Transfer-Encoding")).2.subscript
      (str "Content-Length")).1 = value
    by_cases hempty : value = []
    · simp only [if_pos hempty]
      exact readBody_same ⟨_, rfl, hlooked⟩ x
    · simp only [if_neg hempty]
      cases stol 10 value with
      | error e => exact .error e
      | ok n =>
          simp only [bind, Except.bind]
          by_cases hneg : n < 0
          · simp only [if_pos hneg]
            exact .ok _ ⟨_, rfl, hlooked⟩ x
          · simp only [if_neg hneg]
            exact readBody_same ⟨_, rfl, hlooked⟩ x

/-- A body that is read in chunks. -/
theorem parseBody_alike (hr : Twin r r') (hxy : ChunksAlike Respelled x y)
    (hte : r.headers[str "Transfer-Encoding"]?.getD [] = str "chunked") :
    ResultsAlike (r.parseBody x) (r'.parseBody y) := by
  obtain ⟨h, rfl, hh⟩ := hr
  have hsub : (r.headers.subscript (str "Transfer-Encoding")).1 = str "chunked" := hte
  have hsub' : (h.subscript (str "Transfer-Encoding")).1 = str "chunked" :=
    (hh.subscript_fst transferEncoding_lookedUp).symm.trans hsub
  have hmaps := hh.subscript (str "Transfer-Encoding")
  unfold parseBody
  simp only [if_pos hsub, if_pos hsub']
  unfold readBody
  simp only [if_true]
  exact readChunks_alike hxy ⟨_, rfl, hmaps⟩ (show (-1 : ℤ) < 0 by decide)

/-- **A fresh request** makes the same of both streams. -/
theorem parse_alike (hst : r.status = .readingFirstline) (hxy : StreamsAlike Respelled r x y) :
    ResultsAlike (r.parse x) (r.parse y) := by
  cases hxy with
  | same x => exact .refl _
  | @message line _ _ x₁ y₁ r₁ hx hy hline hr hrest =>
      have hfirst : ∀ z z₁, popLine z = (line, z₁) →
          r.parse z = parseHeaders { r₁ with status := .readingHeaders } z₁ := by
        intro z z₁ hz
        have hne : z ≠ [] := by
          rintro rfl
          exact hline (Prod.mk.inj hz).1.symm
        obtain ⟨c, l, rfl⟩ := List.exists_cons_of_ne_nil hline
        rw [parse, hst]
        simp only [parseFirstline, if_neg hne, hz, hr, bind, Except.bind]
        rw [if_neg (by decide)]
      rw [hfirst x x₁ hx, hfirst y y₁ hy]
      refine parseHeadersWith_alike (.refl _) hrest (fun q q' z hq => parseBody_same hq z) ?_
      rintro x₂ y₂ (he | ⟨⟨hless, hte⟩, hchunks⟩)
      · exact .inl he
      · exact .inr ⟨hless, rfl, fun q q' hq hheaders =>
          parseBody_alike hq hchunks (by rw [hheaders]; exact hte)⟩

end Request

/-- **The case of header names** does not matter to the parser, nor to the decision to close, where
the names that differ are not looked up. -/
theorem reading_respelled (kind : RequestKind) {x y : Str}
    (hxy : StreamsAlike Respelled { kind := kind } x y) :
    reading (Request.parse { kind := kind } x) = reading (Request.parse { kind := kind } y) :=
  (Request.parse_alike rfl hxy).reading

/-- A result that is there is the one of a call that returned. -/
theorem eq_ok_of_toOption {α : Type} {p : Except Fault α} {a : α} (h : p.toOption = some a) :
    p = .ok a := by
  cases p with
  | error e => cases h
  | ok b => exact congrArg Except.ok (Option.some.inj h)

/-- The request line of the two examples. -/
theorem parseLine_post : Request.parseLine { kind := .request } (str "POST / HTTP/1.1") =
    .ok (0, { kind := .request, type := some .post, uri := str "/" }) :=
  eq_ok_of_toOption (by decide +kernel)

/-- A chunked message whose trailer has a name in two spellings. -/
theorem reading_respelled_trailer :
    let header := str "Transfer-Encoding: chunked\r\n\r\n3\r\nabc\r\n0\r\n"
    reading (Request.parse { kind := .request }
        (str "POST / HTTP/1.1\r\n" ++ header ++ str "X-Sum: 1\r\n\r\nGET")) =
      reading (Request.parse { kind := .request }
        (str "POST / HTTP/1.1\r\n" ++ header ++ str "x-sum: 1\r\n\r\nGET")) := by
  intro header
  -- the lines of a stream, down to the trailer
  have hlines : ∀ rest ∈ [str "X-Sum: 1\r\n\r\nGET", str "x-sum: 1\r\n\r\nGET"],
      popLine (str "POST / HTTP/1.1\r\n" ++ header ++ rest) =
        (str "POST / HTTP/1.1", header ++ rest) ∧
      popLine (header ++ rest) = (str "Transfer-Encoding" ++ 58 :: str " chunked",
        str "\r\n3\r\nabc\r\n0\r\n" ++ rest) ∧
      popLine (str "\r\n3\r\nabc\r\n0\r\n" ++ rest) = ([], str "3\r\nabc\r\n0\r\n" ++ rest) ∧
      popLine (str "3\r\nabc\r\n0\r\n" ++ rest) =
        (str "3", str "abc\r\n" ++ (str "0\r\n" ++ rest)) ∧
      popLine (str "0\r\n" ++ rest) = (str "0", rest) := by
    decide +kernel
  obtain ⟨hx, hx₁, hx₂, hx₃, hx₄⟩ := hlines _ List.mem_cons_self
  obtain ⟨hy, hy₁, hy₂, hy₃, hy₄⟩ := hlines _ (List.mem_cons_of_mem _ List.mem_cons_self)
  have hx₅ : popLine (str "X-Sum: 1\r\n\r\nGET") = (str "X-Sum" ++ 58 :: str " 1", str "\r\nGET") := by
    decide +kernel
  have hy₅ : popLine (str "x-sum: 1\r\n\r\nGET") = (str "x-sum" ++ 58 :: str " 1", str "\r\nGET") := by
    decide +kernel
  have htrailer : FieldsAlike Respelled Eq false (str "X-Sum: 1\r\n\r\nGET")
      (str "x-sum: 1\r\n\r\nGET") :=
    .field hx₅ hy₅ (by decide +kernel) (by decide +kernel)
      ⟨by decide +kernel, .inr (by decide +kernel)⟩ (.same _ _)
  have hthree : stol 16 (str "3") = .ok 3 := eq_ok_of_toOption (by decide +kernel)
  have hzero : stol 16 (str "0") = .ok 0 := eq_ok_of_toOption (by decide +kernel)
  have hchunks := ChunksAlike.chunk hx₃ hy₃ hthree (by decide) (by decide)
    (.last hx₄ hy₄ hzero htrailer)
  refine reading_respelled .request (.message hx hy (by decide +kernel) parseLine_post
    (.field hx₁ hy₁ (by decide +kernel) (by decide +kernel) ⟨rfl, .inl rfl⟩
      (.blank hx₂ (by decide +kernel) hy₂ (by decide +kernel) (.inr ⟨⟨rfl, ?_⟩, hchunks⟩))))
  decide +kernel

/-- The length of a body is found under one spelling alone. -/
theorem reading_content_length :
    let x := str "POST / HTTP/1.1\r\nContent-Length: 3\r\n\r\nabc"
    let y := str "POST / HTTP/1.1\r\ncontent-length: 3\r\n\r\nabc"
    StreamsAlike SameLetters { kind := .request } x y ∧
      (reading (Request.parse { kind := .request } x)).toOption =
        some (.allread, str "abc", [], false) ∧
      (reading (Request.parse { kind := .request } y)).toOption =
        some (.needmore, str "abc", [], false) := by
  intro x y
  refine ⟨?_, by decide +kernel, by decide +kernel⟩
  have hx : popLine x = (str "POST / HTTP/1.1", str "Content-Length: 3\r\n\r\nabc") := by
    decide +kernel
  have hy : popLine y = (str "POST / HTTP/1.1", str "content-length: 3\r\n\r\nabc") := by
    decide +kernel
  have hx₁ : popLine (str "Content-Length: 3\r\n\r\nabc") =
      (str "Content-Length" ++ 58 :: str " 3", str "\r\nabc") := by
    decide +kernel
  have hy₁ : popLine (str "content-length: 3\r\n\r\nabc") =
      (str "content-length" ++ 58 :: str " 3", str "\r\nabc") := by
    decide +kernel
  exact .message hx hy (by decide +kernel) parseLine_post
    (.field hx₁ hy₁ (by decide +kernel) (by decide +kernel) (by decide +kernel) (.same _ _))

end Libio
