import Libio.Foundation.Incremental
import Libio.Http.Message

/-! # Messages that arrive in pieces

The parser keeps its state between calls, but not the locals of its loops, and `buffer::pop` answers
with the empty text both for a blank line and for a line that is not complete yet. So the pieces of
a message are read as the whole message when the cuts between them are at places the parser can go
on from: in the first line, between two header fields, in a body of a given length, in front of a
chunk, between two fields of the trailer. Any other cut loses the message, except that behind a few
cuts of a chunked message the parser goes on in a wrong place and may by chance find there what it
should. -/

namespace Libio

open ByteQueue Consumer

/-! ## Reading the pieces and reading the whole -/

/-- Two requests have the same first line, header and body. -/
structure Request.Agree (t u : Request) : Prop where
  type : t.type = u.type
  uri : t.uri = u.uri
  query : t.query = u.query
  major : t.major = u.major
  minor : t.minor = u.minor
  responseCode : t.responseCode = u.responseCode
  responseLine : t.responseLine = u.responseLine
  headers : t.headers = u.headers
  buf : t.buf = u.buf

namespace Message

variable (m : Message)

/-- The pieces are read as the whole message is: every piece but the last asks for more, the last
one completes the message, and the request and the input that is left are those of a single call. -/
def ReadsAlike (ps : List Str) : Prop :=
  ∃ t left res u left', Completes Request.parse .needmore .allread m.receiver [] ps t left ∧
    m.receiver.parse m.text = .ok (res, u, left') ∧ t.Agree u ∧ left = left'

/-- The parts of a message behind which the parser can go on. -/
inductive Resumable : Str → Prop
  | start {x : Str} : x <+: m.start.text → Resumable x
  | field {fs : List Field} : fs <+: m.fields →
      Resumable (m.start.text ++ (crlf ++ fs.flatMap Field.text))
  | payload {payload x : Str} : ¬m.start.Bodyless → m.body = .length payload → x <+: payload →
      x ≠ payload → Resumable (m.head ++ x)
  | chunk {chunks cs : List Chunk} {last : Str} {trailer : List Field} : ¬m.start.Bodyless →
      m.body = .chunked chunks last trailer → cs <+: chunks →
      Resumable (m.head ++ cs.flatMap Chunk.text)
  | trailer {chunks : List Chunk} {last : Str} {trailer ts : List Field} : ¬m.start.Bodyless →
      m.body = .chunked chunks last trailer → ts <+: trailer →
      Resumable (m.head ++ (chunks.flatMap Chunk.text ++ (last ++ (crlf ++ ts.flatMap Field.text))))

/-- The cuts of a chunked message behind which the parser goes on in a wrong place, and by chance
may find there what it should find: in front of the second byte of a line end in the header, and
behind a size line in front of the end of the data. -/
inductive Misplaced : Str → Prop
  | header {fs fs' : List Field} {f : Field} {chunks : List Chunk} {last z w : Str}
      {trailer : List Field} : ¬m.start.Bodyless → m.body = .chunked chunks last trailer →
      m.fields = fs ++ f :: fs' → f.text = z ++ lf :: w →
      Misplaced (m.start.text ++ (crlf ++ (fs.flatMap Field.text ++ z)))
  | chunk {chunks cs cs' : List Chunk} {c : Chunk} {last d : Str} {trailer : List Field} :
      ¬m.start.Bodyless → m.body = .chunked chunks last trailer → chunks = cs ++ c :: cs' →
      d <+: c.data → d ≠ c.data →
      Misplaced (m.head ++ (cs.flatMap Chunk.text ++ (c.size ++ (crlf ++ d))))

end Message

/-! ## Cuts the parser can go on from -/

namespace Message

variable {m : Message} {x : Str}

/-- The part of the first line that has arrived stays in the buffer. -/
theorem resumes_start (h : m.WellFormed) (hx : x <+: m.start.text) :
    Resumes Request.parse .needmore m.receiver m.text x := by
  refine ⟨m.receiver, x, ?_, fun _ _ => rfl⟩
  have hplain : Plain x := fun c hc => h.start.plain c (hx.subset hc)
  have hstatus : m.receiver.status = .readingFirstline := rfl
  rw [Request.parse, hstatus]
  simp only [Request.parseFirstline, popLine_noEol hplain.isEol, ite_self]

section Places

variable (h : m.WellFormed) {r : Request} (hr : r.Started m.start)
  (hline : m.receiver.parseLine m.start.text = .ok (0, r))
include h hr hline

/-- The fields that have arrived are entered, and the loop starts again with the next one. -/
theorem resumes_field {fs : List Field} (hfs : fs <+: m.fields) :
    Resumes Request.parse .needmore m.receiver m.text
      (m.start.text ++ (crlf ++ fs.flatMap Field.text)) := by
  obtain ⟨fs₂, hsplit⟩ := hfs
  have hwf : ∀ f ∈ fs, f.WellFormed := fun f hf => h.fields f (by rw [← hsplit]; simp [hf])
  have hwf₂ : ∀ f ∈ fs₂, f.WellFormed := fun f hf => h.fields f (by rw [← hsplit]; simp [hf])
  have hparse : ∀ y, NoFold y → m.receiver.parse (m.start.text ++ (crlf ++
      fs.flatMap Field.text) ++ y) = (r.inHeader fs).parseHeaders y := by
    intro y hy
    rw [List.append_assoc, List.append_assoc, Request.parse_start h.start hr hline,
      Request.parseHeaders_fields hwf hy]
  refine ⟨r.inHeader fs, [], ?_, fun y hy => ?_⟩
  · have hnil := hparse [] noFold_nil
    rw [List.append_nil] at hnil
    rw [hnil]
    exact Request.parseHeadersWith_nil
  · have htext : m.text = m.start.text ++ (crlf ++ fs.flatMap Field.text) ++
        (fs₂.flatMap Field.text ++ (crlf ++ m.body.text)) := by
      simp [text, head, ← hsplit]
    rw [htext, List.prefix_append_right_inj] at hy
    rw [hparse y (noFold_of_isPrefix hy (noFold_fields hwf₂ _))]
    rfl

variable (hb : ¬m.start.Bodyless)
include hb

/-- The length of the body is looked up again, and nothing has been taken off before all is there. -/
theorem resumes_payload {payload b : Str} (hbody : m.body = .length payload) (hcut : b <+: payload)
    (hne : b ≠ payload) : Resumes Request.parse .needmore m.receiver m.text (m.head ++ b) := by
  obtain ⟨hte, v, hv, hdenotes⟩ := h.of_length hbody
  have hmax : (payload.length : ℤ) ≤ longMax := h.length_le (by rw [hbody]; rfl)
  have hlt : ¬b.length ≥ payload.length := fun hge =>
    hne (hcut.eq_of_length (Nat.le_antisymm hcut.length_le hge))
  refine ⟨r.inLength m.fields payload.length, b, ?_, fun y _ => ?_⟩
  · rw [parse_length h hr hline hb hbody, if_neg hlt]
  · rw [List.append_assoc, parse_head_body h hr hline hb,
      ← Request.parseBody_inLength hr hte hv hdenotes hmax]
    rfl

variable {chunks : List Chunk} {last : Str} {trailer : List Field}
  (hbody : m.body = .chunked chunks last trailer)
include hbody

/-- The chunks that have arrived are in the body, and a size line comes next. -/
theorem resumes_chunk {cs : List Chunk} (hcs : cs <+: chunks) :
    Resumes Request.parse .needmore m.receiver m.text (m.head ++ cs.flatMap Chunk.text) := by
  have hparse := parse_chunks h hr hline hb hbody hcs
  refine ⟨r.inChunks m.fields cs, [], ?_, fun y _ => ?_⟩
  · have hnil := hparse []
    rw [List.append_nil, Request.readChunks_nil] at hnil
    exact hnil
  · rw [List.append_assoc, hparse, ← Request.parseBody_chunks (h.of_chunked hbody).encoding]
    rfl

/-- The fields of the trailer that have arrived are entered. -/
theorem resumes_trailer {ts : List Field} (hts : ts <+: trailer) :
    Resumes Request.parse .needmore m.receiver m.text (m.head ++ (chunks.flatMap Chunk.text ++
      (last ++ (crlf ++ ts.flatMap Field.text)))) := by
  have hparse : ∀ y, NoFold y → m.receiver.parse (m.head ++ (chunks.flatMap Chunk.text ++
      (last ++ (crlf ++ (ts.flatMap Field.text ++ y))))) =
      (r.inTrailer m.fields chunks ts).parseTrailer y :=
    fun y hy => parse_trailer h hr hline hb hbody hts hy
  obtain ⟨ts₂, hsplit⟩ := hts
  have hwf₂ : ∀ f ∈ ts₂, f.WellFormed := fun f hf =>
    (h.of_chunked hbody).trailer f (by rw [← hsplit]; simp [hf])
  refine ⟨r.inTrailer m.fields chunks ts, [], ?_, fun y hy => ?_⟩
  · have hnil := hparse [] noFold_nil
    rw [List.append_nil] at hnil
    rw [hnil]
    exact Request.parseHeadersWith_nil
  · have htext : m.text = m.head ++ (chunks.flatMap Chunk.text ++ (last ++ (crlf ++
        ts.flatMap Field.text))) ++ (ts₂.flatMap Field.text ++ (crlf ++ [])) := by
      simp [text, hbody, Body.text, ← hsplit]
    rw [htext, List.prefix_append_right_inj] at hy
    have hgo := hparse y (noFold_of_isPrefix hy (noFold_fields hwf₂ _))
    simp only [List.append_assoc] at hgo ⊢
    rw [hgo]
    rfl

end Places

/-- **The parser goes on behind these parts** as if it had not been interrupted. -/
theorem resumes_of_resumable (h : m.WellFormed) (hx : m.Resumable x) :
    Resumes Request.parse .needmore m.receiver m.text x := by
  obtain ⟨r, hline, hr⟩ := parseLine_start h.start
  cases hx with
  | start hx => exact resumes_start h hx
  | field hfs => exact resumes_field h hr hline hfs
  | payload hb hbody hcut hne => exact resumes_payload h hr hline hb hbody hcut hne
  | chunk hb hbody hcs => exact resumes_chunk h hr hline hb hbody hcs
  | trailer hb hbody hts => exact resumes_trailer h hr hline hb hbody hts

end Message

/-! ## A body that is not chunked

Whatever the calls for such a body are, they lose no byte. -/

namespace Request

variable {r t u : Request} {buf rest : Str} {res : ParseStatus}

/-- The parser is in a body that is not chunked. -/
structure Streaming (t : Request) : Prop where
  status : t.status = .readingBody
  chunked : t.chunked = false
  encoding : t.headers[str "Transfer-Encoding"]?.getD [] ≠ str "chunked"

/-- What looking for the length of a body keeps. -/
theorem getBodyLength_keeps {n : ℤ} (h : r.getBodyLength = .ok (n, u)) :
    u.status = r.status ∧ u.chunked = r.chunked ∧ u.buf = r.buf ∧
      ∀ key : Str, u.headers[key]?.getD [] = r.headers[key]?.getD [] := by
  have hget : ∀ key : Str, ((r.headers.subscript (str "Content-Length")).2.subscript
      (str "Connection")).2[key]?.getD [] = r.headers[key]?.getD [] := fun key => by
    rw [getD_subscript, getD_subscript]
  rw [getBodyLength] at h
  simp only at h
  split at h
  · simp only [Except.ok.injEq, Prod.mk.injEq] at h
    obtain ⟨-, rfl⟩ := h
    exact ⟨rfl, rfl, rfl, hget⟩
  · obtain ⟨n', -, h⟩ := bind_eq_ok.mp h
    split at h <;>
    · simp only [Except.ok.injEq, Prod.mk.injEq] at h
      obtain ⟨-, rfl⟩ := h
      exact ⟨rfl, rfl, rfl, hget⟩

/-- A body that is not chunked goes to the request without a loss. -/
theorem readBody_conserves (hr : r.Streaming) (h : r.readBody buf = .ok (res, u, rest)) :
    u.Streaming ∧ u.buf.length + rest.length = r.buf.length + buf.length := by
  have hmove : ∀ n, (move r.buf buf n).1.length + (move r.buf buf n).2.length =
      r.buf.length + buf.length := by
    intro n
    have hle := clamp_le buf n
    simp only [move, List.length_append, List.length_take, List.length_drop]
    omega
  rw [readBody, if_neg (by simp [hr.chunked])] at h
  split at h
  · obtain ⟨rfl, rfl, rfl⟩ : _ ∧ _ ∧ _ := by simpa using h
    exact ⟨⟨hr.status, hr.chunked, hr.encoding⟩, hmove _⟩
  · split at h
    · obtain ⟨rfl, rfl, rfl⟩ : _ ∧ _ ∧ _ := by simpa using h
      exact ⟨⟨hr.status, hr.chunked, hr.encoding⟩, hmove _⟩
    · obtain ⟨rfl, rfl, rfl⟩ : _ ∧ _ ∧ _ := by simpa using h
      exact ⟨hr, rfl⟩

/-- **No byte of a streaming body is lost**. -/
theorem parseBody_conserves (ht : t.Streaming) (h : t.parseBody buf = .ok (res, u, rest)) :
    u.Streaming ∧ u.buf.length + rest.length = t.buf.length + buf.length := by
  have hencoding : (t.headers.subscript (str "Transfer-Encoding")).1 ≠ str "chunked" := ht.encoding
  have hlook : ∀ r' : Request, r'.status = t.status → r'.chunked = t.chunked →
      (∀ key : Str, r'.headers[key]?.getD [] =
        (t.headers.subscript (str "Transfer-Encoding")).2[key]?.getD []) → r'.Streaming := by
    intro r' hstatus hchunked hheaders
    refine ⟨hstatus.trans ht.status, hchunked.trans ht.chunked, ?_⟩
    rw [hheaders, getD_subscript]
    exact ht.encoding
  rw [parseBody] at h
  simp only [if_neg hencoding] at h
  obtain ⟨⟨n, r'⟩, hlen, h⟩ := bind_eq_ok.mp h
  obtain ⟨hstatus, hchunked, hbuf, hheaders⟩ := getBodyLength_keeps hlen
  have hr' := hlook r' hstatus hchunked hheaders
  simp only at h
  split at h
  · obtain ⟨rfl, rfl, rfl⟩ : _ ∧ _ ∧ _ := by simpa using h
    exact ⟨hr', by rw [hbuf]⟩
  · obtain ⟨hu, hsum⟩ := readBody_conserves hr' h
    exact ⟨hu, by rw [hsum, hbuf]⟩

/-- **No byte is lost** in a body that is not chunked. -/
theorem parse_conserves (ht : t.Streaming) (h : t.parse buf = .ok (res, u, rest)) :
    u.Streaming ∧ u.buf.length + rest.length = t.buf.length + buf.length := by
  rw [parse, ht.status] at h
  exact parseBody_conserves ht h

end Request

/-! ## Cuts the parser cannot go on from -/

/-- What the header parser does not take for the start of a field: a line end without the `'\r'` in
front of it, or a continuation line without the field it continues. -/
def Interrupts (y : Str) : Prop := ∃ c ∈ y.head?, c = lf ∨ c = 32 ∨ c = 9

/-- A cut of a line and what follows it is in the line, between its line-end bytes, or behind it. -/
theorem cut_line {l rest z y : Str} (h : z ++ y = l ++ (crlf ++ rest)) :
    (∃ w, l = z ++ w ∧ y = w ++ (crlf ++ rest)) ∨ (z = l ++ [cr] ∧ y = lf :: rest) ∨
      ∃ w, z = l ++ (crlf ++ w) ∧ rest = w ++ y := by
  rcases cut_append h with hl | ⟨w, hw, hz, hrest⟩
  · exact .inl hl
  · right
    match w, hw with
    | [c], _ =>
        simp only [crlf, List.cons_append, List.nil_append, List.cons.injEq] at hrest
        obtain ⟨rfl, rfl⟩ := hrest
        exact .inl ⟨hz, rfl⟩
    | c :: d :: w, _ =>
        simp only [crlf, List.cons_append, List.nil_append, List.cons.injEq] at hrest
        obtain ⟨rfl, rfl, rfl⟩ := hrest
        exact .inr ⟨w, hz, rfl⟩

/-- The first byte of the line end is enough for a line. -/
theorem popLine_cr {l : Str} (hplain : Plain l) : popLine (l ++ [cr]) = (l, []) := by
  rw [popLine_eol [] hplain.isEol (by decide), hplain.takeWhile_nul]
  rfl

section Headers

variable {k v : Str} {h : Headers} {z w : Str}

/-- A line that is not complete is taken for the blank line. -/
theorem readHeaders_partial (hz : z ≠ []) (hplain : Plain z) :
    readHeaders k v h z = (.blank, h, z) := by
  rw [readHeaders_eq, if_neg hz, popLine_noEol hplain.isEol]

/-- A line of which only the first byte of the line end has arrived. -/
theorem readHeaders_cr {l : Str} (hplain : Plain l) :
    readHeaders k v h (l ++ [cr]) = readHeaders k v h (l ++ (crlf ++ [])) := by
  have hl : l ++ [cr] ≠ [] := by simp
  have hl' : l ++ (crlf ++ []) ≠ [] := by simp [crlf]
  rw [readHeaders_eq, readHeaders_eq k v h (l ++ (crlf ++ [])), if_neg hl, if_neg hl',
    popLine_cr hplain, popLine_crlf hplain]

/-- A blank line of which only the first byte has arrived. -/
theorem readHeaders_blank_cr : readHeaders k v h [cr] = (.blank, h, []) := by
  have hcr := readHeaders_cr (k := k) (v := v) (h := h) plain_nil
  rwa [List.nil_append, List.nil_append, readHeaders_crlf] at hcr

/-- How the header loop ends at a cut in a field: the rest of a line is taken for the blank line, or
the input is used up in front of something that starts no field. At most the entry of this field is
changed. -/
def Cut (key : Str) (h : Headers) (y : Str) (res : HeadersStop × Headers × Str) : Prop :=
  ∃ h' : Headers, (∀ key', key' ≠ key → h'[key']? = h[key']?) ∧
    ((∃ rest, res = (.blank, h', rest) ∧ rest ≠ [] ∧ (popLine rest).1 = []) ∨
      (res = (.drained, h', []) ∧ Interrupts y))

/-- A cut behind an entry of its field is one in front of it. -/
theorem Cut.of_insert {key x : Str} {y : Str} {res : HeadersStop × Headers × Str}
    (hcut : Cut key (h.insert key x) y res) : Cut key h y res := by
  obtain ⟨h', hsame, hstop⟩ := hcut
  refine ⟨h', fun key' hne => ?_, hstop⟩
  rw [hsame key' hne, Std.ExtTreeMap.getElem?_insert, if_neg]
  simpa using Ne.symm hne

/-- A cut in a line. -/
theorem cut_of_partial {key y : Str} (hz : z ≠ []) (hplain : Plain z) :
    Cut key h y (readHeaders k v h z) :=
  ⟨h, fun _ _ => rfl,
    .inl ⟨z, readHeaders_partial hz hplain, hz, by rw [popLine_noEol hplain.isEol]⟩⟩

/-- A cut in the continuation lines of a field. -/
theorem readHeaders_cut_folds {ls : List Str} (hls : ∀ l ∈ ls, Field.IsFold l) (hk : k ≠ [])
    (hcut : (ls.flatMap fun l => l ++ crlf) = z ++ w) (hw : w ≠ []) :
    Cut k h w (readHeaders k v h z) := by
  induction ls generalizing h z with
  | nil =>
      have hnil : w = [] := (List.append_eq_nil_iff.mp hcut.symm).2
      exact absurd hnil hw
  | cons l ls ih =>
      have hl := hls l (by simp)
      rw [List.flatMap_cons, List.append_assoc] at hcut
      rcases cut_line hcut.symm with ⟨u, rfl, hu⟩ | ⟨rfl, hu⟩ | ⟨z', rfl, hrest⟩
      · by_cases hz : z = []
        · -- the cut is in front of the continuation line
          subst hz
          obtain ⟨-, c, hc, hblank⟩ := hl
          have hu' : u ≠ [] := by
            rintro rfl
            simp at hc
          refine ⟨h, fun _ _ => rfl, .inr ⟨by rw [readHeaders_eq, if_pos rfl], c, ?_, .inr hblank⟩⟩
          rw [hu, List.head?_append_of_ne_nil _ hu']
          exact hc
        · exact cut_of_partial hz (plain_append.mp hl.1).1
      · refine Cut.of_insert (x := v ++ ltrim l [32, 9])
          ⟨_, fun _ _ => rfl, .inr ⟨?_, lf, ?_, .inl rfl⟩⟩
        · rw [readHeaders_cr hl.1, readHeaders_fold hl hk, readHeaders_eq, if_pos rfl]
        · simp [hu]
      · rw [readHeaders_fold hl hk]
        exact (ih (fun l' hl' => hls l' (by simp [hl'])) hrest).of_insert

/-- **A cut in a field** is not noticed as one. -/
theorem readHeaders_cut {f : Field} (hf : f.WellFormed) (hcut : f.text = z ++ w) (hz : z ≠ [])
    (hw : w ≠ []) : Cut f.name h w (readHeaders k v h z) := by
  have hplain : Plain (f.name ++ 58 :: f.value) := by
    simp [hf.name.plain, hf.value_plain, cr, lf]
  have hline : ∀ rest, readHeaders k v h (f.name ++ 58 :: f.value ++ (crlf ++ rest)) =
      readHeaders f.name (trim f.value) (h.insert f.name (trim f.value)) rest := by
    intro rest
    rw [readHeaders_line hf.name.ne_nil (noFold_of_noEdgeSpace hf.name.edges) hf.name.colon
      hplain, trim_of_noEdgeSpace hf.name.edges]
  rw [Field.text, List.append_assoc] at hcut
  rcases cut_line hcut.symm with ⟨u, hu, -⟩ | ⟨rfl, hu⟩ | ⟨z', rfl, hrest⟩
  · rw [hu] at hplain
    exact cut_of_partial hz (plain_append.mp hplain).1
  · refine Cut.of_insert (x := trim f.value) ⟨_, fun _ _ => rfl, .inr ⟨?_, lf, ?_, .inl rfl⟩⟩
    · rw [readHeaders_cr hplain, hline, readHeaders_eq, if_pos rfl]
    · simp [hu]
  · rw [hline]
    exact (readHeaders_cut_folds hf.folds_fold hf.name.ne_nil hrest hw).of_insert

/-- In front of a line end that has lost its first byte the header loop ends. -/
theorem readHeaders_lf (q : Str) : ∃ rest, readHeaders k v h (lf :: q) = (.blank, h, rest) ∧
    q.length ≤ rest.length + 1 := by
  have hpop : popLine (lf :: q) = ([], dropEol (lf :: q)) :=
    popLine_eol (s := []) q (by simp) (by decide)
  refine ⟨dropEol (lf :: q), by rw [readHeaders_eq, if_neg (by simp), hpop], ?_⟩
  match q with
  | [] => simp [dropEol]
  | d :: q =>
      simp only [dropEol]
      split <;> simp

/-- A continuation line without its field is no header line, and taken for the blank line as long as
it is not complete. -/
theorem readHeaders_continuation {c : UInt8} (hc : c = 32 ∨ c = 9) (q : Str) :
    (readHeaders [] [] h (c :: q) = (.blank, h, c :: q) ∧ (popLine (c :: q)).1 = []) ∨
      ∃ rest, readHeaders [] [] h (c :: q) = (.bad, h, rest) := by
  rw [readHeaders_eq, if_neg (by simp)]
  rcases eol_cases (c :: q) with hq | ⟨s, d, tail, hs, hseol, hd⟩
  · rw [popLine_noEol hq]
    exact .inl ⟨rfl, rfl⟩
  · right
    rw [hs, popLine_eol tail hseol hd]
    cases s with
    | nil =>
        rw [List.nil_append, List.cons.injEq] at hs
        obtain ⟨rfl, -⟩ := hs
        exfalso
        rcases hc with rfl | rfl <;> revert hd <;> decide
    | cons c' s =>
        rw [List.cons_append, List.cons.injEq] at hs
        obtain ⟨rfl, -⟩ := hs
        have hne : (c != 0) = true := by rcases hc with rfl | rfl <;> decide
        simp [hne, hc]

end Headers

namespace Request

variable {r t : Request} {body : Request → Str → Except Fault Parsed} {h : Headers} {buf rest : Str}

/-- Each way the header loop ends is one way the header parser goes on. -/
theorem parseHeadersWith_blank (hread : readHeaders [] [] t.headers buf = (.blank, h, rest)) :
    t.parseHeadersWith body buf = finishHeaders body { t with headers := h } rest := by
  rw [parseHeadersWith, hread]

/-- The header parser where the input ends. -/
theorem parseHeadersWith_drained (hread : readHeaders [] [] t.headers buf = (.drained, h, rest)) :
    t.parseHeadersWith body buf = .ok (.needmore, { t with headers := h }, rest) := by
  rw [parseHeadersWith, hread]

/-- The header parser at a bad line. -/
theorem parseHeadersWith_bad (hread : readHeaders [] [] t.headers buf = (.bad, h, rest)) :
    t.parseHeadersWith body buf = .ok (.corrupted, { t with headers := h }, rest) := by
  rw [parseHeadersWith, hread]

/-! ### Cuts in chunks -/

/-- The empty text is no size: the conversion throws. -/
theorem readChunks_blank (hr : r.ntoread < 0) (hbuf : buf ≠ []) (hpop : (popLine buf).1 = []) :
    r.readChunks buf = .error .invalidArgument := by
  have hstol : stol 16 [] = .error .invalidArgument := by decide +kernel
  rw [readChunks_eq, if_neg hbuf, if_pos hr]
  simp only [hpop, hstol, bind, Except.bind]

/-- A size line of which only the first byte of the line end has arrived. -/
theorem readChunks_cr {l : Str} (hplain : Plain l) (hr : r.ntoread < 0) :
    r.readChunks (l ++ [cr]) = r.readChunks (l ++ (crlf ++ [])) := by
  have hl : l ++ [cr] ≠ [] := by simp
  have hl' : l ++ (crlf ++ []) ≠ [] := by simp [crlf]
  rw [readChunks_eq, readChunks_eq r (l ++ (crlf ++ [])), if_neg hl, if_neg hl', if_pos hr,
    if_pos hr, popLine_cr hplain, popLine_crlf hplain]

/-- The bytes of a chunk go to the body without waiting for the line end behind them. -/
theorem readChunks_data_cut {data e : Str} (hdata : data ≠ []) (hr : r.ntoread = data.length)
    (he : e.length ≤ 1) :
    r.readChunks (data ++ e) =
      .ok (.needmore, { r with buf := r.buf ++ (data ++ e), ntoread := -1 }, []) := by
  have hclamp : clamp (data ++ e) (r.ntoread + 2) = (data ++ e).length :=
    clamp_of_ge (by rw [List.length_append]; omega)
  rw [readChunks_eq, if_neg (by simp [hdata]), if_neg (by omega), if_neg (by simp; omega)]
  simp only [move, hclamp, List.take_length, List.drop_length, readChunks_nil]

end Request

/-! ## States from which a message is not completed as it should be -/

section Ruined

variable {N N' : ℕ} {t u : Request} {buf rest y : Str} {qs : List Str}

/-- Whatever the pieces of `y` are, the calls for them do not complete the message with a body and
input left over of at most `N` bytes. -/
def Ruined (N : ℕ) (t : Request) (rest y : Str) : Prop :=
  ∀ qs u left, qs ≠ [] → (∀ q ∈ qs, q ≠ []) → qs.flatten = y →
    Completes Request.parse .needmore .allread t rest qs u left → N < u.buf.length + left.length

/-- A message that does not end within a length does not end within a smaller one. -/
theorem Ruined.mono (h : Ruined N t rest y) (hN : N' ≤ N) : Ruined N' t rest y :=
  fun qs u left hqs hne hy hgo => hN.trans_lt (h qs u left hqs hne hy hgo)

/-- It is enough to look at the first call: it is neither one that asks for more nor one that
completes the message, or it does so in front of a rest that is too long. -/
theorem ruined_of_first {c : UInt8} (hc : c ∈ y.head?)
    (hlast : ∀ q u left, c :: q = y → t.parse (c :: q) = .ok (.allread, u, left) →
      N < u.buf.length + left.length)
    (hmore : ∀ q y' u left, c :: q ++ y' = y → t.parse (c :: q) = .ok (.needmore, u, left) →
      Ruined N u left y') : Ruined N t [] y := by
  rintro qs u left hqs hne rfl h
  obtain ⟨q, qs, rfl⟩ := List.exists_cons_of_ne_nil hqs
  obtain ⟨c', q, rfl⟩ := List.exists_cons_of_ne_nil (hne q (by simp))
  obtain rfl : c' = c := by simpa using hc
  rcases completes_cons.mp h with ⟨rfl, hparse⟩ | ⟨hqs', t', rest', hparse, hgo⟩
  · exact hlast q u left (by simp) hparse
  · exact hmore q qs.flatten t' rest' (by simp) hparse qs u left hqs'
      (fun q' hq' => hne q' (by simp [hq'])) rfl hgo

/-- **No byte is lost** in calls for pieces of a streaming body. -/
theorem feed_streaming (ht : t.Streaming) {r : List ParseStatus × Request × Str}
    (h : feed Request.parse t rest qs = .ok r) :
    r.2.1.buf.length + r.2.2.length = t.buf.length + rest.length + qs.flatten.length :=
  feed_conserves (J := Request.Streaming) (μ := fun t => t.buf.length)
    (fun _ _ _ _ _ hs hparse => Request.parse_conserves hs hparse) ht h

/-- In a body that is not chunked all bytes are in the body or left over. -/
theorem ruined_of_streaming (ht : t.Streaming)
    (hN : N < t.buf.length + rest.length + y.length) : Ruined N t rest y := by
  rintro qs u left - - rfl h
  have hsum : u.buf.length + left.length = _ := feed_streaming ht h
  omega

/-- In a chunked body the parser reads chunks. -/
theorem parseBody_of_encoding
    (hencoding : t.headers[str "Transfer-Encoding"]? = some (str "chunked")) :
    t.parseBody buf = Request.readChunks { t with chunked := true, ntoread := -1 } buf :=
  Request.parseBody_chunked hencoding buf

/-- In a chunked body, in front of a line end where a size should be. -/
theorem ruined_of_eol (hstatus : t.status = .readingBody)
    (hencoding : t.headers[str "Transfer-Encoding"]? = some (str "chunked"))
    {c : UInt8} (hc : c ∈ y.head?) (heol : isEol c = true) : Ruined N t [] y := by
  have hthrow : ∀ q, t.parse (c :: q) = .error .invalidArgument := by
    intro q
    have hpop : (popLine (c :: q)).1 = [] := by
      rw [show c :: q = [] ++ c :: q from rfl, popLine_eol q (by simp) heol]
      rfl
    rw [Request.parse, hstatus]
    simp only [parseBody_of_encoding hencoding]
    exact Request.readChunks_blank (show (-1 : ℤ) < 0 by decide) (by simp) hpop
  refine ruined_of_first hc (fun q u left _ hparse => ?_) fun q y' u left _ hparse => ?_
  · rw [hthrow] at hparse
    cases hparse
  · rw [hthrow] at hparse
    cases hparse

/-- The parser in the body, when the blank line has led it there. -/
def bodyOf (t : Request) : Request := { t with status := .readingBody }

/-- What the blank line leads to: the end of the message, a body that is not chunked, or chunks. -/
inductive AtBlank (t : Request) : Prop
  | complete : (∀ rest, t.finishHeaders Request.parseBody rest = .ok (.allread, t, rest)) →
      AtBlank t
  | streaming : (∀ rest, t.finishHeaders Request.parseBody rest = (bodyOf t).parseBody rest) →
      (bodyOf t).Streaming → AtBlank t
  | chunks : (∀ rest, t.finishHeaders Request.parseBody rest = (bodyOf t).parseBody rest) →
      t.bodyless = .ok false → t.headers[str "Transfer-Encoding"]? = some (str "chunked") →
      AtBlank t

/-- A line that is not complete is taken for the blank line, and the call asks for more. -/
theorem ruined_of_blank (ht : AtBlank t)
    (h : t.finishHeaders Request.parseBody buf = .ok (.needmore, u, rest))
    (hpop : (popLine buf).1 = []) (hy : buf = [] → lf ∈ y.head?)
    (hN : N < t.buf.length + buf.length + y.length) : Ruined N u rest y := by
  cases ht with
  | complete hfinish =>
      rw [hfinish] at h
      simp at h
  | streaming hfinish ht' =>
      rw [hfinish] at h
      obtain ⟨hu, hsum⟩ := Request.parseBody_conserves ht' h
      change _ = t.buf.length + _ at hsum
      exact ruined_of_streaming hu (by omega)
  | chunks hfinish _ hencoding =>
      rw [hfinish, parseBody_of_encoding (t := bodyOf t) hencoding] at h
      by_cases hbuf : buf = []
      · subst hbuf
        rw [Request.readChunks_nil] at h
        obtain ⟨rfl, rfl⟩ : _ ∧ _ := by simpa using h
        exact ruined_of_eol rfl hencoding (hy rfl) (by decide)
      · rw [Request.readChunks_blank (show (-1 : ℤ) < 0 by decide) hbuf hpop] at h
        cases h

/-- The first call in front of something that starts no field: it ends the header, with at most two
bytes less, or refuses the message. -/
theorem parse_interrupts {finish : Str → Except Fault Parsed}
    (hparse : ∀ q, t.parse q = t.parseHeaders q)
    (hfinish : ∀ rest, t.finishHeaders Request.parseBody rest = finish rest) {c : UInt8}
    (hc : c = lf ∨ c = 32 ∨ c = 9) (q : Str) :
    (∃ rest, t.parse (c :: q) = finish rest ∧ q.length ≤ rest.length + 1) ∨
      ∃ rest, t.parse (c :: q) = .ok (.corrupted, t, rest) := by
  rw [hparse]
  rcases hc with rfl | hc
  · obtain ⟨rest, hread, hle⟩ := readHeaders_lf (k := []) (v := []) (h := t.headers) q
    exact .inl ⟨rest, (Request.parseHeadersWith_blank hread).trans (hfinish rest), hle⟩
  · rcases readHeaders_continuation (h := t.headers) hc q with ⟨hread, -⟩ | ⟨rest, hread⟩
    · exact .inl ⟨_, (Request.parseHeadersWith_blank hread).trans (hfinish _), by simp; omega⟩
    · exact .inr ⟨rest, Request.parseHeadersWith_bad hread⟩

/-- The message ends in front of something that starts no field. -/
theorem ruined_of_complete (hparse : ∀ q, t.parse q = t.parseHeaders q)
    (hfinish : ∀ rest, t.finishHeaders Request.parseBody rest = .ok (.allread, t, rest))
    (hy : Interrupts y) (hN : N + 3 ≤ t.buf.length + y.length) : Ruined N t [] y := by
  obtain ⟨c, hhead, hc⟩ := hy
  have hcall := parse_interrupts hparse hfinish hc
  refine ruined_of_first hhead (fun q u left hq h => ?_) fun q y' u left _ h => ?_
  · have hlength : (c :: q).length = y.length := congrArg List.length hq
    rcases hcall q with ⟨rest, he, hle⟩ | ⟨rest, he⟩
    · rw [he] at h
      obtain ⟨rfl, rfl⟩ : _ ∧ _ := by simpa using h
      rw [List.length_cons] at hlength
      omega
    · rw [he] at h
      simp at h
  · rcases hcall q with ⟨rest, he, -⟩ | ⟨rest, he⟩ <;>
    · rw [he] at h
      simp at h

/-- A body that is not chunked begins in front of something that starts no field. -/
theorem ruined_of_begins (hparse : ∀ q, t.parse q = t.parseHeaders q)
    (hfinish : ∀ rest, t.finishHeaders Request.parseBody rest = (bodyOf t).parseBody rest)
    (ht' : (bodyOf t).Streaming) (hy : Interrupts y) (hN : N + 3 ≤ t.buf.length + y.length) :
    Ruined N t [] y := by
  obtain ⟨c, hhead, hc⟩ := hy
  have hcall := parse_interrupts hparse hfinish hc
  refine ruined_of_first hhead (fun q u left hq h => ?_) fun q y' u left hq h => ?_
  · have hlength : (c :: q).length = y.length := congrArg List.length hq
    rcases hcall q with ⟨rest, he, hle⟩ | ⟨rest, he⟩
    · rw [he] at h
      have hsum := (Request.parseBody_conserves ht' h).2
      change _ = t.buf.length + _ at hsum
      rw [List.length_cons] at hlength
      omega
    · rw [he] at h
      simp at h
  · have hlength : (c :: q).length + y'.length = y.length := by
      rw [← List.length_append, hq]
    rcases hcall q with ⟨rest, he, hle⟩ | ⟨rest, he⟩
    · rw [he] at h
      obtain ⟨hu, hsum⟩ := Request.parseBody_conserves ht' h
      change _ = t.buf.length + _ at hsum
      rw [List.length_cons] at hlength
      exact ruined_of_streaming hu (by omega)
    · rw [he] at h
      simp at h

/-- Chunks begin in front of a continuation line. -/
theorem ruined_of_continuation (hparse : ∀ q, t.parse q = t.parseHeaders q)
    (hfinish : ∀ rest, t.finishHeaders Request.parseBody rest = (bodyOf t).parseBody rest)
    (hencoding : t.headers[str "Transfer-Encoding"]? = some (str "chunked"))
    {c : UInt8} (hhead : c ∈ y.head?) (hc : c = 32 ∨ c = 9) : Ruined N t [] y := by
  have hcall : ∀ q, t.parse (c :: q) = .error .invalidArgument ∨
      ∃ rest, t.parse (c :: q) = .ok (.corrupted, t, rest) := by
    intro q
    rw [hparse]
    rcases readHeaders_continuation (h := t.headers) hc q with ⟨hread, hpop⟩ | ⟨rest, hread⟩
    · left
      refine (Request.parseHeadersWith_blank hread).trans ((hfinish _).trans ?_)
      rw [parseBody_of_encoding (t := bodyOf t) hencoding]
      exact Request.readChunks_blank (show (-1 : ℤ) < 0 by decide) (by simp) hpop
    · exact .inr ⟨rest, Request.parseHeadersWith_bad hread⟩
  refine ruined_of_first hhead (fun q u left _ h => ?_) fun q y' u left _ h => ?_ <;>
  · rcases hcall q with he | ⟨rest, he⟩ <;>
    · rw [he] at h
      simp at h

end Ruined

/-! ## All cuts of a message -/

namespace Message

variable {m : Message} {x y : Str}

/-- What has come of the message when the parser asks for more behind `x` does not let the pieces of
`y` complete it as they should. -/
def Lost (m : Message) (x y : Str) : Prop :=
  ∀ t rest, m.receiver.parse x = .ok (.needmore, t, rest) → Ruined m.kept t rest y

section Lost

variable {r : Request} (hr : r.Started m.start)
include hr

/-- What the blank line leads to in the header of a message. -/
theorem atBlank_inHeader (headers : Headers) :
    AtBlank { r with status := .readingHeaders, headers := headers } := by
  by_cases hb : m.start.Bodyless
  · exact .complete fun rest => Request.finishHeaders_bodyless
      (r := { r with status := .readingHeaders, headers := headers }) (hr.bodyless_true hb) rest
  · have hbodyless : Request.bodyless { r with status := .readingHeaders, headers := headers } =
        .ok false := hr.bodyless_false hb
    have hfinish : ∀ rest, Request.finishHeaders Request.parseBody
        { r with status := .readingHeaders, headers := headers } rest =
          (bodyOf { r with status := .readingHeaders, headers := headers }).parseBody rest :=
      fun rest => Request.finishHeaders_body hbodyless rfl rest
    by_cases hte : headers[str "Transfer-Encoding"]? = some (str "chunked")
    · exact .chunks hfinish hbodyless hte
    · refine .streaming hfinish ⟨rfl, hr.chunked, fun he => hte ?_⟩
      change headers[str "Transfer-Encoding"]?.getD [] = str "chunked" at he
      cases hv : headers[str "Transfer-Encoding"]? with
      | none =>
          rw [hv] at he
          exact absurd he (by decide +kernel)
      | some v =>
          rw [hv] at he
          exact congrArg some he

variable (h : m.WellFormed) (hline : m.receiver.parseLine m.start.text = .ok (0, r))
include h hline

/-- A cut between the two bytes of the line end of the first line. -/
theorem lost_start :
    m.Lost (m.start.text ++ [cr])
      (lf :: (m.fields.flatMap Field.text ++ (crlf ++ m.body.text))) := by
  intro t rest hparse
  have hstart : m.receiver.parse (m.start.text ++ [cr]) = (r.inHeader []).parseHeaders [] := by
    have hl : m.start.text ++ [cr] ≠ [] := by simp
    have hl' : m.start.text ++ (crlf ++ []) ≠ [] := by simp [crlf]
    have hstatus : m.receiver.status = .readingFirstline := rfl
    rw [← Request.parse_start h.start hr hline, Request.parse, Request.parse, hstatus]
    simp only [Request.parseFirstline]
    rw [if_neg hl, if_neg hl', popLine_cr h.start.plain, popLine_crlf h.start.plain]
  rw [hstart, Request.parseHeaders, Request.parseHeadersWith_nil] at hparse
  obtain ⟨rfl, rfl⟩ : _ ∧ _ := by simpa using hparse
  have hlong : m.kept + 3 ≤ (r.inHeader []).buf.length +
      (lf :: (m.fields.flatMap Field.text ++ (crlf ++ m.body.text))).length := by
    have hle := m.kept_le
    simp only [crlf, List.length_cons, List.length_append, List.length_nil]
    omega
  have hy : Interrupts (lf :: (m.fields.flatMap Field.text ++ (crlf ++ m.body.text))) :=
    ⟨lf, rfl, .inl rfl⟩
  -- no field has been entered yet, so nothing makes the body a chunked one
  cases atBlank_inHeader hr (mapOf []) with
  | complete hfinish => exact ruined_of_complete (fun _ => rfl) hfinish hy hlong
  | streaming hfinish ht' => exact ruined_of_begins (fun _ => rfl) hfinish ht' hy hlong
  | chunks hfinish hbodyless hencoding => cases hencoding

omit hr hline in
/-- Only the header of a chunked message announces chunks. -/
theorem chunked_of_encoding (hb : ¬m.start.Bodyless) {headers : Headers}
    (hfields : (∀ f ∈ m.fields, f.name ≠ str "Transfer-Encoding") →
      headers[str "Transfer-Encoding"]? = none)
    (hencoding : headers[str "Transfer-Encoding"]? = some (str "chunked")) :
    ∃ chunks last trailer, m.body = .chunked chunks last trailer := by
  have hno : ¬∀ f ∈ m.fields, f.name ≠ str "Transfer-Encoding" := by
    intro hte
    rw [hfields hte] at hencoding
    cases hencoding
  cases hbody : m.body with
  | absent => exact absurd (fun f hf => ((h.of_absent hbody).resolve_left hb f hf).1) hno
  | length payload => exact absurd (h.of_length hbody).1 hno
  | chunked chunks last trailer => exact ⟨chunks, last, trailer, rfl⟩

/-- A cut in a field of the header. -/
theorem lost_field {fs fs' : List Field} {f : Field} {z w : Str}
    (hfields : m.fields = fs ++ f :: fs') (hf : f.text = z ++ w) (hz : z ≠ []) (hw : w ≠ [])
    (hplace : ¬m.Misplaced (m.start.text ++ (crlf ++ (fs.flatMap Field.text ++ z)))) :
    m.Lost (m.start.text ++ (crlf ++ (fs.flatMap Field.text ++ z)))
      (w ++ (fs'.flatMap Field.text ++ (crlf ++ m.body.text))) := by
  intro t rest hparse
  have hle := m.kept_le
  have hpos := List.length_pos_iff.mpr hw
  have hwf : f.WellFormed := h.fields f (by rw [hfields]; simp)
  have hwfs : ∀ f ∈ fs, f.WellFormed := fun f hf => h.fields f (by rw [hfields]; simp [hf])
  have hzfold := hwf.noFold_prefix hf
  rw [Request.parse_start h.start hr hline, Request.parseHeaders_fields hwfs hzfold,
    Request.parseHeaders] at hparse
  obtain ⟨headers, hsame, hstop⟩ := readHeaders_cut (k := []) (v := []) (h := mapOf fs) hwf hf hz hw
  have hblank := atBlank_inHeader hr headers
  rcases hstop with ⟨buf, hread, hbuf, hpop⟩ | ⟨hread, c, hc, hy⟩
  · rw [Request.parseHeadersWith_blank hread] at hparse
    refine ruined_of_blank hblank hparse hpop (fun he => absurd he hbuf) ?_
    simp only [crlf, List.length_cons, List.length_append, List.length_nil]
    omega
  · rw [Request.parseHeadersWith_drained hread] at hparse
    obtain ⟨rfl, rfl⟩ : _ ∧ _ := by simpa using hparse
    have hhead : c ∈ (w ++ (fs'.flatMap Field.text ++ (crlf ++ m.body.text))).head? := by
      rwa [List.head?_append_of_ne_nil _ hw]
    have hlong : m.kept + 3 ≤ (r.inHeader fs).buf.length +
        (w ++ (fs'.flatMap Field.text ++ (crlf ++ m.body.text))).length := by
      simp only [crlf, List.length_cons, List.length_append, List.length_nil]
      omega
    cases hblank with
    | complete hfinish => exact ruined_of_complete (fun _ => rfl) hfinish ⟨c, hhead, hy⟩ hlong
    | streaming hfinish ht' =>
        exact ruined_of_begins (fun _ => rfl) hfinish ht' ⟨c, hhead, hy⟩ hlong
    | chunks hfinish hbodyless hencoding =>
        refine ruined_of_continuation (fun _ => rfl) hfinish hencoding hhead (hy.resolve_left ?_)
        rintro rfl
        have hb : ¬m.start.Bodyless := by
          intro hb
          cases (hr.bodyless_true hb).symm.trans hbodyless
        have hfields' : (∀ f ∈ m.fields, f.name ≠ str "Transfer-Encoding") →
            headers[str "Transfer-Encoding"]? = none := by
          intro hte
          rw [hsame _ (hte f (by rw [hfields]; simp)).symm, mapOf,
            getElem?_foldl_enter_of_ne fun f hf => hte f (by rw [hfields]; simp [hf])]
          rfl
        obtain ⟨chunks, last, trailer, hbody⟩ := chunked_of_encoding h hb hfields' hencoding
        obtain ⟨w', rfl⟩ : ∃ w', w = lf :: w' := by
          obtain ⟨c, w', rfl⟩ := List.exists_cons_of_ne_nil hw
          exact ⟨w', by simpa using hc⟩
        exact hplace (.header hb hbody hfields hf)

/-- A cut between the two bytes of the blank line. -/
theorem lost_blank : m.Lost (m.start.text ++ (crlf ++ (m.fields.flatMap Field.text ++ [cr])))
    (lf :: m.body.text) := by
  intro t rest hparse
  rw [Request.parse_start h.start hr hline,
    Request.parseHeaders_fields h.fields noFold_cr, Request.parseHeaders,
    Request.parseHeadersWith_blank readHeaders_blank_cr] at hparse
  refine ruined_of_blank (atBlank_inHeader hr (mapOf m.fields)) hparse rfl (fun _ => rfl) ?_
  have hle := m.kept_le
  simp only [List.length_cons, List.length_nil]
  omega

/-- A cut behind the header of a message that ends there. -/
theorem lost_bodyless (hb : m.start.Bodyless) (b y : Str) : m.Lost (m.head ++ b) y := by
  intro t rest hparse
  rw [Request.parse_head h hr hline, Request.finishHeaders_of_bodyless hr hb] at hparse
  simp at hparse

end Lost

section LostChunks

variable {r : Request} {chunks cs cs' : List Chunk} {c : Chunk} {last : Str}
  {trailer ts ts' : List Field}

/-- What is kept of a chunked message. -/
theorem kept_chunked (hb : ¬m.start.Bodyless) (hbody : m.body = .chunked chunks last trailer) :
    m.kept = (chunks.flatMap fun c => c.data ++ crlf).length := by
  rw [kept, if_neg hb, hbody, Body.content]

variable (hr : r.Started m.start) (h : m.WellFormed)
  (hline : m.receiver.parseLine m.start.text = .ok (0, r)) (hb : ¬m.start.Bodyless)
  (hbody : m.body = .chunked chunks last trailer)
include hr h hline hb hbody

/-- A cut in a size line, or in front of its line end. -/
theorem lost_size (hcs : cs <+: chunks) {z : Str} (hz : z ≠ []) (hplain : Plain z) (y : Str) :
    m.Lost (m.head ++ (cs.flatMap Chunk.text ++ z)) y := by
  intro t rest hparse
  rw [parse_chunks h hr hline hb hbody hcs,
    Request.readChunks_blank (show (-1 : ℤ) < 0 by decide) hz (by rw [popLine_noEol hplain.isEol])] at hparse
  cases hparse

/-- The parser behind the size line of a chunk. -/
theorem parse_size (hchunks : chunks = cs ++ c :: cs') (rest : Str) :
    m.receiver.parse (m.head ++ (cs.flatMap Chunk.text ++ (c.size ++ (crlf ++ rest)))) =
      Request.readChunks { r.inChunks m.fields cs with ntoread := c.data.length } rest := by
  obtain ⟨hc, hlen⟩ := h.chunks hbody c (by rw [hchunks]; simp)
  have hpos := List.length_pos_iff.mpr hc.data
  rw [parse_chunks h hr hline hb hbody (by rw [hchunks]; exact List.prefix_append _ _),
    Request.readChunks_size hc.plain (show (-1 : ℤ) < 0 by decide) (hc.size.stol hlen) (by omega)]

/-- A cut between the two bytes of the line end of a size line. -/
theorem lost_sizeEnd (hchunks : chunks = cs ++ c :: cs') (y : Str) :
    m.Lost (m.head ++ (cs.flatMap Chunk.text ++ (c.size ++ [cr]))) (lf :: y) := by
  intro t rest hparse
  have hc := (h.chunks hbody c (by rw [hchunks]; simp)).1
  have hcs : cs <+: chunks := by
    rw [hchunks]
    exact List.prefix_append _ _
  have hencoding := (h.of_chunked hbody).encoding
  rw [parse_chunks h hr hline hb hbody hcs,
    Request.readChunks_cr hc.plain (show (-1 : ℤ) < 0 by decide),
    ← parse_chunks h hr hline hb hbody hcs, parse_size hr h hline hb hbody hchunks,
    Request.readChunks_nil] at hparse
  obtain ⟨rfl, rfl⟩ : _ ∧ _ := by simpa using hparse
  exact ruined_of_eol rfl hencoding rfl (by decide)

/-- A cut behind the data of a chunk, in front of or in the line end. -/
theorem lost_data (hchunks : chunks = cs ++ c :: cs') {e : Str} (he : e.length ≤ 1) {b : UInt8}
    (hb' : isEol b = true) (y : Str) :
    m.Lost (m.head ++ (cs.flatMap Chunk.text ++ (c.size ++ (crlf ++ (c.data ++ e))))) (b :: y) := by
  intro t rest hparse
  have hc := (h.chunks hbody c (by rw [hchunks]; simp)).1
  have hencoding := (h.of_chunked hbody).encoding
  rw [parse_size hr h hline hb hbody hchunks, Request.readChunks_data_cut hc.data rfl he] at hparse
  obtain ⟨rfl, rfl⟩ : _ ∧ _ := by simpa using hparse
  exact ruined_of_eol rfl hencoding rfl hb'

/-- A cut between the two bytes of the line end of the line of size 0. -/
theorem lost_lastEnd : m.Lost (m.head ++ (chunks.flatMap Chunk.text ++ (last ++ [cr])))
    (lf :: (trailer.flatMap Field.text ++ crlf)) := by
  intro t rest hparse
  have hparse' := parse_trailer h hr hline hb hbody (List.nil_prefix (l := trailer)) noFold_nil
  rw [List.flatMap_nil, List.nil_append] at hparse'
  rw [parse_chunks h hr hline hb hbody (List.prefix_refl _),
    Request.readChunks_cr (h.of_chunked hbody).last_plain (show (-1 : ℤ) < 0 by decide),
    ← parse_chunks h hr hline hb hbody (List.prefix_refl _), hparse', Request.parseTrailer,
    Request.parseHeadersWith_nil] at hparse
  obtain ⟨rfl, rfl⟩ : _ ∧ _ := by simpa using hparse
  refine ruined_of_complete (fun q => Request.parseTrailer_eq rfl q)
    (Request.finishHeaders_inTrailer hr hb m.fields chunks [] _ _) ⟨lf, rfl, .inl rfl⟩ ?_
  rw [kept_chunked hb hbody]
  show _ ≤ (chunks.flatMap fun c => c.data ++ crlf).length + _
  simp only [crlf, List.length_cons, List.length_append, List.length_nil]
  omega

/-- A cut in a field of the trailer. -/
theorem lost_trailer {f : Field} {z w : Str} (htrailer : trailer = ts ++ f :: ts')
    (hf : f.text = z ++ w) (hz : z ≠ []) (hw : w ≠ []) :
    m.Lost (m.head ++
      (chunks.flatMap Chunk.text ++ (last ++ (crlf ++ (ts.flatMap Field.text ++ z)))))
      (w ++ (ts'.flatMap Field.text ++ crlf)) := by
  intro t rest hparse
  have hpos := List.length_pos_iff.mpr hw
  have hwf : f.WellFormed := (h.of_chunked hbody).trailer f (by rw [htrailer]; simp)
  have hzfold := hwf.noFold_prefix hf
  rw [parse_trailer h hr hline hb hbody (by rw [htrailer]; exact List.prefix_append _ _) hzfold,
    Request.parseTrailer] at hparse
  obtain ⟨headers, -, hstop⟩ :=
    readHeaders_cut (k := []) (v := []) (h := mapOf (m.fields ++ ts)) hwf hf hz hw
  rcases hstop with ⟨buf, hread, -, -⟩ | ⟨hread, c, hc, hy⟩
  · rw [Request.parseHeadersWith_blank hread, Request.finishHeaders_inTrailer hr hb] at hparse
    simp at hparse
  · rw [Request.parseHeadersWith_drained hread] at hparse
    obtain ⟨rfl, rfl⟩ : _ ∧ _ := by simpa using hparse
    refine ruined_of_complete (fun q => Request.parseTrailer_eq rfl q)
      (Request.finishHeaders_inTrailer hr hb m.fields chunks ts headers _) ⟨c, ?_, hy⟩ ?_
    · rwa [List.head?_append_of_ne_nil _ hw]
    · rw [kept_chunked hb hbody]
      show _ ≤ (chunks.flatMap fun c => c.data ++ crlf).length + _
      simp only [crlf, List.length_cons, List.length_append, List.length_nil]
      omega

/-- A cut between the two bytes of the blank line behind the trailer. -/
theorem lost_trailerEnd (y : Str) : m.Lost (m.head ++ (chunks.flatMap Chunk.text ++
    (last ++ (crlf ++ (trailer.flatMap Field.text ++ [cr]))))) y := by
  intro t rest hparse
  rw [parse_trailer h hr hline hb hbody (List.prefix_refl _) noFold_cr,
    Request.parseTrailer, Request.parseHeadersWith_blank readHeaders_blank_cr,
    Request.finishHeaders_inTrailer hr hb] at hparse
  simp at hparse

/-- A cut in a chunk. -/
theorem misplaced_or_lost_chunk (hchunks : chunks = cs ++ c :: cs') {z w : Str}
    (hcut : z ++ w = c.text) (hz : z ≠ []) (hw : w ≠ []) (y : Str) :
    m.Misplaced (m.head ++ (cs.flatMap Chunk.text ++ z)) ∨
      m.Lost (m.head ++ (cs.flatMap Chunk.text ++ z)) (w ++ y) := by
  have hwf := (h.chunks hbody c (by rw [hchunks]; simp)).1
  have hcs : cs <+: chunks := by
    rw [hchunks]
    exact List.prefix_append _ _
  rcases cut_line hcut with ⟨u, hsize, -⟩ | ⟨rfl, rfl⟩ | ⟨d, rfl, hdata⟩
  · have hplain := hwf.plain
    rw [hsize] at hplain
    exact .inr (lost_size hr h hline hb hbody hcs hz (plain_append.mp hplain).1 _)
  · exact .inr (lost_sizeEnd hr h hline hb hbody hchunks _)
  · have hdata' : d ++ w = c.data ++ (crlf ++ []) := by rw [List.append_nil, hdata]
    rcases cut_line hdata' with ⟨u, hd, rfl⟩ | ⟨rfl, rfl⟩ | ⟨v, -, hv⟩
    · by_cases hu : u = []
      · subst hu
        rw [List.append_nil] at hd
        have hlost := lost_data hr h hline hb hbody hchunks (e := []) (by simp) (b := cr)
          (by decide) (lf :: y)
        rw [List.append_nil, hd] at hlost
        exact .inr hlost
      · refine .inl (.chunk hb hbody hchunks ⟨u, hd.symm⟩ fun he => hu ?_)
        rw [he] at hd
        exact List.append_right_eq_self.mp hd.symm
    · exact .inr (lost_data hr h hline hb hbody hchunks (by simp) (by decide) _)
    · exact absurd (List.append_eq_nil_iff.mp hv.symm).2 hw

/-- A cut in the trailer. -/
theorem resumable_or_lost_trailer {x y : Str}
    (hcut : x ++ y = trailer.flatMap Field.text ++ crlf) (hy : y ≠ []) :
    m.Resumable (m.head ++ (chunks.flatMap Chunk.text ++ (last ++ (crlf ++ x)))) ∨
      m.Lost (m.head ++ (chunks.flatMap Chunk.text ++ (last ++ (crlf ++ x)))) y := by
  rcases cut_flatMap Field.text hcut with ⟨ts, hts, rfl⟩ |
    ⟨ts, f, ts', v, w, htrailer, hf, hv, hw, rfl, rfl⟩ | ⟨v, hv, rfl, hblank⟩
  · exact .inl (.trailer hb hbody hts)
  · exact .inr (lost_trailer hr h hline hb hbody htrailer hf hv hw)
  · have hblank' : v ++ y = [] ++ (crlf ++ []) := hblank.symm
    rcases cut_line hblank' with ⟨u, hu, -⟩ | ⟨rfl, rfl⟩ | ⟨w, -, hw⟩
    · exact absurd (List.append_eq_nil_iff.mp hu.symm).1 hv
    · exact .inr (lost_trailerEnd hr h hline hb hbody _)
    · exact absurd (List.append_eq_nil_iff.mp hw.symm).2 hy

/-- **Every cut of a chunked body** is one the parser can go on from, one behind which it goes on in a
wrong place, or one that loses the message. -/
theorem resumable_or_lost_chunked {x y : Str}
    (hcut : x ++ y = (Body.chunked chunks last trailer).text) (hy : y ≠ []) :
    m.Resumable (m.head ++ x) ∨ m.Misplaced (m.head ++ x) ∨ m.Lost (m.head ++ x) y := by
  rcases cut_flatMap Chunk.text hcut with ⟨cs, hcs, rfl⟩ |
    ⟨cs, c, cs', z, w, hchunks, hc, hz, hw, rfl, rfl⟩ | ⟨z, hz, rfl, hend⟩
  · exact .inl (.chunk hb hbody hcs)
  · exact .inr (misplaced_or_lost_chunk hr h hline hb hbody hchunks hc.symm hz hw _)
  · rcases cut_line hend.symm with ⟨u, hlast, -⟩ | ⟨rfl, rfl⟩ | ⟨x, rfl, hx⟩
    · have hplain := (h.of_chunked hbody).last_plain
      rw [hlast] at hplain
      exact .inr (.inr (lost_size hr h hline hb hbody (List.prefix_refl _) hz
        (plain_append.mp hplain).1 _))
    · exact .inr (.inr (lost_lastEnd hr h hline hb hbody))
    · exact (resumable_or_lost_trailer hr h hline hb hbody hx.symm hy).imp_right .inr

end LostChunks

/-- **Every cut of a message** is one the parser can go on from, one behind which it goes on in a
wrong place, or one that loses the message. -/
theorem resumable_or_lost (h : m.WellFormed) (hcut : x ++ y = m.text) (hy : y ≠ []) :
    m.Resumable x ∨ m.Misplaced x ∨ m.Lost x y := by
  obtain ⟨r, hline, hr⟩ := parseLine_start h.start
  have htext : m.text = m.start.text ++ (crlf ++ (m.fields.flatMap Field.text ++
      (crlf ++ m.body.text))) := by
    simp [text, head]
  rw [htext] at hcut
  rcases cut_line hcut with ⟨w, hw, -⟩ | ⟨rfl, rfl⟩ | ⟨x', rfl, hcut'⟩
  · exact .inl (.start ⟨w, hw.symm⟩)
  · exact .inr (.inr (lost_start hr h hline))
  · rcases cut_flatMap Field.text hcut'.symm with ⟨fs, hfs, rfl⟩ |
      ⟨fs, f, fs', z, w, hfields, hf, hz, hw, rfl, rfl⟩ | ⟨z, hz, rfl, hend⟩
    · exact .inl (.field hfs)
    · by_cases hplace : m.Misplaced (m.start.text ++ (crlf ++ (fs.flatMap Field.text ++ z)))
      · exact .inr (.inl hplace)
      · exact .inr (.inr (lost_field hr h hline hfields hf hz hw hplace))
    · -- the cut is behind the fields
      have hblank : z ++ y = [] ++ (crlf ++ m.body.text) := hend.symm
      rcases cut_line hblank with ⟨w, hw, -⟩ | ⟨rfl, rfl⟩ | ⟨b, rfl, hb⟩
      · exact absurd (List.append_eq_nil_iff.mp hw.symm).1 hz
      · exact .inr (.inr (lost_blank hr h hline))
      · have hhead : m.start.text ++ (crlf ++ (m.fields.flatMap Field.text ++
            ([] ++ (crlf ++ b)))) = m.head ++ b := by
          simp [head]
        rw [hhead]
        by_cases hbodyless : m.start.Bodyless
        · exact .inr (.inr (lost_bodyless hr h hline hbodyless b y))
        · cases hbody : m.body with
          | absent =>
              rw [hbody] at hb
              exact absurd (List.append_eq_nil_iff.mp hb.symm).2 hy
          | length payload =>
              rw [hbody] at hb
              refine .inl (.payload hbodyless hbody ⟨y, hb.symm⟩ fun he => hy ?_)
              rw [he] at hb
              exact List.append_right_eq_self.mp hb.symm
          | chunked chunks last trailer =>
              rw [hbody] at hb
              exact resumable_or_lost_chunked hr h hline hbodyless hbody hb.symm hy

end Message

/-! ## The pieces of a message -/

namespace Message

variable {m : Message}

/-- The calls up to cuts the parser can go on from. -/
theorem eachCut_resumes (h : m.WellFormed) {ps : List Str} (hps : ps.flatten <+: m.text)
    (hcuts : EachCut m.Resumable ps) :
    EachCut (Resumes Request.parse .needmore m.receiver ps.flatten) ps :=
  hcuts.mono fun _ hx => (resumes_of_resumable h hx).shorter hps

/-- A message is not empty. -/
theorem text_ne_nil (m : Message) : m.text ≠ [] := by
  simp [text, head, m.start.text_ne_nil]

/-- **The pieces of a message** are read as the whole message is, if its end can be told from its
bytes and the parser can go on from each cut. This is the only case, unless a cut of a chunked
message makes the parser go on in a wrong place. -/
theorem readsAlike_iff_resumable (h : m.WellFormed) {ps : List Str} (hne : ∀ p ∈ ps, p ≠ [])
    (htext : ps.flatten = m.text) :
    (m.Delimited ∧ EachCut m.Resumable ps → m.ReadsAlike ps) ∧
      (EachCut (fun x => ¬m.Misplaced x) ps → m.ReadsAlike ps →
        m.Delimited ∧ EachCut m.Resumable ps) := by
  obtain ⟨res, u, left, hwhole, hres, hkept⟩ := parse_text h
  have hps : ps ≠ [] := by
    rintro rfl
    exact m.text_ne_nil htext.symm
  constructor
  · rintro ⟨hdelimited, hcuts⟩
    have hfeed := feed_of_resumes hps (eachCut_resumes h (htext ▸ List.prefix_refl _) hcuts)
    rw [htext, hwhole, hres.mpr hdelimited] at hfeed
    exact ⟨u, left, res, u, left, hfeed, hwhole, ⟨rfl, rfl, rfl, rfl, rfl, rfl, rfl, rfl, rfl⟩, rfl⟩
  · rintro hplaces ⟨t, left₁, res', u', left₂, hcompletes, hwhole', hagree, hleft⟩
    rw [hwhole] at hwhole'
    simp only [Except.ok.injEq, Prod.mk.injEq] at hwhole'
    obtain ⟨rfl, rfl, rfl⟩ := hwhole'
    by_cases hcuts : EachCut m.Resumable ps
    · -- the calls amount to the single one, so its status is that of the last piece
      have hfeed := feed_of_resumes hps (eachCut_resumes h (htext ▸ List.prefix_refl _) hcuts)
      rw [htext, hwhole, hcompletes] at hfeed
      simp only [Except.map, Except.ok.injEq, Prod.mk.injEq, List.append_cancel_left_eq,
        List.cons.injEq, and_true] at hfeed
      exact ⟨hres.mp hfeed.1.symm, hcuts⟩
    · -- the first cut the parser cannot go on from loses the message
      exfalso
      obtain ⟨ps₁, ps₂, rfl, h₁, h₂, hearlier, hcut⟩ := exists_first_cut hcuts
      rw [List.flatten_append] at htext
      obtain ⟨t₁, rest, hparse, hgo⟩ := Completes.split h₁ h₂
        (eachCut_resumes h (htext ▸ List.prefix_append _ _) hearlier) hcompletes
      have hy : ps₂.flatten ≠ [] := by
        obtain ⟨p, ps₂, rfl⟩ := List.exists_cons_of_ne_nil h₂
        simp [hne p (by simp)]
      have hplace := hplaces ps₁ ps₂ rfl h₁ h₂
      have hlost := ((resumable_or_lost h htext hy).resolve_left hcut).resolve_left hplace
      have hlt := hlost t₁ rest hparse ps₂ t left₁ h₂ (fun q hq => hne q (by simp [hq])) rfl hgo
      rw [hagree.buf, hleft] at hlt
      omega

/-- A chunked request whose chunk holds lines that are read as chunks. -/
def nested : Message where
  start := .request .post (str "/") 1
  fields := [⟨str "Transfer-Encoding", str " chunked", []⟩, ⟨str "116", str " x", []⟩,
    ⟨str "0", str " x", []⟩]
  body := .chunked [⟨str "28", str "10;xxxxxxxxxxxx\r\n10;xxxxxxxxxxxx\r\n116: x"⟩]
    (str "0;xxxxxxxxxxxx") [⟨str "116", str " x", []⟩, ⟨str "0", str " x", []⟩]

/-- The cut behind the size line makes the parser forget the size, but what follows amounts to the
same body. -/
example :
    (feed Request.parse nested.receiver [] [nested.text.take 65, nested.text.drop 65]).toOption =
    (nested.receiver.parse nested.text).toOption.map fun r => ([.needmore, r.1], r.2) := by
  decide +kernel

/-- A request for the root, with one field. -/
def asking : Message where
  start := .request .get (str "/") 1
  fields := [⟨str "Host", str " a", []⟩]

/-- The message of the examples is well formed. -/
theorem asking_wellFormed : asking.WellFormed where
  start := (⟨.inr rfl, by decide, by decide, by decide⟩ : (1 = 0 ∨ 1 = 1) ∧ Plain (str "/") ∧
    (32 : UInt8) ∉ str "/" ∧ truncatedEscape (pathOf (str "/")) = false)
  fields := by
    intro f hf
    obtain rfl : f = ⟨str "Host", str " a", []⟩ := by simpa [asking] using hf
    exact ⟨by decide +kernel, by decide +kernel, by simp⟩
  framed := .inl (by decide)
  size := by decide +kernel

/-- The request is read as it was sent when it is cut in its first line. -/
theorem readsAlike_asking :
    asking.ReadsAlike [asking.text.take 7, asking.text.drop 7] := by
  refine (readsAlike_iff_resumable asking_wellFormed (by decide +kernel)
    (by decide +kernel)).1 ⟨fun _ => by decide, EachCut.pair (.start ?_)⟩
  rw [← List.isPrefixOf_iff_prefix]
  decide +kernel

/-- The request is taken for complete when it is cut in its field. -/
theorem not_readsAlike_asking : asking.WellFormed ∧
    [asking.text.take 18, asking.text.drop 18].flatten = asking.text ∧
    ¬asking.ReadsAlike [asking.text.take 18, asking.text.drop 18] := by
  refine ⟨asking_wellFormed, by decide +kernel, ?_⟩
  rintro ⟨t, left, -, -, -, hcompletes, -⟩
  have hreports : (feed Request.parse asking.receiver [] [asking.text.take 18,
      asking.text.drop 18]).toOption.map (fun r => r.1.head?) = some (some .allread) := by
    decide +kernel
  rw [hcompletes] at hreports
  simp [Except.toOption] at hreports

end Message

end Libio
