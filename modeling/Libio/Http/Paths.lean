import Libio.Core.HtmlEscape
import Libio.Core.PercentCode
import Libio.Http.Pipeline

/-! # Paths

A path goes from the request line through `string_from_utf8` to the router, and, where no handler
is found, through `htmlescape` to the page that is sent. Every byte string can be asked for as a path
(`every_path`), and none changes the markup of the page (`notFound_markup`). -/

namespace Libio

/-! ## From a target to a path -/

/-- A percent-coding of a path that a request line can hold: it has no blank, `?` or line end. -/
structure TargetPath (path coded : Str) : Prop where
  coding : PercentCoded path coded
  raw : ∀ c ∈ coded, c ≠ 32 ∧ c ≠ 63 ∧ c ≠ cr ∧ c ≠ lf ∧ c ≠ 0

/-- The upper-case hex digit of `d`. -/
def hexDigit (d : ℕ) : UInt8 := if d < 10 then UInt8.ofNat (48 + d) else UInt8.ofNat (55 + d)

/-- Escape every byte. -/
def escapeAll (s : Str) : Str := s.flatMap fun c => [37, hexDigit (c.toNat / 16), hexDigit (c.toNat % 16)]

/-- The hexadecimal digit of a number is one. -/
theorem isHexDigit_hexDigit {d : ℕ} (h : d < 16) : IsHexDigit d (hexDigit d) := by
  unfold IsHexDigit hexDigit
  by_cases hd : d < 10
  · rw [if_pos hd]
    refine .inl ⟨hd, ?_⟩
    rw [UInt8.toNat_ofNat', Nat.mod_eq_of_lt (by omega)]
  · rw [if_neg hd]
    refine .inr ⟨by omega, h, .inl ?_⟩
    rw [UInt8.toNat_ofNat', Nat.mod_eq_of_lt (by omega)]

/-- A hex digit is no blank, `?` or line end. -/
theorem hexDigit_raw {d : ℕ} (h : d < 16) :
    hexDigit d ≠ 32 ∧ hexDigit d ≠ 63 ∧ hexDigit d ≠ cr ∧ hexDigit d ≠ lf ∧ hexDigit d ≠ 0 := by
  have hall : ∀ d < 16, hexDigit d ≠ 32 ∧ hexDigit d ≠ 63 ∧ hexDigit d ≠ cr ∧ hexDigit d ≠ lf ∧
      hexDigit d ≠ 0 := by
    decide
  exact hall d h

/-- Every path has a coding. -/
theorem targetPath_escapeAll (path : Str) : TargetPath path (escapeAll path) := by
  have hdigits : ∀ c : UInt8, c.toNat / 16 < 16 ∧ c.toNat % 16 < 16 := by
    intro c
    have := c.toNat_lt
    omega
  induction path with
  | nil => exact ⟨.nil, nofun⟩
  | cons c path ih =>
      obtain ⟨hhigh, hlow⟩ := hdigits c
      refine ⟨.escape (isHexDigit_hexDigit hhigh) (isHexDigit_hexDigit hlow) ih.coding, fun x hx => ?_⟩
      rcases List.mem_append.mp hx with hx | hx
      · simp only [List.mem_cons, List.not_mem_nil, or_false] at hx
        rcases hx with rfl | rfl | rfl
        · decide
        · exact hexDigit_raw hhigh
        · exact hexDigit_raw hlow
      · exact ih.raw x hx

/-- The parts of a target with a query. -/
theorem target_parts {coded : Str} (h : ∀ c ∈ coded, c ≠ 63) (query : Str) :
    pathOf (coded ++ 63 :: query) = coded ∧ queryOf (coded ++ 63 :: query) = query := by
  have hall : ∀ c ∈ coded, (c != 63) = true := fun c hc => by simpa using h c hc
  unfold pathOf queryOf
  rw [List.takeWhile_append_of_pos hall, List.dropWhile_append_of_pos hall]
  simp

/-- The request of a client: `set_request` for a target, without content. -/
def askFor (type : RequestType) (minor : ℤ) (target : Str) : Request :=
  (Request.setProtocol {} 1 minor).setRequest type target none

/-- The bytes of a GET or HEAD. -/
theorem wire_askFor {type : RequestType} (htype : type ≠ .post) (minor : ℤ) (target : Str) :
    (askFor type minor target).wire = Request.requestLine type target minor ++ (crlf ++
      ((fieldsOf ((∅ : Headers).insert (str "Content-Type") (str "text/html; charset=utf-8"))).flatMap
        Field.text ++ crlf)) := by
  rw [Request.wire, Request.sendTo_snd]
  cases type with
  | post => exact absurd rfl htype
  | get | head =>
      simp [askFor, Request.setRequest, Request.setProtocol, Request.requestLine, Request.protocolText,
        flatMap_headerLine, str]

/-- **Every path can be asked for**: for any bytes there is a target, and whatever coding of the path
and query a client writes into a GET or HEAD, the parser hands out exactly that path and query, and
stops behind the request. -/
theorem every_path {type : RequestType} (htype : type ≠ .post) {minor : ℤ}
    (hminor : minor = 0 ∨ minor = 1) (path : Str) :
    (∃ coded, TargetPath path coded) ∧
      ∀ coded query rest, TargetPath path coded → (32 : UInt8) ∉ query → Plain query →
        ∃ req, Request.parse { kind := .request } ((askFor type minor (coded ++ 63 :: query)).wire ++ rest) =
          .ok (.allread, req, rest) ∧
          req.type = some type ∧ req.uri = path ∧ req.query = query ∧ req.buf = [] := by
  refine ⟨⟨_, targetPath_escapeAll path⟩, fun coded query rest hcoded hblank hquery => ?_⟩
  obtain ⟨hpath, hq⟩ := target_parts (fun c hc => (hcoded.raw c hc).2.1) query
  have hplain : Plain (coded ++ 63 :: query) := by
    rw [plain_append, plain_cons]
    exact ⟨fun c hc => (hcoded.raw c hc).2.2, by decide, hquery⟩
  have hno : (32 : UInt8) ∉ coded ++ 63 :: query := by
    rw [List.mem_append, List.mem_cons, not_or, not_or]
    exact ⟨fun hc => (hcoded.raw 32 hc).1 rfl, by decide, hblank⟩
  -- the coding of the path is undone, and the query left as it is
  have hdecode : stringFromUtf8 (pathOf (coded ++ 63 :: query)) = .ok path := by
    rw [hpath]
    exact stringFromUtf8Loop_coded hcoded.coding false [] [] fun _ => rfl
  have hline : Request.parseLine { kind := .request } (Request.requestLine type (coded ++ 63 :: query) minor) =
      .ok (0, { kind := .request, type := some type, uri := path, query := query, minor := minor }) := by
    have := Request.parseRequestLine_eq (r := { kind := .request }) rfl type hno hdecode hminor
    rwa [hq] at this
  have hsend : Sendable ((∅ : Headers).insert (str "Content-Type") (str "text/html; charset=utf-8")) :=
    (eachEntry_empty _).insert ⟨by decide +kernel, by decide⟩
  have hbodyless : ∀ r : Request, r.kind = .request → r.type = some type → r.bodyless = .ok true := by
    intro r hkind ht
    simp [Request.bodyless, hkind, ht, htype]
  have hparse := Request.parse_opening (by simp [Request.requestLine])
    (Request.plain_requestLine type hplain hminor) rfl hline hsend.wellFormed rest
  rw [Request.finishHeaders_bodyless (hbodyless _ rfl rfl)] at hparse
  refine ⟨_, Eq.trans ?_ hparse, rfl, rfl, rfl, rfl⟩
  rw [wire_askFor htype]
  simp only [List.append_assoc]

/-- A path with a blank and a `?`, one of them escaped in lower case. -/
theorem every_path_blank : ∃ req, Request.parse { kind := .request }
    ((askFor .get 1 (str "/a%20b%3f" ++ 63 :: str "x=1")).wire ++ []) = .ok (.allread, req, []) ∧
      req.uri = str "/a b?" ∧ req.query = str "x=1" := by
  have hcoded : TargetPath (str "/a b?") (str "/a%20b%3f") := by
    refine ⟨.literal (by decide) (.literal (by decide) (.escape ?_ ?_ (.literal (by decide)
      (.escape ?_ ?_ .nil)))), by decide +kernel⟩ <;> unfold IsHexDigit <;> decide
  obtain ⟨req, hparse, -, huri, hquery, -⟩ :=
    (@every_path .get nofun 1 (.inr rfl) (str "/a b?")).2 (str "/a%20b%3f") (str "x=1") [] hcoded
      (by decide) (by decide)
  exact ⟨req, hparse, huri, hquery⟩

/-! ## From a path to a page -/

/-- The bytes of a page that are markup: `<`, `>` and the quotation marks. -/
def markup (s : Str) : Str := s.filter fun c => c = 60 ∨ c = 62 ∨ c = 34 ∨ c = 39

/-- The markup of texts one after the other. -/
theorem markup_append (a b : Str) : markup (a ++ b) = markup a ++ markup b := List.filter_append a b

/-- The passes leave no markup. -/
theorem markup_htmlescape (s : Str) : markup (htmlescape s) = [] := by
  rw [htmlescape_eq]
  induction s with
  | nil => rfl
  | cons c s ih =>
      rw [List.flatMap_cons, markup_append, ih, List.append_nil]
      rcases specials_cases c with rfl | rfl | rfl | rfl | rfl | hc
      -- each of the five is replaced by an entity
      iterate 5 decide +kernel
      rw [passes_plain hc]
      simp only [specials, List.mem_cons, List.not_mem_nil, or_false, not_or] at hc
      simp [markup, hc]

/-- The markup of the page does not depend on the path. -/
theorem markup_notFoundPage (uri : Str) :
    markup (Request.notFoundPage uri) = markup (Request.notFoundPage []) := by
  simp only [Request.notFoundPage, markup_append, markup_htmlescape]

/-- What `set_response` makes of a path for which there is no file. -/
theorem buf_notFoundResponse (now : Tm) (req : Request) :
    (Session.notFoundResponse now req).buf = Request.notFoundPage req.uri := by
  unfold Session.notFoundResponse
  split <;> rfl

/-- **The page of a missing file is inert**: whatever the path of a request for which there is no
handler, the connection appends a header and the page, the page ends the message, and its markup is
that of the page for the empty path. -/
theorem notFound_markup {server : HttpServer} {req : Request} (h : server.route req.uri = .notFound)
    (env : Env) (s : Session) :
    ∃ header, (s.handleRequest server env req).conn.writeBuffer =
        s.conn.writeBuffer ++ (header ++ Request.notFoundPage req.uri) ∧
      markup (Request.notFoundPage req.uri) = markup (Request.notFoundPage []) := by
  obtain ⟨-, hconn⟩ := Session.handleRequest_spec s server env req
  have hwire : written (Session.handled server env s.trace.length req) =
      (Session.notFoundResponse (env.clock s.trace.length) req).wire := by
    unfold Session.handled
    simp only [h, written_dispatched, written_appended]
  rw [hconn, hwire, Request.wire, Request.sendTo_snd, buf_notFoundResponse, List.nil_append]
  exact ⟨_, rfl, markup_notFoundPage req.uri⟩

/-- A path that tries to close the paragraph. -/
theorem notFound_markup_script : ∃ header,
    ((Session.sole 5 []).handleRequest ⟨[], false⟩ echoEnv { uri := str "</p><script>" }).conn.writeBuffer =
        [] ++ (header ++ Request.notFoundPage (str "</p><script>")) ∧
      markup (Request.notFoundPage (str "</p><script>")) = markup (Request.notFoundPage []) :=
  @notFound_markup _ { uri := str "</p><script>" } (by decide +kernel) echoEnv (.sole 5 [])

end Libio
