import Libio.Http.Exchange
import Libio.Http.Routing

/-! # The web server of the samples

`sample/webserver.cc`: `send_file` answers each request with the file of its path, below the directory
of a site, through the connections of an `http_multithread_server`. A client reads each file back as
it is, with the type of its extension, in the order of its requests, while the write buffer has room
(`serves_files`). An empty file is answered like a missing one, no path is refused, and the rule for
`js` is never met. -/

namespace Libio

namespace Webserver

/-- The directory of the site. -/
def home : Str := str "/run/media/wxg/Data/wxggg.github.io/"

/-- The map `types`. -/
def types : List (Str × Str) :=
  [(str "html", str "text/html"), (str "css", str "text/css"), (str "xml", str "text/xml"),
    (str "png", str "png"), (str "js", str "application/javascript")]

/-- The type that `send_file` looks up for the parts of a path. -/
def typeOf (vec : List Str) : Str :=
  if vec.length > 1 then (vec.getLast?.bind fun part => List.lookup part types).getD (str "text/html")
  else str "text/html"

/-- The response for a file with this content. `vec[1]` is read without a look at the size. -/
def fileResponse (now : Tm) (path content : Str) : Except Fault Request :=
  let r := Request.setResponse {} now httpOk (str "OK") (some content)
  let vec := split path 46
  let r := r.setHeader (str "Content-Type") (typeOf vec ++ str "; charset=utf-8")
  match vec[1]? with
  | none => .error .undefined
  | some part =>
      let r := if part = str "js" then r.setHeader (str "Content-Type") (typeOf vec) else r
      .ok (r.setHeader (str "Accept-Ranges") (str "bytes"))

/-- `send_file(conn, path)`. `files` is `read_file`, which gives nothing for a file it cannot open. -/
def sendFile (files : Str → Str) (now : Tm) (path : Str) : Except Fault SendOp :=
  if files path = [] then .ok (.replyBuffer now httpNotfound (str "404 not found") none)
  else (fileResponse now path (files path)).map .request

/-- The handlers that `main` sets. -/
def server : HttpServer := ⟨[str "/"], true⟩

/-- The path that a handler calls `send_file` with. -/
def fileOf (route : Route) (req : Request) : Str :=
  match route with
  | .general => home ++ req.uri
  | _ => home ++ str "/index.html"

/-- The handlers at work. -/
def env (files : Str → Str) (clock : ℕ → Tm) : Env where
  answer n route req :=
    { now := match sendFile files (clock n) (fileOf route req) with
        | .ok op => [op]
        | .error _ => [] }
  clock := clock

/-- The file that should be sent for a path. -/
def nameOf (path : Str) : Str := home ++ if path = str "/" then str "/index.html" else path

/-- What a client has of the file for a path. -/
def Serves (files : Str → Str) (path : Str) (r : Request) : Prop :=
  if files (nameOf path) = [] then ReadAs httpNotfound (str "404 not found") (Request.notFoundPage []) r
  else ReadAs httpOk (str "OK") (files (nameOf path)) r ∧
    r.getHeader (str "Content-Type") = typeOf (split (nameOf path) 46) ++ str "; charset=utf-8" ∧
    r.getHeader (str "Accept-Ranges") = str "bytes"

/-! ## Parts of a path -/

/-- A part without the delimiter is cut off. -/
theorem splitLoop_append {d : UInt8} {a : Str} (ha : d ∉ a) (b tok : Str) (got : Bool) :
    splitLoop d (a ++ d :: b) tok got = (tok ++ a) :: splitLoop d b [] false := by
  induction a generalizing tok got with
  | nil => simp [splitLoop]
  | cons c a ih =>
      have hc : c ≠ d := fun he => ha (he ▸ List.mem_cons_self)
      rw [List.cons_append, splitLoop, if_neg hc, ih fun hin => ha (List.mem_cons_of_mem _ hin)]
      simp

/-- While a part is being read, it is the first one. -/
theorem splitLoop_true (d : UInt8) (s tok : Str) :
    ∃ x l, splitLoop d s tok true = (tok ++ x) :: l := by
  induction s generalizing tok with
  | nil => exact ⟨[], [], by simp [splitLoop]⟩
  | cons c s ih =>
      rw [splitLoop]
      by_cases hc : c = d
      · exact ⟨[], _, by rw [if_pos hc, List.append_nil]⟩
      · rw [if_neg hc]
        obtain ⟨x, l, hx⟩ := ih (tok ++ [c])
        exact ⟨c :: x, l, by rw [hx, List.append_assoc]; rfl⟩

/-- **The name of the site has two dots**, so the second part is the same for every path. -/
theorem split_home (path : Str) : split (home ++ path) 46 =
    str "/run/media/wxg/Data/wxggg" :: str "github" :: splitLoop 46 (str "io/" ++ path) [] false := by
  have hhome : home ++ path = str "/run/media/wxg/Data/wxggg" ++ 46 :: (str "github" ++
      46 :: (str "io/" ++ path)) := by
    have hsplit : home = str "/run/media/wxg/Data/wxggg" ++ 46 :: (str "github" ++ 46 :: str "io/") := by
      decide
    rw [hsplit]
    simp
  rw [hhome, split, splitLoop_append (by decide), splitLoop_append (by decide)]
  rfl

/-- Only the path of the one handler matches its pattern. -/
theorem eq_slash_of_matches {uri : Str} (h : matchesPattern (str "/") uri = true) : uri = str "/" := by
  have hslash : split (str "/") 47 = [[]] := by decide
  simp only [matchesPattern, hslash, decide_eq_true_eq, List.length_singleton] at h
  obtain ⟨hlength, hpart⟩ := h
  cases uri with
  | nil => simp [split, splitLoop] at hlength
  | cons c uri =>
      rw [split, splitLoop] at hlength hpart
      by_cases hc : c = 47
      · subst hc
        -- behind the slash there would be another part
        cases uri with
        | nil => rfl
        | cons c' uri =>
            exfalso
            rw [if_pos rfl, splitLoop] at hlength
            split at hlength
            · simp at hlength
            · obtain ⟨x, l, hx⟩ := splitLoop_true 47 uri ([] ++ [c'])
              rw [hx] at hlength
              simp at hlength
      · exfalso
        rw [if_neg hc] at hpart
        obtain ⟨x, l, hx⟩ := splitLoop_true 47 uri ([] ++ [c])
        rw [hx] at hpart
        have hstar : ([] : Str) ≠ str "*" := by decide
        have := hpart ([], [] ++ [c] ++ x) (by simp)
        simp [hstar] at this

/-- **Each path goes to its file.** -/
theorem fileOf_route (req : Request) : server.route req.uri ≠ .notFound ∧
    fileOf (server.route req.uri) req = nameOf req.uri := by
  unfold HttpServer.route server nameOf
  by_cases huri : req.uri = str "/"
  · rw [if_pos (by simpa using huri), if_pos huri]
    exact ⟨nofun, rfl⟩
  · have hfind : [str "/"].find? (fun key => matchesPattern key req.uri) = none := by
      refine List.find?_eq_none.mpr fun key hkey hmatches => huri ?_
      rw [List.mem_singleton.mp hkey] at hmatches
      exact eq_slash_of_matches hmatches
    rw [if_neg (by simpa using huri), hfind, if_neg huri]
    exact ⟨nofun, rfl⟩

/-! ## One file -/

/-- The header of the response for a file: the one of `set_response`, with the type of the file. -/
def fileHeaders (now : Tm) (path content : Str) : Headers :=
  ((responseHeaders now content.length).insert (str "Content-Type")
    (typeOf (split path 46) ++ str "; charset=utf-8")).insert (str "Accept-Ranges") (str "bytes")

/-- **`vec[1]` is there and never `js`**, below the directory of the site. -/
theorem fileResponse_home (now : Tm) (path content : Str) :
    ∃ r, fileResponse now (home ++ path) content = .ok r ∧
      r.headers = fileHeaders now (home ++ path) content ∧ r.buf = content ∧
      r.firstline = Request.statusLine 1 (stdToString httpOk) (str "OK") ++ crlf := by
  obtain ⟨-, -, hbuf, hheaders, hfirst⟩ := respond_eq [] now httpOk (str "OK") (some content)
  -- the directory has a dot in it
  have hpart : (split (home ++ path) 46)[1]? = some (str "github") := by rw [split_home]; rfl
  have hjs : str "github" ≠ str "js" := by decide
  refine ⟨((Request.setResponse {} now httpOk (str "OK") (some content)).setHeader (str "Content-Type")
    (typeOf (split (home ++ path) 46) ++ str "; charset=utf-8")).setHeader (str "Accept-Ranges")
      (str "bytes"), ?_, ?_, hbuf, hfirst⟩
  · unfold fileResponse
    simp only [hpart, if_neg hjs]
  · unfold fileHeaders
    exact congrArg (fun h : Headers => (h.insert _ _).insert _ _) hheaders

/-- The types can be sent. -/
theorem typeOf_ok (vec : List Str) :
    Plain (typeOf vec ++ str "; charset=utf-8") ∧ NoEdgeSpace (typeOf vec ++ str "; charset=utf-8") := by
  have hall : ∀ type ∈ str "text/html" :: types.map Prod.snd,
      Plain (type ++ str "; charset=utf-8") ∧ NoEdgeSpace (type ++ str "; charset=utf-8") := by
    decide
  refine hall _ ?_
  unfold typeOf
  split
  · cases hfound : vec.getLast?.bind fun part => List.lookup part types with
    | none => exact List.mem_cons_self
    | some type =>
        obtain ⟨part, -, hlookup⟩ := Option.bind_eq_some_iff.mp hfound
        obtain ⟨l, l', htypes, -⟩ := List.lookup_eq_some_iff.mp hlookup
        refine List.mem_cons_of_mem _ (List.mem_map.mpr ⟨(part, type), ?_, rfl⟩)
        rw [htypes]
        exact List.mem_append_right _ List.mem_cons_self
  · exact List.mem_cons_self

/-- Every entry of the header can be sent, and is not changed by trimming. -/
theorem fileHeaders_ok (now : Tm) (path content : Str) :
    EachEntry (fun k v => (HeaderName k ∧ Plain v) ∧ NoEdgeSpace v) (fileHeaders now path content) := by
  have hname : HeaderName (str "Content-Type") ∧ HeaderName (str "Accept-Ranges") := by decide +kernel
  obtain ⟨hplain, hedge⟩ := typeOf_ok (split path 46)
  exact ((responseHeaders_ok now content.length).insert ⟨⟨hname.1, hplain⟩, hedge⟩).insert
    ⟨⟨hname.2, by decide⟩, by decide⟩

/-- The framing of the header is the one of `set_response`. -/
theorem fileHeaders_framing (now : Tm) (path content : Str) :
    (fileHeaders now path content)[str "Content-Length"]? = some (stdToString content.length) ∧
      (fileHeaders now path content)[str "Transfer-Encoding"]? = none ∧
      (fileHeaders now path content)[str "Content-Type"]? =
        some (typeOf (split path 46) ++ str "; charset=utf-8") ∧
      (fileHeaders now path content)[str "Accept-Ranges"]? = some (str "bytes") := by
  obtain ⟨hlength, hte⟩ := responseHeaders_framing now content.length
  unfold fileHeaders
  refine ⟨?_, ?_, ?_, Std.ExtTreeMap.getElem?_insert_self⟩
  · rw [Std.ExtTreeMap.getElem?_insert, if_neg (by decide), Std.ExtTreeMap.getElem?_insert,
      if_neg (by decide), hlength]
  · rw [Std.ExtTreeMap.getElem?_insert, if_neg (by decide), Std.ExtTreeMap.getElem?_insert,
      if_neg (by decide), hte]
  · rw [Std.ExtTreeMap.getElem?_insert, if_neg (by decide), Std.ExtTreeMap.getElem?_insert_self]

/-- **One file is read back**, or the page in its place, and nothing behind it is touched. -/
theorem parse_sendFile (files : Str → Str) (now : Tm) (path : Str) :
    ∃ op, sendFile files now (nameOf path) = .ok op ∧ ((written (eventsOf [op])).length ≤ 2 ^ 30 →
      ∀ rest, ∃ r, ReadsResponse (written (eventsOf [op]) ++ rest) r rest ∧ Serves files path r) := by
  unfold sendFile Serves
  by_cases hempty : files (nameOf path) = []
  · rw [if_pos hempty]
    have hwritten : written (eventsOf [.replyBuffer now httpNotfound (str "404 not found") none]) =
        (respond [] now httpNotfound (str "404 not found") none).wire := written_appended _
    refine ⟨_, rfl, fun hroom rest => ?_⟩
    have hagrees : BodyAgrees httpNotfound none := fun hb => absurd hb (by decide)
    rw [hwritten] at hroom ⊢
    obtain ⟨r, hparse, hread⟩ := parse_agreed [] now (by decide : 0 ≤ httpNotfound) (by decide)
      (by decide : Plain (str "404 not found")) hagrees hroom rest
    refine ⟨r, hparse, ?_⟩
    rw [if_pos hempty]
    exact hread
  · rw [if_neg hempty]
    obtain ⟨resp, hresp, hheaders, hbuf, hfirst⟩ :=
      fileResponse_home now (if path = str "/" then str "/index.html" else path) (files (nameOf path))
    obtain ⟨hlength, hte, htype, hranges⟩ := fileHeaders_framing now (nameOf path) (files (nameOf path))
    -- the header is that of `set_response` but for two entries
    have hwire : resp.wire = Request.statusLine 1 (stdToString httpOk) (str "OK") ++ (crlf ++
        ((fieldsOf (fileHeaders now (nameOf path) (files (nameOf path)))).flatMap Field.text ++ (crlf ++
          files (nameOf path)))) := by
      rw [Request.wire, Request.sendTo_snd, hbuf, hheaders, hfirst, flatMap_headerLine]
      simp [nameOf]
    have hwritten : written (eventsOf [.request resp]) = resp.wire := written_appended _
    refine ⟨.request resp, ?_, fun hroom rest => ?_⟩
    · unfold nameOf at hresp ⊢
      rw [hresp]
      rfl
    · rw [hwritten, hwire] at hroom ⊢
      -- the file is part of what is sent
      have hfile : (files (nameOf path)).length ≤ 2 ^ 30 := by
        simp only [List.length_append] at hroom
        omega
      obtain ⟨r, hparse, hread, hheader⟩ := parse_framed
        (fileHeaders_ok now (nameOf path) (files (nameOf path))) (by decide : 0 ≤ httpOk) (by decide)
        (by decide) (by decide : Plain (str "OK")) hfile hlength hte rest
      refine ⟨r, ?_, ?_⟩
      · simpa only [List.append_assoc] using hparse
      · rw [if_neg hempty, hheader, hheader, htype, hranges]
        exact ⟨hread, rfl, rfl⟩

/-! ## The whole exchange -/

/-- What is appended for requests one after the other is read one after the other, each response as
the one for its request. -/
theorem readsAll_of_handled {server : HttpServer} {env : Env} {Q : Request → Request → Prop}
    (h : ∀ req n, (written (Session.handled server env n req)).length ≤ 2 ^ 30 → ∀ rest, ∃ r,
      ReadsResponse (written (Session.handled server env n req) ++ rest) r rest ∧ Q req r)
    {reqs : List Request} (n : ℕ) (hroom : (written (served server env n reqs)).length ≤ 2 ^ 30) :
    ∃ rs, ReadsAll (written (served server env n reqs)) rs [] ∧ List.Forall₂ Q reqs rs := by
  induction reqs generalizing n with
  | nil => exact ⟨[], rfl, .nil⟩
  | cons req reqs ih =>
      simp only [served, written_append, List.length_append] at hroom ⊢
      have hone : (written (Session.handled server env n req)).length ≤ 2 ^ 30 := by omega
      obtain ⟨rs, hreads, hall⟩ := ih (n + (Session.handled server env n req).length) (by omega)
      obtain ⟨r, hparse, hr⟩ := h req n hone
        (written (served server env (n + (Session.handled server env n req).length) reqs))
      exact ⟨r :: rs, ⟨_, hparse, hreads⟩, .cons hr hall⟩

/-- The handlers answer a request with the file of its path. -/
theorem parse_handled (files : Str → Str) (clock : ℕ → Tm) (req : Request) (n : ℕ)
    (hroom : (written (Session.handled server (env files clock) n req)).length ≤ 2 ^ 30) (rest : Str) :
    ∃ r, ReadsResponse (written (Session.handled server (env files clock) n req) ++ rest) r rest ∧
      Serves files req.uri r := by
  obtain ⟨hfound, hfile⟩ := fileOf_route req
  obtain ⟨op, hop, hread⟩ := parse_sendFile files (clock n) req.uri
  have hnow : ((env files clock).answer n (server.route req.uri) req).now = [op] := by
    simp only [env, hfile, hop]
  have hhandled : Session.handled server (env files clock) n req =
      .dispatched (server.route req.uri) req :: eventsOf [op] := by
    unfold Session.handled
    cases hroute : server.route req.uri with
    | notFound => exact absurd hroute hfound
    | handler | pattern | general =>
        rw [hroute] at hnow
        simp only [hnow]
  rw [hhandled, written_dispatched] at hroom ⊢
  exact hread hroom rest

/-- **The server serves the files**: whatever the files are, a client that has built its requests and
sent them one after the other reads one response for each, in order: the file of its path as it is,
with the type of its extension, or a page for a file that is missing or empty. The write buffer must
have room for all that is appended. -/
theorem serves_files (specs : List RequestSpec) (files : Str → Str) (clock : ℕ → Tm) {s : Session}
    (hqueue : s.conn.requests = []) (hwrite : s.conn.writeBuffer = [])
    (hbuf : s.conn.readBuffer = specs.flatMap fun spec => spec.build.wire)
    (hroom : ∀ s', s.parseRequest server (env files clock) = .ok s' →
      s'.conn.writeBuffer.length ≤ 2 ^ 30) :
    ∃ s' rs, s.parseRequest server (env files clock) = .ok s' ∧
      ReadsAll s'.conn.writeBuffer rs [] ∧
      List.Forall₂ (fun spec r => Serves files (pathOf spec.target) r) specs rs := by
  obtain ⟨s', reqs, hparse, hdelivers, hsent⟩ :=
    parseRequest_sent specs server (env files clock) hqueue hwrite hbuf
  obtain ⟨rs, hreads, hall⟩ := readsAll_of_handled (parse_handled files clock) s.trace.length
    (hsent ▸ hroom s' hparse)
  refine ⟨s', rs, hparse, hsent ▸ hreads, ?_⟩
  clear hreads hsent hparse hbuf hroom
  induction hdelivers generalizing rs with
  | nil => cases hall; exact .nil
  | cons hdel _ ih =>
      cases hall with
      | cons hserves hall => exact .cons (hdel.uri ▸ hserves) (ih _ hall)

/-- A site with one file. -/
def oneFile (path content : Str) (name : Str) : Str := if name = home ++ path then content else []

/-- A GET for the file, and a POST to a path without one. -/
theorem serves_fileAndMissing : ∃ s' rs,
    (Session.sole 5 ([sampleGet, samplePost].flatMap fun spec => spec.build.wire)).parseRequest server
      (env (oneFile (pathOf sampleGet.target) (str "hello")) fun _ => newYear) = .ok s' ∧
    ReadsAll s'.conn.writeBuffer rs [] ∧
    List.Forall₂ (fun spec r => Serves (oneFile (pathOf sampleGet.target) (str "hello"))
      (pathOf spec.target) r) [sampleGet, samplePost] rs := by
  have hlength : ((Session.sole 5 ([sampleGet, samplePost].flatMap fun spec => spec.build.wire)).parseRequest
      server (env (oneFile (pathOf sampleGet.target) (str "hello")) fun _ => newYear)).toOption.all
        fun s' => s'.conn.writeBuffer.length ≤ 2 ^ 30 := by
    decide +kernel
  refine serves_files [sampleGet, samplePost] _ _ rfl rfl rfl fun s' hs' => ?_
  rw [hs'] at hlength
  exact of_decide_eq_true hlength

end Webserver

end Libio
