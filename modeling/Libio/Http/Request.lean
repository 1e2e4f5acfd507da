import Libio.Core.ByteQueue
import Libio.Core.Time

/-! # Requests

The class `request` of `http/request.hh`: the data of a request or a response, and the part of its
interface that builds and serializes one. Buffers are the byte queues they stand for. The parser is
in `Parse`. -/

namespace Libio

open ByteQueue

/-- `request_type_t`. -/
inductive RequestType
  | get
  | post
  | head
  deriving DecidableEq, Repr

/-- `request_kind_t`. -/
inductive RequestKind
  | request
  | response
  deriving DecidableEq, Repr

/-- `request_status_t`: the states of the parser. -/
inductive RequestStatus
  | readingFirstline
  | readingHeaders
  | readingBody
  | readingTrailer
  deriving DecidableEq, Repr

/-- `map<string, string>`. -/
abbrev Headers := Std.ExtTreeMap Str Str

/-- `headers[key]` as the C++ operator has it: a missing key is entered with the empty value. -/
def Headers.subscript (h : Headers) (key : Str) : Str × Headers :=
  (h[key]?.getD [], if key ∈ h then h else h.insert key [])

/-- `http_code_t`, an enumeration on `unsigned int`. -/
abbrev HttpCode := ℤ

/-- `HTTP_OK`. -/
def httpOk : HttpCode := 200

/-- `HTTP_NOCONTENT`. -/
def httpNocontent : HttpCode := 204

/-- `HTTP_NOTMODIFIED`. -/
def httpNotmodified : HttpCode := 304

/-- `HTTP_BADREQUEST`. -/
def httpBadrequest : HttpCode := 400

/-- `HTTP_NOTFOUND`. -/
def httpNotfound : HttpCode := 404

/-- `static_cast<http_code_t>(n)`. -/
def httpCode (n : ℤ) : HttpCode := n % 2 ^ 32

/-- The class `request`. The two members the constructor leaves uninitialised are `none` until they
are set. -/
structure Request where
  headers : Headers := ∅
  buf : Str := []
  chunked : Bool := false
  ntoread : ℤ := 0
  firstline : Str := []
  kind : RequestKind := .response
  type : Option RequestType := none
  status : RequestStatus := .readingFirstline
  major : ℤ := 1
  minor : ℤ := 1
  uri : Str := []
  query : Str := []
  responseCode : Option HttpCode := none
  responseLine : Str := []
  deriving DecidableEq

namespace Request

variable (r : Request)

/-- `get_header(key)`. -/
def getHeader (key : Str) : Str := r.headers[key]?.getD []

/-- `set_header(key, value)`. -/
def setHeader (key value : Str) : Request := { r with headers := r.headers.insert key value }

/-- `set_protocol(major, minor)`. -/
def setProtocol (major minor : ℤ) : Request := { r with major := major, minor := minor }

/-- The page of `push_not_found()`. -/
def notFoundPage (uri : Str) : Str :=
  str "<html><head><title>404 Not Found</title></head>\n" ++
  str "<body><h1>Not Found</h1>\n" ++
  (str "<p>The requested URL " ++ htmlescape uri ++ str " was not found on this server.</p>") ++
  str "</body></html>\n"

/-- `push_not_found()`. -/
def pushNotFound : Request := { r with buf := r.buf ++ notFoundPage r.uri }

/-- The page of `push_error(error, reason)`. -/
def errorPage (error : ℤ) (reason : Str) : Str :=
  (str "<html><head><title>" ++ stdToString error ++ str " " ++ reason ++
    str "</title></head>\n") ++
  str "<body>\n<h1>Method Not Implemented</h1>\n" ++
  str "<p>Invalid method in request</p>\n" ++
  str "</body></html>\n"

/-- `push_error(error, reason)`. -/
def pushError (error : ℤ) (reason : Str) : Request :=
  { r with buf := r.buf ++ errorPage error reason }

/-- The body a reply gets when the caller gives none. -/
def defaultContent (code : HttpCode) (reason : Str) : Request :=
  if code = httpOk then r
  else if code = httpNotfound then r.pushNotFound
  else if code = httpNocontent then r
  else r.pushError code reason

/-- The header of a reply without regard to its body: `Date` and `Connection` for HTTP/1.1. -/
def protocolHeaders (date : Str) : Headers :=
  if r.major = 1 ∧ r.minor = 1 then
    ((∅ : Headers).insert (str "Date") date).insert (str "Connection") (str "keep-alive")
  else ∅

/-- `headers["Content-Length"] = std::to_string(buf_->length())` for a connection that is kept,
after the look at `headers["Connection"]`. -/
def keepAliveLength (h : Headers) : Headers :=
  if r.major = 1 then
    let (connection, h) := h.subscript (str "Connection")
    if connection = str "keep-alive" then
      h.insert (str "Content-Length") (stdToString r.buf.length)
    else h
  else h

/-- The header of a reply with a body. -/
def contentHeaders (h : Headers) : Headers :=
  if r.buf.length > 0 then
    (h.insert (str "Content-Length") (stdToString r.buf.length)).insert (str "Content-Type")
      (str "text/html; charset=utf-8")
  else h

/-- `" HTTP/" + major + "." + minor` without the blank. -/
def protocolText : Str := str "HTTP/" ++ stdToString r.major ++ str "." ++ stdToString r.minor

/-- `set_response(code, reason, content)` at the time `now`; the content is drained into the
body. -/
def setResponse (now : Tm) (code : HttpCode) (reason : Str) (content : Option Str) : Request :=
  let r := { r with kind := .response, responseCode := some code, responseLine := reason }
  let r := match content with
    | some c => { r with buf := r.buf ++ c }
    | none => r.defaultContent code reason
  let r := { r with firstline :=
    r.protocolText ++ str " " ++ stdToString code ++ str " " ++ r.responseLine ++ crlf }
  { r with headers := r.contentHeaders (r.keepAliveLength (r.protocolHeaders (getDate now))) }

/-- The name of a method in a request line. -/
def method : RequestType → Str
  | .get => str "GET"
  | .post => str "POST"
  | .head => str "HEAD"

/-- `set_request(type, uri, content)`; the content is drained into the body. -/
def setRequest (type : RequestType) (uri : Str) (content : Option Str) : Request :=
  let r := { r with type := some type, uri := uri, buf := r.buf ++ content.getD [] }
  let h : Headers := (∅ : Headers).insert (str "Content-Type") (str "text/html; charset=utf-8")
  let h := match type with
    | .post => h.insert (str "Content-Length") (stdToString r.buf.length)
    | _ => h
  { r with headers := h, firstline := method type ++ str " " ++ uri ++ str " " ++ r.protocolText ++ crlf }

/-- The line of one header field; a field with an empty value is not sent. -/
def headerLine (kv : Str × Str) : Str :=
  if kv.2 = [] then [] else kv.1 ++ str ": " ++ kv.2 ++ crlf

/-- `send_to(buf)`: the request with its body drained, and the buffer. -/
def sendTo (out : Str) : Request × Str :=
  let out := out ++ r.firstline
  let out := out ++ r.headers.toList.flatMap headerLine
  let out := out ++ crlf
  if r.buf.length > 0 then ({ r with buf := (move out r.buf (-1)).2 }, (move out r.buf (-1)).1)
  else (r, out)

/-- What `send_to` appends. -/
theorem sendTo_snd (out : Str) :
    (r.sendTo out).2 = out ++ (r.firstline ++ r.headers.toList.flatMap headerLine ++ crlf ++ r.buf) := by
  have hmove : ∀ dst src : Str, (move dst src (-1)).1 = dst ++ src := by simp [move, clamp]
  unfold sendTo
  by_cases h : r.buf = []
  · simp [h]
  · simp [List.length_pos_iff.mpr h, hmove]

end Request

end Libio
