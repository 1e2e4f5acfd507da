import Libio.Foundation.Numerals
import Mathlib.Data.List.DropRight

/-! # Strings

The byte strings of the library (`std::string`) with the operations of `core/string.hh` and of the
standard library that the HTTP module calls: searching and cutting, trimming, splitting, HTML
escaping, percent-decoding, and the numeric conversions `std::to_string`, `std::stol` and
`std::stoi`. A call that does not return normally ends in a `Fault`. -/

namespace Libio

/-- How a call ends when it does not return: one of the two exceptions of the standard conversions,
or undefined behaviour (an access outside an object, `front` or `pop` of an empty queue). -/
inductive Fault
  | invalidArgument
  | outOfRange
  | undefined
  deriving DecidableEq, Repr

/-- A sequence of two calls returns when both do. -/
theorem bind_eq_ok {α β : Type u} {x : Except Fault α} {f : α → Except Fault β} {b : β} :
    x >>= f = .ok b ↔ ∃ a, x = .ok a ∧ f a = .ok b := by
  cases x with
  | error e => simp [bind, Except.bind]
  | ok a => simp [bind, Except.bind]

/-- A mapped call returns when the call does. -/
theorem map_eq_ok {α β : Type u} {x : Except Fault α} {f : α → β} {b : β} :
    x.map f = .ok b ↔ ∃ a, x = .ok a ∧ f a = b := by
  cases x with
  | error e => simp [Except.map]
  | ok a => simp [Except.map]

/-- `std::string`: a sequence of bytes. -/
abbrev Str := List UInt8

instance : LawfulBEq Str := inferInstanceAs (LawfulBEq (List UInt8))

/-- The bytes of an ASCII literal. -/
def str (s : String) : Str := s.toList.map fun c => c.toNat.toUInt8

/-- Carriage return. -/
def cr : UInt8 := 13

/-- Line feed. -/
def lf : UInt8 := 10

/-- The line end `"\r\n"` that every serializer writes. -/
def crlf : Str := [cr, lf]

/-- A text that `buffer::pop` hands out whole: no line-end byte and no NUL in it. -/
def Plain (s : Str) : Prop := ∀ c ∈ s, c ≠ cr ∧ c ≠ lf ∧ c ≠ 0

instance (s : Str) : Decidable (Plain s) := List.decidableBAll (fun c => c ≠ cr ∧ c ≠ lf ∧ c ≠ 0) s

/-- The empty text is plain. -/
@[simp] theorem plain_nil : Plain [] := by simp [Plain]

/-- A plain text has no line end and no NUL at its front. -/
@[simp] theorem plain_cons {c : UInt8} {s : Str} :
    Plain (c :: s) ↔ (c ≠ cr ∧ c ≠ lf ∧ c ≠ 0) ∧ Plain s := by
  simp [Plain]

/-- Two texts are plain together when each is. -/
@[simp] theorem plain_append {s t : Str} : Plain (s ++ t) ↔ Plain s ∧ Plain t := by
  simp only [Plain, List.mem_append]
  exact ⟨fun h => ⟨fun c hc => h c (.inl hc), fun c hc => h c (.inr hc)⟩,
    fun h c hc => hc.elim (h.1 c) (h.2 c)⟩

/-! ## Searching and cutting -/

/-- `s.find(c, pos)`. -/
def find (s : Str) (c : UInt8) (pos : ℕ) : Option ℕ :=
  ((s.drop pos).findIdx? (· == c)).map (· + pos)

/-- `s.substr(pos, len)` for a position inside the string. -/
def substr (s : Str) (pos len : ℕ) : Str := (s.drop pos).take len

/-- The first occurrence of a byte that does not occur earlier. -/
theorem find_append_cons {a b : Str} {c : UInt8} (h : c ∉ a) :
    find (a ++ c :: b) c 0 = some a.length := by
  have : a.findIdx? (· == c) = none := by
    rw [List.findIdx?_eq_none_iff]
    intro x hx
    simpa using fun e : x = c => h (e ▸ hx)
  simp [find, List.findIdx?_append, this, List.findIdx?_cons]

/-- A search that starts behind a segment does not look at it. -/
theorem find_append_of_le {a b : Str} {c : UInt8} {n : ℕ} (hn : n = a.length) :
    find (a ++ b) c n = (find b c 0).map (· + n) := by
  subst hn
  simp [find]

/-- A byte that does not occur is not found. -/
theorem find_eq_none {s : Str} {c : UInt8} (h : c ∉ s) : find s c 0 = none := by
  have : s.findIdx? (· == c) = none := by
    rw [List.findIdx?_eq_none_iff]
    intro x hx
    simpa using fun e : x = c => h (e ▸ hx)
  simp [find, this]

/-! ## Trimming -/

/-- The default character set of `trim`. -/
def ws : Str := str " \t\n\r\x0c\x0b"

/-- `rtrim`: cut behind the last byte outside `t`. -/
def rtrim (s t : Str) : Str := s.rdropWhile (· ∈ t)

/-- `ltrim`: cut in front of the first byte outside `t`. -/
def ltrim (s t : Str) : Str := s.dropWhile (· ∈ t)

/-- `trim(s)` with the default character set. -/
def trim (s : Str) : Str := ltrim (rtrim s ws) ws

/-- No white space at either end. -/
def NoEdgeSpace (s : Str) : Prop := (∀ c ∈ s.head?, c ∉ ws) ∧ ∀ c ∈ s.getLast?, c ∉ ws

instance (s : Str) : Decidable (NoEdgeSpace s) :=
  have : Decidable (∀ c ∈ s.head?, c ∉ ws) := Option.decidableForallMem _
  have : Decidable (∀ c ∈ s.getLast?, c ∉ ws) := Option.decidableForallMem _
  inferInstanceAs (Decidable (_ ∧ _))

/-- A text without white space has none at its ends. -/
theorem noEdgeSpace_of_forall {s : Str} (h : ∀ c ∈ s, c ∉ ws) : NoEdgeSpace s :=
  ⟨fun c hc => h c (List.mem_of_mem_head? hc), fun c hc => h c (List.mem_of_mem_getLast? hc)⟩

/-- A text between two words has no white space at its ends. -/
theorem noEdgeSpace_between {a b : Str} (ha : a ≠ [] ∧ NoEdgeSpace a) (hb : b ≠ [] ∧ NoEdgeSpace b)
    (s : Str) : NoEdgeSpace (a ++ s ++ b) := by
  constructor
  · rw [List.append_assoc, List.head?_append_of_ne_nil _ ha.1]
    exact ha.2.1
  · rw [List.getLast?_append_of_ne_nil _ hb.1]
    exact hb.2.2

/-- Nothing is trimmed off an end that is kept. -/
theorem rtrim_of_getLast {s t : Str} (h : ∀ c ∈ s.getLast?, c ∉ t) : rtrim s t = s := by
  unfold rtrim
  rw [List.rdropWhile_eq_self_iff]
  intro hs
  simpa using h (s.getLast hs) (by simp [List.getLast?_eq_some_getLast hs])

/-- Nothing is trimmed off a front that is kept. -/
theorem ltrim_of_head {s t : Str} (h : ∀ c ∈ s.head?, c ∉ t) : ltrim s t = s := by
  cases s with
  | nil => rfl
  | cons c s =>
      have : c ∉ t := h c rfl
      simp [ltrim, this]

/-- Trimming keeps a text with no space at its ends. -/
theorem trim_of_noEdgeSpace {s : Str} (h : NoEdgeSpace s) : trim s = s := by
  rw [trim, rtrim_of_getLast h.2, ltrim_of_head h.1]

/-- Trimming drops the blank that separates a header's colon from its value. -/
theorem trim_space_cons {s : Str} (hs : s ≠ []) (h : NoEdgeSpace s) :
    trim (str " " ++ s) = s := by
  have hr : rtrim (str " " ++ s) ws = str " " ++ s := by
    apply rtrim_of_getLast
    rw [List.getLast?_append_of_ne_nil _ hs]
    exact h.2
  rw [trim, hr, ltrim, List.dropWhile_append_of_pos (by decide +kernel)]
  exact ltrim_of_head h.1

/-! ## Splitting -/

/-- The `getline` loop of `split`: `tok` holds the bytes read since the last delimiter, `got` is
whether there were any. -/
def splitLoop (d : UInt8) : Str → Str → Bool → List Str
  | [], tok, got => if got then [tok] else []
  | c :: cs, tok, _ =>
      if c = d then tok :: splitLoop d cs [] false else splitLoop d cs (tok ++ [c]) true

/-- `split(s, delimiter)`. -/
def split (s : Str) (d : UInt8) : List Str := splitLoop d s [] false

/-! ## HTML escaping -/

/-- `replace(str, from, to)` for the one-character patterns it is called with. -/
def replace (s : Str) (c : UInt8) (new : Str) : Str :=
  s.flatMap fun x => if x = c then new else [x]

/-- `htmlescape(html)`: five passes, in the order of the source. -/
def htmlescape (html : Str) : Str :=
  let html := replace html 60 (str "&lt")
  let html := replace html 62 (str "&gt")
  let html := replace html 34 (str "&quot")
  let html := replace html 39 (str "&#039")
  replace html 38 (str "&amp")

/-! ## Percent-decoding -/

/-- `hex_to_int(a)`, on a signed `char`. -/
def hexToInt (a : UInt8) : ℤ :=
  if 48 ≤ a ∧ a ≤ 57 then a.toInt8.toInt - 48
  else if 65 ≤ a ∧ a ≤ 90 then a.toInt8.toInt - 55
  else a.toInt8.toInt - 87

/-- `static_cast<char>(hex1 * 16 + hex2)`. -/
def hexPair (a b : UInt8) : UInt8 := UInt8.ofNat ((hexToInt a * 16 + hexToInt b) % 256).toNat

/-- The loop of `string_from_utf8` on the unread input. The side stream `ss` collects decoded bytes
and is flushed into `result` before the next literal byte. `in[n]` is the terminating NUL; an index
beyond it is outside the string. -/
def stringFromUtf8Loop : Str → Bool → Str → Str → Except Fault Str
  | [], flag, ss, result => .ok (if flag then result ++ ss else result)
  | x :: rest, flag, ss, result =>
      if x = 37 then
        match rest with
        | a :: b :: rest => stringFromUtf8Loop rest true (ss ++ [hexPair a b]) result
        | [a] => .ok (result ++ (ss ++ [hexPair a 0]))
        | [] => .error .undefined
      else if flag then stringFromUtf8Loop rest false [] (result ++ ss ++ [x])
      else stringFromUtf8Loop rest false ss (result ++ [x])

/-- `string_from_utf8(in)`. -/
def stringFromUtf8 (s : Str) : Except Fault Str := stringFromUtf8Loop s false [] []

/-- The text ends with a `%` that no earlier escape takes up, so that decoding it reads beyond the
terminating NUL. -/
def truncatedEscape : Str → Bool
  | [] => false
  | x :: rest =>
      if x = 37 then
        match rest with
        | _ :: _ :: rest => truncatedEscape rest
        | [_] => false
        | [] => true
      else truncatedEscape rest

/-- Decoding is defined unless the last escape is cut off. -/
theorem stringFromUtf8Loop_isOk (s : Str) (flag : Bool) (ss result : Str) :
    (∃ t, stringFromUtf8Loop s flag ss result = .ok t) ↔ truncatedEscape s = false := by
  induction s, flag, ss, result using stringFromUtf8Loop.induct with
  | case1 flag ss result => simp [stringFromUtf8Loop, truncatedEscape]
  | case2 flag ss result a b rest ih => simpa [stringFromUtf8Loop, truncatedEscape] using ih
  | case3 flag ss result a => simp [stringFromUtf8Loop, truncatedEscape]
  | case4 flag ss result => simp [stringFromUtf8Loop, truncatedEscape]
  | case5 x rest ss result hx ih =>
      rw [stringFromUtf8Loop.eq_def, truncatedEscape.eq_def]
      simpa [hx] using ih
  | case6 x rest flag ss result hx hflag ih =>
      rw [stringFromUtf8Loop.eq_def, truncatedEscape.eq_def]
      simpa [hx, hflag] using ih

/-- Decoding returns exactly when no escape is cut off. -/
theorem stringFromUtf8_isOk (s : Str) :
    (∃ t, stringFromUtf8 s = .ok t) ↔ truncatedEscape s = false :=
  stringFromUtf8Loop_isOk s false [] []

/-- Where decoding does not return, it reads beyond the string. -/
theorem stringFromUtf8_error {s : Str} {e : Fault} (h : stringFromUtf8 s = .error e) :
    e = .undefined := by
  suffices hs : ∀ (s : Str) (flag : Bool) (ss result : Str),
      stringFromUtf8Loop s flag ss result = .error e → e = .undefined from hs _ _ _ _ h
  intro s flag ss result hloop
  induction s, flag, ss, result using stringFromUtf8Loop.induct with
  | case1 flag ss result => cases hloop
  | case2 flag ss result a b rest ih => exact ih (by simpa [stringFromUtf8Loop] using hloop)
  | case3 flag ss result a => simp [stringFromUtf8Loop] at hloop
  | case4 flag ss result =>
      have : Fault.undefined = e := by simpa [stringFromUtf8Loop] using hloop
      exact this.symm
  | case5 x rest ss result hx ih =>
      rw [stringFromUtf8Loop.eq_def] at hloop
      exact ih (by simpa [hx] using hloop)
  | case6 x rest flag ss result hx hflag ih =>
      rw [stringFromUtf8Loop.eq_def] at hloop
      exact ih (by simpa [hx, hflag] using hloop)

/-- A text without escapes is decoded to itself. -/
theorem stringFromUtf8Loop_literal {s ss : Str} (h : (37 : UInt8) ∉ s) (result : Str) :
    stringFromUtf8Loop s false ss result = .ok (result ++ s) := by
  induction s generalizing result with
  | nil => simp [stringFromUtf8Loop]
  | cons x s ih =>
      simp only [List.mem_cons, not_or] at h
      rw [stringFromUtf8Loop.eq_def]
      simp [Ne.symm h.1, ih h.2]

/-- Decoding leaves a text without `%` as it is. -/
theorem stringFromUtf8_literal {s : Str} (h : (37 : UInt8) ∉ s) : stringFromUtf8 s = .ok s := by
  rw [stringFromUtf8, stringFromUtf8Loop_literal h, List.nil_append]

end Libio
