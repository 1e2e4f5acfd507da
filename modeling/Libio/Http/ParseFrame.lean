import Libio.Http.Parse

/-! # What every call of the parser keeps

A call of the parser takes bytes off the front of its input and does not change the kind of the
request; behind the first line it does not change the answer to the question whether the message has
a body either. So a parser that has read its first line always has that answer, and the loop of
`parse_request` ends. -/

namespace Libio

open ByteQueue

/-- What a call behind the first line keeps. -/
structure Frame (r : Request) (buf : Str) (p : Parsed) : Prop where
  kind : p.2.1.kind = r.kind
  bodyless : p.2.1.bodyless = r.bodyless
  suffix : p.2.2 <:+ buf
  notCanceld : p.1 ≠ .canceld

/-- A call that does nothing. -/
theorem Frame.refl {status : ParseStatus} (h : status ≠ .canceld) (r : Request) (buf : Str) :
    Frame r buf (status, r, buf) :=
  ⟨rfl, rfl, List.suffix_rfl, h⟩

/-- A call from a state that agrees with the first one. -/
theorem Frame.trans {r r' : Request} {buf buf' : Str} {p : Parsed} (h : Frame r' buf' p)
    (hkind : r'.kind = r.kind) (hbodyless : r'.bodyless = r.bodyless) (hsuffix : buf' <:+ buf) :
    Frame r buf p :=
  ⟨h.kind.trans hkind, h.bodyless.trans hbodyless, h.suffix.trans hsuffix, h.notCanceld⟩

/-- The header loop takes lines off the front. -/
theorem readHeaders_suffix (k v : Str) (h : Headers) (buf : Str) :
    (readHeaders k v h buf).2.2 <:+ buf := by
  suffices hs : ∀ (n : ℕ) (k v : Str) (h : Headers) (buf : Str),
      (readHeadersLoop n k v h buf).2.2 <:+ buf from hs _ k v h buf
  intro n
  induction n with
  | zero => exact fun _ _ _ _ => List.suffix_rfl
  | succ n ih =>
      intro k v h buf
      have hpop := popLine_suffix buf
      rw [readHeadersLoop]
      by_cases hbuf : buf = []
      · simp only [if_pos hbuf]
        exact List.suffix_rfl
      · rw [if_neg hbuf]
        split
        · next rest heq => rwa [heq] at hpop
        · next c line rest heq =>
            rw [heq] at hpop
            split
            · split
              · exact hpop
              · exact (ih _ _ _ _).trans hpop
            · split
              · exact hpop
              · exact (ih _ _ _ _).trans hpop

namespace Request

variable {r : Request} {buf : Str} {p : Parsed}

/-- The header parser, when the body parser it leads on to keeps what it should. -/
theorem frame_parseHeadersWith {body : Request → Str → Except Fault Parsed}
    (hbody : ∀ {r : Request} {buf : Str} {p : Parsed}, body r buf = .ok p → Frame r buf p)
    (h : r.parseHeadersWith body buf = .ok p) : Frame r buf p := by
  have hsuffix := readHeaders_suffix [] [] r.headers buf
  revert h
  rw [parseHeadersWith]
  generalize readHeaders [] [] r.headers buf = res at hsuffix ⊢
  obtain ⟨stop, headers, rest⟩ := res
  intro h
  cases stop with
  | drained =>
      obtain rfl : _ = p := Except.ok.inj h
      exact ⟨rfl, rfl, hsuffix, nofun⟩
  | bad =>
      obtain rfl : _ = p := Except.ok.inj h
      exact ⟨rfl, rfl, hsuffix, nofun⟩
  | blank =>
      obtain ⟨b, hb, h⟩ := bind_eq_ok.mp h
      cases b with
      | true =>
          obtain rfl : _ = p := Except.ok.inj h
          exact ⟨rfl, rfl, hsuffix, nofun⟩
      | false =>
          simp only [Bool.false_eq_true, if_false] at h
          cases hst : r.status with
          | readingHeaders =>
              simp only [hst] at h
              exact (hbody h).trans rfl rfl hsuffix
          | readingTrailer | readingFirstline | readingBody =>
              simp only [hst] at h
              obtain rfl : _ = p := Except.ok.inj h
              exact ⟨rfl, rfl, hsuffix, nofun⟩

/-- The trailer parser keeps what it should. -/
theorem frame_parseTrailer (h : r.parseTrailer buf = .ok p) : Frame r buf p :=
  frame_parseHeadersWith (fun h => by obtain rfl := Except.ok.inj h; exact .refl (by decide) _ _) h

/-- The chunk loop. -/
theorem frame_readChunks (h : r.readChunks buf = .ok p) : Frame r buf p := by
  suffices hs : ∀ (n : ℕ) {r : Request} {buf : Str} {p : Parsed},
      readChunksLoop n r buf = .ok p → Frame r buf p from hs _ h
  intro n
  induction n with
  | zero =>
      intro r buf p h
      obtain rfl := Except.ok.inj h
      exact .refl (by decide) _ _
  | succ n ih =>
      intro r buf p h
      rw [readChunksLoop] at h
      by_cases hbuf : buf = []
      · rw [if_pos hbuf] at h
        obtain rfl := Except.ok.inj h
        exact .refl (by decide) _ _
      · rw [if_neg hbuf] at h
        by_cases hneg : r.ntoread < 0
        · rw [if_pos hneg] at h
          have hpop := popLine_suffix buf
          obtain ⟨m, -, h⟩ := bind_eq_ok.mp h
          split at h
          · obtain rfl := Except.ok.inj h
            exact ⟨rfl, rfl, hpop, (by decide : ParseStatus.corrupted ≠ .canceld)⟩
          · split at h
            · exact (frame_parseTrailer h).trans rfl rfl hpop
            · exact (ih h).trans rfl rfl hpop
        · rw [if_neg hneg] at h
          split at h
          · obtain rfl := Except.ok.inj h
            exact .refl (by decide) _ _
          · exact (ih h).trans rfl rfl (List.drop_suffix _ _)

/-- So does the reading of a body. -/
theorem frame_readBody (h : r.readBody buf = .ok p) : Frame r buf p := by
  rw [readBody] at h
  split at h
  · exact frame_readChunks h
  · split at h
    · obtain rfl := Except.ok.inj h
      exact ⟨rfl, rfl, List.drop_suffix _ _, nofun⟩
    · split at h
      · obtain rfl := Except.ok.inj h
        exact ⟨rfl, rfl, List.drop_suffix _ _, nofun⟩
      · obtain rfl := Except.ok.inj h
        exact .refl (by decide) _ _

/-- What `get_body_length` keeps. -/
theorem getBodyLength_frame {n : ℤ} {r' : Request} (h : r.getBodyLength = .ok (n, r')) :
    r'.kind = r.kind ∧ r'.bodyless = r.bodyless := by
  rw [getBodyLength] at h
  simp only at h
  split at h
  · simp only [Except.ok.injEq, Prod.mk.injEq] at h
    obtain ⟨-, rfl⟩ := h
    exact ⟨rfl, rfl⟩
  · obtain ⟨m, -, h⟩ := bind_eq_ok.mp h
    split at h <;>
    · simp only [Except.ok.injEq, Prod.mk.injEq] at h
      obtain ⟨-, rfl⟩ := h
      exact ⟨rfl, rfl⟩

/-- So does the body parser. -/
theorem frame_parseBody (h : r.parseBody buf = .ok p) : Frame r buf p := by
  rw [parseBody] at h
  simp only at h
  split at h
  · exact (frame_readBody h).trans rfl rfl List.suffix_rfl
  · obtain ⟨⟨n, r'⟩, hlen, h⟩ := bind_eq_ok.mp h
    obtain ⟨hk, hb⟩ := getBodyLength_frame hlen
    simp only at h
    split at h
    · obtain rfl := Except.ok.inj h
      exact ⟨hk, hb, List.suffix_rfl, nofun⟩
    · exact (frame_readBody h).trans hk hb List.suffix_rfl

/-- So does the header parser. -/
theorem frame_parseHeaders (h : r.parseHeaders buf = .ok p) : Frame r buf p :=
  frame_parseHeadersWith frame_parseBody h

/-! ## The first line -/

/-- What setting the target keeps. -/
theorem setTarget_keeps (r : Request) (uri : Str) :
    (r.setTarget uri).kind = r.kind ∧ (r.setTarget uri).status = r.status ∧
      (r.setTarget uri).type = r.type := by
  unfold setTarget
  split <;> exact ⟨rfl, rfl, rfl⟩

/-- What decoding the request line keeps. -/
theorem decodeRequestLine_keeps {protocol : Str} {n : ℤ} {r' : Request}
    (h : r.decodeRequestLine protocol = .ok (n, r')) :
    r'.kind = r.kind ∧ r'.status = r.status ∧ r'.type = r.type := by
  obtain ⟨uri, -, h⟩ := bind_eq_ok.mp h
  split at h <;>
  · simp only [Except.ok.injEq, Prod.mk.injEq] at h
    obtain ⟨-, rfl⟩ := h
    exact ⟨rfl, rfl, rfl⟩

/-- What a request line that is accepted leaves: the kind, and what decides whether there is a
body. -/
theorem parseRequestLine_ready {line : Str} {n : ℤ} {r' : Request} (hkind : r.kind = .request)
    (h : r.parseRequestLine line = .ok (n, r')) :
    r'.kind = r.kind ∧ r'.status = r.status ∧ (n ≠ -1 → ∃ b, r'.bodyless = .ok b) := by
  have hrefuse : (Except.ok (-1, r) : Except Fault (ℤ × Request)) = .ok (n, r') →
      r'.kind = r.kind ∧ r'.status = r.status ∧ (n ≠ -1 → ∃ b, r'.bodyless = .ok b) := by
    intro h
    simp only [Except.ok.injEq, Prod.mk.injEq] at h
    obtain ⟨rfl, rfl⟩ := h
    exact ⟨rfl, rfl, fun h => absurd rfl h⟩
  rw [parseRequestLine] at h
  split at h
  · exact hrefuse h
  · next method uri protocol _ =>
      split at h
      · exact hrefuse h
      · next type _ =>
          obtain ⟨hk, hs, ht⟩ := setTarget_keeps { r with type := some type } uri
          obtain ⟨hk', hs', ht'⟩ := decodeRequestLine_keeps h
          refine ⟨hk'.trans hk, hs'.trans hs, fun _ => ⟨decide (type ≠ .post), ?_⟩⟩
          simp only [bodyless, hk'.trans hk, hkind, ht'.trans ht]

/-- What a status line that is accepted leaves. -/
theorem parseResponseLine_ready {line : Str} {n : ℤ} {r' : Request} (hkind : r.kind = .response)
    (h : r.parseResponseLine line = .ok (n, r')) :
    r'.kind = r.kind ∧ r'.status = r.status ∧ (n ≠ -1 → ∃ b, r'.bodyless = .ok b) := by
  rw [parseResponseLine] at h
  split at h
  · simp only [Except.ok.injEq, Prod.mk.injEq] at h
    obtain ⟨rfl, rfl⟩ := h
    exact ⟨rfl, rfl, fun h => absurd rfl h⟩
  · split at h
    · simp only [Except.ok.injEq, Prod.mk.injEq] at h
      obtain ⟨rfl, rfl⟩ := h
      exact ⟨rfl, rfl, fun h => absurd rfl h⟩
    · obtain ⟨m, -, h⟩ := bind_eq_ok.mp h
      simp only [Except.ok.injEq, Prod.mk.injEq] at h
      obtain ⟨rfl, rfl⟩ := h
      refine ⟨rfl, rfl, fun _ => ⟨decide (httpCode m = httpNocontent ∨
        httpCode m = httpNotmodified ∨ (100 ≤ httpCode m ∧ httpCode m < 200)), ?_⟩⟩
      simp only [bodyless, hkind]

/-- Behind a first line that is accepted it is known whether there is a body. -/
theorem parseLine_ready {line : Str} {n : ℤ} {r' : Request} (h : r.parseLine line = .ok (n, r')) :
    r'.kind = r.kind ∧ r'.status = r.status ∧ (n ≠ -1 → ∃ b, r'.bodyless = .ok b) := by
  rw [parseLine] at h
  cases hkind : r.kind with
  | request =>
      rw [hkind] at h
      exact hkind ▸ parseRequestLine_ready hkind h
  | response =>
      rw [hkind] at h
      exact hkind ▸ parseResponseLine_ready hkind h

/-- The invariant of the parser: behind the first line it knows whether the message has a body. -/
def Ready (r : Request) : Prop := r.status = .readingFirstline ∨ ∃ b, r.bodyless = .ok b

/-- What any call keeps. -/
theorem parse_frame (hr : r.Ready) (h : r.parse buf = .ok p) :
    p.2.1.kind = r.kind ∧ p.2.1.Ready ∧ p.2.2 <:+ buf := by
  have hlater : ∀ {r' : Request} {buf' : Str}, Frame r' buf' p → (∃ b, r'.bodyless = .ok b) →
      r'.kind = r.kind → buf' <:+ buf → p.2.1.kind = r.kind ∧ p.2.1.Ready ∧ p.2.2 <:+ buf :=
    fun hf ⟨b, hb⟩ hk hs =>
      ⟨hf.kind.trans hk, .inr ⟨b, hf.bodyless.trans hb⟩, hf.suffix.trans hs⟩
  rw [parse] at h
  cases hst : r.status with
  | readingFirstline =>
      simp only [hst, parseFirstline] at h
      have hpop := popLine_suffix buf
      split at h
      · obtain rfl := Except.ok.inj h
        exact ⟨rfl, hr, List.suffix_rfl⟩
      · split at h
        · next rest heq =>
            obtain rfl := Except.ok.inj h
            rw [heq] at hpop
            exact ⟨rfl, hr, hpop⟩
        · next c line rest heq =>
            rw [heq] at hpop
            obtain ⟨⟨n, r'⟩, hline, h⟩ := bind_eq_ok.mp h
            obtain ⟨hk, hs, hready⟩ := parseLine_ready hline
            simp only at h
            split at h
            · obtain rfl := Except.ok.inj h
              exact ⟨hk, .inl (hs.trans hst), hpop⟩
            · next hn => exact hlater (frame_parseHeaders h) (hready hn) hk hpop
  | readingHeaders | readingBody | readingTrailer =>
      have hb : ∃ b, r.bodyless = .ok b := hr.resolve_left (by simp [hst])
      simp only [hst] at h
      first
        | exact hlater (frame_parseHeaders h) hb rfl List.suffix_rfl
        | exact hlater (frame_parseBody h) hb rfl List.suffix_rfl
        | exact hlater (frame_parseTrailer h) hb rfl List.suffix_rfl

/-- **Every call** takes bytes off the front, and a message that is complete has taken off at least
one. No call returns `CANCELD`. -/
theorem parse_advances (h : r.parse buf = .ok p) :
    p.1 ≠ .canceld ∧ p.2.2 <:+ buf ∧
      (r.status = .readingFirstline → p.1 = .allread → p.2.2.length < buf.length) := by
  rw [parse] at h
  cases hst : r.status with
  | readingFirstline =>
      simp only [hst, parseFirstline] at h
      have hpop := popLine_suffix buf
      split at h
      · obtain rfl := Except.ok.inj h
        exact ⟨nofun, List.suffix_rfl, fun _ => nofun⟩
      · split at h
        · next rest heq =>
            obtain rfl := Except.ok.inj h
            rw [heq] at hpop
            exact ⟨nofun, hpop, fun _ => nofun⟩
        · next c line rest heq =>
            rw [heq] at hpop
            obtain ⟨⟨n, r'⟩, -, h⟩ := bind_eq_ok.mp h
            simp only at h
            split at h
            · obtain rfl := Except.ok.inj h
              exact ⟨nofun, hpop, fun _ => nofun⟩
            · have hf := frame_parseHeaders h
              have hlt : rest.length < buf.length := by
                have := length_popLine_lt (q := buf) (by simp [heq])
                rwa [heq] at this
              exact ⟨hf.notCanceld, hf.suffix.trans hpop,
                fun _ _ => hf.suffix.length_le.trans_lt hlt⟩
  | readingHeaders =>
      simp only [hst] at h
      have hf := frame_parseHeaders h
      exact ⟨hf.notCanceld, hf.suffix, nofun⟩
  | readingBody =>
      simp only [hst] at h
      have hf := frame_parseBody h
      exact ⟨hf.notCanceld, hf.suffix, nofun⟩
  | readingTrailer =>
      simp only [hst] at h
      have hf := frame_parseTrailer h
      exact ⟨hf.notCanceld, hf.suffix, nofun⟩

end Request

end Libio
