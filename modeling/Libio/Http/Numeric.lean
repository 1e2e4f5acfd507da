import Libio.Http.NumericFields

/-! # Numbers in messages

The parser converts the code of a status line, the content length and the size of a chunk. The
conversions throw, they ignore what follows the digits, and only a negative length or size is looked
at; a length that is not needed is not converted at all. `parse_handles_iff` says for which inputs a
call returns and refuses a message with a field that is no number: each function of the parser is
judged by the numbers in its part of the message and by the reason it has to refuse it. -/

namespace Libio

open ByteQueue

/-! ## Calls that are judged -/

/-- A parser that has begun a chunked body is in it or in its trailer. -/
def Request.Tidy (r : Request) : Prop :=
  r.chunked = true → r.status = .readingTrailer ∨ (r.status = .readingBody ∧
    r.headers[str "Transfer-Encoding"]?.getD [] = str "chunked")

/-- A call is judged by numbers and by a reason to refuse: it returns when the numbers are numbers, it
returns `CORRUPTED` exactly for the reason, and nothing it does is undefined. -/
structure Judged (numbers : NumericField → Prop) (refused : Prop) (x : Except Fault Parsed) :
    Prop where
  returns : (∀ f, numbers f → f.IsNumber) → ∃ p, x = .ok p
  refuses : (∃ r buf, x = .ok (.corrupted, r, buf)) ↔ refused
  tidy : ∀ p, x = .ok p → p.2.1.Tidy
  defined : x ≠ .error .undefined

namespace Judged

variable {numbers numbers' : NumericField → Prop} {refused refused' : Prop}
  {x : Except Fault Parsed} {r : Request} {buf : Str}

/-- A call that refuses its input for the reason. -/
theorem corrupted (ht : r.Tidy) (h : refused) : Judged numbers refused (.ok (.corrupted, r, buf)) where
  returns _ := ⟨_, rfl⟩
  refuses := ⟨fun _ => h, fun _ => ⟨r, buf, rfl⟩⟩
  tidy p hp := by rwa [← Except.ok.inj hp]
  defined := nofun

/-- A call that returns another status, where there is no reason. -/
theorem passed {status : ParseStatus} (hs : status ≠ .corrupted) (ht : r.Tidy) (h : ¬refused) :
    Judged numbers refused (.ok (status, r, buf)) where
  returns _ := ⟨_, rfl⟩
  refuses := by
    refine ⟨?_, fun h' => absurd h' h⟩
    rintro ⟨r', buf', heq⟩
    simp only [Except.ok.injEq, Prod.mk.injEq] at heq
    exact absurd heq.1 hs
  tidy p hp := by rwa [← Except.ok.inj hp]
  defined := nofun

/-- A call that throws at a number that is none. -/
theorem thrown {e : Fault} (he : e ≠ .undefined) (hnum : ¬∀ f, numbers f → f.IsNumber)
    (h : ¬refused) : Judged numbers refused (.error e) where
  returns hall := absurd hall hnum
  refuses := ⟨fun ⟨_, _, heq⟩ => (nomatch heq), fun h' => absurd h' h⟩
  tidy _ hp := nomatch hp
  defined heq := he (Except.error.inj heq)

/-- A result may be judged by more fields. -/
theorem mono (h : Judged numbers refused x)
    (hnum : (∀ f, numbers' f → f.IsNumber) → ∀ f, numbers f → f.IsNumber)
    (hrefused : refused ↔ refused') : Judged numbers' refused' x :=
  ⟨fun hall => h.returns (hnum hall), h.refuses.trans hrefused, h.tidy, h.defined⟩

end Judged

/-! ## Header and trailer -/

/-- The reason to refuse a header: a line of its own, or what follows it. -/
theorem sectionRefused_iff {body : Prop} {h : Headers} {buf rest : Str} {fs : List Field}
    (ho : Opens buf fs rest) : SectionRefused body h buf ↔
      body ∧ BodyRefused (headersBehind h fs) rest := by
  unfold SectionRefused
  rw [ho.fields]
  constructor
  · rintro (hbad | ⟨fs', rest', ho', hbody, hrefused⟩)
    · cases hbad
    · obtain rfl : fs = fs' := Option.some.inj (ho.fields.symm.trans ho'.fields)
      obtain rfl : rest = rest' := Option.some.inj (ho.blank.symm.trans ho'.blank)
      exact ⟨hbody, hrefused⟩
  · rintro ⟨hbody, hrefused⟩
    exact .inr ⟨fs, rest, ho, hbody, hrefused⟩

namespace Request

variable {r : Request} {numbers : NumericField → Prop} {refused : Prop} {buf : Str}

/-- A header is refused by a line that belongs to no field, waited for, or judged by what follows
it. -/
theorem judged_parseHeadersWith {body : Request → Str → Except Fault Parsed}
    (hbad : fieldsIn (headerLines buf).1 = none → refused)
    (hwait : ∀ fs, fieldsIn (headerLines buf).1 = some fs → (headerLines buf).2 = none → ¬refused)
    (ht : ∀ headers, Tidy { r with headers := headers })
    (hopen : ∀ fs rest, Opens buf fs rest → Judged numbers refused
      (finishHeaders body { r with headers := headersBehind r.headers fs } rest)) :
    Judged numbers refused (r.parseHeadersWith body buf) := by
  rw [parseHeadersWith]
  cases hfs : fieldsIn (headerLines buf).1 with
  | none =>
      have hstop := readHeaders_bad (h := r.headers) hfs
      generalize readHeaders [] [] r.headers buf = res at hstop ⊢
      obtain ⟨stop, headers, rest⟩ := res
      subst hstop
      exact .corrupted (ht headers) (hbad hfs)
  | some fs =>
      cases hend : (headerLines buf).2 with
      | none =>
          have hstop := readHeaders_drained (h := r.headers) hfs hend
          generalize readHeaders [] [] r.headers buf = res at hstop ⊢
          obtain ⟨stop, headers, rest⟩ := res
          subst hstop
          exact .passed (by decide) (ht headers) (hwait fs hfs hend)
      | some rest =>
          rw [readHeaders_opens ⟨hfs, hend⟩]
          exact hopen fs rest ⟨hfs, hend⟩

/-- A trailer is refused only by a line that belongs to no field. -/
theorem judged_parseTrailer (hst : r.status = .readingTrailer) (hb : ∃ b, r.bodyless = .ok b)
    (buf : Str) :
    Judged numbers (fieldsIn (headerLines buf).1 = none) (r.parseTrailer buf) := by
  have ht : ∀ headers, Tidy { r with headers := headers } := fun _ _ => .inl hst
  refine judged_parseHeadersWith id (fun fs hfs _ => by simp [hfs]) ht fun fs rest ho => ?_
  have hgo : ¬fieldsIn (headerLines buf).1 = none := by simp [ho.fields]
  obtain ⟨b, hb⟩ := hb
  have hb' : bodyless { r with headers := headersBehind r.headers fs } = .ok b := hb
  cases b with
  | true =>
      rw [finishHeaders_bodyless hb']
      exact .passed (by decide) (ht _) hgo
  | false =>
      rw [finishHeaders_trailer hb' hst]
      exact .passed (by decide) (ht _) hgo

/-! ## Chunks -/

/-- The reason to refuse a chunked body lies in its first size, or behind it. -/
theorem chunksRefused_iff {line rest : Str} {n : ℤ} (hpop : popLine buf = (line, rest))
    (hn : stol 16 line = .ok n) : ChunksRefused buf ↔
      n < 0 ∨ (n = 0 ∧ fieldsIn (headerLines rest).1 = none) ∨
        (0 < n ∧ n ≤ rest.length ∧ ChunksRefused (rest.drop (n.toNat + 2))) := by
  have hline : (popLine buf).1 = line := congrArg Prod.fst hpop
  have hrest : (popLine buf).2 = rest := congrArg Prod.snd hpop
  have hsame : ∀ {m : ℤ}, stol 16 (popLine buf).1 = .ok m → m = n := fun hm =>
    (Except.ok.inj ((hline ▸ hm).symm.trans hn))
  constructor
  · intro h
    cases h with
    | negative hsize hneg => exact .inl (hsame hsize ▸ hneg)
    | chunk hsize hpos hle hmore =>
        obtain rfl := hsame hsize
        rw [hrest] at hle hmore
        exact .inr (.inr ⟨hpos, hle, hmore⟩)
    | trailer hsize hbad =>
        rw [hrest] at hbad
        exact .inr (.inl ⟨(hsame hsize).symm, hbad⟩)
  · rw [← hline] at hn
    subst hrest
    rintro (hneg | ⟨rfl, hbad⟩ | ⟨hpos, hle, hmore⟩)
    · exact .negative hn hneg
    · exact .trailer hn hbad
    · exact .chunk hn hpos hle hmore

/-- Without a size there is no reason to refuse. -/
theorem not_chunksRefused {e : Fault} (he : stol 16 (popLine buf).1 = .error e) :
    ¬ChunksRefused buf := by
  intro h
  cases h <;> simp_all

/-- Without input no chunk is refused. -/
theorem not_chunksRefused_nil : ¬ChunksRefused [] := not_chunksRefused (e := .invalidArgument) rfl

/-- The chunk and its line end are taken off, or all there is. -/
theorem drop_clamp {n : ℤ} (hpos : 0 < n) :
    buf.drop (clamp buf (n + 2)) = buf.drop (n.toNat + 2) := by
  rcases le_or_gt (buf.length : ℤ) (n + 2) with hle | hlt
  · rw [clamp_of_ge hle, List.drop_length, List.drop_eq_nil_of_le (by omega)]
  · have hcast : n + 2 = ((n.toNat + 2 : ℕ) : ℤ) := by omega
    rw [hcast, clamp_of_le (by omega)]

/-- A size line that is no number throws. -/
theorem readChunks_error {line rest : Str} {e : Fault} (hbuf : buf ≠ []) (hneg : r.ntoread < 0)
    (hpop : popLine buf = (line, rest)) (he : stol 16 line = .error e) :
    r.readChunks buf = .error e := by
  rw [readChunks_eq, if_neg hbuf, if_pos hneg, hpop]
  simp only [he, bind, Except.bind]

/-- A size line is read. -/
theorem readChunks_round {line rest : Str} {n : ℤ} (hneg : r.ntoread < 0)
    (hpop : popLine buf = (line, rest)) (hn : stol 16 line = .ok n) :
    r.readChunks buf =
      if n < 0 then .ok (.corrupted, { r with ntoread := n }, rest)
      else if n = 0 then parseTrailer { r with ntoread := n, status := .readingTrailer } rest
      else readChunks { r with ntoread := n } rest := by
  have hline : line ≠ [] := ne_nil_of_stol hn
  have hbuf : buf ≠ [] := by
    rintro rfl
    exact hline (Prod.mk.inj hpop).1.symm
  rw [readChunks_eq, if_neg hbuf, if_pos hneg, hpop]
  simp only [hn, bind, Except.bind, hline, false_or]

/-- A chunk of which a part is missing is waited for. -/
theorem readChunks_short (hpos : 0 ≤ r.ntoread) (hlt : (buf.length : ℤ) < r.ntoread) :
    r.readChunks buf = .ok (.needmore, r, buf) := by
  rw [readChunks_eq]
  by_cases hbuf : buf = []
  · rw [if_pos hbuf]
  · rw [if_neg hbuf, if_neg hpos.not_gt, if_pos hlt]

/-- A chunk that is there is taken off. -/
theorem readChunks_whole (hpos : 0 < r.ntoread) (hle : r.ntoread ≤ buf.length) :
    ∃ data, r.readChunks buf =
      readChunks { r with buf := data, ntoread := -1 } (buf.drop (r.ntoread.toNat + 2)) := by
  have hbuf : buf ≠ [] := by
    rintro rfl
    simp only [List.length_nil, Nat.cast_zero] at hle
    omega
  refine ⟨(move r.buf buf (r.ntoread + 2)).1, ?_⟩
  rw [readChunks_eq, if_neg hbuf, if_neg (by omega), if_neg (by omega), ← drop_clamp hpos]
  rfl

/-- Where all numbers are numbers, a size is the value that the code has converted. -/
theorem value_sizeField {n : ℤ} (hall : ∀ f, ChunkNumber buf f → f.IsNumber) (hbuf : buf ≠ [])
    (hn : stol 16 (popLine buf).1 = .ok n) : (sizeField (popLine buf).1).value = .ok n := by
  obtain ⟨n', hvalue, hok⟩ := stol_of_sizeField (hall _ (.size hbuf))
  rw [hn] at hok
  rw [hvalue, Except.ok.inj hok]

/-- A size that is no number is thrown at. -/
theorem judged_badSize {e : Fault} (hbuf : buf ≠ []) (he : stol 16 (popLine buf).1 = .error e) :
    Judged (ChunkNumber buf) (ChunksRefused buf) (.error e) := by
  refine .thrown (convert_error he) (fun hall => ?_) (not_chunksRefused he)
  obtain ⟨n, -, hok⟩ := stol_of_sizeField (hall _ (.size hbuf))
  rw [he] at hok
  cases hok

/-- The trailer behind the last chunk. -/
theorem judged_lastChunk {line rest : Str} (hb : ∃ b, r.bodyless = .ok b) (hbuf : buf ≠ [])
    (hpop : popLine buf = (line, rest)) (hn : stol 16 line = .ok 0) :
    Judged (ChunkNumber buf) (ChunksRefused buf)
      (parseTrailer { r with ntoread := 0, status := .readingTrailer } rest) := by
  have hline : (popLine buf).1 = line := congrArg Prod.fst hpop
  have hrest : (popLine buf).2 = rest := congrArg Prod.snd hpop
  have htrailer : Judged (HeaderNumber rest) (fieldsIn (headerLines rest).1 = none)
      (parseTrailer { r with ntoread := 0, status := .readingTrailer } rest) :=
    judged_parseTrailer (r := { r with ntoread := 0, status := .readingTrailer }) rfl hb rest
  refine htrailer.mono (fun hall f hf => hall f ?_) ?_
  · exact .trailer (value_sizeField hall hbuf (hline ▸ hn)) (hrest ▸ hf)
  · rw [chunksRefused_iff hpop hn]
    simp

/-- The chunks behind one that is there. -/
theorem judged_nextChunk {line rest : Str} {n : ℤ} {x : Except Fault Parsed} (hbuf : buf ≠ [])
    (hpop : popLine buf = (line, rest)) (hn : stol 16 line = .ok n) (hpos : 0 < n)
    (hwhole : n ≤ rest.length) (hnext : Judged (ChunkNumber (rest.drop (n.toNat + 2)))
      (ChunksRefused (rest.drop (n.toNat + 2))) x) :
    Judged (ChunkNumber buf) (ChunksRefused buf) x := by
  have hline : (popLine buf).1 = line := congrArg Prod.fst hpop
  have hrest : (popLine buf).2 = rest := congrArg Prod.snd hpop
  refine hnext.mono (fun hall f hf => hall f ?_) ?_
  · exact .chunk (value_sizeField hall hbuf (hline ▸ hn)) hpos (hrest ▸ hwhole) (hrest ▸ hf)
  · rw [chunksRefused_iff hpop hn]
    simp [hpos.not_gt, hpos.ne', hpos, hwhole]

/-- A chunk that is not there yet is no reason to refuse. -/
theorem not_chunksRefused_short {line rest : Str} {n : ℤ} (hpop : popLine buf = (line, rest))
    (hn : stol 16 line = .ok n) (hpos : 0 < n) (hshort : (rest.length : ℤ) < n) :
    ¬ChunksRefused buf := by
  rw [chunksRefused_iff hpop hn]
  simp [hpos.not_gt, hpos.ne', hshort.not_ge]

/-- **A chunked body** is judged by its sizes and the lengths in its trailer. -/
theorem judged_readChunks (hneg : r.ntoread < 0) (hb : ∃ b, r.bodyless = .ok b)
    (hst : r.status = .readingBody)
    (hte : r.headers[str "Transfer-Encoding"]?.getD [] = str "chunked") (buf : Str) :
    Judged (ChunkNumber buf) (ChunksRefused buf) (r.readChunks buf) := by
  obtain ⟨m, hm⟩ : ∃ m, buf.length ≤ m := ⟨_, le_rfl⟩
  induction m generalizing r buf with
  | zero =>
      obtain rfl : buf = [] := List.length_eq_zero_iff.mp (by omega)
      rw [readChunks_nil]
      exact .passed (by decide) (fun _ => .inr ⟨hst, hte⟩) not_chunksRefused_nil
  | succ m ih =>
      by_cases hbuf : buf = []
      · subst hbuf
        rw [readChunks_nil]
        exact .passed (by decide) (fun _ => .inr ⟨hst, hte⟩) not_chunksRefused_nil
      · obtain ⟨line, rest, hpop⟩ : ∃ line rest, popLine buf = (line, rest) := ⟨_, _, rfl⟩
        have hline : (popLine buf).1 = line := congrArg Prod.fst hpop
        have hrest : (popLine buf).2 = rest := congrArg Prod.snd hpop
        cases hn : stol 16 line with
        | error e =>
            rw [readChunks_error hbuf hneg hpop hn]
            exact judged_badSize hbuf (hline ▸ hn)
        | ok n =>
            have hlt : rest.length < buf.length := by
              have := length_popLine_lt (q := buf) (hline ▸ ne_nil_of_stol hn)
              rwa [hrest] at this
            rw [readChunks_round hneg hpop hn]
            rcases lt_trichotomy n 0 with hn0 | rfl | hpos
            · rw [if_pos hn0]
              exact .corrupted (fun _ => .inr ⟨hst, hte⟩)
                ((chunksRefused_iff hpop hn).mpr (.inl hn0))
            · rw [if_neg (lt_irrefl 0), if_pos rfl]
              exact judged_lastChunk hb hbuf hpop hn
            · rw [if_neg hpos.not_gt, if_neg hpos.ne']
              rcases lt_or_ge (rest.length : ℤ) n with hshort | hwhole
              · rw [readChunks_short (r := { r with ntoread := n }) hpos.le hshort]
                exact .passed (by decide) (fun _ => .inr ⟨hst, hte⟩)
                  (not_chunksRefused_short hpop hn hpos hshort)
              · obtain ⟨data, hdata⟩ :=
                  readChunks_whole (r := { r with ntoread := n }) hpos hwhole
                rw [hdata]
                refine judged_nextChunk hbuf hpop hn hpos hwhole
                  (ih (r := { r with buf := data, ntoread := -1 }) (show (-1 : ℤ) < 0 by decide) hb
                    hst hte _ ?_)
                rw [List.length_drop]
                omega

/-! ## The body -/

/-- The request after `get_body_length` has set `ntoread`. -/
def withLength (r : Request) (n : ℤ) : Request :=
  { r with
    headers := ((r.headers.subscript (str "Content-Length")).2.subscript (str "Connection")).2
    ntoread := n }

/-- Without a length the body is read until the end. -/
theorem getBodyLength_none (h : (r.headers.subscript (str "Content-Length")).1 = []) :
    r.getBodyLength = .ok (0, r.withLength (-1)) := by
  simp only [getBodyLength, if_pos h]
  rfl

/-- A length is converted. -/
theorem getBodyLength_some (h : (r.headers.subscript (str "Content-Length")).1 ≠ []) :
    r.getBodyLength = stol 10 (r.headers.subscript (str "Content-Length")).1 >>= fun n =>
      .ok (if n < 0 then -1 else 0, r.withLength n) := by
  simp only [getBodyLength, if_neg h]
  cases stol 10 (r.headers.subscript (str "Content-Length")).1 with
  | error e => rfl
  | ok n =>
      simp only [bind, Except.bind]
      split <;> rfl

/-- A body that is not chunked is never refused once its length is known. -/
theorem judged_readBody {numbers : NumericField → Prop} {refused : Prop} (hc : r.chunked = false)
    (h : ¬refused) (buf : Str) : Judged numbers refused (r.readBody buf) := by
  have ht : ∀ data, Tidy { r with buf := data } := fun _ hch => by simp [hc] at hch
  rw [readBody, if_neg (by simp [hc])]
  split
  · exact .passed (by decide) (ht _) h
  · split
    · exact .passed (by decide) (ht _) h
    · exact .passed (by decide) (ht r.buf) h

/-- A body that is framed by its length, or not at all, is judged by the length. -/
theorem judged_framedBody (numbers : NumericField → Prop) (hc : r.chunked = false) (buf : Str)
    (hlength : (∀ f, numbers f → f.IsNumber) → (r.headers.subscript (str "Content-Length")).1 ≠ [] →
      ∃ n, stol 10 (r.headers.subscript (str "Content-Length")).1 = .ok n) :
    Judged numbers (∃ n, stol 10 (r.headers.subscript (str "Content-Length")).1 = .ok n ∧ n < 0)
      (r.getBodyLength >>= fun (res, r) =>
        if res = -1 then .ok (.corrupted, r, buf) else r.readBody buf) := by
  have hc' : ∀ n, (r.withLength n).chunked = false := fun _ => hc
  by_cases hlen : (r.headers.subscript (str "Content-Length")).1 = []
  · rw [getBodyLength_none hlen]
    refine judged_readBody (hc' (-1)) ?_ buf
    rw [hlen]
    rintro ⟨n, hn, -⟩
    cases hn
  · rw [getBodyLength_some hlen]
    cases hn : stol 10 (r.headers.subscript (str "Content-Length")).1 with
    | error e =>
        refine .thrown (convert_error hn) (fun hall => ?_) (by simp)
        obtain ⟨n, hok⟩ := hlength hall hlen
        rw [hn] at hok
        cases hok
    | ok n =>
        simp only [bind, Except.bind, Except.ok.injEq, exists_eq_left']
        by_cases hneg : n < 0
        · simp only [if_pos hneg, if_true]
          exact .corrupted (fun hch => by simp [hc'] at hch) hneg
        · simp only [if_neg hneg]
          exact judged_readBody (hc' n) hneg buf

/-- A header of which the code finds that it says chunked does say so. -/
theorem saysChunked_of_getD {h : Headers}
    (hte : h[str "Transfer-Encoding"]?.getD [] = str "chunked") : SaysChunked h := by
  cases hget : h[str "Transfer-Encoding"]? with
  | none =>
      rw [hget] at hte
      exact absurd hte (by decide)
  | some v =>
      rw [hget, Option.getD_some] at hte
      exact ⟨_, v, hget, rfl, by rw [hte]; rfl⟩

/-- **A body** is judged by its length, or by the numbers of its chunks. -/
theorem judged_parseBody (hst : r.status = .readingBody) (hb : ∃ b, r.bodyless = .ok b)
    (ht : r.Tidy) (buf : Str) :
    Judged (fun f => EntryNumber r.headers f ∨ BodyNumber r.headers buf f)
      (BodyRefused r.headers buf) (r.parseBody buf) := by
  have hsub : (r.headers.subscript (str "Transfer-Encoding")).1 =
      r.headers[str "Transfer-Encoding"]?.getD [] := rfl
  rw [parseBody]
  simp only [BodyRefused, hsub]
  by_cases hte : r.headers[str "Transfer-Encoding"]?.getD [] = str "chunked"
  · simp only [if_pos hte]
    refine (judged_readChunks (r := { r with
      headers := (r.headers.subscript (str "Transfer-Encoding")).2
      chunked := true, ntoread := -1 }) (show (-1 : ℤ) < 0 by decide) hb hst ?_ buf).mono
        (fun hall f hf => hall f (.inr ⟨saysChunked_of_getD hte, hf⟩)) Iff.rfl
    exact (getD_subscript r.headers _ _).trans hte
  · simp only [if_neg hte]
    have hc : r.chunked = false := by
      by_contra hch
      rcases ht (by simpa using hch) with h | h
      · rw [hst] at h
        cases h
      · exact hte h.2
    -- the first look-up leaves the length where it is
    have hvalue : ((r.headers.subscript (str "Transfer-Encoding")).2.subscript
        (str "Content-Length")).1 = r.headers[str "Content-Length"]?.getD [] :=
      getD_subscript r.headers _ _
    have hframed := judged_framedBody (fun f => EntryNumber r.headers f ∨ BodyNumber r.headers buf f)
      (r := { r with headers := (r.headers.subscript (str "Transfer-Encoding")).2 }) hc buf
    simp only [hvalue] at hframed
    exact hframed fun hall hlen => stol_of_entries (fun f hf => hall f (.inl hf)) hlen

/-! ## The header -/

/-- **A header and the body behind it** are judged by their numbers. -/
theorem judged_parseHeaders {body : Prop} (hbody : r.bodyless = .ok false ↔ body)
    (hst : r.status = .readingHeaders) (hb : ∃ b, r.bodyless = .ok b) (hc : r.chunked = false)
    (buf : Str) :
    Judged (fun f => EntryNumber r.headers f ∨ SectionNumber body r.headers buf f)
      (SectionRefused body r.headers buf) (r.parseHeaders buf) := by
  have ht : ∀ headers, Tidy { r with headers := headers } := fun _ hch => by simp [hc] at hch
  refine judged_parseHeadersWith .inl (fun fs hfs hend => ?_) ht fun fs rest ho => ?_
  · rintro (hbad | ⟨fs', rest, ho, -⟩)
    · simp [hfs] at hbad
    · have := ho.blank
      simp [hend] at this
  · obtain ⟨b, hb⟩ := hb
    have hb' : bodyless { r with headers := headersBehind r.headers fs } = .ok b := hb
    cases b with
    | true =>
        rw [finishHeaders_bodyless hb']
        refine .passed (by decide) (ht _) ?_
        rw [sectionRefused_iff ho, ← hbody, hb]
        exact fun h => nomatch h.1
    | false =>
        rw [finishHeaders_body hb' hst]
        have hyes : body := hbody.mp hb
        have hjudged := judged_parseBody (r := { r with
          headers := headersBehind r.headers fs, status := .readingBody }) rfl ⟨false, hb⟩
            (fun hch => by simp [hc] at hch) rest
        refine hjudged.mono (fun hall f hf => ?_) ?_
        · rcases hf with hf | hf
          · exact isNumber_behind ho.fields (fun f hf => hall f (.inl hf))
              (fun f hf => hall f (.inr (.inl hf))) f hf
          · exact hall f (.inr (.inr ⟨fs, rest, ho, hyes, hf⟩))
        · rw [sectionRefused_iff ho]
          exact (and_iff_right hyes).symm

/-! ## The first line -/

/-- The path in a request line has no escape that is cut off. -/
def EscapesWell (line : Str) : Prop :=
  ∀ method uri protocol, threeFields line = some (method, uri, protocol) →
    requestType method ≠ none → truncatedEscape (pathOf uri) = false

/-- A request line is read to its end exactly when no escape in it is cut off. -/
theorem parseRequestLine_returns_iff (r : Request) (line : Str) :
    (∃ res, r.parseRequestLine line = .ok res) ↔ EscapesWell line := by
  unfold parseRequestLine EscapesWell
  cases threeFields line with
  | none => simp
  | some parts =>
      obtain ⟨method, uri, protocol⟩ := parts
      simp only [Option.some.injEq, Prod.mk.injEq]
      cases htype : requestType method with
      | none =>
          refine ⟨?_, fun _ => ⟨_, rfl⟩⟩
          rintro - m u p ⟨rfl, rfl, rfl⟩ hne
          exact absurd htype hne
      | some type =>
          have hdecode := stringFromUtf8_isOk (pathOf uri)
          constructor
          · rintro ⟨res, h⟩ m u p ⟨rfl, rfl, rfl⟩ -
            obtain ⟨t, ht, -⟩ := bind_eq_ok.mp h
            exact hdecode.mp ⟨t, setTarget_uri { r with type := some type } uri ▸ ht⟩
          · intro h
            obtain ⟨t, ht⟩ := hdecode.mpr (h method uri protocol ⟨rfl, rfl, rfl⟩ (by simp [htype]))
            rw [← setTarget_uri { r with type := some type } uri] at ht
            simp only [decodeRequestLine, ht, bind, Except.bind]
            cases protocolVersion protocol <;> exact ⟨_, rfl⟩

/-- What a first line that leads on to the header leaves. -/
structure LeadsOn (r : Request) (line : Str) (r' : Request) : Prop where
  accepted : LineAccepted r.kind line
  not_refused : ¬LineRefused r.kind line
  headers : r'.headers = r.headers
  chunked : r'.chunked = r.chunked
  answered : ∃ b, r'.bodyless = .ok b
  body : r'.bodyless = .ok false ↔ LineBody r.kind line

/-- The method of a POST. -/
theorem requestType_eq_post {method : Str} : requestType method = some .post ↔ method = str "POST" := by
  unfold requestType
  constructor
  · intro h
    split at h
    · cases h
    · split at h
      · assumption
      · split at h <;> cases h
  · rintro rfl
    decide

/-- A first line is refused, it leads on, or it throws at a code that is no number. -/
inductive LineRead (r : Request) (line : Str) : Except Fault (ℤ × Request) → Prop
  | refused {r' : Request} (h : LineRefused r.kind line) (hc : r'.chunked = r.chunked) :
      LineRead r line (.ok (-1, r'))
  | leads {r' : Request} (h : r.LeadsOn line r') : LineRead r line (.ok (0, r'))
  | threw {e : Fault} (he : e ≠ .undefined) (hno : ¬LineRefused r.kind line)
      (hacc : ¬LineAccepted r.kind line) {f : NumericField} (hf : LineNumber r.kind line f)
      (hnum : ¬f.IsNumber) : LineRead r line (.error e)

/-- Setting the target leaves everything but the target as it is. -/
theorem setTarget_fields (r : Request) (target : Str) :
    ∃ uri query, r.setTarget target = { r with uri := uri, query := query } := by
  unfold setTarget
  split
  · exact ⟨_, _, rfl⟩
  · exact ⟨target, r.query, rfl⟩

/-- A request line is refused or leads on, once no escape in it is cut off. -/
theorem parseRequestLine_read (hkind : r.kind = .request) {line : Str} (hesc : EscapesWell line) :
    LineRead r line (r.parseRequestLine line) := by
  unfold parseRequestLine
  cases hline : threeFields line with
  | none => exact .refused (.inl hline) rfl
  | some parts =>
      obtain ⟨method, uri, protocol⟩ := parts
      simp only
      cases htype : requestType method with
      | none =>
          refine .refused (.inr ⟨method, uri, protocol, hline, ?_⟩) rfl
          rw [hkind]
          exact .inl htype
      | some type =>
          obtain ⟨path, hpath⟩ := (stringFromUtf8_isOk (pathOf uri)).mpr
            (hesc method uri protocol hline (by simp [htype]))
          rw [← setTarget_uri { r with type := some type } uri] at hpath
          obtain ⟨u, q, hset⟩ := setTarget_fields { r with type := some type } uri
          simp only
          rw [decodeRequestLine, hpath, hset]
          simp only [bind, Except.bind]
          cases hversion : protocolVersion protocol with
          | none =>
              refine .refused (.inr ⟨method, uri, protocol, hline, ?_⟩) rfl
              rw [hkind]
              exact .inr hversion
          | some version =>
              refine .leads ⟨⟨method, uri, protocol, hline, ?_⟩, ?_, rfl, rfl, ?_, ?_⟩
              · rw [hkind]
                exact ⟨by simp [htype], by simp [hversion]⟩
              · rw [hkind]
                rintro (hnone | ⟨a, b, c, habc, hbad⟩)
                · simp [hline] at hnone
                · obtain ⟨rfl, rfl, rfl⟩ : method = a ∧ uri = b ∧ protocol = c := by
                    simpa [hline] using habc
                  simp [htype, hversion] at hbad
              · exact ⟨decide (type ≠ .post), by simp only [bodyless, hkind]⟩
              · simp only [bodyless, hkind, LineBody, hline, Except.ok.injEq, decide_eq_false_iff_not,
                  not_not]
                constructor
                · rintro rfl
                  exact ⟨uri, protocol, by rw [requestType_eq_post.mp htype]⟩
                · rintro ⟨u', p', heq⟩
                  simp only [Option.some.injEq, Prod.mk.injEq] at heq
                  rw [heq.1, requestType_eq_post.mpr rfl] at htype
                  exact (Option.some.inj htype).symm

/-- A status line is refused, leads on, or throws at its code. -/
theorem parseResponseLine_read (hkind : r.kind = .response) (line : Str) :
    LineRead r line (r.parseResponseLine line) := by
  unfold parseResponseLine
  cases hline : threeFields line with
  | none => exact .refused (.inl hline) rfl
  | some parts =>
      obtain ⟨protocol, code, reason⟩ := parts
      simp only
      cases hversion : protocolVersion protocol with
      | none =>
          refine .refused (.inr ⟨protocol, code, reason, hline, ?_⟩) rfl
          rw [hkind]
          exact hversion
      | some version =>
          have hno : ¬LineRefused r.kind line := by
            rw [hkind]
            rintro (hnone | ⟨a, b, c, habc, hbad⟩)
            · simp [hline] at hnone
            · obtain ⟨rfl, rfl, rfl⟩ : protocol = a ∧ code = b ∧ reason = c := by
                simpa [hline] using habc
              simp [hversion] at hbad
          cases hcode : stoi code with
          | error e =>
              refine .threw (convert_error hcode) hno ?_ (f := ⟨.responseCode, code⟩)
                ⟨hkind, _, _, _, hline, rfl⟩ ?_
              · rw [hkind]
                rintro ⟨a, b, c, habc, -, n, hn⟩
                obtain ⟨rfl, rfl, rfl⟩ : protocol = a ∧ code = b ∧ reason = c := by
                  simpa [hline] using habc
                rw [hcode] at hn
                cases hn
              · intro hnum
                obtain ⟨n, hn, -⟩ := hnum.converted
                have : stoi code = .ok n := hn
                rw [hcode] at this
                cases this
          | ok n =>
              refine .leads ⟨⟨protocol, code, reason, hline, ?_⟩, hno, rfl, rfl, ?_, ?_⟩
              · rw [hkind]
                exact ⟨by simp [hversion], n, hcode⟩
              · simp [bodyless, hkind]
              · simp only [bodyless, hkind, LineBody, hline, Except.ok.injEq, decide_eq_false_iff_not]
                constructor
                · exact fun h => ⟨protocol, code, reason, n, rfl, hcode, h⟩
                · rintro ⟨a, b, c, m, habc, hm, h⟩
                  simp only [Option.some.injEq, Prod.mk.injEq] at habc
                  obtain ⟨rfl, rfl, rfl⟩ := habc
                  rw [hcode] at hm
                  rwa [Except.ok.inj hm]

/-- A first line of either kind. -/
theorem parseLine_read {line : Str} (hesc : r.kind = .request → EscapesWell line) :
    LineRead r line (r.parseLine line) := by
  rw [parseLine]
  cases hkind : r.kind with
  | request => exact parseRequestLine_read hkind (hesc hkind)
  | response => exact parseResponseLine_read hkind line

/-- **A first line and what follows it** are judged by their numbers. -/
theorem judged_parseFirstline (hst : r.status = .readingFirstline) (hc : r.chunked = false)
    (hesc : r.kind = .request → EscapesWell (popLine buf).1) :
    Judged (r.HasNumber buf) (r.Refused buf) (r.parseFirstline buf) := by
  have ht : r.Tidy := fun hch => by simp [hc] at hch
  unfold HasNumber Refused
  simp only [hst]
  rw [parseFirstline]
  by_cases hbuf : buf = []
  · subst hbuf
    rw [if_pos rfl]
    exact .passed (by decide) ht fun h => h.1 rfl
  · rw [if_neg hbuf]
    obtain ⟨line, rest, hpop⟩ : ∃ line rest, popLine buf = (line, rest) := ⟨_, _, rfl⟩
    rw [hpop] at hesc ⊢
    simp only at hesc ⊢
    cases line with
    | nil => exact .passed (by decide) ht fun h => h.1 rfl
    | cons c line =>
        have hne : c :: line ≠ [] := by simp
        have hread := parseLine_read hesc
        simp only
        generalize r.parseLine (c :: line) = read at hread ⊢
        cases hread with
        | refused h hc' =>
            simp only [bind, Except.bind, if_true]
            exact .corrupted (fun hch => by simp [hc', hc] at hch) ⟨hne, .inl h⟩
        | threw he hno hacc hf hnum =>
            refine .thrown he (fun hall => hnum (hall _ (.inr ⟨hne, .inl hf⟩))) ?_
            rintro ⟨-, h | h⟩
            · exact hno h
            · exact hacc h.1
        | @leads r' h =>
            simp only [bind, Except.bind]
            rw [if_neg (by decide)]
            have hjudged := judged_parseHeaders (r := { r' with status := .readingHeaders }) h.body
              rfl h.answered (h.chunked.trans hc) rest
            refine hjudged.mono (fun hall f hf => hall f ?_) ?_
            · rcases hf with hf | hf
              · exact .inl (h.headers ▸ hf)
              · exact .inr ⟨hne, .inr (h.headers ▸ hf)⟩
            · simp only [ne_eq, hne, not_false_eq_true, true_and, h.not_refused, false_or, h.accepted]
              rw [← h.headers]

/-! ## The call -/

/-- **A call of the parser is judged by the numbers of the message**, once no escape in it is cut
off. -/
theorem judged_parse (hr : r.Ready) (ht : r.Tidy)
    (hesc : r.status = .readingFirstline → r.kind = .request → EscapesWell (popLine buf).1) :
    Judged (r.HasNumber buf) (r.Refused buf) (r.parse buf) := by
  have hc : r.status ≠ .readingBody → r.status ≠ .readingTrailer → r.chunked = false := by
    intro hbody htrailer
    by_contra hch
    rcases ht (by simpa using hch) with h | h
    · exact htrailer h
    · exact hbody h.1
  rw [parse]
  cases hst : r.status with
  | readingFirstline =>
      exact judged_parseFirstline hst (hc (by simp [hst]) (by simp [hst])) (hesc hst)
  | readingHeaders =>
      unfold HasNumber Refused
      simp only [hst]
      exact judged_parseHeaders Iff.rfl hst (hr.resolve_left (by simp [hst]))
        (hc (by simp [hst]) (by simp [hst])) buf
  | readingBody =>
      unfold HasNumber Refused
      simp only [hst]
      exact judged_parseBody hst (hr.resolve_left (by simp [hst])) ht buf
  | readingTrailer =>
      unfold HasNumber Refused
      simp only [hst]
      exact judged_parseTrailer hst (hr.resolve_left (by simp [hst])) buf

/-- A call that returns has met no escape that is cut off. -/
theorem escapesWell_of_parse {buf : Str} {p : Parsed} (h : r.parse buf = .ok p)
    (hst : r.status = .readingFirstline) (hkind : r.kind = .request) :
    EscapesWell (popLine buf).1 := by
  have hnil : EscapesWell [] := fun _ _ _ h => by simp [threeFields, find] at h
  rw [parse, hst] at h
  simp only [parseFirstline] at h
  split at h
  · next hbuf => rw [hbuf]; exact hnil
  · generalize popLine buf = res at h ⊢
    obtain ⟨line, rest⟩ := res
    cases line with
    | nil => exact hnil
    | cons c line =>
        obtain ⟨res, hline, -⟩ := bind_eq_ok.mp h
        rw [parseLine, hkind] at hline
        exact (parseRequestLine_returns_iff r (c :: line)).mp ⟨res, hline⟩

/-- Where a request line is not read to its end, its path is read beyond it. -/
theorem parseRequestLine_error {line : Str} {e : Fault} (h : r.parseRequestLine line = .error e) :
    e = .undefined := by
  unfold parseRequestLine at h
  split at h
  · cases h
  · split at h
    · cases h
    · next type _ =>
        unfold decodeRequestLine at h
        cases hdecode : stringFromUtf8 (setTarget { r with type := some type } _).uri with
        | error e' =>
            rw [hdecode] at h
            obtain rfl := Except.error.inj h
            exact stringFromUtf8_error hdecode
        | ok path =>
            rw [hdecode] at h
            simp only [bind, Except.bind] at h
            split at h <;> cases h

/-- **A call is defined** exactly when no escape in a request line is cut off. -/
theorem parse_defined_iff (hr : r.Ready) (ht : r.Tidy) (buf : Str) :
    r.parse buf ≠ .error .undefined ↔
      (r.status = .readingFirstline → r.kind = .request → EscapesWell (popLine buf).1) := by
  refine ⟨fun hdef hst hkind => ?_, fun hesc => (judged_parse hr ht hesc).defined⟩
  cases hparse : r.parse buf with
  | ok p => exact escapesWell_of_parse hparse hst hkind
  | error e =>
      refine (parseRequestLine_returns_iff r _).mp ?_
      cases hline : r.parseRequestLine (popLine buf).1 with
      | ok res => exact ⟨res, rfl⟩
      | error e' =>
          obtain rfl := parseRequestLine_error hline
          refine absurd ?_ hdef
          have hbuf : buf ≠ [] := by
            rintro rfl
            rw [parse, hst] at hparse
            cases hparse
          obtain ⟨line, rest, hpop⟩ : ∃ line rest, popLine buf = (line, rest) := ⟨_, _, rfl⟩
          rw [hpop] at hline
          rw [parse, hst]
          simp only
          rw [parseFirstline, if_neg hbuf, hpop]
          cases line with
          | nil => simp [parseRequestLine, threeFields, find] at hline
          | cons c line =>
              simp only [parseLine, hkind, hline]
              rfl

/-! ## Every reachable state of the parser -/

/-- The states of a parser of one kind: a fresh one, and what a call leaves of one. -/
inductive Reached (kind : RequestKind) : Request → Prop
  | start : Reached kind { kind := kind }
  | parse {r r' : Request} {buf rest : Str} {status : ParseStatus} :
      Reached kind r → r.parse buf = .ok (status, r', rest) → Reached kind r'

/-- Every parser that is reached has the invariant of the parser. -/
theorem Reached.ready {kind : RequestKind} (h : Reached kind r) : r.Ready := by
  induction h with
  | start => exact .inl rfl
  | parse _ hparse ih => exact (parse_frame ih hparse).2.1

/-- Calls of the parser keep the kind. -/
theorem Reached.kind_eq {kind : RequestKind} (h : Reached kind r) : r.kind = kind := by
  induction h with
  | start => rfl
  | parse hr hparse ih => exact (parse_frame hr.ready hparse).1.trans ih

/-- In every parser that is reached a chunked body is in its place. -/
theorem Reached.tidy {kind : RequestKind} (h : Reached kind r) : r.Tidy := by
  induction h with
  | start => exact fun h => nomatch h
  | parse hr hparse ih => exact (judged_parse hr.ready ih (escapesWell_of_parse hparse)).tidy _ hparse

end Request

end Libio
