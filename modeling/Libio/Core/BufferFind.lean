import Libio.Core.BufferGrowth
import Libio.Foundation.Loops

/-! # Searching a buffer

`find` of `core/buffer.hh`. Its loop stops where no more bytes remain than the pattern has, so it
misses some occurrences at the very end; and it compares the pattern with the cells behind a
candidate, whether they belong to the contents or not. `find_spec_iff` says for which contents and
patterns neither matters, whatever the storage behind the contents holds. -/

namespace Libio

/-- `std::memchr(p, c, n)`. -/
def memchr (m : List UInt8) (p : ℤ) (c : UInt8) (n : ℤ) : Option (Option ℤ) :=
  (load m p n).map fun data => (data.findIdx? (· == c)).map fun i : ℕ => p + i

/-- `memcmp` of the cells up to the end of the block with a text: whether they are equal, by
comparing up to the first difference. -/
def compareCells : List UInt8 → Str → Option Bool
  | _, [] => some true
  | [], _ :: _ => none
  | a :: cells, c :: what => if a = c then compareCells cells what else some false

/-- `std::memcmp(p, what, length) == 0`. -/
def memcmpEq (m : List UInt8) (p : ℤ) (what : Str) : Option Bool :=
  if 0 ≤ p then compareCells (m.drop p.toNat) what else none

/-- The position of the first occurrence of a text. -/
def firstOccurrence (q what : Str) : Option ℕ :=
  (List.range q.length).find? fun p => what.isPrefixOf (q.drop p)

namespace Buffer

/-- One round of the loop of `find`, on `search` and `remain`. The result is the pointer returned, or
`nullptr`, if nothing is read outside the block. -/
def findRound (b : Buffer) (what : Str) : Loop (ℤ × ℤ) (Option (Option ℤ))
  | (search, remain) =>
      if remain > what.length then
        match memchr b.block search (what.headD 0) remain with
        | none => .done none
        | some none => .done (some none)
        | some (some p) =>
            match memcmpEq b.block p what with
            | none => .done none
            | some true => .done (some (some p))
            | some false => .next (p + 1, b.off - (p + 1 - b.buf))
      else .done (some none)

/-- `find(what, length)` for a pattern of `length` bytes, and `find(s)`. Each round that goes on
leaves fewer bytes, see `find_eq_of_ends`. -/
def find (b : Buffer) (what : Str) : Option (Option ℤ) :=
  ((b.findRound what).run (b.off.toNat + 1) (b.buf, b.off)).join

end Buffer

/-! ## Occurrences -/

section Occurrences

variable {q what : Str} {p : ℕ}

/-- An occurrence lies within the text. -/
theorem length_of_occurs (h : what <+: q.drop p) (hne : what ≠ []) : p + what.length ≤ q.length := by
  have hle := h.length_le
  have hpos := List.length_pos_iff.mpr hne
  rw [List.length_drop] at hle
  omega

/-- An occurrence starts with the first byte of the pattern. -/
theorem head_of_occurs (h : what <+: q.drop p) (hne : what ≠ []) : q[p]? = some (what.headD 0) := by
  obtain ⟨c, what, rfl⟩ := List.exists_cons_of_ne_nil hne
  obtain ⟨t, ht⟩ := h
  rw [← List.head?_drop, ← ht]
  rfl

/-- The first place where the text occurs is the first occurrence. -/
theorem firstOccurrence_eq_some (hne : what ≠ []) (h : what <+: q.drop p)
    (hmin : ∀ j < p, ¬what <+: q.drop j) : firstOccurrence q what = some p := by
  have hp := length_of_occurs h hne
  have hpos := List.length_pos_iff.mpr hne
  rw [firstOccurrence, List.find?_range_eq_some]
  refine ⟨by simpa using h, by simp; omega, fun j hj => ?_⟩
  simpa [← Bool.not_eq_true] using hmin j hj

/-- A text that occurs nowhere has no first occurrence. -/
theorem firstOccurrence_eq_none (h : ∀ p, ¬what <+: q.drop p) : firstOccurrence q what = none := by
  rw [firstOccurrence, List.find?_eq_none]
  intro p _
  simpa using h p

end Occurrences

/-! ## Comparing with what lies behind the contents -/

/-- `memcmp` on a text that is long enough. -/
theorem compareCells_append {q t what : Str} (h : what.length ≤ q.length) :
    compareCells (q ++ t) what = some (decide (what <+: q)) := by
  induction what generalizing q with
  | nil => simp [compareCells]
  | cons c what ih =>
      cases q with
      | nil => simp at h
      | cons a q =>
          simp only [List.length_cons, Nat.add_le_add_iff_right] at h
          rw [List.cons_append, compareCells]
          by_cases hac : a = c
          · simp [hac, ih h, List.cons_prefix_cons]
          · simp [hac, List.cons_prefix_cons, Ne.symm hac]

/-- A difference within the contents decides. -/
theorem compareCells_differ {q t what : Str} (h : ¬q <+: what) (h' : ¬what <+: q) :
    compareCells (q ++ t) what = some false := by
  induction what generalizing q with
  | nil => exact absurd List.nil_prefix h'
  | cons c what ih =>
      cases q with
      | nil => exact absurd List.nil_prefix h
      | cons a q =>
          rw [List.cons_append, compareCells]
          by_cases hac : a = c
          · subst hac
            simp only [List.cons_prefix_cons, true_and] at h h'
            rw [if_pos rfl, ih h h']
          · rw [if_neg hac]

/-- Where the block ends with a proper beginning of the pattern, the comparison leaves the block. -/
theorem compareCells_eq_none {q what : Str} (h : q <+: what) (hlt : q.length < what.length) :
    compareCells q what = none := by
  induction what generalizing q with
  | nil => simp at hlt
  | cons c what ih =>
      cases q with
      | nil => rfl
      | cons a q =>
          obtain ⟨rfl, hq⟩ := List.cons_prefix_cons.mp h
          simp only [List.length_cons, Nat.add_lt_add_iff_right] at hlt
          rw [compareCells, if_pos rfl, ih hq hlt]

namespace Buffer

variable {b : Buffer} {q rest what : Str} {s : ℕ}

/-- The cells from `buf_` on: the contents, and the stale bytes behind them. -/
def stale (b : Buffer) : List UInt8 := b.block.drop (b.buf.toNat + b.off.toNat)

/-- The block from a place in the content on: the rest of it, and stale bytes. -/
theorem drop_block (h : Grown b) {p : ℕ} (hp : p ≤ b.content.length) :
    b.block.drop (b.buf + p).toNat = b.content.drop p ++ b.stale := by
  have hbuf : 0 ≤ b.buf := h.buf_eq ▸ h.misalign_nonneg
  have hsplit : b.block.drop b.buf.toNat = b.content ++ b.stale := by
    rw [stale, ← List.drop_drop, content, window, List.take_append_drop]
  rw [show (b.buf + p).toNat = b.buf.toNat + p by omega, ← List.drop_drop, hsplit,
    List.drop_append_of_le_length hp]

/-- **One round**, in terms of the contents. -/
theorem findRound_eq (h : Grown b) (what : Str) (hs : s ≤ b.content.length) :
    b.findRound what (b.buf + s, b.off - s) =
      if what.length < b.content.length - s then
        match (b.content.drop s).findIdx? (· == what.headD 0) with
        | none => .done (some none)
        | some i =>
            match compareCells (b.content.drop (s + i) ++ b.stale) what with
            | none => .done none
            | some true => .done (some (some (b.buf + (s + i : ℕ))))
            | some false => .next (b.buf + (s + i + 1 : ℕ), b.off - (s + i + 1 : ℕ))
      else .done (some none) := by
  have hoff := h.rep.off_eq
  have hbuf : 0 ≤ b.buf := h.buf_eq ▸ h.misalign_nonneg
  have hfits := h.fits
  have hlen := h.block_length
  have hbm := h.buf_eq
  have hload : load b.block (b.buf + s) (b.off - s) = some (b.content.drop s) := by
    rw [load, if_pos (by omega), window, drop_block h hs, List.take_append_of_le_length (by simp; omega),
      List.take_of_length_le (by simp; omega)]
  unfold findRound
  by_cases hlt : what.length < b.content.length - s
  · have hgt : b.off - s > what.length := by omega
    simp only [if_pos hlt, if_pos hgt, memchr, hload]
    cases hi : (b.content.drop s).findIdx? (· == what.headD 0) with
    | none => simp only [Option.map_some, hi, Option.map_none]
    | some i =>
        have hilt : s + i < b.content.length := by
          have := List.findIdx?_eq_some_iff_findIdx_eq.mp hi
          have := this.1
          simp only [List.length_drop] at this
          omega
        have hcmp : memcmpEq b.block (b.buf + s + i) what =
            compareCells (b.content.drop (s + i) ++ b.stale) what := by
          rw [memcmpEq, if_pos (by omega), ← drop_block h hilt.le]
          push_cast
          rw [add_assoc]
        simp only [Option.map_some, hi, hcmp]
        cases compareCells (b.content.drop (s + i) ++ b.stale) what with
        | none => rfl
        | some found =>
            cases found with
            | true => simp; omega
            | false => simp; omega
  · have hle : ¬b.off - s > what.length := by omega
    simp only [if_neg hlt, if_neg hle]

/-- **`find` returns what its loop ends with**: each round that goes on leaves fewer bytes. -/
theorem find_eq_of_ends (h : Grown b) {r : Option (Option ℤ)} {n : ℕ}
    (he : (b.findRound what).Ends (b.buf, b.off) n r) : b.find what = r := by
  have hoff := h.rep.off_eq
  obtain ⟨m, r', hm, hle⟩ := Loop.ends_of_measure (f := b.findRound what)
    (I := fun x => ∃ s ≤ b.content.length, x = (b.buf + (s : ℤ), b.off - (s : ℤ)))
    (μ := fun x => x.2.toNat) (s := (b.buf, b.off)) (by
      rintro x y ⟨s, hs, rfl⟩ hnext
      rw [findRound_eq h what hs] at hnext
      split at hnext
      · split at hnext
        · cases hnext
        · next i hi =>
            have hilt := (List.findIdx?_eq_some_iff_findIdx_eq.mp hi).1
            simp only [List.length_drop] at hilt
            split at hnext
            · cases hnext
            · cases hnext
            · obtain rfl := Round.next.inj hnext
              exact ⟨⟨s + i + 1, by omega, rfl⟩, by simp only; omega⟩
      · cases hnext) ⟨0, Nat.zero_le _, by simp⟩
  obtain rfl := hm.unique he
  have hrun : (b.findRound what).run (b.off.toNat + 1) (b.buf, b.off) = some r' :=
    Loop.run_eq_some.mpr ⟨m, by simp only at hle; omega, hm⟩
  rw [find, hrun, Option.join_some]

/-! ## Where the search goes wrong -/

/-- The pattern occurs only at the very end of the text, and the search stops in front of it: there
is no byte in front of it, or the search has just taken that byte for a candidate. -/
def MissesEnd (q what : Str) : Prop :=
  what <:+ q ∧ (∀ p, what <+: q.drop p → p + what.length = q.length) ∧
    (q.length = what.length ∨ q[q.length - what.length - 1]? = what.head?)

/-- The text ends with a proper beginning of the pattern that the search takes for a candidate, and
is compared with what lies behind the text. -/
def ReadsOn (q what : Str) : Prop :=
  (∀ p, ¬what <+: q.drop p) ∧ what.length < q.length ∧
    ∃ p, p < q.length ∧ q.length < p + what.length ∧ q.drop p <+: what ∧
      ∀ j < p, q.length ≤ j + what.length + 1 → q[j]? ≠ what.head?

/-- A candidate is the next byte that is the first one of the pattern. -/
theorem candidate_spec {i : ℕ} (hne : what ≠ [])
    (hi : (q.drop s).findIdx? (· == what.headD 0) = some i) :
    s + i < q.length ∧ q[s + i]? = what.head? ∧ ∀ j, s ≤ j → j < s + i → q[j]? ≠ what.head? := by
  obtain ⟨c, what, rfl⟩ := List.exists_cons_of_ne_nil hne
  rw [List.findIdx?_eq_some_iff_getElem] at hi
  obtain ⟨hlt, hc, hmin⟩ := hi
  rw [List.length_drop] at hlt
  simp only [List.headD_cons, List.getElem_drop, beq_iff_eq] at hc hmin
  refine ⟨by omega, ?_, fun j hsj hj hcon => ?_⟩
  · rw [List.getElem?_eq_getElem (by omega), hc]
    rfl
  · have hjlt : j < q.length := by omega
    rw [List.getElem?_eq_getElem hjlt] at hcon
    have := hmin (j - s) (by omega)
    simp only [show s + (j - s) = j by omega] at this
    exact this (Option.some.inj hcon)

/-- Without a candidate there is no occurrence. -/
theorem not_occurs_of_noCandidate (hne : what ≠ [])
    (hi : (q.drop s).findIdx? (· == what.headD 0) = none) {p : ℕ} (hp : s ≤ p) :
    ¬what <+: q.drop p := by
  intro hocc
  have hhead := head_of_occurs hocc hne
  rw [List.findIdx?_eq_none_iff] at hi
  have hmem : what.headD 0 ∈ q.drop s := by
    rw [List.mem_iff_getElem?]
    exact ⟨p - s, by rw [List.getElem?_drop, show s + (p - s) = p by omega]; exact hhead⟩
  simpa using hi _ hmem

/-- The comparison at a candidate: within the contents it decides, at the end of the contents it
does so unless the rest is a beginning of the pattern. -/
theorem compareCells_candidate (t : List UInt8) {p : ℕ}
    (hp : p + what.length ≤ q.length ∨ ¬q.drop p <+: what) :
    compareCells (q.drop p ++ t) what = some (decide (what <+: q.drop p)) := by
  by_cases hlen : what.length ≤ (q.drop p).length
  · exact compareCells_append hlen
  · rw [List.length_drop] at hlen
    have hocc : ¬what <+: q.drop p := fun hocc => by
      have := hocc.length_le
      rw [List.length_drop] at this
      omega
    rw [compareCells_differ (hp.resolve_left (by omega)) hocc, decide_eq_false hocc]

/-- **The search is right** where neither of the two can happen. -/
theorem findRound_right (h : Grown b) (hne : what ≠ []) (hm : ¬MissesEnd b.content what)
    (hr : ¬ReadsOn b.content what) (hs : s ≤ b.content.length)
    (hearlier : ∀ p < s, ¬what <+: b.content.drop p)
    (hprev : s = 0 ∨ b.content[s - 1]? = what.head?) :
    ∃ n, (b.findRound what).Ends (b.buf + s, b.off - s) n
      (some ((firstOccurrence b.content what).map fun p : ℕ => b.buf + p)) := by
  have hpos := List.length_pos_iff.mpr hne
  -- on the bytes that remain; nothing occurs in front of `s`, and a candidate lies just before it
  induction hk : b.content.length - s using Nat.strong_induction_on generalizing s with
  | _ k ih =>
    have hround := findRound_eq h what hs
    by_cases hlt : what.length < b.content.length - s
    · rw [if_pos hlt] at hround
      cases hi : (b.content.drop s).findIdx? (· == what.headD 0) with
      | none =>
          simp only [hi] at hround
          have hnone : ∀ p, ¬what <+: b.content.drop p := fun p hocc => by
            rcases lt_or_ge p s with hp | hp
            · exact hearlier p hp hocc
            · exact not_occurs_of_noCandidate hne hi hp hocc
          exact ⟨0, by rw [firstOccurrence_eq_none hnone]; exact .done hround⟩
      | some i =>
          simp only [hi] at hround
          obtain ⟨hilt, hcand, hbetween⟩ := candidate_spec hne hi
          -- nothing occurs in front of the candidate
          have hbefore : ∀ p < s + i, ¬what <+: b.content.drop p := fun p hp hocc => by
            rcases lt_or_ge p s with hps | hps
            · exact hearlier p hps hocc
            · refine hbetween p hps hp ((head_of_occurs hocc hne).trans ?_)
              obtain ⟨c, w, rfl⟩ := List.exists_cons_of_ne_nil hne
              rfl
          have hwhole : s + i + what.length ≤ b.content.length ∨ ¬b.content.drop (s + i) <+: what := by
            by_contra hcon
            push Not at hcon
            refine hr ⟨fun p hocc => ?_, by omega, s + i, hilt, hcon.1, hcon.2, fun j hj hjn =>
              hbetween j (by omega) hj⟩
            have := length_of_occurs hocc hne
            exact hbefore p (by omega) hocc
          have hcmp := compareCells_candidate b.stale hwhole
          rw [hcmp] at hround
          by_cases hocc : what <+: b.content.drop (s + i)
          · simp only [decide_eq_true hocc] at hround
            refine ⟨0, ?_⟩
            rw [firstOccurrence_eq_some hne hocc hbefore]
            exact .done hround
          · simp only [decide_eq_false hocc] at hround
            obtain ⟨n, hn⟩ := ih (b.content.length - (s + i + 1)) (by omega) (by omega)
              (fun p hp => by
                rcases Nat.lt_succ_iff_lt_or_eq.mp hp with hp | rfl
                · exact hbefore p hp
                · exact hocc) (.inr hcand) rfl
            exact ⟨n + 1, hn.next hround⟩
    · rw [if_neg hlt] at hround
      have hnone : ∀ p, ¬what <+: b.content.drop p := fun p hocc => by
        have hp := length_of_occurs hocc hne
        have hps : s ≤ p := not_lt.mp fun hps => hearlier p hps hocc
        -- the only place left is the end of the contents
        obtain rfl : p = s := by omega
        refine hm ⟨?_, fun j hj => ?_, ?_⟩
        · have := hocc.eq_of_length (by simp; omega)
          exact this ▸ List.drop_suffix _ _
        · have := length_of_occurs hj hne
          have : p ≤ j := not_lt.mp fun hjp => hearlier j hjp hj
          omega
        · rcases hprev with rfl | hprev
          · exact .inl (by omega)
          · exact .inr (by rwa [show b.content.length - what.length - 1 = p - 1 by omega])
      exact ⟨0, by rw [firstOccurrence_eq_none hnone]; exact .done hround⟩

/-- **The first defect**: the occurrence at the end is missed. -/
theorem findRound_missesEnd (h : Grown b) (hne : what ≠ []) (hm : MissesEnd b.content what)
    (hs : s + what.length ≤ b.content.length) :
    ∃ n, (b.findRound what).Ends (b.buf + s, b.off - s) n (some none) := by
  obtain ⟨-, honly, hfront⟩ := hm
  induction hk : b.content.length - s using Nat.strong_induction_on generalizing s with
  | _ k ih =>
    have hround := findRound_eq h what (show s ≤ b.content.length by omega)
    by_cases hlt : what.length < b.content.length - s
    · rw [if_pos hlt] at hround
      cases hi : (b.content.drop s).findIdx? (· == what.headD 0) with
      | none =>
          simp only [hi] at hround
          exact ⟨0, .done hround⟩
      | some i =>
          simp only [hi] at hround
          obtain ⟨hilt, hcand, hbetween⟩ := candidate_spec hne hi
          -- the candidate does not lie behind the byte in front of the occurrence
          have hle : s + i + what.length < b.content.length := by
            by_contra hge
            refine hbetween (b.content.length - what.length - 1) (by omega) (by omega) ?_
            exact hfront.resolve_left (by omega)
          have hocc : ¬what <+: b.content.drop (s + i) := fun hocc => by
            have := honly _ hocc
            omega
          rw [compareCells_candidate b.stale (.inl hle.le), decide_eq_false hocc] at hround
          obtain ⟨n, hn⟩ := ih (b.content.length - (s + i + 1)) (by omega) (by omega) rfl
          exact ⟨n + 1, hn.next hround⟩
    · rw [if_neg hlt] at hround
      exact ⟨0, .done hround⟩

/-- **The second defect**: where the storage ends with the contents, the comparison leaves it. -/
theorem findRound_readsOn (h : Grown b) (hne : what ≠ []) (hr : ReadsOn b.content what)
    (hstale : b.stale = []) (hs : s + what.length < b.content.length) :
    ∃ n, (b.findRound what).Ends (b.buf + s, b.off - s) n none := by
  obtain ⟨hnone, -, p, hp, hpast, hrest, hfirst⟩ := hr
  induction hk : b.content.length - s using Nat.strong_induction_on generalizing s with
  | _ k ih =>
    have hround := findRound_eq h what (show s ≤ b.content.length by omega)
    rw [if_pos (by omega)] at hround
    have hhead : b.content[p]? = what.head? := by
      obtain ⟨t, ht⟩ := hrest
      rw [← ht, ← List.head?_drop]
      have hne' : b.content.drop p ≠ [] := by simpa using hp
      rw [List.head?_append_of_ne_nil _ hne']
    cases hi : (b.content.drop s).findIdx? (· == what.headD 0) with
    | none =>
        -- there is the candidate `p`
        rw [List.findIdx?_eq_none_iff] at hi
        obtain ⟨c, w, rfl⟩ := List.exists_cons_of_ne_nil hne
        have hmem : c ∈ b.content.drop s := by
          rw [List.mem_iff_getElem?]
          exact ⟨p - s, by rw [List.getElem?_drop, show s + (p - s) = p by omega]; exact hhead⟩
        simpa using hi _ hmem
    | some i =>
        simp only [hi] at hround
        obtain ⟨hilt, hcand, hbetween⟩ := candidate_spec hne hi
        have hle : s + i ≤ p := by
          by_contra hgt
          exact hbetween p (by omega) (by omega) hhead
        rcases Nat.lt_or_ge (s + i + what.length + 1) b.content.length with hin | hend
        · rw [compareCells_candidate b.stale (.inl (by omega)),
            decide_eq_false (hnone (s + i))] at hround
          obtain ⟨n, hn⟩ := ih (b.content.length - (s + i + 1)) (by omega) (by omega) rfl
          exact ⟨n + 1, hn.next hround⟩
        · -- among the last bytes `p` is the first candidate
          obtain rfl : s + i = p := by
            by_contra hne'
            exact hfirst (s + i) (by omega) (by omega) hcand
          have hcmp := compareCells_eq_none hrest (by rw [List.length_drop]; omega)
          rw [hstale, List.append_nil, hcmp] at hround
          exact ⟨0, .done hround⟩

/-! ## The exact condition -/

/-- Where a part of the contents is drained, they end where they did. -/
theorem drain_end {b' : Buffer} {length : ℤ} (h : b.drain length = some b') (hlt : length < b.off) :
    b'.misalign + b'.off = b.misalign + b.off := by
  rw [drain, if_neg (by omega)] at h
  obtain ⟨block, rfl⟩ := terminate_eq h
  simp only
  omega

/-- A `pop` that leaves something does not move the end of the content. -/
theorem pop_end {b' : Buffer} {length res : ℤ} {data : Str}
    (h : b.pop length = some (res, data, b')) (hlt : length < b.off) :
    b'.misalign + b'.off = b.misalign + b.off := by
  obtain ⟨d, -, h⟩ := Option.bind_eq_some_iff.mp h
  obtain ⟨b₁, hb₁, h⟩ := Option.bind_eq_some_iff.mp h
  obtain ⟨b₂, hb₂, h⟩ := Option.bind_eq_some_iff.mp h
  obtain rfl : b₂ = b' := (Prod.mk.inj (Prod.mk.inj (Option.some.inj h)).2).2
  obtain ⟨block, rfl⟩ := terminate_eq hb₂
  rw [if_neg (by omega), drainPositive] at hb₁
  split at hb₁
  · have hsum := drain_end hb₁ hlt
    exact hsum
  · obtain rfl := Option.some.inj hb₁
    rfl

/-- Any contents can lie at the very end of the storage. -/
theorem Reached.exists_full (h : Reached b) (hne : b.content ≠ []) :
    ∃ b', Reached b' ∧ b'.content = b.content ∧ b'.stale = [] := by
  have hg := h.grown
  have hoff := hg.rep.off_eq
  have hfits := hg.fits
  have hmis := hg.misalign_nonneg
  have htot := hg.totallen_le
  have hpos := List.length_pos_iff.mpr hne
  obtain ⟨k, hk⟩ : ∃ k : ℕ, (k : ℤ) + b.content.length = b.totallen :=
    ⟨(b.totallen - b.content.length).toNat, by omega⟩
  -- clear the buffer, fill it up with the contents at the end, and drop what is in front of them
  have hdata : ((List.replicate k 0 ++ b.content).length : ℤ) = b.totallen := by simp; omega
  have hempty : b.clear.Rep [] := hg.rep.clear
  obtain ⟨block, hblock, hrep⟩ := hempty.append (List.replicate k 0 ++ b.content)
    (by rw [hdata]; simp [clear])
  have hneed : int32 (b.clear.off + b.clear.misalign + (List.replicate k 0 ++ b.content).length) =
      some b.totallen := by
    rw [hdata, int32, if_pos]
    · simp [clear]
    · simp only [clear, intMin, intMax]
      omega
  have hpush : b.clear.push none (List.replicate k 0 ++ b.content) = some (0, { b.clear with
      block := block, off := b.clear.off + (List.replicate k 0 ++ b.content).length }) := by
    have hroom : ¬b.clear.totallen < b.totallen := lt_irrefl _
    simp only [Buffer.push, hneed, reserve, if_neg hroom, hblock, Option.bind_eq_bind,
      Option.bind_some]
    simp
  generalize hb₂ : ({ b.clear with
    block := block, off := b.clear.off + (List.replicate k 0 ++ b.content).length } : Buffer) = b₂
    at hpush hrep
  have hreach : Reached b₂ := h.afterClear.afterPush (by rw [call, hpush]; rfl)
  obtain ⟨b₃, hb₃, hrep₃⟩ := hrep.pop (show (0 : ℤ) ≤ k by omega)
  have hend : b₂.misalign + b₂.off = b.totallen := by
    rw [← hb₂]
    simp only [clear]
    omega
  have hlt : (k : ℤ) < b₂.off := by
    rw [← hb₂]
    simp only [clear]
    omega
  have hsum := pop_end hb₃ hlt
  refine ⟨b₃, hreach.step (a := .pop k) ⟨trivial, by rw [call, hb₃]; rfl⟩, ?_, ?_⟩
  · rw [hrep₃.content_eq]
    simp
  · have hlen := hrep₃.block_length
    have hbuf := hrep₃.buf_eq
    have htot₃ : b₃.totallen = b.totallen := by
      rw [totallen_pop hb₃, ← hb₂]
      rfl
    have hnonneg := hrep₃.misalign_nonneg
    have hoff₃ := hrep₃.off_nonneg
    rw [stale, List.drop_eq_nil_iff]
    omega

/-- **`find` is substring search over the contents**, whatever the storage behind them holds, exactly
where the search neither misses the end nor reads on. -/
theorem find_spec_iff (h : Reached b) (hne : what ≠ []) :
    (∀ b', Reached b' → b'.content = b.content →
      b'.find what = some ((firstOccurrence b.content what).map fun p : ℕ => b'.buf + p)) ↔
    ¬MissesEnd b.content what ∧ ¬ReadsOn b.content what := by
  have hpos := List.length_pos_iff.mpr hne
  constructor
  · refine fun hall => ⟨fun hm => ?_, fun hr => ?_⟩
    · have hle := hm.1.length_le
      obtain ⟨n, hn⟩ := findRound_missesEnd (s := 0) h.grown hne hm (by omega)
      simp only [Nat.cast_zero, add_zero, sub_zero] at hn
      have hfind := hall b h rfl
      rw [find_eq_of_ends h.grown hn] at hfind
      -- the pattern does occur
      have hocc : what <+: b.content.drop (b.content.length - what.length) := by
        obtain ⟨t, ht⟩ := hm.1
        rw [← ht]
        simp
      have hfirst := firstOccurrence_eq_some hne hocc fun j hj hocc' => by
        have := hm.2.1 j hocc'
        omega
      rw [hfirst] at hfind
      cases hfind
    · obtain ⟨b', hb', hcont, hstale⟩ := h.exists_full (fun hnil => by
        have := hr.2.1
        rw [hnil] at this
        simp at this)
      obtain ⟨n, hn⟩ := findRound_readsOn (s := 0) hb'.grown hne (hcont ▸ hr) hstale (by
        have := hr.2.1
        rw [hcont]
        omega)
      simp only [Nat.cast_zero, add_zero, sub_zero] at hn
      have hfind := hall b' hb' hcont
      rw [find_eq_of_ends hb'.grown hn] at hfind
      cases hfind
  · rintro ⟨hm, hr⟩ b' hb' hcont
    obtain ⟨n, hn⟩ := findRound_right (s := 0) hb'.grown hne (hcont ▸ hm) (hcont ▸ hr)
      (Nat.zero_le _) (fun p hp => absurd hp (Nat.not_lt_zero p)) (.inl rfl)
    simp only [Nat.cast_zero, add_zero, sub_zero] at hn
    rw [find_eq_of_ends hb'.grown hn, hcont]

/-- A buffer that holds `"a7b"`. -/
theorem find_spec_iff_holding :
    (∀ b', Reached b' → b'.content = (holding (str "a7b")).content →
      b'.find (str "7") = some ((firstOccurrence (holding (str "a7b")).content (str "7")).map
        fun p : ℕ => b'.buf + p)) ↔
    ¬MissesEnd (holding (str "a7b")).content (str "7") ∧
      ¬ReadsOn (holding (str "a7b")).content (str "7") :=
  have hcall : (holding []).call (.push none (str "a7b")) = some (holding (str "a7b")) := by
    decide +kernel
  find_spec_iff (reached_holding.afterPush hcall) (by decide)

/-- `"7"` is not found in a buffer that holds just that; and `"bc"` is found in `"aab"` where a `c`
is left behind it from earlier contents. -/
theorem find_wrong :
    (Reached (holding (str "7")) ∧ (holding (str "7")).content = str "7" ∧
      firstOccurrence (str "7") (str "7") = some 0 ∧
      (holding (str "7")).find (str "7") = some none) ∧
    ∃ b, Reached b ∧ b.content = str "aab" ∧ firstOccurrence (str "aab") (str "bc") = none ∧
      b.find (str "bc") = some (some 2) := by
  have hseven : (holding []).call (.push none (str "7")) = some (holding (str "7")) := by
    decide +kernel
  have habc : (holding []).call (.push none (str "aabc")) = some (holding (str "aabc")) := by
    decide +kernel
  have hab : (holding (str "aabc")).clear.call (.push none (str "aab")) =
      some { holding (str "aabc") with off := 3 } := by decide +kernel
  refine ⟨⟨reached_holding.afterPush hseven, by decide +kernel, by decide +kernel, by decide +kernel⟩,
    _, (reached_holding.afterPush habc).afterClear.afterPush hab, ?_, ?_, ?_⟩
  all_goals decide +kernel

end Buffer

end Libio
