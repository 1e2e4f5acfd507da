import Libio.Core.ByteQueue
import Libio.Foundation.Transition

/-! # The buffer refines a byte queue

`Rep b q` ties a buffer to the queue it stands for: the invariant of the four integers and the
pointer, and contents `q`. Each operation is total on such buffers as long as the sizes stay small,
touches no cell outside the block, and computes the queue function. `buffer_refines_fifo` lifts this
to whole runs over any family of buffers. -/

namespace Libio

open ByteQueue

namespace Buffer

/-- The invariant of the class: `buf_ = originbuf_ + misalign_`, and the contents lie in the
block. -/
structure Inv (b : Buffer) : Prop where
  buf_eq : b.buf = b.misalign
  misalign_nonneg : 0 ≤ b.misalign
  off_nonneg : 0 ≤ b.off
  fits : b.misalign + b.off ≤ b.totallen
  block_length : b.totallen = b.block.length

/-- A buffer that satisfies the invariant and holds the bytes `q`. -/
structure Rep (b : Buffer) (q : Str) : Prop extends Inv b where
  content_eq : b.content = q

/-- The buffer whose contents are the `n` cells from cell `i` of the block `m` on. -/
abbrev layout (m : List UInt8) (i n : ℕ) : Buffer where
  block := m
  buf := i
  misalign := i
  off := n
  totallen := m.length

variable {b : Buffer} {q : Str} {m : List UInt8} {i n : ℕ}

/-- Every buffer that satisfies the invariant has this form. -/
theorem Rep.exists_layout (h : Rep b q) :
    ∃ m i, b = layout m i q.length ∧ i + q.length ≤ m.length ∧ window m i q.length = q := by
  obtain ⟨⟨hbuf, hmis, hoff, hfit, hlen⟩, hq⟩ := h
  have hn : (window b.block b.buf.toNat b.off.toNat).length = b.off.toNat :=
    length_window (by omega)
  have hqn : q.length = b.off.toNat := by rw [← hq]; exact hn
  refine ⟨b.block, b.misalign.toNat, ?_, by omega, ?_⟩
  · obtain ⟨block, buf, misalign, off, totallen⟩ := b
    simp only at *
    simp only [mk.injEq, true_and]
    omega
  · rw [← hbuf, hqn]
    exact hq

/-- A buffer with this layout represents the window of its block. -/
theorem rep_layout (h : i + n ≤ m.length) (hq : window m i n = q) : Rep (layout m i n) q where
  buf_eq := rfl
  misalign_nonneg := by simp
  off_nonneg := by simp
  fits := by simp only; omega
  block_length := rfl
  content_eq := by simpa [content, layout] using hq

/-- A fresh buffer is empty. -/
theorem rep_new (fill : ℕ → UInt8) : Rep (new fill) [] := by
  refine ⟨⟨rfl, by simp [new], by simp [new], by simp [new], by simp [new]⟩, ?_⟩
  simp [new, content]

/-! ## The private operations -/

/-- The terminator keeps the layout. -/
theorem terminate_layout (h : i + n ≤ m.length) :
    ∃ m', terminate (layout m i n) = some (layout m' i n) ∧ m'.length = m.length ∧
      window m' i n = window m i n := by
  by_cases hlt : i + n < m.length
  · have hst : i + n + [(0 : UInt8)].length ≤ m.length := by simp; omega
    have hlen := length_stored hst
    have hcond : (i : ℤ) + n < m.length := by omega
    have heq := store_eq_some hst
    push_cast at heq
    refine ⟨_, ?_, hlen, window_stored_behind hst le_rfl⟩
    simp only [terminate, if_pos hcond, heq, Option.bind_eq_bind, Option.bind_some, layout, hlen]
  · have hcond : ¬(i : ℤ) + n < m.length := by omega
    refine ⟨m, ?_, rfl, rfl⟩
    simp only [terminate, if_neg hcond]

/-- `__align` moves the window to the front. -/
theorem align_layout (h : i + n ≤ m.length) :
    ∃ m', align (layout m i n) = some (layout m' 0 n) ∧ m'.length = m.length ∧
      window m' 0 n = window m i n := by
  have hw := length_window h
  have hst : 0 + (window m i n).length ≤ m.length := by omega
  have hlen := length_stored hst
  refine ⟨m.take 0 ++ window m i n ++ m.drop (0 + (window m i n).length), ?_, hlen, ?_⟩
  · unfold align
    simp only [load_eq_some h]
    have := store_eq_some hst
    simp only [Nat.cast_zero] at this
    simp only [Option.bind_eq_bind, Option.bind_some, this, layout, hlen]
    simp
  · simpa using window_moved h

/-- **`__drain`** takes bytes off the front. -/
theorem Rep.drain (h : Rep b q) {k : ℕ} (hk : k ≤ q.length) :
    ∃ b', b.drain k = some b' ∧ Rep b' (q.drop k) := by
  obtain ⟨m, i, rfl, hfit, hq⟩ := h.exists_layout
  by_cases hge : k = q.length
  · obtain ⟨m', hm', hlen, -⟩ := terminate_layout (m := m) (i := 0) (n := 0) (by omega)
    refine ⟨layout m' 0 0, ?_, rep_layout (by omega) (by simp [hge])⟩
    rw [← hm', Buffer.drain, if_pos (by simp only; omega)]
    rfl
  · obtain ⟨m', hm', hlen, hw⟩ :=
      terminate_layout (m := m) (i := i + k) (n := q.length - k) (by omega)
    refine ⟨layout m' (i + k) (q.length - k), ?_, rep_layout (by omega) ?_⟩
    · rw [← hm', Buffer.drain, if_neg (by simp only; omega)]
      congr 1
      simp only [mk.injEq, true_and, and_true]
      omega
    · rw [hw, ← drop_window, hq]

/-- The doubling loop ends below the limit of `int`, at a capacity that covers the need. -/
theorem doubled_spec (k : ℕ) (length need : ℤ) (hpos : 0 < length) (hneed : need ≤ 2 ^ 30)
    (hk : need ≤ length * 2 ^ k) :
    ∃ l, doubled (k + 1) length need = some l ∧ need ≤ l ∧ length ≤ l := by
  induction k generalizing length with
  | zero =>
      have : ¬length < need := by simpa using hk
      exact ⟨length, by simp [doubled, this], by omega, le_rfl⟩
  | succ k ih =>
      by_cases hlt : length < need
      · have hint : int32 (length * 2) = some (length * 2) := by
          refine int32_of_nonneg (by omega) ?_
          simp only [intMax]
          omega
        obtain ⟨l, hl, hnl, hle⟩ := ih (length * 2) (by omega) (by
          rw [pow_succ] at hk
          linarith)
        exact ⟨l, by rw [doubled, if_pos hlt, hint]; exact hl, hnl, by omega⟩
      · exact ⟨length, by simp [doubled, hlt], by omega, le_rfl⟩

/-- **`__expand` makes room.** Below `2^30` it succeeds, keeps the contents, and leaves `count`
cells behind them. -/
theorem Rep.expand (h : Rep b q) (fill : ℕ → UInt8) {count : ℤ} (hc : 0 ≤ count)
    (hsize : b.misalign + b.off + count < 2 ^ 30) :
    ∃ b', b.expand (some fill) count = some (0, b') ∧ Rep b' q ∧
      b'.misalign + b'.off + count ≤ b'.totallen := by
  obtain ⟨m, i, rfl, hfit, hq⟩ := h.exists_layout
  simp only at hsize
  have hneed : int32 ((i : ℤ) + q.length + count) = some ((i : ℤ) + q.length + count) := by
    refine int32_of_nonneg (by omega) ?_
    simp only [intMax]
    omega
  obtain ⟨m', hm', hlen, hw⟩ := align_layout hfit
  simp only [Buffer.expand, hneed, Option.bind_eq_bind, Option.bind_some]
  by_cases hroom : (m.length : ℤ) ≥ (i : ℤ) + q.length + count
  · rw [if_pos hroom]
    exact ⟨_, rfl, rep_layout hfit hq, by simp only; omega⟩
  rw [if_neg hroom]
  by_cases hmis : (i : ℤ) ≥ count
  · -- sliding the contents back frees `misalign_` cells, at least `count`
    rw [if_pos hmis, hm', Option.bind_some]
    exact ⟨_, rfl, rep_layout (by omega) (by rw [hw, hq]), by simp only; omega⟩
  rw [if_neg hmis]
  obtain ⟨l, hl, hnl, hle⟩ := doubled_spec 31 (if (m.length : ℤ) < 256 then 256 else m.length)
    ((i : ℤ) + q.length + count) (by split <;> omega) (by omega) (by split <;> omega)
  have hml : m.length ≤ l := by split at hle <;> omega
  -- whether or not the contents are slid back first, they end up at the front
  obtain ⟨m₁, hm₁, hlen₁, hw₁⟩ : ∃ m₁, (layout m i q.length).alignMoved =
      some (layout m₁ 0 q.length) ∧ m₁.length = m.length ∧
      window m₁ 0 q.length = window m i q.length := by
    by_cases hz : i = 0
    · subst hz
      exact ⟨m, by simp [alignMoved], rfl, rfl⟩
    · exact ⟨m', by rw [alignMoved, if_pos (by simpa using hz), hm'], hlen, hw⟩
  have hlast : (enlarge m₁ l.toNat fill).length = l.toNat := length_enlarge m₁ fill (by omega)
  refine ⟨layout (enlarge m₁ l.toNat fill) 0 q.length, ?_, rep_layout (by omega) ?_, ?_⟩
  · simp only [hl, hm₁, Option.bind_some]
    simp only [hlast, Option.some.injEq, Prod.mk.injEq, mk.injEq, true_and]
    omega
  · rw [window_enlarge fill (by omega), hw₁, hq]
  · simp only
    omega

/-- A store of bytes behind the contents appends them. -/
theorem Rep.append (h : Rep b q) (data : Str) (hroom : b.misalign + b.off + data.length ≤ b.totallen) :
    ∃ block, store b.block (b.buf + b.off) data = some block ∧
      Rep { b with block := block, off := b.off + data.length } (q ++ data) := by
  obtain ⟨m, i, rfl, hfit, hq⟩ := h.exists_layout
  simp only at hroom
  have hst : i + q.length + data.length ≤ m.length := by omega
  have hlen := length_stored hst
  refine ⟨_, by simpa using store_eq_some hst, ?_⟩
  have hrep := rep_layout (i := i) (n := q.length + data.length) (by rw [hlen]; omega)
    (window_stored_at_end hst)
  rw [hq] at hrep
  rw [layout, hlen] at hrep
  simpa [layout] using hrep

/-! ## The public operations -/

/-- **`clear`** empties the buffer. -/
theorem Rep.clear (h : Rep b q) : Rep b.clear [] := by
  obtain ⟨m, i, rfl, hfit, -⟩ := h.exists_layout
  exact rep_layout (m := m) (i := 0) (n := 0) (by omega) (by simp)

/-- **`push`** appends its data. -/
theorem Rep.push (h : Rep b q) (fill : ℕ → UInt8) (data : Str)
    (hsize : b.misalign + b.off + data.length < 2 ^ 30) :
    ∃ b', b.push (some fill) data = some (0, b') ∧ Rep b' (q ++ data) := by
  have hneed : int32 (b.off + b.misalign + data.length) =
      some (b.off + b.misalign + data.length) := by
    have := h.misalign_nonneg
    have := h.off_nonneg
    refine int32_of_nonneg (by omega) ?_
    simp only [intMax]
    omega
  obtain ⟨b₁, hb₁, hrep, hroom⟩ : ∃ b₁,
      b.reserve (some fill) (b.off + b.misalign + data.length) data.length = some (0, b₁) ∧
      Rep b₁ q ∧ b₁.misalign + b₁.off + data.length ≤ b₁.totallen := by
    unfold reserve
    by_cases hlt : b.totallen < b.off + b.misalign + data.length
    · rw [if_pos hlt]
      exact h.expand fill (by omega) hsize
    · rw [if_neg hlt]
      exact ⟨b, rfl, h, by omega⟩
  obtain ⟨block, hblock, hrep'⟩ := hrep.append data hroom
  refine ⟨_, ?_, hrep'⟩
  simp only [Buffer.push, hneed, hb₁, hblock, Option.bind_eq_bind, Option.bind_some]
  simp

/-- **`read`** appends what the kernel delivers. -/
theorem Rep.read_data (h : Rep b q) (fill : ℕ → UInt8) {count : ℤ} {kernel : Option Str}
    (hkernel : ∀ data ∈ kernel,
      (data.length : ℤ) ≤ if count < 0 ∨ count > maxRead then maxRead else count)
    (hsize : b.misalign + b.off + (if count < 0 ∨ count > maxRead then maxRead else count) < 2 ^ 30) :
    ∃ b', b.read (some fill) count kernel =
        some (kernel.elim (-1) fun data => (data.length : ℤ), b') ∧
      Rep b' (q ++ kernel.getD []) := by
  generalize hcount : (if count < 0 ∨ count > maxRead then maxRead else count) = count' at *
  have hc : 0 ≤ count' := by
    rw [← hcount]
    split
    · decide
    · omega
  obtain ⟨b₁, hb₁, hrep, hroom⟩ := h.expand fill hc hsize
  simp only [Buffer.read, hcount, hb₁, Option.bind_eq_bind, Option.bind_some]
  match kernel with
  | none => exact ⟨b₁, by simp, by simpa using hrep⟩
  | some [] => exact ⟨b₁, by simp, by simpa using hrep⟩
  | some (c :: data) =>
      have hlen := hkernel _ rfl
      obtain ⟨block, hblock, hrep'⟩ := hrep.append (c :: data) (by omega)
      obtain ⟨m, i, hm, hfit, hq⟩ := hrep'.exists_layout
      obtain ⟨m', hm', hlen', hw⟩ := terminate_layout hfit
      refine ⟨layout m' i (q ++ c :: data).length, ?_, rep_layout (by omega) (by rw [hw, hq]; simp)⟩
      simp only [hblock, Option.bind_some, hm, hm']
      simp

/-- What is read from the front of the storage is the front of the content. -/
theorem Rep.load_content (h : Rep b q) {k : ℕ} (hk : k ≤ q.length) :
    load b.block b.buf k = some (q.take k) := by
  obtain ⟨m, i, rfl, hfit, hq⟩ := h.exists_layout
  rw [load_eq_some (show i + k ≤ m.length by omega), ← take_window m i q.length k hk, hq]

/-- The length is the number of bytes. -/
theorem Rep.off_eq (h : Rep b q) : b.off = q.length := by
  obtain ⟨m, i, rfl, -, -⟩ := h.exists_layout
  rfl

/-- **`write`** takes off what the kernel accepts. -/
theorem Rep.write (h : Rep b q) (kernel : Option ℕ) (hk : ∀ n ∈ kernel, n ≤ q.length) :
    ∃ b', b.write kernel =
        some (kernel.elim (-1) fun n => (n : ℤ), q.take (kernel.getD 0), b') ∧
      Rep b' (q.drop (kernel.getD 0)) := by
  have hload := h.load_content le_rfl
  rw [← h.off_eq, List.take_length] at hload
  simp only [Buffer.write, hload, Option.bind_eq_bind, Option.bind_some]
  match kernel with
  | none => exact ⟨b, by simp, by simpa using h⟩
  | some 0 => exact ⟨b, by simp, by simpa using h⟩
  | some (n + 1) =>
      obtain ⟨b', hb', hrep⟩ := h.drain (hk _ rfl)
      exact ⟨b', by simp only [hb', Option.bind_some]; simp, hrep⟩

/-- **`pop`** takes off as many bytes as are asked for and there. -/
theorem Rep.pop (h : Rep b q) {length : ℤ} (h0 : 0 ≤ length) :
    ∃ b', b.pop length =
        some (((min length.toNat q.length : ℕ) : ℤ), q.take length.toNat, b') ∧
      Rep b' (q.drop length.toNat) := by
  have hmin : (if length > b.off then b.off else length) = ((min length.toNat q.length : ℕ) : ℤ) := by
    rw [h.off_eq]
    split <;> omega
  have htake : q.take (min length.toNat q.length) = q.take length.toNat := by
    rw [← List.take_take, List.take_length]
  have hdrop : q.drop (min length.toNat q.length) = q.drop length.toNat := by
    rcases le_total length.toNat q.length with hle | hle
    · rw [min_eq_left hle]
    · rw [min_eq_right hle, List.drop_length, List.drop_of_length_le hle]
  obtain ⟨b₁, hb₁, hrep⟩ : ∃ b₁,
      b.drainPositive ((min length.toNat q.length : ℕ) : ℤ) = some b₁ ∧
      Rep b₁ (q.drop length.toNat) := by
    rw [← hdrop, drainPositive]
    by_cases hpos : ((min length.toNat q.length : ℕ) : ℤ) > 0
    · rw [if_pos hpos]
      exact h.drain (Nat.min_le_right _ _)
    · rw [if_neg hpos]
      have : min length.toNat q.length = 0 := by omega
      exact ⟨b, rfl, by simpa [this] using h⟩
  obtain ⟨m, i, hm, hfit, hq⟩ := hrep.exists_layout
  obtain ⟨m', hm', hlen', hw⟩ := terminate_layout hfit
  refine ⟨layout m' i (q.drop length.toNat).length, ?_, rep_layout (by omega) (by rw [hw, hq])⟩
  simp only [Buffer.pop, hmin, h.load_content (Nat.min_le_right _ _), hb₁, Option.bind_eq_bind,
    Option.bind_some, htake, hm, hm']

/-- **`push` of a buffer** moves bytes from one to the other. -/
theorem Rep.pushFrom {input : Buffer} {src : Str} (h : Rep b q) (hin : Rep input src)
    (fill : ℕ → UInt8) {length : ℤ} (hsize : b.misalign + b.off + clamp src length < 2 ^ 30) :
    ∃ b' input', b.pushFrom (some fill) input length = some (0, b', input') ∧
      Rep b' (move q src length).1 ∧ Rep input' (move q src length).2 := by
  have hclamp : (if (if length = -1 then input.off else length) > input.off ∨
      (if length = -1 then input.off else length) < 0 then input.off
      else if length = -1 then input.off else length) = (clamp src length : ℤ) := by
    rw [hin.off_eq, clamp]
    split_ifs <;> omega
  have hle := clamp_le src length
  obtain ⟨b', hb', hrep⟩ := h.push fill (src.take (clamp src length)) (by
    rw [List.length_take, Nat.min_eq_left hle]
    exact hsize)
  obtain ⟨input', hi', hrep'⟩ := hin.drain hle
  refine ⟨b', input', ?_, hrep, hrep'⟩
  simp only [Buffer.pushFrom, hclamp, hin.load_content hle, hb', hi', Option.bind_eq_bind,
    Option.bind_some]
  simp

/-- One NUL written into the contents keeps the layout and every window that it misses. -/
theorem store_nul_layout {j : ℕ} (hjn : j < i + n) (h : i + n ≤ m.length) :
    ∃ m', store m j [0] = some m' ∧ m'.length = m.length ∧
      (∀ k, i + k ≤ j → window m' i k = window m i k) ∧
      ∀ k l, j < k → window m' k l = window m k l := by
  have hst : j + [(0 : UInt8)].length ≤ m.length := by simp; omega
  refine ⟨_, store_eq_some hst, length_stored hst, fun k hk => window_stored_behind hst hk, ?_⟩
  intro k l hk
  exact window_stored_before hst (by simp; omega)

/-- **`pop()` computes the queue's `popLine`.** -/
theorem Rep.popLine (h : Rep b q) :
    ∃ b', b.popLine = some ((ByteQueue.popLine q).1, b') ∧ Rep b' (ByteQueue.popLine q).2 := by
  have hload := h.load_content le_rfl
  rw [← h.off_eq, List.take_length] at hload
  rcases eol_cases q with hq | ⟨s, c, rest, hq, hs, hc⟩
  · have hidx : q.findIdx isEol = q.length := List.findIdx_eq_length_of_false hq
    refine ⟨b, ?_, by rwa [popLine_noEol hq]⟩
    simp only [Buffer.popLine, hload, hidx, popLine_noEol hq, if_true, Option.bind_eq_bind,
      Option.bind_some]
  have hidx : q.findIdx isEol = s.length := by
    rw [hq, List.findIdx_append, List.findIdx_eq_length_of_false hs]
    simp [List.findIdx_cons, hc]
  have hlen : q.length = s.length + 1 + rest.length := by rw [hq]; simp; omega
  have hne : ¬s.length = q.length := by omega
  obtain ⟨m, i, rfl, hfit, hw⟩ := h.exists_layout
  -- how many of the line-end bytes go
  obtain ⟨k, hk, hkq, hdrop⟩ : ∃ k, onemore q s.length = k ∧ s.length + k < q.length ∧
      dropEol (c :: rest) = q.drop (s.length + k + 1) := by
    unfold onemore
    match rest with
    | [] =>
        refine ⟨0, by simp at hlen; simp [hlen], by omega, ?_⟩
        simp [hq, dropEol]
    | d :: rest =>
        have h0 : q.getD s.length 0 = c := by simp [hq]
        have h1 : q.getD (s.length + 1) 0 = d := by simp [hq]
        have h2 : q.drop (s.length + 2) = rest := by simp [hq, List.drop_append]
        simp only [List.length_cons] at hlen
        rw [h0, h1]
        by_cases hp : eolPair c d
        · exact ⟨1, by rw [if_pos ⟨by omega, hp⟩], by omega, by rw [h2, dropEol, if_pos hp]⟩
        · exact ⟨0, by rw [if_neg (fun hcon => hp hcon.2)], by omega, by simp [dropEol, hp, hq]⟩
  obtain ⟨m₁, hm₁, hlen₁, hfront₁, hback₁⟩ :=
    store_nul_layout (j := i + s.length) (by omega) hfit
  obtain ⟨m₂, hm₂, hlen₂, hfront₂, hback₂⟩ :=
    store_nul_layout (j := i + s.length + k) (by omega) (hlen₁ ▸ hfit)
  have hrep : Rep (layout m₂ i q.length) (window m₂ i q.length) := rep_layout (by omega) rfl
  have hwlen : (window m₂ i q.length).length = q.length := length_window (by omega)
  obtain ⟨b', hb', hrep'⟩ := hrep.drain (k := s.length + k + 1) (by omega)
  have hrest : (window m₂ i q.length).drop (s.length + k + 1) = q.drop (s.length + k + 1) := by
    rw [drop_window, hback₂ _ _ (by omega), hback₁ _ _ (by omega), ← drop_window, hw]
  have hline : load m₂ i s.length = some s := by
    rw [load_eq_some (by omega), hfront₂ _ (by omega), hfront₁ _ le_rfl,
      ← take_window m i q.length s.length (by omega), hw, hq]
    simp
  refine ⟨b', ?_, ?_⟩
  · rw [hq, popLine_eol rest hs hc, ← hq]
    push_cast at hm₁ hm₂ hb'
    simp only [layout, hlen₂, hlen₁] at hb'
    simp only [Buffer.popLine, hload, hidx, if_neg hne, hk, hm₁, hm₂, hline, hb',
      Option.bind_eq_bind, Option.bind_some]
  · rw [hq, popLine_eol rest hs hc, hdrop, ← hrest]
    exact hrep'

end Buffer

end Libio
