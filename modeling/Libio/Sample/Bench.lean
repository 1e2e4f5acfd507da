import Libio.Core.Buffer
import Libio.Foundation.Transition
import Libio.Foundation.Families
import Mathlib.Logic.Function.Basic

/-! # The benchmark of the reactor

`run_once` of `sample/bench.cc`: tokens travel around a ring of pipes, and the reactor calls `readcb`
for the pipes that are readable. The kernel decides which of these a pass of the loop is told of, and
in what order. The read ends do not block and the write ends do. The options are read by `atoi` and
not checked, so they are any integers, and the counters are of type `int`.

`runOnce_settles` says for which options every run comes to its end, with the counts it is meant to
have. -/

namespace Libio

/-- The options of the benchmark, and the bytes a pipe has room for. -/
structure Bench where
  numPipes : ℤ
  numActive : ℤ
  numWrites : ℤ
  capacity : ℕ

/-- The bytes in each pipe, with the counters. -/
structure Ring where
  pipes : ℕ → ℕ := fun _ => 0
  countread : ℤ := 0
  fired : ℤ := 0
  writes : ℤ := 0
  xcount : ℤ := 0

namespace Bench

variable (b : Bench) (s : Ring)

/-- The pipe of the entry `pipes[j]`. Outside the array there is none. -/
def pipeAt (j : ℤ) : Option ℕ :=
  if 0 ≤ j ∧ j < 2 * b.numPipes then some (j / 2).toNat else none

/-- `write(pipes[j], "a", 1)`, which waits for ever where the pipe is full. -/
def write (j : ℤ) : Option Ring := do
  let i ← b.pipeAt (← int32 j)
  if s.pipes i < b.capacity then
    some { s with pipes := Function.update s.pipes i (s.pipes i + 1) }
  else none

/-- `countread += read(pipes[2 * i], &ch, 1)`: a byte, or -1 where there is none. -/
def read (i : ℕ) : Option Ring :=
  if s.pipes i = 0 then (int32 (s.countread - 1)).map fun n => { s with countread := n }
  else (int32 (s.countread + 1)).map fun n => { s with
    pipes := Function.update s.pipes i (s.pipes i - 1), countread := n }

/-- `fired++`. -/
def fire : Option Ring := (int32 (s.fired + 1)).map fun n => { s with fired := n }

/-- The pipe behind `i`. -/
def nexti (i : ℕ) : ℤ := if (i : ℤ) + 1 ≥ b.numPipes then i + 1 - b.numPipes else i + 1

/-- `readcb(i)`. -/
def readcb (i : ℕ) : Option Ring := do
  let s ← read s i
  if s.writes = 0 then some s
  else
    let s ← b.write s (2 * b.nexti i + 1)
    let writes ← int32 (s.writes - 1)
    fire { s with writes := writes }

/-- One pass of the loop of `run_once`, in which the reactor is told of the pipes `active`. -/
def pass (active : List ℕ) : Option Ring := do
  let s ← active.foldlM b.readcb s
  let xcount ← int32 (s.xcount + 1)
  some { s with xcount := xcount }

/-- A round of the first loop of `run_once`. -/
def first (space : ℤ) (i : ℕ) : Option Ring := do
  let s ← b.write s (i * space + 1)
  fire s

/-- `run_once` up to its second loop. No pipe is readable when it begins, so the first call of `loop`
does nothing. -/
def launch : Option Ring :=
  if b.numActive = 0 then none
  else do
    let space ← int32 (b.numPipes.tdiv b.numActive * 2)
    (List.range b.numActive.toNat).foldlM (fun s i => b.first s space i)
      { s with countread := 0, fired := 0, writes := b.numWrites, xcount := 0 }

/-- What `epoll_wait` may report: pipes that are readable, one at least if there is one. -/
structure Reports (active : List ℕ) : Prop where
  nodup : active.Nodup
  readable : ∀ i ∈ active, i < b.numPipes.toNat ∧ s.pipes i ≠ 0
  some : active = [] → ∀ i < b.numPipes.toNat, s.pipes i = 0

/-- The second loop of `run_once` as a transition system; `none` is a process that waits for ever, or
whose behaviour is undefined. The test comes behind a pass, which makes no difference where a token has
been fired in front of the first one. -/
def loop : Lts (Option Ring) (List ℕ) where
  init o := ∃ s : Ring, (∀ i < b.numPipes.toNat, s.pipes i = 0) ∧ o = b.launch s
  step o active o' := ∃ s, o = .some s ∧ s.countread ≠ s.fired ∧ b.Reports s active ∧
    o' = b.pass s active

/-- The loop has ended: every token was read, and the pipes are as empty as before. -/
structure Done (s : Ring) : Prop where
  countread : s.countread = b.numActive + b.numWrites
  fired : s.fired = b.numActive + b.numWrites
  empty : ∀ i < b.numPipes.toNat, s.pipes i = 0
  xcount : s.xcount ≤ s.countread

/-- Options for which all indices and counters stay within an `int`, with a pipe and an active one at
least, and room for the active ones in a pipe. -/
structure Fits : Prop where
  pipes : 0 < b.numPipes
  pipes_le : 2 * b.numPipes ≤ intMax
  active : 0 < b.numActive
  room : b.numActive ≤ b.capacity
  writes : 0 ≤ b.numWrites
  counts : b.numActive + b.numWrites ≤ intMax

/-! ## Tokens -/

/-- The tokens that are under way. -/
def tokens : ℕ := Family.total id s.pipes b.numPipes.toNat

/-- The invariant: what was fired is read or under way, and as long as there is something to write
no token gets lost. -/
structure Flows : Prop where
  read : b.tokens s + s.countread = s.fired
  fired : s.fired + s.writes = b.numActive + b.numWrites
  full : s.writes ≠ 0 → b.tokens s = b.numActive
  bound : b.tokens s ≤ b.numActive
  countread : 0 ≤ s.countread
  writes : 0 ≤ s.writes

variable {b s} {t : Ring} {i : ℕ}

/-- A pipe has no more bytes than there are tokens. -/
theorem pipes_le_tokens (hi : i < b.numPipes.toNat) : s.pipes i ≤ b.tokens s :=
  Finset.single_le_sum (f := fun i => id (s.pipes i)) (fun _ _ => Nat.zero_le _)
    (Finset.mem_range.mpr hi)

/-- No token is under way where all pipes are empty. -/
theorem tokens_eq_zero : b.tokens s = 0 ↔ ∀ i < b.numPipes.toNat, s.pipes i = 0 := by
  simp [tokens, Family.total]

/-- The pipe behind a pipe of the ring is one of the ring. -/
theorem nexti_mem (hi : i < b.numPipes.toNat) : 0 ≤ b.nexti i ∧ b.nexti i < b.numPipes := by
  unfold nexti
  split <;> omega

/-- A write finds room as long as there are fewer tokens than a pipe has room for. -/
theorem write_eq (hb : b.Fits) {k : ℤ} (hk : 0 ≤ k ∧ k < b.numPipes)
    (hroom : b.tokens s < b.capacity) :
    ∃ t, b.write s (2 * k + 1) = some t ∧ b.tokens t = b.tokens s + 1 ∧ t.countread = s.countread ∧
      t.fired = s.fired ∧ t.writes = s.writes ∧ t.xcount = s.xcount ∧
        ∀ j, s.pipes j ≤ t.pipes j := by
  have hint : int32 (2 * k + 1) = some (2 * k + 1) := by
    have hle := hb.pipes_le
    exact int32_of_nonneg (by omega) (by omega)
  have hpipe : b.pipeAt (2 * k + 1) = some k.toNat := by
    rw [pipeAt, if_pos (by omega)]
    congr 2
    omega
  have hi : k.toNat < b.numPipes.toNat := by omega
  have hlt : s.pipes k.toNat < b.capacity := (pipes_le_tokens hi).trans_lt hroom
  have hwrite : b.write s (2 * k + 1) = some { s with
      pipes := Function.update s.pipes k.toNat (s.pipes k.toNat + 1) } := by
    simp only [write, hint, hpipe, Option.bind_eq_bind, Option.bind_some, if_pos hlt]
  refine ⟨_, hwrite, ?_, rfl, rfl, rfl, rfl, fun j => ?_⟩
  · have htotal := Family.total_update (μ := id) (f := s.pipes) (x := s.pipes k.toNat + 1) hi
    simp only [id] at htotal
    unfold tokens
    simp only
    omega
  · by_cases hj : j = k.toNat
    · subst hj
      simp
    · simp [Function.update_of_ne hj]

/-- A read takes the token that is there. -/
theorem read_eq (hi : i < b.numPipes.toNat) (hpipe : s.pipes i ≠ 0) (hcount : 0 ≤ s.countread)
    (hmax : s.countread + 1 ≤ intMax) :
    ∃ t, read s i = some t ∧ b.tokens t + 1 = b.tokens s ∧ t.countread = s.countread + 1 ∧
      t.fired = s.fired ∧ t.writes = s.writes ∧ t.xcount = s.xcount ∧
        ∀ j ≠ i, t.pipes j = s.pipes j := by
  have hint : int32 (s.countread + 1) = some (s.countread + 1) :=
    int32_of_nonneg (by omega) hmax
  have hread : read s i = some { s with
      pipes := Function.update s.pipes i (s.pipes i - 1), countread := s.countread + 1 } := by
    rw [read, if_neg hpipe, hint, Option.map_some]
  refine ⟨_, hread, ?_, rfl, rfl, rfl, rfl, fun j hj => Function.update_of_ne hj _ _⟩
  have htotal := Family.total_update (μ := id) (f := s.pipes) (x := s.pipes i - 1) hi
  simp only [id] at htotal
  unfold tokens
  simp only
  omega

/-- A counter that is not at its end goes up. -/
theorem fire_eq (hpos : 0 ≤ s.fired) (hmax : s.fired + 1 ≤ intMax) :
    fire s = some { s with fired := s.fired + 1 } := by
  have hint : int32 (s.fired + 1) = some (s.fired + 1) :=
    int32_of_nonneg (by omega) hmax
  rw [fire, hint, Option.map_some]

/-- What is left to do. -/
def left (b : Bench) (s : Ring) : ℕ := b.tokens s + s.writes.toNat

/-- **One callback** takes a token from its pipe and from no other, and passes it on while there is
something to write. -/
theorem Flows.readcb (h : b.Flows s) (hb : b.Fits) (hi : i < b.numPipes.toNat)
    (hpipe : s.pipes i ≠ 0) :
    ∃ t, b.readcb s i = some t ∧ b.Flows t ∧ t.countread = s.countread + 1 ∧
      b.left t + 1 = b.left s ∧ t.xcount = s.xcount ∧ ∀ j ≠ i, s.pipes j ≤ t.pipes j := by
  obtain ⟨hread, htotal, hfull, hbound, hpos, hwpos⟩ := h
  have hmax := hb.counts
  have hcap := hb.room
  have htoken := pipes_le_tokens (s := s) hi
  obtain ⟨r, hr, htokens, hcount, hfired, hwrites, hxcount, hpipes⟩ :=
    read_eq hi hpipe hpos (by omega)
  unfold Bench.readcb left
  rw [hr, Option.bind_eq_bind, Option.bind_some]
  by_cases hw : s.writes = 0
  · rw [if_pos (hwrites.trans hw)]
    refine ⟨r, rfl, ⟨by omega, by omega, by omega, by omega, by omega, by omega⟩, hcount, by omega,
      hxcount, ?_⟩
    exact fun j hj => (hpipes j hj).ge
  · rw [if_neg (by omega)]
    -- the token that was read makes room for the one that is written
    have hroom : b.tokens r < b.capacity := by omega
    obtain ⟨t, ht, htokens', hcount', hfired', hwrites', hxcount', hpipes'⟩ :=
      write_eq hb (nexti_mem hi) hroom
    have hint : int32 (t.writes - 1) = some (t.writes - 1) :=
      int32_of_nonneg (by omega) (by omega)
    have hfire : fire { t with writes := t.writes - 1 } =
        some { t with writes := t.writes - 1, fired := t.fired + 1 } :=
      fire_eq (s := { t with writes := t.writes - 1 }) (show 0 ≤ t.fired by omega)
        (show t.fired + 1 ≤ intMax by omega)
    simp only [ht, hint, hfire, Option.bind_eq_bind, Option.bind_some]
    refine ⟨_, rfl, ⟨?_, ?_, ?_, ?_, ?_, ?_⟩, ?_, ?_, ?_, fun j hj => ?_⟩
    · show (b.tokens t : ℤ) + t.countread = t.fired + 1
      omega
    · show t.fired + 1 + (t.writes - 1) = _
      omega
    · show t.writes - 1 ≠ 0 → (b.tokens t : ℤ) = b.numActive
      omega
    · show (b.tokens t : ℤ) ≤ b.numActive
      omega
    · show 0 ≤ t.countread
      omega
    · show 0 ≤ t.writes - 1
      omega
    · show t.countread = s.countread + 1
      omega
    · show b.tokens t + (t.writes - 1).toNat + 1 = b.tokens s + s.writes.toNat
      omega
    · show t.xcount = s.xcount
      omega
    · exact (hpipes j hj).ge.trans (hpipes' j)

/-- The callbacks of one pass, each of which finds its token. -/
theorem Flows.foldlM (h : b.Flows s) (hb : b.Fits) {active : List ℕ} (hnodup : active.Nodup)
    (hreadable : ∀ i ∈ active, i < b.numPipes.toNat ∧ s.pipes i ≠ 0) :
    ∃ t, active.foldlM b.readcb s = some t ∧ b.Flows t ∧
      t.countread = s.countread + active.length ∧ b.left t + active.length = b.left s ∧
        t.xcount = s.xcount := by
  induction active generalizing s with
  | nil => exact ⟨s, rfl, h, by simp, by simp, rfl⟩
  | cons i active ih =>
      obtain ⟨hi, hpipe⟩ := hreadable i List.mem_cons_self
      obtain ⟨t, ht, hflows, hcount, hleft, hxcount, hpipes⟩ := h.readcb hb hi hpipe
      obtain ⟨hnotin, hnodup⟩ := List.nodup_cons.mp hnodup
      -- the tokens of the others are still there
      have hrest : ∀ j ∈ active, j < b.numPipes.toNat ∧ t.pipes j ≠ 0 := by
        intro j hj
        obtain ⟨hlt, hne⟩ := hreadable j (List.mem_cons_of_mem _ hj)
        have hle := hpipes j fun he => hnotin (he ▸ hj)
        exact ⟨hlt, by omega⟩
      obtain ⟨u, hu, hlast, hcount', hleft', hxcount'⟩ := ih hflows hnodup hrest
      refine ⟨u, ?_, hlast, ?_, ?_, hxcount'.trans hxcount⟩
      · rw [List.foldlM_cons, ht]
        exact hu
      · rw [hcount', hcount, List.length_cons]
        push_cast
        omega
      · rw [List.length_cons]
        omega

/-! ## Passes -/

/-- What holds in front of each pass. -/
def Sound (b : Bench) (o : Option Ring) : Prop :=
  ∃ s, o = some s ∧ b.Flows s ∧ 0 ≤ s.xcount ∧ s.xcount ≤ s.countread

/-- **One pass** never waits, and leaves less to do. -/
theorem Sound.pass {o o' : Option Ring} {active : List ℕ} (h : b.Sound o) (hb : b.Fits)
    (hstep : b.loop.step o active o') :
    b.Sound o' ∧ o'.elim 0 b.left < o.elim 0 b.left := by
  obtain ⟨s, rfl, hflows, hxpos, hxcount⟩ := h
  obtain ⟨s', hs', hgoes, hreports, rfl⟩ := hstep
  obtain rfl := Option.some.inj hs'
  obtain ⟨t, ht, hflows', hcount, hleft, hxcount'⟩ :=
    hflows.foldlM hb hreports.nodup hreports.readable
  -- a token is under way, so the pass is told of one at least
  have hsome : active ≠ [] := by
    intro hnil
    have hzero : b.tokens s = 0 := tokens_eq_zero.mpr (hreports.some hnil)
    have := hflows.read
    omega
  have hpos := List.length_pos_iff.mpr hsome
  have hint : int32 (t.xcount + 1) = some (t.xcount + 1) := by
    -- there are no more passes than tokens that were read
    have hread := hflows'.read
    have hfired := hflows'.fired
    have hwrites := hflows'.writes
    have hmax := hb.counts
    exact int32_of_nonneg (by omega) (by omega)
  unfold Bench.pass
  simp only [ht, hint, Option.bind_eq_bind, Option.bind_some]
  refine ⟨⟨_, rfl, ⟨hflows'.read, hflows'.fired, hflows'.full, hflows'.bound, hflows'.countread,
    hflows'.writes⟩, ?_, ?_⟩, ?_⟩
  · show 0 ≤ t.xcount + 1
    omega
  · show t.xcount + 1 ≤ t.countread
    omega
  · show b.left t < b.left s
    omega

/-- Where the loop ends all tokens were read. -/
theorem Sound.done (h : b.Sound (some s)) (hb : b.Fits) (hends : s.countread = s.fired) :
    b.Done s := by
  obtain ⟨s', hs', hflows, -, hxcount⟩ := h
  obtain rfl := Option.some.inj hs'
  obtain ⟨hread, hfired, hfull, -, -, -⟩ := hflows
  have hactive := hb.active
  have hzero : b.tokens s = 0 := by omega
  -- as long as there is something to write, a token is under way
  have hwrites : s.writes = 0 := by
    by_contra hne
    have := hfull hne
    omega
  exact ⟨by omega, by omega, tokens_eq_zero.mp hzero, hxcount⟩

/-! ## The first tokens -/

/-- The pipes that get a token in the beginning are pipes of the ring. -/
theorem launch_mem (hb : b.Fits) (hi : i < b.numActive.toNat) :
    0 ≤ i * (b.numPipes / b.numActive) ∧ i * (b.numPipes / b.numActive) < b.numPipes := by
  have hpipes := hb.pipes
  have hactive := hb.active
  have hspace : 0 ≤ b.numPipes / b.numActive := Int.ediv_nonneg hpipes.le hactive.le
  refine ⟨Int.mul_nonneg (Int.natCast_nonneg i) hspace, ?_⟩
  rcases hspace.eq_or_lt with hzero | hpos
  · rw [← hzero, mul_zero]
    exact hpipes
  · calc (i : ℤ) * (b.numPipes / b.numActive) < b.numActive * (b.numPipes / b.numActive) :=
          Int.mul_lt_mul_of_pos_right (by omega) hpos
      _ ≤ b.numPipes := Int.mul_ediv_self_le hactive.ne'

/-- The writes in front of the loop. -/
theorem launch_eq (hb : b.Fits) {n : ℕ} (hn : n ≤ b.numActive.toNat) {r : Ring}
    (hzero : b.tokens r = 0) (hfresh : r.fired = 0) :
    ∃ t, (List.range n).foldlM (fun s i => b.first s (b.numPipes / b.numActive * 2) i) r = some t ∧
      b.tokens t = n ∧ t.fired = n ∧ t.countread = r.countread ∧
        t.writes = r.writes ∧ t.xcount = r.xcount := by
  induction n with
  | zero => exact ⟨r, rfl, hzero, hfresh, rfl, rfl, rfl⟩
  | succ n ih =>
      obtain ⟨t, ht, htokens, hfired, hcount, hwrites, hxcount⟩ := ih (by omega)
      have hcap := hb.room
      have hmax := hb.counts
      have hwpos := hb.writes
      obtain ⟨u, hu, htokens', hcount', hfired', hwrites', hxcount', -⟩ :=
        write_eq (s := t) hb (launch_mem hb (i := n) (by omega)) (by omega)
      have hindex : (n : ℤ) * (b.numPipes / b.numActive * 2) + 1 =
          2 * (n * (b.numPipes / b.numActive)) + 1 := by
        rw [← mul_assoc, mul_comm _ (2 : ℤ)]
      have hfire := fire_eq (s := u) (by omega) (by omega)
      -- the next write finds room in its pipe, whichever it is
      rw [List.range_succ, List.foldlM_append, ht, Option.bind_eq_bind, Option.bind_some,
        List.foldlM_cons, first, hindex, hu, Option.bind_eq_bind, Option.bind_some, hfire]
      refine ⟨_, rfl, ?_, ?_, hcount'.trans hcount, hwrites'.trans hwrites, hxcount'.trans hxcount⟩
      · show b.tokens u = n + 1
        omega
      · show u.fired + 1 = _
        push_cast
        omega

/-- What holds in front of the first pass. -/
theorem sound_launch (hb : b.Fits) (hempty : ∀ i < b.numPipes.toNat, s.pipes i = 0) :
    b.Sound (b.launch s) := by
  obtain ⟨t, ht, htokens, hfired, hcount, hwrites, hxcount⟩ := launch_eq hb le_rfl
    (r := { s with countread := 0, fired := 0, writes := b.numWrites, xcount := 0 })
    (tokens_eq_zero.mpr hempty) rfl
  have hactive := hb.active
  have hwpos := hb.writes
  have hdiv : b.numPipes.tdiv b.numActive = b.numPipes / b.numActive :=
    Int.tdiv_eq_ediv_of_nonneg hb.pipes.le
  have hint : int32 (b.numPipes / b.numActive * 2) = some (b.numPipes / b.numActive * 2) := by
    have hle := hb.pipes_le
    have hspace := Int.ediv_nonneg hb.pipes.le hactive.le
    have hself := Int.ediv_le_self b.numActive hb.pipes.le
    exact int32_of_nonneg (by omega) (by omega)
  rw [launch, if_neg hactive.ne', hdiv, hint, Option.bind_eq_bind, Option.bind_some]
  simp only at hcount hwrites hxcount
  exact ⟨t, ht, ⟨by omega, by omega, by omega, by omega, by omega, by omega⟩, by omega, by omega⟩

/-- A pass can be made of the pipes that are readable. -/
theorem reports_filter (b : Bench) (s : Ring) :
    b.Reports s ((List.range b.numPipes.toNat).filter fun i => s.pipes i ≠ 0) where
  nodup := List.nodup_range.filter _
  readable i hi := by simpa using hi
  some hnil i hi := by
    by_contra hne
    have hmem : i ∈ (List.range b.numPipes.toNat).filter fun i => s.pipes i ≠ 0 := by
      rw [List.mem_filter, List.mem_range]
      exact ⟨hi, decide_eq_true hne⟩
    exact List.not_mem_nil (hnil ▸ hmem)

/-! ## The main result -/

/-- **The benchmark measures what it is meant to.** With options that fit, every run of the loop comes
to an end, whatever the kernel reports in each pass: `num_active + num_writes` tokens were fired and
read, in that many passes at most, and the pipes are empty again. -/
theorem runOnce_settles {o : Option Ring} (hb : b.Fits) (hinit : b.loop.init o) :
    b.loop.Settles (fun o => ∃ t, o = some t ∧ b.Done t) o := by
  obtain ⟨s, hempty, rfl⟩ := hinit
  refine .of_measure (I := b.Sound) (μ := fun o => o.elim 0 b.left)
    (fun o active o' h hstep => h.pass hb hstep) (fun o h hstuck => ?_) (sound_launch hb hempty)
  obtain ⟨t, rfl, hsound⟩ := h
  refine ⟨t, rfl, Sound.done ⟨t, rfl, hsound⟩ hb ?_⟩
  by_contra hgoes
  exact hstuck _ _ ⟨t, rfl, hgoes, b.reports_filter t, rfl⟩

/-- Two tokens in a ring of three pipes, three times passed on: the kernel reports both pipes, then
the third one alone, and so on, or otherwise. -/
theorem runOnce_settles_ring :
    (Bench.mk 3 2 3 65536).loop.Settles
      (fun o => ∃ t, o = some t ∧ t.countread = 5 ∧ t.fired = 5 ∧ t.xcount ≤ 5)
      ((Bench.mk 3 2 3 65536).launch {}) := by
  obtain ⟨hbounded, hfinal⟩ := runOnce_settles (b := ⟨3, 2, 3, 65536⟩)
    ⟨by decide, by decide, by decide, by decide, by decide, by decide⟩ ⟨{}, fun _ _ => rfl, rfl⟩
  refine ⟨hbounded, fun as t hrun hstuck => ?_⟩
  obtain ⟨u, hu, hcount, hfired, -, hxcount⟩ := hfinal as t hrun hstuck
  exact ⟨u, hu, hcount, hfired, hxcount.trans hcount.le⟩

end Bench

end Libio
