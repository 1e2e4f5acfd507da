import Libio.Core.IoMultiplex
import Mathlib.Tactic.IntervalCases

/-! # select

The class `select` of `core/select.hh`. Its four bit sets are blocks of `size` bytes on the heap,
all of one size; a bit outside the blocks is undefined behaviour, and what an allocation leaves in a
block is an input. -/

namespace Libio

/-- The bits of a block. -/
abbrev FdSet := ℤ → Bool

/-- The class `select`. -/
structure Select where
  readsetIn : FdSet
  writesetIn : FdSet
  readsetOut : FdSet
  writesetOut : FdSet
  size : ℕ
  highestFd : ℤ
  activeFd : List ℤ

/-- `std::memset(set, 0, count)` from byte `start` of a block. -/
def FdSet.memset (set : FdSet) (start count : ℕ) : FdSet :=
  fun fd => if 8 * (start : ℤ) ≤ fd ∧ fd < 8 * ((start + count : ℕ) : ℤ) then false else set fd

namespace Select

variable (s : Select)

/-- `NFDBITS`: the bits of an `fd_mask`. -/
def nfdbits : ℕ := 64

/-- `sizeof(fd_mask)`. -/
def sizeofMask : ℕ := 8

/-- `sizeof(NFDBITS)`: the macro is an `int` expression. -/
def sizeofInt : ℕ := 4

/-- `sizeof(fd_set)`. -/
def sizeofFdSet : ℕ := 128

/-- `MAX_SELECT_FD`. -/
def maxSelectFd : ℤ := 1024

/-- The bit of a descriptor lies in the blocks. -/
def Inside (fd : ℤ) : Prop := 0 ≤ fd ∧ fd < 8 * (s.size : ℤ)

instance (fd : ℤ) : Decidable (s.Inside fd) := inferInstanceAs (Decidable (_ ∧ _))

/-- `FD_ISSET(fd, set)`. -/
def fdIsset (fd : ℤ) (set : FdSet) : Except Fault Bool :=
  if s.Inside fd then .ok (set fd) else .error .undefined

/-- `FD_SET(fd, set)` and `FD_CLR(fd, set)`. -/
def fdStore (fd : ℤ) (set : FdSet) (b : Bool) : Except Fault FdSet :=
  if s.Inside fd then .ok (Function.update set fd b) else .error .undefined

/-- `is_readset(fd)`. -/
def isReadset (fd : ℤ) : Except Fault Bool := s.fdIsset fd s.readsetIn

/-- `is_writeset(fd)`. -/
def isWriteset (fd : ℤ) : Except Fault Bool := s.fdIsset fd s.writesetIn

/-- `is_readable(fd)`. -/
def isReadable (fd : ℤ) : Except Fault Bool := s.fdIsset fd s.readsetOut

/-- `is_writeable(fd)`. -/
def isWriteable (fd : ℤ) : Except Fault Bool := s.fdIsset fd s.writesetOut

/-- `resize(n)`. The blocks are reallocated, and the new bytes of the two input sets are cleared. -/
def resize (n : ℕ) : Except Fault Select :=
  -- `readset_in + size` is a step of `size` objects of the type `fd_set`, not of `size` bytes
  let start := sizeofFdSet * s.size
  let count := n - s.size
  if start + count ≤ n then
    .ok { s with
      readsetIn := FdSet.memset s.readsetIn start count
      writesetIn := FdSet.memset s.writesetIn start count
      size := n }
  else .error .undefined

/-- The constructor; `left` is what the allocations leave in the blocks. -/
def construct (left : Select) : Except Fault Select :=
  resize { left with size := 0, highestFd := 0, activeFd := [] }
    ((32 + nfdbits) / sizeofInt * sizeofMask)

/-- `while (need < size) need *= 2;`. The size that `add` asks for is positive. -/
def double (size need : ℕ) : ℕ :=
  if 0 < need ∧ need < size then double size (need * 2) else need
termination_by size - need

/-- The bytes that `add` asks for. -/
def need (fd : ℤ) : ℕ := double s.size ((fd.toNat + nfdbits) / nfdbits * sizeofMask)

/-- The part of `add` that makes room for a descriptor. -/
def grow (fd : ℤ) : Except Fault Select :=
  if (s.size : ℤ) - 1 < fd then
    if s.need fd ≠ s.size then s.resize (s.need fd) else .ok s
  else .ok s

/-- `if (c) FD_SET(fd, set)`, and the same with `FD_CLR`. -/
def fdStoreIf (c : Bool) (fd : ℤ) (set : FdSet) (b : Bool) : Except Fault FdSet :=
  if c then s.fdStore fd set b else .ok set

/-- `if (type & RD) FD_SET(fd, readset_in); if (type & WR) FD_SET(fd, writeset_in);`, and the same
with `FD_CLR`. -/
def fdStores (fd : ℤ) (type : Mask) (b : Bool) : Except Fault Select := do
  let readset ← s.fdStoreIf type.rd fd s.readsetIn b
  let writeset ← s.fdStoreIf type.wr fd s.writesetIn b
  .ok { s with readsetIn := readset, writesetIn := writeset }

/-- `add(fd, type)`. -/
def add (fd : ℤ) (type : Mask) : Except Fault (ℤ × Select) :=
  if maxSelectFd < fd then .ok (-1, s)
  else do
    let s := { s with highestFd := if s.highestFd < fd then fd else s.highestFd }
    let s ← s.grow fd
    let s ← s.fdStores fd type true
    .ok (0, s)

/-- `remove(fd, type)`. -/
def remove (fd : ℤ) (type : Mask) : Except Fault (ℤ × Select) := do
  let s ← s.fdStores fd type false
  .ok (0, s)

/-- The descriptors that the loop of `listen` visits. -/
def visited : List ℤ := (List.range (s.highestFd + 1).toNat).map Int.ofNat

/-- What the system call leaves in the output sets, and its result: the bits of the ready
descriptors, none after the time is over, and the sets as they were passed in after an error. -/
def select (a : KernelAnswer InterestSet) : ℤ × Select :=
  match a with
  | .ready r =>
      ((s.visited.map fun fd => (r fd).rd.toNat + (r fd).wr.toNat).sum,
        { s with readsetOut := fun fd => (r fd).rd, writesetOut := fun fd => (r fd).wr })
  | .timeout => (0, { s with readsetOut := fun _ => false, writesetOut := fun _ => false })
  | .error => (-1, s)

/-- `listen(timeout)`, with the answer of the kernel. -/
def listen (a : KernelAnswer InterestSet) : Except Fault (ℤ × Select) :=
  let s := { s with readsetOut := s.readsetIn, writesetOut := s.writesetIn, activeFd := [] }
  let (res, s) := s.select a
  -- the loop reads the bits up to `highest_fd`, whatever the result was
  if s.highestFd < 8 * (s.size : ℤ) then
    .ok (res, { s with activeFd := s.visited.filter fun fd => s.readsetOut fd || s.writesetOut fd })
  else .error .undefined

/-- The calls about interest. -/
def call : IoCall → Except Fault (Option Bool × Select)
  | .add fd type => (s.add fd type).map fun r => (none, r.2)
  | .remove fd type => (s.remove fd type).map fun r => (none, r.2)
  | .isReadset fd => (s.isReadset fd).map fun b => (some b, s)
  | .isWriteset fd => (s.isWriteset fd).map fun b => (some b, s)

/-- The interest the input sets record. -/
def interest (fd : ℤ) : Mask := if s.Inside fd then ⟨s.readsetIn fd, s.writesetIn fd⟩ else .zero

/-- The descriptors the kernel finds ready are among those passed in. -/
def Admits (a : KernelAnswer InterestSet) : Prop :=
  match a with
  | .ready r => ∀ fd, (r fd).without (s.interest fd) = .zero
  | .timeout => True
  | .error => True

/-- What an answer reports. -/
def reported (a : KernelAnswer InterestSet) : InterestSet :=
  match a with
  | .ready r => r
  | .timeout => .empty
  | .error => .empty

/-- The class behind the interface. -/
def multiplex : IoMultiplex where
  State := Select
  Report := InterestSet
  new s := ∃ left, construct left = .ok s
  call := call
  listen := listen
  getActiveFd := activeFd
  isReadable := isReadable
  isWriteable := isWriteable
  Covers fd := 0 ≤ fd ∧ fd ≤ maxSelectFd
  Admits := Admits
  reported _ := reported
  interest := interest

/-! ## States of the class -/

/-- A state that calls lead to: the blocks have their first size, and every bit of the input sets is
at most `highest_fd`. -/
structure Wf : Prop where
  size : s.size = 192
  nonneg : 0 ≤ s.highestFd
  highest : s.highestFd ≤ maxSelectFd
  bound : ∀ fd, s.interest fd ≠ .zero → fd ≤ s.highestFd

/-- The descriptors that `add` has room for: those of the first 192 bits, which it takes for bytes,
and those for which doubling the wanted size meets the size of the blocks. -/
def Fits (fd : ℤ) : Prop := fd < 192 ∨ (320 ≤ fd ∧ fd < 384) ∨ (704 ≤ fd ∧ fd < 768)

instance (fd : ℤ) : Decidable (Fits fd) := inferInstanceAs (Decidable (_ ∨ _))

variable {s} {fd : ℤ} {type : Mask}

/-- The descriptors of `select` lie inside the blocks. -/
theorem Wf.inside (h : s.Wf) (h0 : 0 ≤ fd) (h1 : fd ≤ maxSelectFd) : s.Inside fd := by
  have hsize := h.size
  unfold maxSelectFd at h1
  unfold Inside
  omega

/-- What the constructor leaves: cleared blocks for 1536 descriptors. -/
def fresh (left : Select) : Select where
  readsetIn := FdSet.memset left.readsetIn 0 192
  writesetIn := FdSet.memset left.writesetIn 0 192
  readsetOut := left.readsetOut
  writesetOut := left.writesetOut
  size := 192
  highestFd := 0
  activeFd := []

/-- The constructor returns empty sets. -/
theorem construct_eq (left : Select) : construct left = .ok (fresh left) := rfl

/-- There is no interest in a fresh object. -/
@[simp] theorem interest_fresh (left : Select) : (fresh left).interest = InterestSet.empty := by
  funext fd
  unfold interest InterestSet.empty
  split
  · next h =>
      have hin : 8 * ((0 : ℕ) : ℤ) ≤ fd ∧ fd < 8 * ((0 + 192 : ℕ) : ℤ) := h
      simp only [fresh, FdSet.memset, if_pos hin]
      rfl
  · rfl

/-- A fresh object is well formed. -/
theorem wf_fresh (left : Select) : (fresh left).Wf where
  size := rfl
  nonneg := le_rfl
  highest := by simp [fresh, maxSelectFd]
  bound fd h := by
    rw [interest_fresh] at h
    exact absurd rfl h

/-- The sizes that doubling leads to from those above the size of the blocks. -/
theorem double_spec {w : ℕ} (h4 : 4 ≤ w) (h17 : w ≤ 17) :
    (double 192 (w * 8) = 192 ↔ w = 6 ∨ w = 12) ∧ double 192 (w * 8) < 24576 := by
  interval_cases w <;> simp [double]

/-- **Growing** writes outside the new blocks, unless no growth is asked for. -/
theorem grow_eq (h : s.size = 192) (hmax : fd ≤ maxSelectFd) :
    s.grow fd = if Fits fd then .ok s else .error .undefined := by
  unfold maxSelectFd at hmax
  unfold grow
  by_cases hlow : fd < 192
  · rw [if_neg (by omega), if_pos (.inl hlow)]
  · obtain ⟨hneed, hbound⟩ := double_spec (w := (fd.toNat + 64) / 64) (by omega) (by omega)
    have hfits : s.need fd = s.size ↔ Fits fd := by
      rw [need, h]
      refine hneed.trans ?_
      unfold Fits
      omega
    rw [if_pos (by omega)]
    by_cases hf : Fits fd
    · rw [if_neg (not_not.mpr (hfits.mpr hf)), if_pos hf]
    · rw [if_pos fun he => hf (hfits.mp he), if_neg hf]
      have hlt : s.need fd < 24576 := by
        rw [need, h]
        exact hbound
      unfold resize sizeofFdSet
      rw [if_neg (by omega)]

/-- One bit set is written to where the type asks for it. -/
theorem fdStoreIf_eq_ok {c b : Bool} {set set' : FdSet} : s.fdStoreIf c fd set b = .ok set' ↔
    (c → s.Inside fd) ∧ set' = if c then Function.update set fd b else set := by
  cases c with
  | false => simp [fdStoreIf, eq_comm]
  | true =>
      by_cases hin : s.Inside fd
      · simp [fdStoreIf, fdStore, hin, eq_comm]
      · simp [fdStoreIf, fdStore, hin]

/-- The input sets with the bits of a type written. -/
def stored (s : Select) (fd : ℤ) (type : Mask) (b : Bool) : Select :=
  { s with
    readsetIn := if type.rd then Function.update s.readsetIn fd b else s.readsetIn
    writesetIn := if type.wr then Function.update s.writesetIn fd b else s.writesetIn }

/-- A store does not move the end of the blocks. -/
@[simp] theorem inside_stored {b : Bool} {fd' : ℤ} :
    (s.stored fd type b).Inside fd' ↔ s.Inside fd' := Iff.rfl

/-- The read bit that was stored. -/
@[simp] theorem readsetIn_stored_self {b : Bool} :
    (s.stored fd type b).readsetIn fd = if type.rd then b else s.readsetIn fd := by
  simp only [stored]
  split <;> simp

/-- The write bit that was stored. -/
@[simp] theorem writesetIn_stored_self {b : Bool} :
    (s.stored fd type b).writesetIn fd = if type.wr then b else s.writesetIn fd := by
  simp only [stored]
  split <;> simp

/-- The bits of other descriptors stay. -/
theorem interest_stored_of_ne {b : Bool} {fd' : ℤ} (h : fd' ≠ fd) :
    (s.stored fd type b).interest fd' = s.interest fd' := by
  have hread : (s.stored fd type b).readsetIn fd' = s.readsetIn fd' := by
    simp only [stored]
    split <;> simp [h]
  have hwrite : (s.stored fd type b).writesetIn fd' = s.writesetIn fd' := by
    simp only [stored]
    split <;> simp [h]
  rw [interest, hread, hwrite]
  rfl

/-- `FD_SET` and `FD_CLR` stay inside the blocks, unless there is nothing to store. -/
theorem fdStores_eq_ok {b : Bool} {t : Select} :
    s.fdStores fd type b = .ok t ↔ (type ≠ .zero → s.Inside fd) ∧ t = s.stored fd type b := by
  have htype : (type ≠ .zero → s.Inside fd) ↔ (type.rd → s.Inside fd) ∧ (type.wr → s.Inside fd) := by
    obtain ⟨rd, wr⟩ := type
    cases rd <;> cases wr <;> simp [Mask.zero]
  rw [htype]
  unfold fdStores
  constructor
  · intro h
    obtain ⟨readset, hread, h⟩ := bind_eq_ok.mp h
    obtain ⟨writeset, hwrite, h⟩ := bind_eq_ok.mp h
    obtain ⟨hin, rfl⟩ := fdStoreIf_eq_ok.mp hread
    obtain ⟨hin', rfl⟩ := fdStoreIf_eq_ok.mp hwrite
    obtain rfl := Except.ok.inj h
    exact ⟨⟨hin, hin'⟩, rfl⟩
  · rintro ⟨⟨hin, hin'⟩, rfl⟩
    refine bind_eq_ok.mpr ⟨_, fdStoreIf_eq_ok.mpr ⟨hin, rfl⟩, ?_⟩
    exact bind_eq_ok.mpr ⟨_, fdStoreIf_eq_ok.mpr ⟨hin', rfl⟩, rfl⟩

/-- Every way in which `add` returns. -/
theorem add_eq_ok (h : s.size = 192) {r : ℤ × Select} :
    s.add fd type = .ok r ↔ (maxSelectFd < fd ∧ r = (-1, s)) ∨
      (fd ≤ maxSelectFd ∧ Fits fd ∧ (type ≠ .zero → s.Inside fd) ∧
        r = (0, { s with highestFd := max s.highestFd fd }.stored fd type true)) := by
  have hhigh : (if s.highestFd < fd then fd else s.highestFd) = max s.highestFd fd := by
    split <;> omega
  unfold add
  by_cases hmax : maxSelectFd < fd
  · rw [if_pos hmax, Except.ok.injEq]
    constructor
    · rintro rfl
      exact .inl ⟨hmax, rfl⟩
    · rintro (⟨-, rfl⟩ | ⟨hle, -⟩)
      · rfl
      · exact absurd hmax (not_lt.mpr hle)
  · have hle : fd ≤ maxSelectFd := not_lt.mp hmax
    rw [if_neg hmax, hhigh]
    simp only [grow_eq (s := { s with highestFd := max s.highestFd fd }) h hle]
    by_cases hfits : Fits fd
    · rw [if_pos hfits]
      change ({ s with highestFd := max s.highestFd fd }.fdStores fd type true >>= fun t =>
        Except.ok ((0 : ℤ), t)) = .ok r ↔ _
      constructor
      · intro hr
        obtain ⟨t, ht, hr⟩ := bind_eq_ok.mp hr
        obtain ⟨hin, rfl⟩ := fdStores_eq_ok.mp ht
        exact .inr ⟨hle, hfits, hin, (Except.ok.inj hr).symm⟩
      · rintro (⟨hlt, -⟩ | ⟨-, -, hin, rfl⟩)
        · exact absurd hlt hmax
        · exact bind_eq_ok.mpr ⟨_, fdStores_eq_ok.mpr ⟨hin, rfl⟩, rfl⟩
    · rw [if_neg hfits]
      constructor
      · nofun
      · rintro (⟨hlt, -⟩ | ⟨-, hf, -⟩)
        · exact absurd hlt hmax
        · exact absurd hf hfits

/-- Every way in which `remove` returns. -/
theorem remove_eq_ok {r : ℤ × Select} : s.remove fd type = .ok r ↔
    (type ≠ .zero → s.Inside fd) ∧ r = (0, s.stored fd type false) := by
  constructor
  · intro hr
    obtain ⟨t, ht, hr⟩ := bind_eq_ok.mp hr
    obtain ⟨hin, rfl⟩ := fdStores_eq_ok.mp ht
    exact ⟨hin, (Except.ok.inj hr).symm⟩
  · rintro ⟨hin, rfl⟩
    exact bind_eq_ok.mpr ⟨_, fdStores_eq_ok.mpr ⟨hin, rfl⟩, rfl⟩

/-- What writing bits does to the recorded interest. -/
theorem interest_stored {b : Bool} (hin : s.Inside fd) : (s.stored fd type b).interest =
    if b then InterestSet.add s.interest fd type else InterestSet.remove s.interest fd type := by
  funext fd'
  by_cases hfd : fd' = fd
  · subst hfd
    obtain ⟨rd, wr⟩ := type
    cases b <;> cases rd <;> cases wr <;>
      simp [interest, hin, InterestSet.add, InterestSet.remove, Mask.or, Mask.without]
  · rw [interest_stored_of_ne hfd]
    cases b <;> simp [InterestSet.add, InterestSet.remove, hfd]

/-- A descriptor with recorded interest lies in the blocks. -/
theorem inside_of_interest (h : s.interest fd ≠ .zero) : s.Inside fd := by
  by_contra hout
  exact h (if_neg hout)

/-- **Adding** keeps the state well formed. -/
theorem Wf.add (h : s.Wf) {r : ℤ × Select} (hr : s.add fd type = .ok r) : r.2.Wf := by
  rcases (add_eq_ok h.size).mp hr with ⟨-, rfl⟩ | ⟨hmax, -, -, rfl⟩
  · exact h
  · refine ⟨h.size, le_trans h.nonneg (le_max_left _ _), max_le h.highest hmax, fun fd' hfd' => ?_⟩
    by_cases hfd : fd' = fd
    · subst hfd
      exact le_max_right _ _
    · rw [interest_stored_of_ne hfd] at hfd'
      exact le_trans (h.bound fd' hfd') (le_max_left _ _)

/-- **Removing** keeps the state well formed. -/
theorem Wf.remove (h : s.Wf) {r : ℤ × Select} (hr : s.remove fd type = .ok r) : r.2.Wf := by
  obtain ⟨-, rfl⟩ := remove_eq_ok.mp hr
  refine ⟨h.size, h.nonneg, h.highest, fun fd' hfd' => h.bound fd' ?_⟩
  have hin : s.Inside fd' := inside_stored.mp (inside_of_interest hfd')
  by_cases hfd : fd' = fd
  · subst hfd
    rw [interest_stored hin] at hfd'
    rintro hz
    exact hfd' (by simp [InterestSet.remove, hz, Mask.without, Mask.zero])
  · rwa [interest_stored_of_ne hfd] at hfd'

/-- Every call that returns keeps the state well formed. -/
theorem Wf.call (h : s.Wf) {c : IoCall} {o : Option Bool} {t : Select}
    (hc : s.call c = .ok (o, t)) : t.Wf := by
  cases c with
  | add fd type =>
      obtain ⟨r, hr, hrt⟩ := map_eq_ok.mp hc
      obtain ⟨-, rfl⟩ := Prod.mk.inj hrt
      exact h.add hr
  | remove fd type =>
      obtain ⟨r, hr, hrt⟩ := map_eq_ok.mp hc
      obtain ⟨-, rfl⟩ := Prod.mk.inj hrt
      exact h.remove hr
  | isReadset fd =>
      obtain ⟨b, -, hbt⟩ := map_eq_ok.mp hc
      obtain ⟨-, rfl⟩ := Prod.mk.inj hbt
      exact h
  | isWriteset fd =>
      obtain ⟨b, -, hbt⟩ := map_eq_ok.mp hc
      obtain ⟨-, rfl⟩ := Prod.mk.inj hbt
      exact h

/-! ## What `listen` shows -/

/-- What the output sets hold after the system call. -/
def outcome (s : Select) (a : KernelAnswer InterestSet) : InterestSet :=
  match a with
  | .ready r => r
  | .timeout => .empty
  | .error => fun fd => ⟨s.readsetIn fd, s.writesetIn fd⟩

/-- **`listen` returns**, and shows the output sets. -/
theorem Wf.listen (h : s.Wf) (a : KernelAnswer InterestSet) :
    ∃ res t, s.listen a = .ok (res, t) ∧ t.Wf ∧
      (∀ fd, fd ∈ t.activeFd ↔ (0 ≤ fd ∧ fd ≤ s.highestFd) ∧ s.outcome a fd ≠ .zero) ∧
      ∀ fd, 0 ≤ fd → fd ≤ maxSelectFd →
        t.isReadable fd = .ok (s.outcome a fd).rd ∧ t.isWriteable fd = .ok (s.outcome a fd).wr := by
  have hlt : s.highestFd < 8 * (s.size : ℤ) := by
    have hmax := h.highest
    rw [h.size]
    unfold maxSelectFd at hmax
    omega
  have hvisited : ∀ fd, fd ∈ s.visited ↔ 0 ≤ fd ∧ fd ≤ s.highestFd := by
    intro fd
    have hnonneg := h.nonneg
    simp only [visited, List.mem_map, List.mem_range, Int.ofNat_eq_natCast]
    constructor
    · rintro ⟨n, hn, rfl⟩
      omega
    · rintro ⟨h0, hle⟩
      exact ⟨fd.toNat, by omega, by omega⟩
  have hzero : ∀ m : Mask, (m.rd || m.wr) = true ↔ m ≠ .zero := by decide
  have hmem : ∀ fd, fd ∈ s.visited.filter (fun fd => (s.outcome a fd).rd || (s.outcome a fd).wr) ↔
      (0 ≤ fd ∧ fd ≤ s.highestFd) ∧ s.outcome a fd ≠ .zero := by
    intro fd
    rw [List.mem_filter, hvisited, hzero]
  have hbit : ∀ (set : FdSet) fd, 0 ≤ fd → fd ≤ maxSelectFd → s.fdIsset fd set = .ok (set fd) :=
    fun set fd h0 h1 => if_pos (h.inside h0 h1)
  cases a with
  | ready r =>
      exact ⟨_, _, if_pos hlt, ⟨h.size, h.nonneg, h.highest, h.bound⟩, hmem,
        fun fd h0 h1 => ⟨hbit _ fd h0 h1, hbit _ fd h0 h1⟩⟩
  | timeout =>
      exact ⟨_, _, if_pos hlt, ⟨h.size, h.nonneg, h.highest, h.bound⟩, hmem,
        fun fd h0 h1 => ⟨hbit _ fd h0 h1, hbit _ fd h0 h1⟩⟩
  | error =>
      exact ⟨_, _, if_pos hlt, ⟨h.size, h.nonneg, h.highest, h.bound⟩, hmem,
        fun fd h0 h1 => ⟨hbit _ fd h0 h1, hbit _ fd h0 h1⟩⟩

/-- **After an error** the interest itself is shown as ready: a call reports what the kernel
answered unless the kernel answered with an error and some descriptor is watched. -/
theorem Wf.reports_iff (h : s.Wf) {a : KernelAnswer InterestSet} (ha : s.Admits a) :
    multiplex.Reports s a ↔ a ≠ .error ∨ s.interest = InterestSet.empty := by
  obtain ⟨res, t, hlisten, -, hactive, hquery⟩ := h.listen a
  have hshows : multiplex.Reports s a ↔ multiplex.Shows t (reported a) :=
    IoMultiplex.reports_iff_shows hlisten
  rw [hshows]
  -- an outcome that is what was reported, and reports only what was passed in
  have hok : (∀ fd, s.Inside fd → s.outcome a fd = reported a fd) →
      (∀ fd, reported a fd ≠ .zero → s.interest fd ≠ .zero) → multiplex.Shows t (reported a) := by
    intro hsame hpassed
    refine ⟨fun fd => (hactive fd).trans ?_, fun fd hfd => ?_, fun fd hfd => ?_⟩
    · constructor
      · rintro ⟨⟨h0, hle⟩, hne⟩
        rwa [← hsame fd (h.inside h0 (le_trans hle h.highest))]
      · intro hr
        have hin := inside_of_interest (hpassed fd hr)
        rw [hsame fd hin]
        exact ⟨⟨hin.1, h.bound fd (hpassed fd hr)⟩, hr⟩
    · rw [← hsame fd (h.inside hfd.1 hfd.2)]
      exact (hquery fd hfd.1 hfd.2).1
    · rw [← hsame fd (h.inside hfd.1 hfd.2)]
      exact (hquery fd hfd.1 hfd.2).2
  cases a with
  | ready r =>
      refine iff_of_true (hok (fun _ _ => rfl) fun fd hr hz => hr ?_) (.inl nofun)
      have hsub := ha fd
      rwa [hz, Mask.without_zero] at hsub
  | timeout => exact iff_of_true (hok (fun _ _ => rfl) fun fd hr => absurd rfl hr) (.inl nofun)
  | error =>
      constructor
      · intro hs
        refine .inr (funext fun fd => ?_)
        by_contra hne
        have hin := inside_of_interest hne
        have hmem : fd ∈ t.activeFd := by
          refine (hactive fd).mpr ⟨⟨hin.1, h.bound fd hne⟩, ?_⟩
          rwa [interest, if_pos hin] at hne
        exact (hs.active fd).mp hmem rfl
      · rintro (hne | hempty)
        · exact absurd rfl hne
        · refine hok (fun fd hin => ?_) fun fd hr => absurd rfl hr
          have hz := congrFun hempty fd
          rwa [interest, if_pos hin] at hz

/-- Every reachable state is well formed. -/
theorem wf_of_reachable (h : multiplex.lts.Reachable s) : s.Wf := by
  refine h.invariant (P := Wf) ?_ ?_
  · rintro _ ⟨left, hleft⟩
    obtain rfl := Except.ok.inj hleft
    exact wf_fresh left
  · intro s e t hs hstep
    cases e with
    | call c =>
        obtain ⟨o, hcall⟩ := hstep
        exact hs.call hcall
    | listen a =>
        obtain ⟨-, res, hlisten⟩ := hstep
        obtain ⟨res', t', hlisten', ht, -⟩ := hs.listen a
        obtain ⟨-, rfl⟩ := Prod.mk.inj (Except.ok.inj (hlisten'.symm.trans hlisten))
        exact ht

/-! ## Following the set of interests -/

/-- The calls that `select` completes: `add` of a descriptor there is room for. -/
def Completes : IoCall → Prop
  | .add fd _ => Fits fd
  | _ => True

instance : DecidablePred Completes
  | .add fd _ => inferInstanceAs (Decidable (Fits fd))
  | .remove _ _ | .isReadset _ | .isWriteset _ => .isTrue trivial

/-- **One call.** Where `select` completes a call it does what the set of interests does. -/
theorem Wf.matches_iff (h : s.Wf) {c : IoCall} (hc : c.Valid) :
    Matches multiplex.call InterestSet.call multiplex.interest s c ↔ Completes c := by
  have hin : s.Inside c.fd := h.inside hc.fd.1 (le_trans hc.fd.2 (by decide))
  cases c with
  | add fd type =>
      have hmax : fd ≤ maxSelectFd := le_trans hc.fd.2 (by decide)
      constructor
      · rintro ⟨o, t, hcall, -⟩
        obtain ⟨r, hr, -⟩ := map_eq_ok.mp hcall
        rcases (add_eq_ok h.size).mp hr with ⟨hlt, -⟩ | ⟨-, hfits, -⟩
        · exact absurd hmax (not_le.mpr hlt)
        · exact hfits
      · intro hfits
        have hadd := (add_eq_ok h.size).mpr (.inr ⟨hmax, hfits, fun _ : type ≠ .zero => hin, rfl⟩)
        refine ⟨_, _, map_eq_ok.mpr ⟨_, hadd, rfl⟩, Prod.ext rfl ?_⟩
        exact interest_stored (s := { s with highestFd := max s.highestFd fd }) (b := true) hin
  | remove fd type =>
      refine iff_of_true ?_ trivial
      have hremove := remove_eq_ok.mpr ⟨fun _ : type ≠ .zero => hin, rfl⟩
      exact ⟨_, _, map_eq_ok.mpr ⟨_, hremove, rfl⟩, Prod.ext rfl (interest_stored (b := false) hin)⟩
  | isReadset fd =>
      refine iff_of_true ⟨_, s, map_eq_ok.mpr ⟨_, if_pos hin, rfl⟩, ?_⟩ trivial
      exact Prod.ext (by simp [multiplex, InterestSet.call, interest, show s.Inside fd from hin]) rfl
  | isWriteset fd =>
      refine iff_of_true ⟨_, s, map_eq_ok.mpr ⟨_, if_pos hin, rfl⟩, ?_⟩ trivial
      exact Prod.ext (by simp [multiplex, InterestSet.call, interest, show s.Inside fd from hin]) rfl

/-- **`select` follows the set of interests** along the calls that fit its blocks, and along no
other. -/
theorem followsSet_iff {left : Select} {calls : List IoCall} (hcalls : ∀ c ∈ calls, c.Valid) :
    multiplex.FollowsSet (fresh left) calls ↔
      AllMeet InterestSet.call (fun _ => Completes) .empty calls := by
  have hkeep : ∀ s c o t, Wf s → c.Valid → multiplex.call s c = .ok (o, t) → Wf t :=
    fun _ _ _ _ h _ hc => h.call hc
  have hstep : ∀ s c, Wf s → c.Valid →
      (Matches multiplex.call InterestSet.call multiplex.interest s c ↔ Completes c) :=
    fun _ _ h hc => h.matches_iff hc
  rw [← interest_fresh left]
  exact follows_iff (C := fun _ => Completes) hkeep hstep (wf_fresh left) hcalls

end Select

end Libio
