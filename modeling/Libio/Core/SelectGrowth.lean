import Libio.Core.Buffer
import Libio.Core.Select

/-! # How the bit sets of `select` grow

The class `select` once more, its bit sets as blocks of bytes, so that it can be said which bytes
`resize` writes. It clears as many bytes as are new, but from a pointer on that has been moved by
`size` objects of the type `fd_set`, so that they lie behind the new block. Growing is safe exactly in
runs in which nothing grows (`growsSafely_iff`), and the first size of the blocks is enough for most
descriptors. In these runs the class is the one on bits (`FirstSize.toSelect_add`), which is
undefined exactly where a byte outside a block is written (`FirstSize.safe_iff_toSelect`). -/

namespace Libio

/-- What the four calls of `realloc` leave in the bytes they add; all of them succeed. -/
structure Reallocs where
  readsetIn : ℕ → UInt8
  readsetOut : ℕ → UInt8
  writesetIn : ℕ → UInt8
  writesetOut : ℕ → UInt8

/-- Allocations that leave the same byte everywhere. -/
def Reallocs.filled (c : UInt8) : Reallocs := ⟨fun _ => c, fun _ => c, fun _ => c, fun _ => c⟩

/-- The class `select`, its bit sets as blocks of bytes. -/
structure SelectBlocks where
  readsetIn : List UInt8 := []
  writesetIn : List UInt8 := []
  readsetOut : List UInt8 := []
  writesetOut : List UInt8 := []
  /-- The member `size`, an `int`. -/
  size : ℤ := 0
  highestFd : ℤ := 0
  activeFd : List ℤ := []

/-- A call that may make the blocks larger. -/
inductive SelectCall
  | add (fd : ℤ) (type : Mask)
  | resize (n : ℕ)
  deriving DecidableEq

/-- `FD_SET(fd, set)`. The bit of a descriptor in its mask word is bit `fd % 8` of byte `fd / 8`, the
least significant byte of a word being its first one. -/
def fdSet (set : List UInt8) (fd : ℤ) : List UInt8 :=
  set.modify (fd.toNat / 8) fun c => c ||| UInt8.ofNat (2 ^ (fd.toNat % 8))

/-- The whole mask word of a descriptor, which `FD_SET` reads and writes, lies in a block. -/
def Covers (set : List UInt8) (fd : ℤ) : Prop := (fd / 64 + 1) * 8 ≤ set.length

instance (set : List UInt8) (fd : ℤ) : Decidable (Covers set fd) :=
  inferInstanceAs (Decidable (_ ≤ _))

namespace SelectBlocks

open Select (sizeofFdSet sizeofMask nfdbits maxSelectFd)

variable (s : SelectBlocks)

/-- `readset_in + size`, counted in bytes from the start of the block: the pointer moves in steps of
objects of the type `fd_set`. -/
def clearFrom : ℤ := sizeofFdSet * s.size

/-- `n - size`, computed in `size_t`. -/
def clearCount (n : ℕ) : ℤ := (n - s.size) % 2 ^ 64

/-- `resize(n)`, with allocations that succeed. What `memset` writes outside a block is not a part of
the state, see `Clears`. -/
def resize (mem : Reallocs) (n : ℕ) : SelectBlocks :=
  { s with
    readsetIn := memset (realloc s.readsetIn n mem.readsetIn) s.clearFrom (s.clearCount n) 0
    readsetOut := realloc s.readsetOut n mem.readsetOut
    writesetIn := memset (realloc s.writesetIn n mem.writesetIn) s.clearFrom (s.clearCount n) 0
    writesetOut := realloc s.writesetOut n mem.writesetOut
    -- `size = n` takes a `size_t` into an `int`
    size := (n : ℤ).bmod (2 ^ 32) }

/-- `resize(n)` writes byte `i` of each input set, counted from the start of the new block. -/
def Clears (n : ℕ) (i : ℤ) : Prop := s.clearFrom ≤ i ∧ i < s.clearFrom + s.clearCount n

/-- The constructor. -/
def construct (mem : Reallocs) : SelectBlocks :=
  resize {} mem ((32 + nfdbits) / Select.sizeofInt * sizeofMask)

/-- The `need` of `add`, when doubling it does not overflow; the loop is that of `__expand`. -/
def need (fd : ℤ) : Option ℤ := Buffer.doubled 32 ((fd + nfdbits).tdiv nfdbits * sizeofMask) s.size

/-- What `add` passes to `resize`, if it calls it. -/
def wanted (fd : ℤ) : Option (Option ℕ) :=
  if s.size - 1 < fd then
    (s.need fd).map fun need => if need ≠ s.size then some need.toNat else none
  else some none

/-- The part of `add` that makes room for a descriptor. -/
def grow (mem : Reallocs) (fd : ℤ) : Option SelectBlocks :=
  (s.wanted fd).map fun want => want.elim s (s.resize mem)

/-- `add(fd, type)`. -/
def add (mem : Reallocs) (fd : ℤ) (type : Mask) : Option (ℤ × SelectBlocks) :=
  if maxSelectFd < fd then some (-1, s)
  else do
    let s := { s with highestFd := if s.highestFd < fd then fd else s.highestFd }
    let s ← s.grow mem fd
    some (0, { s with
      readsetIn := if type.rd then fdSet s.readsetIn fd else s.readsetIn
      writesetIn := if type.wr then fdSet s.writesetIn fd else s.writesetIn })

/-- A call, by the state it leaves. -/
def call (mem : Reallocs) : SelectCall → Option SelectBlocks
  | .add fd type => (s.add mem fd type).map Prod.snd
  | .resize n => some (s.resize mem n)

/-- The calls in question: descriptors that fit an `fd_set`, sizes that are not below the current
one. -/
def Valid : SelectCall → Prop
  | .add fd _ => 0 ≤ fd ∧ fd ≤ 1023
  | .resize n => s.size ≤ n ∧ n < 2 ^ 64

/-- The size that a call passes to `resize`. -/
def Resizes : SelectCall → ℕ → Prop
  | .add fd _, n => s.wanted fd = some (some n)
  | .resize m, n => m = n

instance (n : ℕ) (i : ℤ) : Decidable (s.Clears n i) := inferInstanceAs (Decidable (_ ∧ _))

instance : DecidablePred s.Valid
  | .add fd _ => inferInstanceAs (Decidable (0 ≤ fd ∧ fd ≤ 1023))
  | .resize n => inferInstanceAs (Decidable (s.size ≤ n ∧ n < 2 ^ 64))

instance : ∀ c n, Decidable (s.Resizes c n)
  | .add fd _, n => inferInstanceAs (Decidable (s.wanted fd = some (some n)))
  | .resize m, n => inferInstanceAs (Decidable (m = n))

/-- The class at work: constructed, then any of these calls. -/
def calls : Lts SelectBlocks (Reallocs × SelectCall) where
  init s := ∃ mem, s = construct mem
  step s l t := s.Valid l.2 ∧ s.call l.1 l.2 = some t

/-- What a call should be like that may make the blocks larger: `resize` writes to the new blocks
alone, keeps the old bytes of the input sets and clears the new ones, and the input sets have the
mask word that `FD_SET` writes. -/
structure GrowsSafely (l : Reallocs × SelectCall) : Prop where
  inside : ∀ n, s.Resizes l.2 n → ∀ i, s.Clears n i → 0 ≤ i ∧ i < n
  kept : ∀ n, s.Resizes l.2 n → ∀ i : ℕ, i < s.size →
    (s.resize l.1 n).readsetIn[i]? = s.readsetIn[i]? ∧
      (s.resize l.1 n).writesetIn[i]? = s.writesetIn[i]?
  cleared : ∀ n, s.Resizes l.2 n → ∀ i : ℕ, s.size ≤ i → i < n →
    (s.resize l.1 n).readsetIn[i]? = some 0 ∧ (s.resize l.1 n).writesetIn[i]? = some 0
  covers : ∀ fd type, l.2 = .add fd type → ∀ t, s.grow l.1 fd = some t →
    Covers t.readsetIn fd ∧ Covers t.writesetIn fd

/-- A call that does not make the blocks of the first size larger. -/
def Stays : SelectCall → Prop
  | .add fd _ => Select.Fits fd
  | .resize n => n = 192

instance : DecidablePred Stays
  | .add fd _ => inferInstanceAs (Decidable (Select.Fits fd))
  | .resize n => inferInstanceAs (Decidable (n = 192))

/-! ## Blocks of the first size -/

/-- The blocks have the size the constructor gave them. -/
structure FirstSize : Prop where
  size : s.size = 192
  readsetIn : s.readsetIn.length = 192
  writesetIn : s.writesetIn.length = 192
  readsetOut : s.readsetOut.length = 192
  writesetOut : s.writesetOut.length = 192

variable {s} {t : SelectBlocks} {mem : Reallocs} {fd : ℤ} {type : Mask} {c : SelectCall} {n : ℕ}

/-- The pointer that the constructor clears from has not been moved. -/
theorem clearFrom_fresh : clearFrom {} = 0 := rfl

/-- The first growth clears 192 bytes. -/
theorem clearCount_fresh : clearCount {} 192 = 192 := rfl

/-- The constructor clears its blocks from their first byte on. -/
theorem construct_eq (mem : Reallocs) : construct mem =
    { readsetIn := memset (realloc [] 192 mem.readsetIn) 0 192 0
      readsetOut := realloc [] 192 mem.readsetOut
      writesetIn := memset (realloc [] 192 mem.writesetIn) 0 192 0
      writesetOut := realloc [] 192 mem.writesetOut
      size := 192 } := by
  have hbytes : (32 + nfdbits) / Select.sizeofInt * sizeofMask = 192 := rfl
  have hsize : ((192 : ℕ) : ℤ).bmod (2 ^ 32) = 192 := rfl
  rw [construct, hbytes, resize, clearFrom_fresh, clearCount_fresh, hsize]

/-- The constructor's own call of `resize` is safe. -/
theorem construct_safe (mem : Reallocs) : GrowsSafely {} (mem, .resize 192) := by
  constructor
  case inside =>
    rintro n rfl i ⟨hlow, hhigh⟩
    rw [clearFrom_fresh, clearCount_fresh] at *
    omega
  case kept =>
    rintro n rfl i hi
    have hsize : (i : ℤ) < 0 := hi
    omega
  case cleared =>
    rintro n rfl i - hi
    simp only [resize, clearFrom_fresh, clearCount_fresh]
    constructor
    all_goals exact getElem?_memset (by rwa [length_realloc]) (by omega) (by omega)
  case covers =>
    rintro fd type hadd
    cases hadd

/-- The constructor makes blocks of the first size. -/
theorem firstSize_construct (mem : Reallocs) : (construct mem).FirstSize := by
  rw [construct_eq]
  constructor
  · rfl
  all_goals simp

/-- The sizes that doubling leads to from those above the first size. -/
theorem doubled_spec {w : ℤ} (h4 : 4 ≤ w) (h16 : w ≤ 16) :
    ∃ k : ℕ, Buffer.doubled 32 (w * 8) 192 = some k ∧ 192 ≤ k ∧ k < 2 ^ 31 ∧
      (k = 192 ↔ w = 6 ∨ w = 12) := by
  -- 48 and 96 bytes are doubled to 192 again, and no other number of words is
  interval_cases w
  all_goals exact ⟨_, rfl, by decide, by decide, by decide⟩

/-- What `add` wants: nothing for the descriptors that fit, larger blocks for the others. -/
theorem wanted_spec (h : s.size = 192) (h0 : 0 ≤ fd) (h1 : fd ≤ 1023) :
    (Select.Fits fd ∧ s.wanted fd = some none) ∨
      (¬Select.Fits fd ∧ ∃ n : ℕ, 192 < n ∧ n < 2 ^ 64 ∧ s.wanted fd = some (some n)) := by
  unfold wanted
  by_cases hlow : fd < 192
  · exact .inl ⟨.inl hlow, if_neg (by omega)⟩
  · -- from descriptor 192 on `need` counts the mask words, of which there are at most 16
    have hwords : (fd + nfdbits).tdiv nfdbits = (fd + 64) / 64 :=
      Int.tdiv_eq_ediv_of_nonneg (by simp only [nfdbits]; omega)
    obtain ⟨k, hk, hle, hlt, hiff⟩ := doubled_spec (w := (fd + 64) / 64) (by omega) (by omega)
    have hneed : s.need fd = some (k : ℤ) := by
      rw [need, hwords, h]
      exact hk
    have hfits : Select.Fits fd ↔ k = 192 := by
      rw [hiff]
      unfold Select.Fits
      omega
    rw [if_pos (by omega), hneed, hfits, h, Option.map_some]
    by_cases he : k = 192
    · exact .inl ⟨he, by rw [if_neg (by omega)]⟩
    · refine .inr ⟨he, k, by omega, by omega, ?_⟩
      rw [if_pos (by omega), Int.toNat_natCast]

/-- A descriptor that fits wants nothing. -/
theorem wanted_of_fits (h : s.size = 192) (h0 : 0 ≤ fd) (h1 : fd ≤ 1023) (hfits : Select.Fits fd) :
    s.wanted fd = some none := by
  rcases wanted_spec h h0 h1 with ⟨-, hnone⟩ | ⟨hnot, -⟩
  · exact hnone
  · exact absurd hfits hnot

/-- **The defect.** Where there are new bytes, others are cleared, behind the new block. -/
theorem clears_outside (h : s.size = 192) (hn : 192 < n) (hmax : n < 2 ^ 64) :
    ∃ i, s.Clears n i ∧ ¬i < n := by
  have hcount : s.clearCount n = n - 192 := by
    rw [clearCount, h]
    omega
  have hfrom : s.clearFrom = 24576 := by
    rw [clearFrom, h]
    rfl
  -- the last byte that is cleared
  refine ⟨24576 + (n - 192) - 1, ⟨?_, ?_⟩, ?_⟩
  · rw [hfrom]
    omega
  · rw [hfrom, hcount]
    omega
  · omega

/-- No byte is new when the current size is asked for. -/
theorem clearCount_same (h : s.size = 192) : s.clearCount 192 = 0 := by
  rw [clearCount, h]
  rfl

/-- Asking for the size there is changes nothing, and writes nothing. -/
theorem FirstSize.resize_eq (h : s.FirstSize) (mem : Reallocs) : s.resize mem 192 = s := by
  have hsize : ((192 : ℕ) : ℤ).bmod (2 ^ 32) = s.size := by
    rw [h.size]
    rfl
  have hread : realloc s.readsetIn 192 mem.readsetIn = s.readsetIn := h.readsetIn ▸ realloc_self _
  have hwrite : realloc s.writesetIn 192 mem.writesetIn = s.writesetIn :=
    h.writesetIn ▸ realloc_self _
  have hread' : realloc s.readsetOut 192 mem.readsetOut = s.readsetOut :=
    h.readsetOut ▸ realloc_self _
  have hwrite' : realloc s.writesetOut 192 mem.writesetOut = s.writesetOut :=
    h.writesetOut ▸ realloc_self _
  rw [resize, clearCount_same h.size, memset_zero, memset_zero, hread, hwrite, hread', hwrite',
    hsize]

/-- `FD_SET` keeps the size of the block. -/
@[simp] theorem length_fdSet (set : List UInt8) (fd : ℤ) : (fdSet set fd).length = set.length :=
  List.length_modify _ _ _

/-- The blocks of the first size have the mask words of all descriptors of an `fd_set`. -/
theorem FirstSize.covers (h : s.FirstSize) (h1 : fd ≤ 1023) :
    Covers s.readsetIn fd ∧ Covers s.writesetIn fd := by
  unfold Covers
  rw [h.readsetIn, h.writesetIn]
  omega

/-- `add` of a descriptor that fits writes its bits, and nothing else. -/
theorem FirstSize.add_eq (h : s.FirstSize) (hvalid : s.Valid (.add fd type))
    (hfits : Select.Fits fd) : s.add mem fd type = some (0, { s with
      highestFd := max s.highestFd fd
      readsetIn := if type.rd then fdSet s.readsetIn fd else s.readsetIn
      writesetIn := if type.wr then fdSet s.writesetIn fd else s.writesetIn }) := by
  obtain ⟨h0, h1⟩ := hvalid
  have hmax : ¬maxSelectFd < fd := by
    unfold maxSelectFd
    omega
  have hhigh : (if s.highestFd < fd then fd else s.highestFd) = max s.highestFd fd := by
    split <;> omega
  have hwanted : wanted { s with highestFd := max s.highestFd fd } fd = some none :=
    wanted_of_fits h.size h0 h1 hfits
  simp only [add, if_neg hmax, hhigh, grow, hwanted, Option.map_some]
  rfl

/-- **Step lemma.** A call that does not make the blocks larger returns and leaves the sizes. -/
theorem FirstSize.call (h : s.FirstSize) (mem : Reallocs) (hvalid : s.Valid c) (hc : Stays c) :
    ∃ t, s.call mem c = some t ∧ t.FirstSize := by
  cases c with
  | add fd type =>
      refine ⟨_, by rw [SelectBlocks.call, h.add_eq hvalid hc]; rfl, ?_⟩
      refine ⟨h.size, ?_, ?_, h.readsetOut, h.writesetOut⟩
      · simp only
        split
        · rw [length_fdSet, h.readsetIn]
        · exact h.readsetIn
      · simp only
        split
        · rw [length_fdSet, h.writesetIn]
        · exact h.writesetIn
  | resize n =>
      obtain rfl : n = 192 := hc
      exact ⟨s, congrArg some (h.resize_eq mem), h⟩

/-- A call that stays passes the size there is to `resize`, if any. -/
theorem FirstSize.resizes_eq (h : s.FirstSize) (hvalid : s.Valid c) (hc : Stays c)
    (hn : s.Resizes c n) : n = 192 := by
  cases c with
  | add fd type =>
      have hwanted : some none = some (some n) :=
        (wanted_of_fits h.size hvalid.1 hvalid.2 hc).symm.trans hn
      cases hwanted
  | resize m =>
      obtain rfl : m = n := hn
      exact hc

/-- A call that does not stay passes a larger size to `resize`. -/
theorem FirstSize.exists_resizes (h : s.FirstSize) (hvalid : s.Valid c) (hc : ¬Stays c) :
    ∃ n, s.Resizes c n ∧ 192 < n ∧ n < 2 ^ 64 := by
  cases c with
  | add fd type =>
      rcases wanted_spec h.size hvalid.1 hvalid.2 with ⟨hfits, -⟩ | ⟨-, n, hlt, hmax, hn⟩
      · exact absurd hfits hc
      · exact ⟨n, hn, hlt, hmax⟩
  | resize n =>
      obtain ⟨hle, hmax⟩ := hvalid
      rw [h.size] at hle
      have hne : n ≠ 192 := hc
      exact ⟨n, rfl, by omega, hmax⟩

/-- A call that stays is safe: it writes no byte, and the blocks are those of the first size. -/
theorem FirstSize.safe_of_stays (h : s.FirstSize) (hvalid : s.Valid c) (hc : Stays c) :
    s.GrowsSafely (mem, c) := by
  constructor
  case inside =>
    intro n hn i hi
    obtain rfl := h.resizes_eq hvalid hc hn
    obtain ⟨hlow, hhigh⟩ := hi
    rw [clearCount_same h.size] at hhigh
    omega
  case kept =>
    intro n hn i _
    obtain rfl := h.resizes_eq hvalid hc hn
    rw [h.resize_eq]
    exact ⟨rfl, rfl⟩
  case cleared =>
    intro n hn i hlow hhigh
    obtain rfl := h.resizes_eq hvalid hc hn
    rw [h.size] at hlow
    omega
  case covers =>
    rintro fd type rfl t ht
    rw [grow, wanted_of_fits h.size hvalid.1 hvalid.2 hc] at ht
    obtain rfl := Option.some.inj ht
    exact h.covers hvalid.2

/-- **A call is safe** exactly when it does not make the blocks larger. -/
theorem FirstSize.safe_iff_stays (h : s.FirstSize) (hvalid : s.Valid c) :
    s.GrowsSafely (mem, c) ↔ Stays c := by
  refine ⟨fun hsafe => ?_, h.safe_of_stays hvalid⟩
  by_contra hc
  -- new bytes would be cleared outside the block
  obtain ⟨n, hn, hlt, hmax⟩ := h.exists_resizes hvalid hc
  obtain ⟨i, hi, hout⟩ := clears_outside h.size hlt hmax
  exact hout (hsafe.inside n hn i hi).2

/-! ## Runs -/

/-- Calls that do not make the blocks larger can be made in any order. -/
theorem FirstSize.exists_run (h : s.FirstSize) {ls : List (Reallocs × SelectCall)}
    (hls : ∀ l ∈ ls, Stays l.2 ∧ s.Valid l.2) : ∃ t, calls.Run s ls t := by
  induction ls generalizing s with
  | nil => exact ⟨s, .nil s⟩
  | cons l ls ih =>
      obtain ⟨hl, hls⟩ := List.forall_mem_cons.mp hls
      obtain ⟨t, hcall, ht⟩ := h.call l.1 hl.2 hl.1
      obtain ⟨u, hu⟩ := ih ht fun l' hl' => by
        -- which calls are valid depends on the size alone
        refine ⟨(hls l' hl').1, ?_⟩
        have hvalid := (hls l' hl').2
        cases hc : l'.2 with
        | add fd type =>
            rw [hc] at hvalid
            exact hvalid
        | resize n =>
            rw [hc] at hvalid
            exact ⟨ht.size.trans_le (h.size ▸ hvalid.1), hvalid.2⟩
      exact ⟨u, .cons ⟨hl.2, hcall⟩ hu⟩

/-- **Growing is safe** in a run, at each of its calls, exactly when no call makes the blocks
larger. -/
theorem growsSafely_iff {ls : List (Reallocs × SelectCall)}
    (h : calls.Run (construct mem) ls t) :
    (calls.guard GrowsSafely).Run (construct mem) ls t ↔ ∀ l ∈ ls, Stays l.2 := by
  -- in blocks of the first size the two guards let the same calls through, and these keep the size
  have hexchange : (calls.guard GrowsSafely).Run (construct mem) ls t ↔
      (calls.guard fun _ l => Stays l.2).Run (construct mem) ls t := by
    refine Lts.Run.guard_congr (M := calls) (I := FirstSize)
      (fun s l t hs hstep => hs.safe_iff_stays hstep.1)
      (fun s l t hs hstep hl => ?_) (firstSize_construct mem)
    obtain ⟨t', ht', hfirst⟩ := hs.call l.1 hstep.1 hl
    obtain rfl := Option.some.inj (hstep.2.symm.trans ht')
    exact hfirst
  rw [hexchange]
  exact ⟨Lts.Run.forall_labels, h.guard_labels⟩

/-- Two descriptors that fit, one of them above the first 192, and the size there is. -/
theorem growsSafely_iff_firstBlocks :
    ∃ t, (calls.guard GrowsSafely).Run (construct (Reallocs.filled 7))
      [(Reallocs.filled 7, .add 5 ⟨true, false⟩), (Reallocs.filled 7, .add 330 ⟨true, true⟩),
        (Reallocs.filled 7, .resize 192)] t := by
  have hcalls : ∀ l ∈ [(Reallocs.filled 7, .add 5 ⟨true, false⟩),
      (Reallocs.filled 7, .add 330 ⟨true, true⟩), (Reallocs.filled 7, .resize 192)],
      Stays l.2 ∧ (construct (Reallocs.filled 7)).Valid l.2 := by
    decide
  obtain ⟨t, ht⟩ := (firstSize_construct (Reallocs.filled 7)).exists_run hcalls
  exact ⟨t, (growsSafely_iff ht).mpr fun l hl => (hcalls l hl).1⟩

/-- Descriptor 200 asks for blocks of 256 bytes, and `resize` writes byte 24576 of them. -/
theorem not_growsSafely_add :
    ∃ t, calls.Run (construct (Reallocs.filled 7))
        [(Reallocs.filled 7, .add 200 ⟨true, false⟩)] t ∧
      (construct (Reallocs.filled 7)).Resizes (.add 200 ⟨true, false⟩) 256 ∧
      (construct (Reallocs.filled 7)).Clears 256 24576 ∧
      ¬(construct (Reallocs.filled 7)).GrowsSafely (Reallocs.filled 7, .add 200 ⟨true, false⟩) := by
  have hresizes : (construct (Reallocs.filled 7)).Resizes (.add 200 ⟨true, false⟩) 256 := by
    decide +kernel
  have hclears : (construct (Reallocs.filled 7)).Clears 256 24576 := by decide +kernel
  refine ⟨_, .cons ⟨⟨by decide, by decide⟩, rfl⟩ (.nil _), hresizes, hclears, fun hsafe => ?_⟩
  exact absurd (hsafe.inside 256 hresizes 24576 hclears).2 (by decide)

/-! ## The class on bits -/

/-- The bits of a block. -/
def bits (set : List UInt8) : FdSet := fun fd =>
  decide (0 ≤ fd) && (set.getD (fd.toNat / 8) 0).toNat.testBit (fd.toNat % 8)

/-- The state that the class on bits is in. -/
def toSelect (s : SelectBlocks) : Select where
  readsetIn := bits s.readsetIn
  writesetIn := bits s.writesetIn
  readsetOut := bits s.readsetOut
  writesetOut := bits s.writesetOut
  size := s.size.toNat
  highestFd := s.highestFd
  activeFd := s.activeFd

/-- The bit of a descriptor in its byte. -/
theorem bits_natCast (set : List UInt8) (k : ℕ) :
    bits set k = (set.getD (k / 8) 0).toNat.testBit (k % 8) := by
  simp [bits]

/-- A negative descriptor has no bit. -/
theorem bits_of_neg (set : List UInt8) (h : fd < 0) : bits set fd = false := by
  rw [bits, decide_eq_false (not_le.mpr h), Bool.false_and]

/-- The bytes after `FD_SET`. -/
theorem getD_fdSet {set : List UInt8} {k : ℕ} (hk : k / 8 < set.length) (i : ℕ) :
    (fdSet set k).getD i 0 =
      if i = k / 8 then set.getD i 0 ||| UInt8.ofNat (2 ^ (k % 8)) else set.getD i 0 := by
  have hset : fdSet set k = set.modify (k / 8) fun c => c ||| UInt8.ofNat (2 ^ (k % 8)) := rfl
  rw [hset, List.getD_eq_getElem?_getD, List.getD_eq_getElem?_getD]
  by_cases hi : i = k / 8
  · rw [if_pos hi, hi, List.getElem?_modify_eq, List.getElem?_eq_getElem hk]
    rfl
  · rw [if_neg hi, List.getElem?_modify_ne _ _ (Ne.symm hi)]

/-- `FD_SET` sets the bit of its descriptor, and no other. -/
theorem bits_fdSet {set : List UInt8} (h0 : 0 ≤ fd) (hfd : fd.toNat / 8 < set.length) :
    bits (fdSet set fd) = Function.update (bits set) fd true := by
  obtain ⟨k, rfl⟩ := Int.eq_ofNat_of_zero_le h0
  funext fd'
  by_cases hneg : fd' < 0
  · have hne : fd' ≠ k := by omega
    rw [Function.update_of_ne hne, bits_of_neg _ hneg, bits_of_neg _ hneg]
  obtain ⟨j, rfl⟩ := Int.eq_ofNat_of_zero_le (not_lt.mp hneg)
  have hbit : ∀ c : UInt8, (c ||| UInt8.ofNat (2 ^ (k % 8))).toNat = c.toNat ||| 2 ^ (k % 8) := by
    intro c
    have hlt : 2 ^ (k % 8) < 2 ^ 8 :=
      Nat.pow_lt_pow_right (by decide) (Nat.mod_lt _ (by decide))
    rw [UInt8.toNat_or, UInt8.toNat_ofNat', Nat.mod_eq_of_lt hlt]
  have hk : k / 8 < set.length := hfd
  rw [bits_natCast, getD_fdSet hk]
  by_cases hj : j = k
  · rw [hj, if_pos rfl, hbit, Nat.testBit_or, Nat.testBit_two_pow_self, Bool.or_true,
      Function.update_self]
  · rw [Function.update_of_ne (by exact_mod_cast hj), bits_natCast]
    split
    · -- another bit of the same byte
      rw [hbit, Nat.testBit_or, Nat.testBit_two_pow, decide_eq_false (by omega), Bool.or_false]
    · rfl

/-- The constructor leaves what the one on bits does. -/
theorem toSelect_construct (mem : Reallocs) :
    ∃ left, Select.construct left = .ok (construct mem).toSelect := by
  have hzero : ∀ fill : ℕ → UInt8, bits (memset (realloc [] 192 fill) 0 192 0) = fun _ => false := by
    intro fill
    funext fd
    have hbyte : (memset (realloc [] 192 fill) 0 192 0).getD (fd.toNat / 8) 0 = 0 := by
      rw [List.getD_eq_getElem?_getD]
      by_cases hin : fd.toNat / 8 < 192
      · rw [getElem?_memset (by simpa using hin) (by omega) (by omega)]
        rfl
      · rw [List.getElem?_eq_none (by simpa using hin)]
        rfl
    rw [bits, hbyte, UInt8.toNat_zero, Nat.zero_testBit, Bool.and_false]
  have hclear : FdSet.memset (fun _ => false) 0 192 = fun _ => false := by
    funext fd
    exact ite_self _
  refine ⟨(construct mem).toSelect, ?_⟩
  rw [Select.construct_eq, Select.fresh, construct_eq]
  simp only [toSelect, hzero, hclear]
  rfl

/-- The size that the model of `select` has. -/
theorem FirstSize.size_toSelect (h : s.FirstSize) : s.toSelect.size = 192 := by
  rw [toSelect, h.size]
  rfl

/-- **Where growing is safe**, `add` is `add` of the class on bits. -/
theorem FirstSize.toSelect_add (h : s.FirstSize) (mem : Reallocs)
    (hvalid : s.Valid (.add fd type)) (hfits : Select.Fits fd) :
    ∃ t, s.add mem fd type = some (0, t) ∧ s.toSelect.add fd type = .ok (0, t.toSelect) := by
  obtain ⟨h0, h1⟩ := hvalid
  refine ⟨_, h.add_eq ⟨h0, h1⟩ hfits, ?_⟩
  have hin : s.toSelect.Inside fd := by
    unfold Select.Inside
    rw [h.size_toSelect]
    omega
  have hmax : fd ≤ maxSelectFd := by
    unfold maxSelectFd
    omega
  refine (Select.add_eq_ok h.size_toSelect).mpr (.inr ⟨hmax, hfits, fun _ => hin, ?_⟩)
  have hread : bits (fdSet s.readsetIn fd) = Function.update (bits s.readsetIn) fd true :=
    bits_fdSet h0 (by rw [h.readsetIn]; omega)
  have hwrite : bits (fdSet s.writesetIn fd) = Function.update (bits s.writesetIn) fd true :=
    bits_fdSet h0 (by rw [h.writesetIn]; omega)
  simp only [toSelect, Select.stored, apply_ite bits, hread, hwrite]

/-- **The class on bits** is undefined exactly where a byte outside a block is written. -/
theorem FirstSize.safe_iff_toSelect (h : s.FirstSize) (hvalid : s.Valid (.add fd type)) :
    s.GrowsSafely (mem, .add fd type) ↔ ∃ r, s.toSelect.add fd type = .ok r := by
  rw [h.safe_iff_stays hvalid]
  constructor
  · intro hfits
    obtain ⟨t, -, ht⟩ := h.toSelect_add mem hvalid hfits
    exact ⟨_, ht⟩
  · rintro ⟨r, hr⟩
    rcases (Select.add_eq_ok h.size_toSelect).mp hr with ⟨hmax, -⟩ | ⟨-, hfits, -⟩
    · have h1 := hvalid.2
      unfold maxSelectFd at hmax
      omega
    · exact hfits

end SelectBlocks

end Libio
