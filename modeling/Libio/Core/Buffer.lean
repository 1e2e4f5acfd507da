import Libio.Core.Numbers
import Libio.Foundation.Block

/-! # The byte buffer

`core/buffer.hh` on memory: a block of cells, the pointer `buf_` into it and the three integers of
the class. Every access is checked against the block and every sum against the range of `int`, so
`none` is undefined behaviour and nothing else. The contents of fresh memory and the outcomes of
`realloc`, `read` and `write` are arguments. -/

namespace Libio

/-- What `realloc` does when it is called: fail, or succeed with these contents in the new cells. -/
abbrev Realloc := Option (ℕ → UInt8)

/-- The result of an `int` operation, when it does not overflow. -/
def int32 (x : ℤ) : Option ℤ := if intMin ≤ x ∧ x ≤ intMax then some x else none

/-- A result that is not negative has only to stay below the end of an `int`. -/
theorem int32_of_nonneg {x : ℤ} (hpos : 0 ≤ x) (hmax : x ≤ intMax) : int32 x = some x :=
  if_pos ⟨le_trans (by decide) hpos, hmax⟩

/-- A line-end byte. -/
def isEol (c : UInt8) : Bool := c == cr || c == lf

/-- Two line-end bytes that count as one line end. -/
def eolPair (c d : UInt8) : Bool := (c == cr && d == lf) || (c == lf && d == cr)

/-- The class `buffer`. -/
structure Buffer where
  /-- The cells of the allocation that `originbuf_` points to. -/
  block : List UInt8
  /-- `buf_ - originbuf_`. -/
  buf : ℤ
  /-- `misalign_`. -/
  misalign : ℤ
  /-- `off_`. -/
  off : ℤ
  /-- `totallen_`. -/
  totallen : ℤ
  deriving DecidableEq

namespace Buffer

/-- `MAX_READ`. -/
def maxRead : ℤ := 4096

/-- `DEFAULT_SIZE`. -/
def defaultSize : ℕ := 128

/-- The constructor, on fresh memory with arbitrary contents. -/
def new (fill : ℕ → UInt8) : Buffer where
  block := (List.range defaultSize).map fill
  buf := 0
  misalign := 0
  off := 0
  totallen := defaultSize

/-- `clear()`. -/
def clear (b : Buffer) : Buffer := { b with misalign := 0, off := 0, buf := 0 }

/-- `if (misalign_ + off_ < totallen_) buf_[off_] = '\0'`. -/
def terminate (b : Buffer) : Option Buffer :=
  if b.misalign + b.off < b.totallen then do
    let block ← store b.block (b.buf + b.off) [0]
    some { b with block := block }
  else some b

/-- `__align()`. -/
def align (b : Buffer) : Option Buffer := do
  let data ← load b.block b.buf b.off
  let block ← store b.block 0 data
  some { b with block := block, buf := 0, misalign := 0 }

/-- `__drain(length)`. -/
def drain (b : Buffer) (length : ℤ) : Option Buffer :=
  if length ≥ b.off then terminate { b with off := 0, buf := 0, misalign := 0 }
  else
    terminate { b with
      buf := b.buf + length, misalign := b.misalign + length, off := b.off - length }

/-- `while (length < need) length <<= 1`. A positive `int` overflows at the latest after 31
doublings, so 32 rounds are all there can be. -/
def doubled : ℕ → ℤ → ℤ → Option ℤ
  | 0, _, _ => none
  | k + 1, length, need =>
      if length < need then (int32 (length * 2)).bind fun l => doubled k l need else some length

/-- `if (originbuf_ != buf_) __align()`. -/
def alignMoved (b : Buffer) : Option Buffer := if b.buf ≠ 0 then b.align else some b

/-- `__expand(count)`. -/
def expand (mem : Realloc) (b : Buffer) (count : ℤ) : Option (ℤ × Buffer) := do
  let need ← int32 (b.misalign + b.off + count)
  if b.totallen ≥ need then some (0, b)
  else if b.misalign ≥ count then
    let b ← b.align
    some (0, b)
  else
    let length ← doubled 32 (if b.totallen < 256 then 256 else b.totallen) need
    let b ← b.alignMoved
    match mem with
    | none => some (-1, b)
    | some fill =>
        some (0, { b with block := enlarge b.block length.toNat fill, buf := 0, totallen := length })

/-- `read(fd, count)`, where the kernel fails (`none`), reports the end of the input (`some []`) or
delivers bytes. -/
def read (mem : Realloc) (b : Buffer) (count : ℤ) (kernel : Option Str) : Option (ℤ × Buffer) := do
  let count := if count < 0 ∨ count > maxRead then maxRead else count
  let (res, b) ← b.expand mem count
  if res = -1 then some (-1, b)
  else
    match kernel with
    | none => some (-1, b)
    | some [] => some (0, b)
    | some data =>
        let block ← store b.block (b.buf + b.off) data
        let b ← terminate { b with block := block, off := b.off + data.length }
        some (data.length, b)

/-- `write(fd)`, where the kernel fails (`none`) or accepts some number of bytes. The second result
is what it accepted. -/
def write (b : Buffer) (kernel : Option ℕ) : Option (ℤ × Str × Buffer) := do
  let data ← load b.block b.buf b.off
  match kernel with
  | none => some (-1, [], b)
  | some 0 => some (0, [], b)
  | some n =>
      let b ← b.drain n
      some (n, data.take n, b)

/-- The test of `push` before it copies: `totallen_ < need && __expand(length) == -1`. -/
def reserve (mem : Realloc) (b : Buffer) (need length : ℤ) : Option (ℤ × Buffer) :=
  if b.totallen < need then b.expand mem length else some (0, b)

/-- `push(data, length)`, and `push(s)` for a string. -/
def push (mem : Realloc) (b : Buffer) (data : Str) : Option (ℤ × Buffer) := do
  let need ← int32 (b.off + b.misalign + data.length)
  let (res, b) ← b.reserve mem need data.length
  if res = -1 then some (-1, b)
  else
    let block ← store b.block (b.buf + b.off) data
    some (0, { b with block := block, off := b.off + data.length })

/-- `push(input, length)`: the result, the receiving buffer and the drained one. -/
def pushFrom (mem : Realloc) (b input : Buffer) (length : ℤ) : Option (ℤ × Buffer × Buffer) := do
  let length := if length = -1 then input.off else length
  let length := if length > input.off ∨ length < 0 then input.off else length
  let data ← load input.block input.buf length
  let (res, b) ← b.push mem data
  if res = 0 then
    let input ← input.drain length
    some (res, b, input)
  else some (res, b, input)

/-- `if (length > 0) __drain(length)`. -/
def drainPositive (b : Buffer) (length : ℤ) : Option Buffer :=
  if length > 0 then b.drain length else some b

/-- `pop(data, length)`. -/
def pop (b : Buffer) (length : ℤ) : Option (ℤ × Str × Buffer) := do
  let length := if length > b.off then b.off else length
  let data ← load b.block b.buf length
  let b ← b.drainPositive length
  let b ← b.terminate
  some (length, data, b)

/-- `onemore`: whether the byte behind a line-end byte at `i` belongs to the same line end. -/
def onemore (data : Str) (i : ℕ) : ℕ :=
  if i + 1 < data.length ∧ eolPair (data.getD i 0) (data.getD (i + 1) 0) then 1 else 0

/-- `pop()`: cut the next line off. The two stores put NULs over its line end, and the line is the C
string that starts at `buf_`. -/
def popLine (b : Buffer) : Option (Str × Buffer) := do
  let data ← load b.block b.buf b.off
  let i := data.findIdx isEol
  if i = data.length then some ([], b)
  else
    let block ← store b.block (b.buf + i) [0]
    let block ← store block (b.buf + i + onemore data i) [0]
    let line ← load block b.buf i
    let b ← drain { b with block := block } (i + onemore data i + 1)
    some (line.takeWhile (· != 0), b)

/-- The bytes `buf_[0 .. off_)`. -/
def content (b : Buffer) : Str := window b.block b.buf.toNat b.off.toNat

end Buffer

end Libio
