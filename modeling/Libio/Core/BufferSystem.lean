import Libio.Core.BufferRefinement
import Mathlib.Logic.Function.Basic

/-! # Runs over a family of buffers

Any number of buffers, operated on in any order: `bufferSystem` runs the class, `fifoSystem` the
byte queues. A label is an operation with what the caller sees of it, its result and the bytes that
leave the buffer. -/

namespace Libio

universe u

open ByteQueue

/-- An operation on one buffer of a family, or a move between two, with the answer of the kernel
where it makes a system call. -/
inductive BufferOp (ι : Type u)
  | push (i : ι) (data : Str)
  | pushString (i : ι) (s : Str)
  | pushFrom (i j : ι) (length : ℤ)
  | pop (i : ι) (length : ℤ)
  | popLine (i : ι)
  | read (i : ι) (count : ℤ) (kernel : Option Str)
  | write (i : ι) (kernel : Option ℕ)
  | clear (i : ι)

/-- What the caller of an operation sees. -/
abbrev BufferObs := ℤ × Str

section Family

variable {ι : Type u} [DecidableEq ι]

/-- How many bytes `read(fd, count)` asks for. -/
def readCount (count : ℤ) : ℤ := if count < 0 ∨ count > Buffer.maxRead then Buffer.maxRead else count

/-- One operation of the class, `realloc` succeeding with fresh cells as `fill` says. -/
def execBuffer (fill : ℕ → UInt8) (s : ι → Buffer) :
    BufferOp ι → Option (BufferObs × (ι → Buffer))
  | .push i data => ((s i).push (some fill) data).map fun (r, b) => ((r, []), Function.update s i b)
  | .pushString i data =>
      ((s i).push (some fill) data).map fun (r, b) => ((r, []), Function.update s i b)
  | .pushFrom i j length =>
      ((s i).pushFrom (some fill) (s j) length).map fun (r, bi, bj) =>
        ((r, []), Function.update (Function.update s i bi) j bj)
  | .pop i length => ((s i).pop length).map fun (r, data, b) => ((r, data), Function.update s i b)
  | .popLine i => (s i).popLine.map fun (line, b) => ((0, line), Function.update s i b)
  | .read i count kernel =>
      ((s i).read (some fill) count kernel).map fun (r, b) => ((r, []), Function.update s i b)
  | .write i kernel =>
      ((s i).write kernel).map fun (r, data, b) => ((r, data), Function.update s i b)
  | .clear i => some ((0, []), Function.update s i (s i).clear)

/-- The same operation on byte queues. -/
def execFifo (x : ι → Str) : BufferOp ι → BufferObs × (ι → Str)
  | .push i data => ((0, []), Function.update x i (x i ++ data))
  | .pushString i data => ((0, []), Function.update x i (x i ++ data))
  | .pushFrom i j length =>
      let (dst, src) := move (x i) (x j) length
      ((0, []), Function.update (Function.update x i dst) j src)
  | .pop i length =>
      (((min length.toNat (x i).length : ℕ), (x i).take length.toNat),
        Function.update x i ((x i).drop length.toNat))
  | .popLine i => ((0, (popLine (x i)).1), Function.update x i (popLine (x i)).2)
  | .read i _ kernel =>
      ((kernel.elim (-1) fun data => (data.length : ℤ), []),
        Function.update x i (x i ++ kernel.getD []))
  | .write i kernel =>
      ((kernel.elim (-1) fun n => (n : ℤ), (x i).take (kernel.getD 0)),
        Function.update x i ((x i).drop (kernel.getD 0)))
  | .clear i => ((0, []), Function.update x i [])

/-- What is asked of the caller and of the kernel: no negative length, a move only between two
different buffers, a kernel that delivers or accepts no more than it was offered, and sizes below
`2^30`. -/
def Admissible (s : ι → Buffer) : BufferOp ι → Prop
  | .push i data => (s i).misalign + (s i).off + data.length < 2 ^ 30
  | .pushString i data => (s i).misalign + (s i).off + data.length < 2 ^ 30
  | .pushFrom i j length =>
      i ≠ j ∧ (s i).misalign + (s i).off + clamp (s j).content length < 2 ^ 30
  | .pop _ length => 0 ≤ length
  | .popLine _ => True
  | .read i count kernel =>
      (∀ data ∈ kernel, (data.length : ℤ) ≤ readCount count) ∧
        (s i).misalign + (s i).off + readCount count < 2 ^ 30
  | .write i kernel => ∀ n ∈ kernel, (n : ℤ) ≤ (s i).off
  | .clear _ => True

/-- The class at work: fresh buffers, then admissible operations. -/
def bufferSystem (ι : Type u) [DecidableEq ι] : Lts (ι → Buffer) (BufferOp ι × BufferObs) where
  init s := ∃ fill : ι → ℕ → UInt8, s = fun i => Buffer.new (fill i)
  step s a t := Admissible s a.1 ∧ ∃ fill, execBuffer fill s a.1 = some (a.2, t)

/-- Byte queues at work. -/
def fifoSystem (ι : Type u) [DecidableEq ι] : Lts (ι → Str) (BufferOp ι × BufferObs) where
  init x := x = fun _ => []
  step x a y := execFifo x a.1 = (a.2, y)

/-- The simulation relation: buffer by buffer, the queue is what the buffer represents. -/
def Represents (s : ι → Buffer) (x : ι → Str) : Prop := ∀ i, (s i).Rep (x i)

/-- One buffer and one queue are replaced. -/
theorem Represents.update {s : ι → Buffer} {x : ι → Str} (h : Represents s x) {i : ι} {b : Buffer}
    {q : Str} (hb : b.Rep q) : Represents (Function.update s i b) (Function.update x i q) := by
  intro j
  by_cases hj : j = i
  · subst hj
    simpa using hb
  · simpa [Function.update_of_ne hj] using h j

/-- **Step lemma.** An admissible operation is defined, shows the caller what the queue operation
shows, and leaves buffers that represent the queues it leaves. -/
theorem execBuffer_represents {s : ι → Buffer} {x : ι → Str} (h : Represents s x) (op : BufferOp ι)
    (hop : Admissible s op) (fill : ℕ → UInt8) :
    ∃ t, execBuffer fill s op = some ((execFifo x op).1, t) ∧ Represents t (execFifo x op).2 := by
  cases op with
  | push i data =>
      obtain ⟨b, hb, hrep⟩ := (h i).push fill data hop
      exact ⟨_, by rw [execBuffer, hb]; rfl, h.update hrep⟩
  | pushString i data =>
      obtain ⟨b, hb, hrep⟩ := (h i).push fill data hop
      exact ⟨_, by rw [execBuffer, hb]; rfl, h.update hrep⟩
  | pushFrom i j length =>
      obtain ⟨-, hsize⟩ := hop
      rw [(h j).content_eq] at hsize
      obtain ⟨bi, bj, hb, hrep, hrep'⟩ := (h i).pushFrom (h j) fill hsize
      exact ⟨_, by rw [execBuffer, hb]; rfl, (h.update hrep).update hrep'⟩
  | pop i length =>
      obtain ⟨b, hb, hrep⟩ := (h i).pop hop
      exact ⟨_, by rw [execBuffer, hb]; rfl, h.update hrep⟩
  | popLine i =>
      obtain ⟨b, hb, hrep⟩ := (h i).popLine
      exact ⟨_, by rw [execBuffer, hb]; rfl, h.update hrep⟩
  | read i count kernel =>
      obtain ⟨b, hb, hrep⟩ := (h i).read_data fill hop.1 hop.2
      exact ⟨_, by rw [execBuffer, hb]; rfl, h.update hrep⟩
  | write i kernel =>
      obtain ⟨b, hb, hrep⟩ := (h i).write kernel fun n hn => by
        have := hop n hn
        rw [(h i).off_eq] at this
        omega
      exact ⟨_, by rw [execBuffer, hb]; rfl, h.update hrep⟩
  | clear i => exact ⟨_, rfl, h.update (h i).clear⟩

/-- Every run of the class is a run of byte queues with the same labels. -/
theorem bufferSystem_simulates {s t : ι → Buffer} {as : List (BufferOp ι × BufferObs)}
    (hrun : (bufferSystem ι).Run s as t) {x : ι → Str} (h : Represents s x) :
    ∃ y, (fifoSystem ι).Run x as y ∧ Represents t y := by
  refine hrun.simulate ?_ h
  intro s x a t hsx hstep
  obtain ⟨hop, fill, hexec⟩ := hstep
  obtain ⟨u, hu, hrep⟩ := execBuffer_represents hsx a.1 hop fill
  obtain ⟨hobs, rfl⟩ : (execFifo x a.1).1 = a.2 ∧ u = t := by
    simpa using hu.symm.trans hexec
  exact ⟨(execFifo x a.1).2, Prod.ext hobs rfl, hrep⟩

/-- **The class refines a byte queue.** After any run of admissible operations on fresh buffers,
each buffer satisfies the invariant, its contents are the bytes that went in and have not left, in
order, and every further admissible operation is defined, so that no access is outside the block. -/
theorem buffer_refines_fifo {s t : ι → Buffer} {as : List (BufferOp ι × BufferObs)}
    (hinit : (bufferSystem ι).init s) (hrun : (bufferSystem ι).Run s as t) :
    (fifoSystem ι).Run (fun _ => []) as (fun i => (t i).content) ∧
      (∀ i, (t i).Inv) ∧
      ∀ op, Admissible t op → ∀ fill, ∃ obs u, execBuffer fill t op = some (obs, u) := by
  obtain ⟨fill₀, rfl⟩ := hinit
  obtain ⟨y, hy, hrep⟩ := bufferSystem_simulates hrun (x := fun _ => [])
    fun i => Buffer.rep_new (fill₀ i)
  have hcontent : (fun i => (t i).content) = y := funext fun i => (hrep i).content_eq
  refine ⟨by rw [hcontent]; exact hy, fun i => (hrep i).toInv, fun op hop fill => ?_⟩
  obtain ⟨u, hu, -⟩ := execBuffer_represents hrep op hop fill
  exact ⟨_, u, hu⟩

end Family

/-- A push of two lines and a line cut off. -/
theorem buffer_refines_fifo_push_popLine :
    ∃ t : Unit → Buffer,
      (bufferSystem Unit).Run (fun _ => Buffer.new fun _ => 7)
        [(.push () (str "GET\r\nab"), (0, [])), (.popLine (), (0, str "GET"))] t ∧
      (t ()).content = str "ab" ∧ (t ()).Inv := by
  have hadm : Admissible (fun _ : Unit => Buffer.new fun _ => 7) (.push () (str "GET\r\nab")) := by
    simp [Admissible, Buffer.new, str]
  have hnew : Represents (fun _ : Unit => Buffer.new fun _ => 7) (fun _ => []) :=
    fun _ => Buffer.rep_new _
  obtain ⟨t₁, h₁, hrep₁⟩ := execBuffer_represents hnew _ hadm fun _ => 9
  obtain ⟨t₂, h₂, hrep₂⟩ := execBuffer_represents hrep₁ (.popLine ()) trivial fun _ => 9
  have hrun : (bufferSystem Unit).Run (fun _ => Buffer.new fun _ => 7)
      [(.push () (str "GET\r\nab"), (0, [])), (.popLine (), (0, str "GET"))] t₂ :=
    .cons ⟨hadm, _, h₁⟩ (.cons ⟨trivial, _, h₂⟩ (.nil t₂))
  obtain ⟨-, hinv, -⟩ := buffer_refines_fifo ⟨fun _ _ => 7, rfl⟩ hrun
  exact ⟨t₂, hrun, (hrep₂ ()).content_eq, hinv ()⟩

end Libio
