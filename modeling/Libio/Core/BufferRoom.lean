import Libio.Core.BufferGrowth

/-! # Room in a buffer that is only filled

A buffer from which nothing has been taken since it was last empty has its contents at the front of
its storage. What can be pushed onto it depends on its length alone: `push` returns as long as the
contents stay within `2^30` bytes, and otherwise the doubling of `__expand` overflows
(`Undrained.push`, `Undrained.push_eq_none`). The body of a message and the buffers that replies are
written to are filled like this, so `Takes` says on byte queues where a push onto them returns. -/

namespace Libio

namespace Buffer

variable {b b' : Buffer} {q data : Str}

/-- A buffer at work that holds the bytes `q`, none of them taken since it was empty. -/
structure Undrained (b : Buffer) (q : Str) : Prop where
  reached : Reached b
  front : b.misalign = 0
  content : b.content = q

/-- The length is the number of bytes. -/
theorem Undrained.off_eq (h : Undrained b q) : b.off = q.length := by
  rw [← h.content]
  exact h.reached.grown.rep.off_eq

/-- Where `__expand` returns it leaves the contents at the front. -/
theorem misalign_expand {mem : Realloc} {count res : ℤ} (hz : b.misalign = 0)
    (h : b.expand mem count = some (res, b')) : b'.misalign = 0 := by
  have halign : ∀ {b₁ : Buffer}, b.align = some b₁ → b₁.misalign = 0 := by
    intro b₁ h₁
    obtain ⟨data, -, h₁⟩ := Option.bind_eq_some_iff.mp h₁
    obtain ⟨block, -, h₁⟩ := Option.bind_eq_some_iff.mp h₁
    obtain rfl := Option.some.inj h₁
    rfl
  obtain ⟨need, -, h⟩ := Option.bind_eq_some_iff.mp h
  split at h
  · obtain ⟨-, rfl⟩ := Prod.mk.inj (Option.some.inj h)
    exact hz
  · split at h
    · obtain ⟨b₁, h₁, h⟩ := Option.bind_eq_some_iff.mp h
      obtain ⟨-, rfl⟩ := Prod.mk.inj (Option.some.inj h)
      exact halign h₁
    · obtain ⟨length, -, h⟩ := Option.bind_eq_some_iff.mp h
      obtain ⟨b₁, h₁, h⟩ := Option.bind_eq_some_iff.mp h
      have hb₁ : b₁.misalign = 0 := by
        unfold alignMoved at h₁
        split at h₁
        · exact halign h₁
        · rwa [← Option.some.inj h₁]
      cases mem <;>
      · obtain ⟨-, rfl⟩ := Prod.mk.inj (Option.some.inj h)
        exact hb₁

/-- `push` leaves the contents at the front. -/
theorem misalign_push {mem : Realloc} {res : ℤ} (hz : b.misalign = 0)
    (h : b.push mem data = some (res, b')) : b'.misalign = 0 := by
  obtain ⟨need, -, h⟩ := Option.bind_eq_some_iff.mp h
  obtain ⟨⟨res', b₁⟩, h₁, h⟩ := Option.bind_eq_some_iff.mp h
  have hb₁ : b₁.misalign = 0 := by
    unfold reserve at h₁
    split at h₁
    · exact misalign_expand hz h₁
    · obtain ⟨-, rfl⟩ := Prod.mk.inj (Option.some.inj h₁)
      exact hz
  simp only at h
  split at h
  · obtain ⟨-, rfl⟩ := Prod.mk.inj (Option.some.inj h)
    exact hb₁
  · obtain ⟨block, -, h⟩ := Option.bind_eq_some_iff.mp h
    obtain ⟨-, rfl⟩ := Prod.mk.inj (Option.some.inj h)
    exact hb₁

/-- **Within `2^30` bytes** a push returns and appends. -/
theorem Undrained.push (h : Undrained b q) (fill : ℕ → UInt8)
    (hroom : q.length + data.length ≤ 2 ^ 30) :
    ∃ b', b.push (some fill) data = some (0, b') ∧ Undrained b' (q ++ data) := by
  have hoff := h.off_eq
  have hfront := h.front
  have hint : b.misalign + b.off + (data.length : ℤ) ≤ intMax := by
    simp only [intMax]
    omega
  have hfits : b.misalign + b.off + (data.length : ℤ) ≤ 2 ^ 30 := by omega
  obtain ⟨b', hpush, hcontent⟩ := h.reached.grown.push fill hint (.inl hfits)
  have hcall : b.call (.push (some fill) data) = some b' := by simp [call, hpush]
  exact ⟨b', hpush, h.reached.afterPush hcall, misalign_push h.front hpush, h.content ▸ hcontent⟩

/-- **Beyond `2^30` bytes** a push does not return. -/
theorem Undrained.push_eq_none (h : Undrained b q) (mem : Realloc)
    (hroom : 2 ^ 30 < q.length + data.length) : b.push mem data = none := by
  have hoff := h.off_eq
  have hfront := h.front
  have htot := h.reached.grown.totallen_le
  have hfits := h.reached.grown.fits
  have hexpand : b.expand mem data.length = none :=
    h.reached.grown.expand_eq_none mem (by omega) (by omega)
  unfold Buffer.push int32
  split
  · simp only [Option.bind_eq_bind, Option.bind_some]
    rw [reserve, if_pos (by omega), hexpand, Option.bind_none]
  · rfl

/-- Nothing has been taken from a fresh buffer. -/
theorem undrained_new (fill : ℕ → UInt8) : Undrained (new fill) [] where
  reached := reached_new fill
  front := rfl
  content := (rep_new fill).content_eq

end Buffer

namespace ByteQueue

/-- A push of `data` onto a buffer that holds the bytes `q`, all it has ever been given, returns. -/
def Takes (q data : Str) : Prop :=
  ∃ (b b' : Buffer) (fill : ℕ → UInt8), b.Undrained q ∧ b.push (some fill) data = some (0, b')

/-- **Where a push returns**: the contents stay within `2^30` bytes. -/
theorem takes_iff {q data : Str} : Takes q data ↔ q.length + data.length ≤ 2 ^ 30 := by
  constructor
  · rintro ⟨b, b', fill, hb, hpush⟩
    by_contra hroom
    rw [hb.push_eq_none (some fill) (by omega)] at hpush
    cases hpush
  · intro hroom
    have hq : ([] : Str).length + q.length ≤ 2 ^ 30 := by
      rw [List.length_nil]
      omega
    obtain ⟨b, -, hb⟩ := (Buffer.undrained_new fun _ => 0).push (fun _ => 0) hq
    obtain ⟨b', hpush, -⟩ := hb.push (fun _ => 0) hroom
    exact ⟨b, b', fun _ => 0, hb, hpush⟩

/-- Pushes one after the other return. -/
def TakesAll : Str → List Str → Prop
  | _, [] => True
  | q, data :: pushes => Takes q data ∧ TakesAll (q ++ data) pushes

/-- **Where pushes one after the other return**: all of them together stay within `2^30` bytes. -/
theorem takesAll_iff {q : Str} {pushes : List Str} (hq : q.length ≤ 2 ^ 30) :
    TakesAll q pushes ↔ q.length + pushes.flatten.length ≤ 2 ^ 30 := by
  induction pushes generalizing q with
  | nil => simpa [TakesAll] using hq
  | cons data pushes ih =>
      rw [TakesAll, takes_iff, List.flatten_cons, List.length_append]
      constructor
      · rintro ⟨hdata, hrest⟩
        rw [ih (by rw [List.length_append]; exact hdata), List.length_append] at hrest
        omega
      · intro hroom
        refine ⟨by omega, (ih ?_).mpr ?_⟩ <;>
        · rw [List.length_append]
          omega

end ByteQueue

end Libio
