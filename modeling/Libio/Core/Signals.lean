import Libio.Foundation.Transition
import Mathlib.Data.Finset.Erase
import Mathlib.Data.Finset.Insert
import Mathlib.Data.Finset.SDiff

/-! # Signal handlers

The class `signal` of `core/signal.hh` between the program, which calls its functions in front of the
loop and from within callbacks, and the kernel, which delivers signals that are not blocked, one
inside the other. A callback runs once, unless it is made persistent, and `remove` hands the kernel a
null pointer, which leaves `__handler` in place.

A signal stands for one that may be caught, so that `sigaction` succeeds. A call of `set_handler` is
named by its place in the order of these calls. -/

namespace Libio

/-- An entry of `callback`: the call of `set_handler` that made it, and whether it is persistent. -/
structure SignalCallback where
  id : ℕ
  persistent : Bool
  deriving DecidableEq, Repr

/-- A call of `__handler(sig)` whose callback is running, with the mask that the kernel restores. -/
structure HandlerFrame (σ : Type) where
  sig : σ
  saved : Finset σ

/-- The class `signal` and the kernel. The last four members are history. -/
structure SignalHandlers (σ : Type) where
  callback : σ → Option SignalCallback := fun _ => none
  sigmask : Finset σ := ∅
  /-- The signals whose action is `__handler`, with the mask of the action. -/
  action : σ → Option (Finset σ) := fun _ => none
  blocked : Finset σ := ∅
  pending : Finset σ := ∅
  /-- The innermost call is the first. -/
  frames : List (HandlerFrame σ) := []
  /-- The number of calls of `set_handler`. -/
  next : ℕ := 0
  /-- The calls that were not persistent. -/
  once : List ℕ := []
  /-- Those of them that were made while a callback of the same signal was running. -/
  rearmed : List ℕ := []
  /-- The callbacks that have been started, in order. -/
  ran : List (σ × ℕ) := []

/-- What the program and the kernel do. -/
inductive SignalEvent (σ : Type)
  | setHandler (sig : σ) (persistent : Bool)
  | setPersistent (sig : σ)
  | setUnpersistent (sig : σ)
  | remove (sig : σ)
  | block
  | unblock
  /-- Somebody sends a signal. -/
  | send (sig : σ)
  /-- The kernel delivers a pending signal. -/
  | deliver (sig : σ)
  /-- The innermost callback returns. -/
  | ret
  deriving DecidableEq, Repr

namespace SignalHandlers

variable {σ : Type} [DecidableEq σ] (s : SignalHandlers σ)

/-- Whether a callback of the signal is running. -/
def Handling (sig : σ) : Prop := ∃ f ∈ s.frames, f.sig = sig

instance (sig : σ) : Decidable (s.Handling sig) := inferInstanceAs (Decidable (∃ f ∈ s.frames, _))

/-- `set_handler(sig, persistent, f)`. -/
def setHandler (sig : σ) (persistent : Bool) : SignalHandlers σ :=
  let sigmask := insert sig s.sigmask
  { s with
    callback := Function.update s.callback sig (some ⟨s.next, persistent⟩)
    sigmask := sigmask
    action := Function.update s.action sig (some sigmask)
    next := s.next + 1
    once := if persistent then s.once else s.once ++ [s.next]
    rearmed := if persistent = false ∧ s.Handling sig then s.rearmed ++ [s.next] else s.rearmed }

/-- `set_persistent(sig)` and `set_unpersistent(sig)`. -/
def setPersistent (sig : σ) (persistent : Bool) : SignalHandlers σ :=
  match s.callback sig with
  | none => s
  | some c => { s with
      callback := Function.update s.callback sig (some { c with persistent := persistent }) }

/-- `remove(sig)`. `sigaction` with a null pointer for the action changes nothing. -/
def remove (sig : σ) : SignalHandlers σ :=
  match s.callback sig with
  | none => s
  | some _ => { s with
      sigmask := s.sigmask.erase sig
      callback := Function.update s.callback sig none }

/-- The kernel calls `__handler(sig)`, which starts the callback, or returns at once. -/
def deliver (sig : σ) (mask : Finset σ) : SignalHandlers σ :=
  match s.callback sig with
  | none => { s with pending := s.pending.erase sig }
  | some c => { s with
      pending := s.pending.erase sig
      blocked := insert sig (s.blocked ∪ mask)
      frames := ⟨sig, s.blocked⟩ :: s.frames
      ran := s.ran ++ [(sig, c.id)] }

/-- The end of `__handler(sig)` behind the callback. Where the callback is gone, `callback[sig]` makes
an empty one, which is not persistent. -/
def finish (sig : σ) : SignalHandlers σ :=
  match s.callback sig with
  | none => { s with sigmask := s.sigmask.erase sig }
  | some c => if c.persistent then s else s.remove sig

/-- A step, where it is possible. A signal whose action is the default one is not delivered here: it
would end the process, or be ignored. -/
def step : SignalEvent σ → Option (SignalHandlers σ)
  | .setHandler sig persistent => some (s.setHandler sig persistent)
  | .setPersistent sig => some (s.setPersistent sig true)
  | .setUnpersistent sig => some (s.setPersistent sig false)
  | .remove sig => some (s.remove sig)
  | .block => some { s with blocked := s.blocked ∪ s.sigmask }
  | .unblock => some { s with blocked := s.blocked \ s.sigmask }
  | .send sig => some { s with pending := insert sig s.pending }
  | .deliver sig =>
    if sig ∈ s.pending ∧ sig ∉ s.blocked then (s.action sig).map (s.deliver sig) else none
  | .ret =>
    match s.frames with
    | [] => none
    | f :: frames => some { s.finish f.sig with blocked := f.saved, frames := frames }

end SignalHandlers

/-- The signal handlers as a transition system: in the beginning nothing is handled. -/
def SignalHandlers.lts (σ : Type) [DecidableEq σ] : Lts (SignalHandlers σ) (SignalEvent σ) where
  init s := ∃ blocked, s = { blocked := blocked }
  step s e t := s.step e = some t

namespace SignalHandlers

variable {σ : Type} [DecidableEq σ] {s t : SignalHandlers σ} {sig : σ}

/-- Nobody makes a callback persistent, and no callback calls `unblock`. -/
def Plain (s : SignalHandlers σ) : SignalEvent σ → Prop
  | .setPersistent _ => False
  | .unblock => s.frames = []
  | _ => True

/-- The invariant of such runs. -/
structure OneShot (s : SignalHandlers σ) : Prop where
  callback_lt : ∀ sig c, s.callback sig = some c → c.id < s.next
  once_lt : ∀ id ∈ s.once, id < s.next
  ran_lt : ∀ x ∈ s.ran, x.2 < s.next
  rearmed : ∀ id ∈ s.rearmed, id ∈ s.once
  inj : ∀ sig sig' c c', s.callback sig = some c → s.callback sig' = some c' → c.id = c'.id → sig = sig'
  fleeting : ∀ sig c, s.callback sig = some c → c.id ∈ s.once → c.persistent = false
  /-- A signal whose callback is running is blocked, and stays so when an inner one returns. -/
  blocked : ∀ f ∈ s.frames, f.sig ∈ s.blocked
  nested : s.frames.Pairwise fun f g => g.sig ∈ f.saved
  /-- A callback that must not be started any more is about to be removed. -/
  held : ∀ sig c, s.callback sig = some c → c.id ∈ s.once →
    c.id ∈ s.ran.map Prod.snd ∨ c.id ∈ s.rearmed → s.Handling sig
  count : ∀ id ∈ s.once, (s.ran.map Prod.snd).count id ≤ 1
  lost : ∀ id ∈ s.rearmed, id ∉ s.ran.map Prod.snd

omit [DecidableEq σ] in
/-- The invariant holds before a callback is set. -/
theorem oneShot_init (blocked : Finset σ) : OneShot ({ blocked := blocked } : SignalHandlers σ) where
  callback_lt := nofun
  once_lt := nofun
  ran_lt := nofun
  rearmed := nofun
  inj := nofun
  fleeting := nofun
  blocked := nofun
  nested := .nil
  held := nofun
  count := nofun
  lost := nofun

omit [DecidableEq σ] in
/-- **Frame rule.** A step that makes and starts no callback keeps the invariant, if it makes none
persistent and a callback that is left has its signal handled as before. -/
theorem OneShot.of_frame (h : s.OneShot) (hnext : t.next = s.next) (honce : t.once = s.once)
    (hrearmed : t.rearmed = s.rearmed) (hran : t.ran = s.ran)
    (hcallback : ∀ sig c', t.callback sig = some c' → ∃ c, s.callback sig = some c ∧ c'.id = c.id ∧
      (c.persistent = false → c'.persistent = false ∧ (s.Handling sig → t.Handling sig)))
    (hblocked : ∀ f ∈ t.frames, f.sig ∈ t.blocked)
    (hnested : t.frames.Pairwise fun f g => g.sig ∈ f.saved) : t.OneShot := by
  constructor
  case callback_lt =>
    intro sig c' hc'
    obtain ⟨c, hc, hid, -⟩ := hcallback sig c' hc'
    rw [hid, hnext]
    exact h.callback_lt sig c hc
  case once_lt => rw [honce, hnext]; exact h.once_lt
  case ran_lt => rw [hran, hnext]; exact h.ran_lt
  case rearmed => rw [hrearmed, honce]; exact h.rearmed
  case inj =>
    intro sig sig' c' d' hc' hd' he
    obtain ⟨c, hc, hid, -⟩ := hcallback sig c' hc'
    obtain ⟨d, hd, hid', -⟩ := hcallback sig' d' hd'
    exact h.inj sig sig' c d hc hd (hid.symm.trans (he.trans hid'))
  case fleeting =>
    intro sig c' hc' hin
    obtain ⟨c, hc, hid, hpers⟩ := hcallback sig c' hc'
    rw [hid, honce] at hin
    exact (hpers (h.fleeting sig c hc hin)).1
  case blocked => exact hblocked
  case nested => exact hnested
  case held =>
    intro sig c' hc' hin hor
    obtain ⟨c, hc, hid, hpers⟩ := hcallback sig c' hc'
    rw [hid, honce] at hin
    rw [hid, hran, hrearmed] at hor
    exact (hpers (h.fleeting sig c hc hin)).2 (h.held sig c hc hin hor)
  case count => rw [honce, hran]; exact h.count
  case lost => rw [hrearmed, hran]; exact h.lost

omit [DecidableEq σ] in
/-- A step that changes no callback but its being persistent, and no call in progress. -/
theorem OneShot.of_blocked (h : s.OneShot) (hnext : t.next = s.next) (honce : t.once = s.once)
    (hrearmed : t.rearmed = s.rearmed) (hran : t.ran = s.ran) (hframes : t.frames = s.frames)
    (hcallback : ∀ sig c', t.callback sig = some c' → ∃ c, s.callback sig = some c ∧ c'.id = c.id ∧
      (c.persistent = false → c'.persistent = false))
    (hblocked : ∀ f ∈ s.frames, f.sig ∈ t.blocked) : t.OneShot := by
  refine h.of_frame hnext honce hrearmed hran (fun sig c' hc' => ?_) (by rwa [hframes])
    (by rw [hframes]; exact h.nested)
  obtain ⟨c, hc, hid, hpers⟩ := hcallback sig c' hc'
  refine ⟨c, hc, hid, fun hp => ⟨hpers hp, ?_⟩⟩
  unfold Handling
  rw [hframes]
  exact id

/-- A callback that was set belongs to the call that set it, or to an earlier one. -/
theorem callback_setHandler {sig sig' : σ} {persistent : Bool} {c : SignalCallback}
    (hc : (s.setHandler sig persistent).callback sig' = some c) :
    sig' = sig ∧ c = ⟨s.next, persistent⟩ ∨ sig' ≠ sig ∧ s.callback sig' = some c := by
  replace hc : Function.update s.callback sig (some ⟨s.next, persistent⟩) sig' = some c := hc
  by_cases h : sig' = sig
  · subst h
    rw [Function.update_self] at hc
    exact .inl ⟨rfl, (Option.some.inj hc).symm⟩
  · rw [Function.update_of_ne h] at hc
    exact .inr ⟨h, hc⟩

/-- The callbacks that are to run once, behind `set_handler`. -/
theorem mem_once_setHandler {persistent : Bool} {id : ℕ} :
    id ∈ (s.setHandler sig persistent).once ↔ id ∈ s.once ∨ id = s.next ∧ persistent = false := by
  cases persistent <;> simp [setHandler]

/-- Those that were set while one of their signal was running. -/
theorem mem_rearmed_setHandler {persistent : Bool} {id : ℕ} :
    id ∈ (s.setHandler sig persistent).rearmed ↔
      id ∈ s.rearmed ∨ id = s.next ∧ persistent = false ∧ s.Handling sig := by
  by_cases h : persistent = false ∧ s.Handling sig
  · simp [setHandler, h]
  · simp [setHandler, h]

/-- A callback is set. -/
theorem OneShot.setHandler (h : s.OneShot) (sig : σ) (persistent : Bool) :
    (s.setHandler sig persistent).OneShot := by
  -- the number of this call is a new one
  have hfresh : s.next ∉ s.ran.map Prod.snd := by
    intro hin
    obtain ⟨x, hx, he⟩ := List.mem_map.mp hin
    exact absurd (h.ran_lt x hx) (by omega)
  constructor
  case callback_lt =>
    intro sig' c hc
    show c.id < s.next + 1
    rcases callback_setHandler hc with ⟨-, rfl⟩ | ⟨-, hc⟩
    · exact Nat.lt_succ_self _
    · exact Nat.lt_succ_of_lt (h.callback_lt sig' c hc)
  case once_lt =>
    intro id hid
    show id < s.next + 1
    rcases mem_once_setHandler.mp hid with hid | ⟨rfl, -⟩
    · exact Nat.lt_succ_of_lt (h.once_lt id hid)
    · exact Nat.lt_succ_self _
  case ran_lt => exact fun x hx => Nat.lt_succ_of_lt (h.ran_lt x hx)
  case rearmed =>
    intro id hid
    rw [mem_once_setHandler]
    exact (mem_rearmed_setHandler.mp hid).imp (h.rearmed id) fun hid => ⟨hid.1, hid.2.1⟩
  case inj =>
    intro sig₁ sig₂ c₁ c₂ h₁ h₂ he
    rcases callback_setHandler h₁ with ⟨hs₁, rfl⟩ | ⟨-, h₁⟩
    · rcases callback_setHandler h₂ with ⟨hs₂, -⟩ | ⟨-, h₂⟩
      · rw [hs₁, hs₂]
      · exact absurd (h.callback_lt sig₂ c₂ h₂) (by rw [← he]; exact Nat.lt_irrefl _)
    · rcases callback_setHandler h₂ with ⟨-, rfl⟩ | ⟨-, h₂⟩
      · exact absurd (h.callback_lt sig₁ c₁ h₁) (by rw [he]; exact Nat.lt_irrefl _)
      · exact h.inj sig₁ sig₂ c₁ c₂ h₁ h₂ he
  case fleeting =>
    intro sig' c hc hid
    rcases callback_setHandler hc with ⟨-, rfl⟩ | ⟨-, hc⟩
    · rcases mem_once_setHandler.mp hid with hid | ⟨-, hp⟩
      · exact absurd (h.once_lt _ hid) (Nat.lt_irrefl _)
      · exact hp
    · rcases mem_once_setHandler.mp hid with hid | ⟨he, -⟩
      · exact h.fleeting sig' c hc hid
      · exact absurd (h.callback_lt sig' c hc) (by omega)
  case blocked => exact h.blocked
  case nested => exact h.nested
  case held =>
    intro sig' c hc hid hor
    rcases callback_setHandler hc with ⟨rfl, rfl⟩ | ⟨-, hc⟩
    · -- the new callback has not run, and must not only if its signal is being handled
      rcases hor with hran | hrearmed
      · exact absurd hran hfresh
      · rcases mem_rearmed_setHandler.mp hrearmed with hin | ⟨-, -, hhandling⟩
        · exact absurd (h.once_lt _ (h.rearmed _ hin)) (Nat.lt_irrefl _)
        · exact hhandling
    · have hlt := h.callback_lt sig' c hc
      refine h.held sig' c hc ?_ (hor.imp id fun hin => ?_)
      · exact (mem_once_setHandler.mp hid).resolve_right fun he => by omega
      · exact (mem_rearmed_setHandler.mp hin).resolve_right fun he => by omega
  case count =>
    intro id hid
    show (s.ran.map Prod.snd).count id ≤ 1
    rcases mem_once_setHandler.mp hid with hid | ⟨rfl, -⟩
    · exact h.count id hid
    · rw [List.count_eq_zero_of_not_mem hfresh]
      exact Nat.zero_le 1
  case lost =>
    intro id hid
    rcases mem_rearmed_setHandler.mp hid with hid | ⟨rfl, -⟩
    · exact h.lost id hid
    · exact hfresh

/-- A signal is delivered. -/
theorem OneShot.deliver (h : s.OneShot) {mask : Finset σ} (hsig : sig ∉ s.blocked) :
    (s.deliver sig mask).OneShot := by
  -- a signal that is being handled is blocked
  have hidle : ¬s.Handling sig := by
    rintro ⟨f, hf, rfl⟩
    exact hsig (h.blocked f hf)
  unfold SignalHandlers.deliver
  cases hc : s.callback sig with
  | none => exact h.of_blocked rfl rfl rfl rfl rfl (fun _ c' hc' => ⟨c', hc', rfl, id⟩) h.blocked
  | some c =>
    -- so a callback that must not be started any more is not found here
    have hfirst : c.id ∈ s.once → c.id ∉ s.ran.map Prod.snd ∧ c.id ∉ s.rearmed := fun hin =>
      ⟨fun hran => hidle (h.held sig c hc hin (.inl hran)),
        fun hre => hidle (h.held sig c hc hin (.inr hre))⟩
    refine { h with
      ran_lt := fun x hx => ?_
      blocked := fun f hf => ?_
      nested := ?_
      held := fun sig' c' hc' hid hor => ?_
      count := fun id hid => ?_
      lost := fun id hid hin => ?_ }
    · rcases List.mem_append.mp hx with hx | hx
      · exact h.ran_lt x hx
      · rw [List.mem_singleton.mp hx]
        exact h.callback_lt sig c hc
    · rcases List.mem_cons.mp hf with rfl | hf
      · exact Finset.mem_insert_self ..
      · exact Finset.mem_insert_of_mem (Finset.mem_union_left _ (h.blocked f hf))
    · exact .cons h.blocked h.nested
    · by_cases hs : sig' = sig
      · subst hs
        exact ⟨_, List.mem_cons_self, rfl⟩
      · obtain ⟨f, hf, he⟩ : s.Handling sig' := by
          refine h.held sig' c' hc' hid (hor.imp (fun hin => ?_) id)
          rw [List.map_append, List.mem_append] at hin
          refine hin.resolve_right fun he => hs ?_
          exact h.inj sig' sig c' c hc' hc (List.mem_singleton.mp he)
        exact ⟨f, List.mem_cons_of_mem _ hf, he⟩
    · rw [List.map_append, List.count_append]
      by_cases he : id = c.id
      · subst he
        rw [List.count_eq_zero_of_not_mem (hfirst hid).1]
        simp
      · have hrest : List.count id (List.map Prod.snd [(sig, c.id)]) = 0 := by
          simp [Ne.symm he]
        rw [hrest]
        exact h.count id hid
    · rw [List.map_append, List.mem_append] at hin
      rcases hin with hin | hin
      · exact h.lost id hid hin
      · obtain rfl := List.mem_singleton.mp hin
        exact (hfirst (h.rearmed _ hid)).2 hid

/-- What `__handler` leaves when the callback has returned: no callback of its signal, or one that is
persistent. -/
theorem callback_finish {sig sig' : σ} {c : SignalCallback}
    (hc : (s.finish sig).callback sig' = some c) :
    s.callback sig' = some c ∧ (c.persistent = false → sig' ≠ sig) := by
  unfold finish at hc
  cases hsig : s.callback sig with
  | none =>
    simp only [hsig] at hc
    -- the empty callback that `callback[sig]` makes is erased at once
    refine ⟨hc, fun _ he => ?_⟩
    rw [he, hsig] at hc
    cases hc
  | some d =>
    simp only [hsig] at hc
    split at hc
    · next hp =>
      refine ⟨hc, fun hpers he => ?_⟩
      rw [he, hsig] at hc
      rw [Option.some.inj hc, hpers] at hp
      cases hp
    · simp only [SignalHandlers.remove, hsig] at hc
      by_cases he : sig' = sig
      · subst he
        simp at hc
      · rw [Function.update_of_ne he] at hc
        exact ⟨hc, fun _ => he⟩

/-- A callback returns. -/
theorem OneShot.ret (h : s.OneShot) {f : HandlerFrame σ} {frames : List (HandlerFrame σ)}
    (hframes : s.frames = f :: frames) :
    OneShot { s.finish f.sig with blocked := f.saved, frames := frames } := by
  have hnested := h.nested
  rw [hframes] at hnested
  -- the mask that comes back blocks the signals of the outer calls
  obtain ⟨hsaved, hinner⟩ := List.pairwise_cons.mp hnested
  have hsame : (s.finish f.sig).next = s.next ∧ (s.finish f.sig).once = s.once ∧
      (s.finish f.sig).rearmed = s.rearmed ∧ (s.finish f.sig).ran = s.ran := by
    unfold finish SignalHandlers.remove
    split
    · exact ⟨rfl, rfl, rfl, rfl⟩
    · split
      · exact ⟨rfl, rfl, rfl, rfl⟩
      · split <;> exact ⟨rfl, rfl, rfl, rfl⟩
  obtain ⟨hnext, honce, hrearmed, hran⟩ := hsame
  refine h.of_frame hnext honce hrearmed hran (fun sig' c hc => ?_) hsaved hinner
  obtain ⟨hc, hne⟩ := callback_finish hc
  refine ⟨c, hc, rfl, fun hp => ⟨hp, ?_⟩⟩
  rintro ⟨g, hg, rfl⟩
  rw [hframes] at hg
  -- the signal was that of the call that returns, whose callback is gone, or of an outer one
  rcases List.mem_cons.mp hg with rfl | hg
  · exact absurd rfl (hne hp)
  · exact ⟨g, hg, rfl⟩

/-- A callback is removed, if there is one. -/
theorem OneShot.remove (h : s.OneShot) (sig : σ) : (s.remove sig).OneShot := by
  unfold SignalHandlers.remove
  cases hc : s.callback sig with
  | none => exact h
  | some c =>
    refine h.of_blocked rfl rfl rfl rfl rfl (fun sig' c' hc' => ?_) h.blocked
    replace hc' : Function.update s.callback sig none sig' = some c' := hc'
    by_cases hs : sig' = sig
    · subst hs
      simp at hc'
    · rw [Function.update_of_ne hs] at hc'
      exact ⟨c', hc', rfl, id⟩

/-- **Every step** of such a run keeps the invariant. -/
theorem OneShot.step (h : s.OneShot) {e : SignalEvent σ} (hplain : Plain s e) (hs : s.step e = some t) :
    t.OneShot := by
  cases e with
  | setHandler sig persistent =>
    obtain rfl := Option.some.inj hs
    exact h.setHandler sig persistent
  | setPersistent sig => exact hplain.elim
  | setUnpersistent sig =>
    obtain rfl := Option.some.inj hs
    unfold SignalHandlers.setPersistent
    cases hc : s.callback sig with
    | none => exact h
    | some c =>
      refine h.of_blocked rfl rfl rfl rfl rfl (fun sig' c' hc' => ?_) h.blocked
      replace hc' : Function.update s.callback sig (some { c with persistent := false }) sig' =
        some c' := hc'
      by_cases he : sig' = sig
      · subst he
        rw [Function.update_self] at hc'
        obtain rfl := Option.some.inj hc'
        exact ⟨c, hc, rfl, fun _ => rfl⟩
      · rw [Function.update_of_ne he] at hc'
        exact ⟨c', hc', rfl, id⟩
  | remove sig =>
    obtain rfl := Option.some.inj hs
    exact h.remove sig
  | block =>
    obtain rfl := Option.some.inj hs
    exact h.of_blocked rfl rfl rfl rfl rfl (fun _ c' hc' => ⟨c', hc', rfl, id⟩)
      fun f hf => Finset.mem_union_left _ (h.blocked f hf)
  | unblock =>
    obtain rfl := Option.some.inj hs
    -- `unblock` is called only in front of the loop, where nothing is being handled
    refine h.of_blocked rfl rfl rfl rfl rfl (fun _ c' hc' => ⟨c', hc', rfl, id⟩) fun f hf => ?_
    rw [show s.frames = [] from hplain] at hf
    cases hf
  | send sig =>
    obtain rfl := Option.some.inj hs
    exact h.of_blocked rfl rfl rfl rfl rfl (fun _ c' hc' => ⟨c', hc', rfl, id⟩) h.blocked
  | deliver sig =>
    obtain ⟨⟨-, hsig⟩, hs⟩ := Option.ite_none_right_eq_some.mp hs
    obtain ⟨mask, -, rfl⟩ := Option.map_eq_some_iff.mp hs
    exact h.deliver hsig
  | ret =>
    simp only [SignalHandlers.step] at hs
    split at hs
    · cases hs
    · next f frames hframes =>
      obtain rfl := Option.some.inj hs
      exact h.ret hframes

/-- **A callback runs once**: in every run in which nobody makes a callback persistent and no callback
calls `unblock`, each callback that is set runs once at most, however the signals come and interrupt
each other; and one that is set while a callback of its own signal is running never runs. -/
theorem runs_once (h : ((lts σ).guard Plain).Reachable s) :
    (∀ id ∈ s.once, (s.ran.map Prod.snd).count id ≤ 1) ∧
    ∀ id ∈ s.rearmed, id ∉ s.ran.map Prod.snd := by
  have hinv : s.OneShot := by
    refine h.invariant ?_ fun s e t h ⟨hplain, hs⟩ => h.step hplain hs
    rintro s ⟨blocked, rfl⟩
    exact oneShot_init blocked
  exact ⟨hinv.count, hinv.lost⟩

/-- The callback of signal 2 is interrupted by signal 17, sets its handler anew, and the signal comes
again. -/
def rearming : List (SignalEvent ℕ) :=
  [.setHandler 2 false, .setHandler 17 false, .send 2, .deliver 2, .send 2, .send 17, .deliver 17, .ret,
    .setHandler 2 false, .ret, .deliver 2]

/-- The new callback is gone before the signal is delivered. -/
theorem runs_once_rearming : ∃ s : SignalHandlers ℕ, s.ran = [(2, 0), (17, 1)] ∧ s.rearmed = [2] ∧
    ((∀ id ∈ s.once, (s.ran.map Prod.snd).count id ≤ 1) ∧ ∀ id ∈ s.rearmed, id ∉ s.ran.map Prod.snd) := by
  have hr : ((lts ℕ).guard Plain).Run {} rearming _ :=
    .cons ⟨trivial, rfl⟩ <| .cons ⟨trivial, rfl⟩ <| .cons ⟨trivial, rfl⟩ <| .cons ⟨trivial, rfl⟩ <|
      .cons ⟨trivial, rfl⟩ <| .cons ⟨trivial, rfl⟩ <| .cons ⟨trivial, rfl⟩ <| .cons ⟨trivial, rfl⟩ <|
      .cons ⟨trivial, rfl⟩ <| .cons ⟨trivial, rfl⟩ <| .cons ⟨trivial, rfl⟩ <| .nil _
  exact ⟨_, rfl, rfl, runs_once ⟨{}, rearming, ⟨∅, rfl⟩, hr⟩⟩

/-! ## After `remove` -/

/-- How often a callback of the signal has been started. -/
def runsOf (s : SignalHandlers σ) (sig : σ) : ℕ := (s.ran.map Prod.fst).count sig

/-- Two states look alike to a signal that has no callback. -/
structure Silent (sig : σ) (s t : SignalHandlers σ) : Prop where
  callback : t.callback sig = none
  action : t.action sig = s.action sig
  runsOf : t.runsOf sig = s.runsOf sig

/-- A removal keeps a signal silent. -/
theorem Silent.remove (hgone : s.callback sig = none) (sig' : σ) : Silent sig s (s.remove sig') := by
  unfold SignalHandlers.remove
  split
  · exact ⟨hgone, rfl, rfl⟩
  · refine ⟨?_, rfl, rfl⟩
    show Function.update s.callback sig' none sig = none
    by_cases h : sig = sig'
    · rw [h, Function.update_self]
    · rw [Function.update_of_ne h, hgone]

/-- **A step** that does not set a handler for the signal leaves it without a callback. -/
theorem Silent.step (hgone : s.callback sig = none) {e : SignalEvent σ}
    (he : ∀ persistent, e ≠ .setHandler sig persistent) (hs : s.step e = some t) : Silent sig s t := by
  cases e with
  | setHandler sig' persistent =>
    obtain rfl := Option.some.inj hs
    have hne : sig ≠ sig' := by
      rintro rfl
      exact he persistent rfl
    exact ⟨(Function.update_of_ne hne ..).trans hgone, Function.update_of_ne hne .., rfl⟩
  | setPersistent sig' | setUnpersistent sig' =>
    obtain rfl := Option.some.inj hs
    unfold SignalHandlers.setPersistent
    split
    · exact ⟨hgone, rfl, rfl⟩
    · next c hc =>
      have hne : sig ≠ sig' := by
        rintro rfl
        exact nomatch hgone.symm.trans hc
      exact ⟨(Function.update_of_ne hne ..).trans hgone, rfl, rfl⟩
  | remove sig' =>
    obtain rfl := Option.some.inj hs
    exact .remove hgone sig'
  | block | unblock | send sig' =>
    obtain rfl := Option.some.inj hs
    exact ⟨hgone, rfl, rfl⟩
  | deliver sig' =>
    obtain ⟨-, hs⟩ := Option.ite_none_right_eq_some.mp hs
    obtain ⟨mask, -, rfl⟩ := Option.map_eq_some_iff.mp hs
    unfold SignalHandlers.deliver
    split
    · exact ⟨hgone, rfl, rfl⟩
    · next c hc =>
      have hne : sig' ≠ sig := by
        rintro rfl
        exact nomatch hgone.symm.trans hc
      refine ⟨hgone, rfl, ?_⟩
      simp [SignalHandlers.runsOf, hne]
  | ret =>
    simp only [SignalHandlers.step] at hs
    split at hs
    · cases hs
    · next f frames hframes =>
      obtain rfl := Option.some.inj hs
      -- `__handler` removes a callback at most, and sets none
      have hfinish : Silent sig s (s.finish f.sig) := by
        unfold finish
        split
        · exact ⟨hgone, rfl, rfl⟩
        · split
          · exact ⟨hgone, rfl, rfl⟩
          · exact .remove hgone f.sig
      exact ⟨hfinish.callback, hfinish.action, hfinish.runsOf⟩

/-- **A run** that does not set a handler for the signal leaves it without a callback. -/
theorem Silent.run {es : List (SignalEvent σ)} (hr : (lts σ).Run s es t)
    (hno : ∀ persistent, SignalEvent.setHandler sig persistent ∉ es) (hgone : s.callback sig = none) :
    Silent sig s t := by
  induction hr with
  | nil s => exact ⟨hgone, rfl, rfl⟩
  | cons hs _ ih =>
    have hfirst := Silent.step hgone (fun p he => hno p (he ▸ List.mem_cons_self)) hs
    have hrest := ih (fun p hp => hno p (List.mem_cons_of_mem _ hp)) hfirst.callback
    exact ⟨hrest.callback, hrest.action.trans hfirst.action, hrest.runsOf.trans hfirst.runsOf⟩

/-- **After `remove`** a signal does nothing: in every run without a further call of `set_handler` for
it no callback of it is started, and its action is what it was before, so that the default action does
not come back. -/
theorem silenced {es : List (SignalEvent σ)} (hr : (lts σ).Run (s.remove sig) es t)
    (hno : ∀ persistent, SignalEvent.setHandler sig persistent ∉ es) :
    t.runsOf sig = s.runsOf sig ∧ t.action sig = s.action sig := by
  have hgone : (s.remove sig).callback sig = none := by
    unfold SignalHandlers.remove
    split
    · assumption
    · exact Function.update_self ..
  have hsame : (s.remove sig).runsOf sig = s.runsOf sig ∧ (s.remove sig).action sig = s.action sig := by
    unfold SignalHandlers.remove
    split <;> exact ⟨rfl, rfl⟩
  have hsilent := Silent.run hr hno hgone
  exact ⟨hsilent.runsOf.trans hsame.1, hsilent.action.trans hsame.2⟩

/-- A handler is set and removed, and then the signal comes. -/
theorem silenced_removed : ∃ t : SignalHandlers ℕ, t.runsOf 2 = 0 ∧ t.action 2 = some {2} := by
  have hr : (lts ℕ).Run ((({} : SignalHandlers ℕ).setHandler 2 false).remove 2) [.send 2, .deliver 2] _ :=
    .cons rfl <| .cons rfl <| .nil _
  exact ⟨_, silenced hr (by simp)⟩

end SignalHandlers

end Libio
