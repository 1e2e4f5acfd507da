import Libio.Core.TimerSteps

/-! # The two tables of the timer manager

The set holds the timers by deadline and the map by id. The tables are in step when both hold the
timers that have not finished, and the map holds each of them under the id that `set_timer` returned
for it. `process` erases a finished timer from the map by the member `id` of the timer, which was
never written; `tables_in_step_iff` says when that is the entry to erase. -/

namespace Libio

universe u

variable {κ : Type u}

/-- A timer manager with the ids that were returned so far: the timer at address `a` was allocated
for the call that returned `names[a]`. -/
structure NamedTimers (κ : Type u) where
  manager : TimerManager κ := {}
  names : List ℤ := []

/-- The id a call returns, if any. -/
def TimerReply.ids : TimerReply κ → List ℤ
  | .id n => [n]
  | _ => []

namespace TimerManager

/-- The timer manager, with the ids it has returned. -/
def tables (κ : Type u) : Lts (NamedTimers κ) (TimerCall κ × TimerReply κ) where
  init s := s = {}
  step s l s' := s.manager.exec l.1 = .ok (l.2, s'.manager) ∧ s'.names = s.names ++ l.2.ids

variable (m : TimerManager κ)

/-- A call that gives no timer the deadline of another one. -/
def Distinct : TimerCall κ → Prop
  | .setTimer now sec usec _ _ _ => ∀ a ∈ m.timers, m.timeout a ≠ timeradd now ⟨sec, usec⟩
  | .process now => m.Apart now m.timers
  | _ => True

/-- Runs in which deadlines are pairwise different. -/
def distinctTables (κ : Type u) : Lts (NamedTimers κ) (TimerCall κ × TimerReply κ) :=
  (tables κ).guard fun s l => s.manager.Distinct l.1

/-- What the timers that finish in a call have in their member `id` are the ids of the timers that
finish. -/
def Clean : TimerCall κ → Prop
  | .process now => ∀ (id : ℤ) (a : ℕ), m.idtimer[id]? = some a →
      ((∃ b ∈ m.timers, ∃ t ∈ m.heap b, t.Finishes now ∧ t.id = id) ↔
        ∃ t ∈ m.heap a, t.Finishes now)
  | _ => True

/-- What holds of each entry of the map, by id and timer. -/
theorem forall_entries_iff {Q : ℤ → ℕ → Prop} :
    (∀ p ∈ m.idtimer.toList, Q p.1 p.2) ↔
      ∀ (id : ℤ) (a : ℕ), m.idtimer[id]? = some a → Q id a := by
  constructor
  · intro h id a hid
    exact h (id, a) (Std.ExtTreeMap.mem_toList_iff_getElem?_eq_some.mpr hid)
  · intro h p hp
    exact h p.1 p.2 (Std.ExtTreeMap.mem_toList_iff_getElem?_eq_some.mp hp)

instance (now : Timeval) (l : List ℕ) : Decidable (m.Apart now l) :=
  inferInstanceAs (Decidable (∀ a ∈ l, ∀ t ∈ m.heap a, _))

instance (call : TimerCall κ) : Decidable (m.Distinct call) :=
  match call with
  | .setTimer .. => inferInstanceAs (Decidable (∀ a ∈ m.timers, _))
  | .process now => inferInstanceAs (Decidable (m.Apart now m.timers))
  | .setPersistent _ => inferInstanceAs (Decidable True)
  | .remove _ => inferInstanceAs (Decidable True)

instance (call : TimerCall κ) : Decidable (m.Clean call) :=
  match call with
  | .process _ => decidable_of_iff _ (forall_entries_iff m)
  | .setTimer .. => inferInstanceAs (Decidable True)
  | .setPersistent _ => inferInstanceAs (Decidable True)
  | .remove _ => inferInstanceAs (Decidable True)

end TimerManager

namespace NamedTimers

/-- The tables are in step. -/
structure InStep (s : NamedTimers κ) : Prop where
  same : ∀ a, a ∈ s.manager.timers ↔ ∃ id : ℤ, s.manager.idtimer[id]? = some a
  live : ∀ a, a ∈ s.manager.timers ↔ (s.manager.heap a).isSome
  entries : ∀ (id : ℤ) (a : ℕ), s.manager.idtimer[id]? = some a ↔
    s.names[a]? = some id ∧ (s.manager.heap a).isSome
  remove : ∀ id, (∀ a, s.names[a]? = some id → s.manager.heap a = none) →
    s.manager.remove id = .ok s.manager

/-- What every run keeps, besides: each address has its id. -/
structure Numbered (s : NamedTimers κ) : Prop where
  ordered : s.manager.Ordered
  length : s.names.length = s.manager.next

variable {s s' : NamedTimers κ}

/-- The rest follows from what the set and the map hold. -/
theorem Numbered.inStep (h : s.Numbered)
    (hlive : ∀ a, a ∈ s.manager.timers ↔ (s.manager.heap a).isSome)
    (hentries : ∀ (id : ℤ) (a : ℕ), s.manager.idtimer[id]? = some a ↔
      s.names[a]? = some id ∧ (s.manager.heap a).isSome) : s.InStep where
  same a := by
    rw [hlive]
    constructor
    · intro ha
      have hlt : a < s.names.length := h.length ▸ h.ordered.heap_lt a ha
      exact ⟨_, (hentries _ a).mpr ⟨List.getElem?_eq_getElem hlt, ha⟩⟩
    · rintro ⟨id, hid⟩
      exact ((hentries id a).mp hid).2
  live := hlive
  entries := hentries
  remove id hgone := by
    have hnone : s.manager.idtimer[id]? = none := by
      refine Option.eq_none_iff_forall_ne_some.mpr fun a hid => ?_
      obtain ⟨hname, hlive⟩ := (hentries id a).mp hid
      rw [hgone a hname] at hlive
      cases hlive
    rw [TimerManager.remove, hnone]

/-- Empty tables are in step. -/
theorem InStep.start : ({} : NamedTimers κ).InStep :=
  Numbered.inStep ⟨.start, rfl⟩ (by simp) (by simp)

end NamedTimers

namespace TimerManager

open NamedTimers

variable {s s' : NamedTimers κ} {l : TimerCall κ × TimerReply κ}

/-- Each step keeps the order of the set and gives each address an id. -/
theorem numbered_step (h : s.Numbered) (hstep : (tables κ).step s l s') : s'.Numbered := by
  obtain ⟨call, reply⟩ := l
  obtain ⟨hexec, hnames⟩ := hstep
  refine ⟨h.ordered.exec hexec, ?_⟩
  rw [hnames, List.length_append, h.length]
  cases call with
  | setTimer now sec usec persistent callback left =>
      obtain ⟨id, maxid, rfl, hm, -⟩ := h.ordered.setTimer_inv hexec
      rw [hm]
      rfl
  | setPersistent id =>
      obtain ⟨rfl, ⟨-, hm⟩ | ⟨a, t, -, -, hm⟩⟩ := setPersistent_inv hexec <;> rw [hm] <;> rfl
  | remove id =>
      obtain ⟨rfl, ⟨-, hm⟩ | ⟨a, t, -, -, hm⟩⟩ := remove_inv hexec <;> rw [hm] <;> rfl
  | process now =>
      obtain ⟨ran, rfl, hp⟩ := h.ordered.process_inv hexec
      exact hp.next.symm

/-- Setting a timer enters it in both tables. -/
theorem inStep_setTimer (h : s.Numbered) (hs : s.InStep) {id maxid : ℤ} {t : Timer κ}
    (hm : s'.manager = s.manager.armed id maxid t) (hnames : s'.names = s.names ++ [id])
    (hid : s.manager.idtimer[id]? = none) (hs' : s'.Numbered)
    (hnew : ∀ a ∈ s.manager.timers, s.manager.timeout a ≠ t.timeout) : s'.InStep := by
  have hnext : s.manager.heap s.manager.next = none := by
    refine Option.not_isSome_iff_eq_none.mp fun hsome => ?_
    exact absurd (h.ordered.heap_lt _ hsome) (lt_irrefl _)
  refine hs'.inStep (fun a => ?_) fun i a => ?_
  · rw [hm, heap_armed]
    by_cases ha : a = s.manager.next
    · rw [if_pos ha, ha]
      exact ⟨fun _ => rfl, fun _ => h.ordered.next_mem_armed hnew⟩
    · rw [if_neg ha, ← hs.live]
      exact ⟨fun hin => (mem_of_mem_armed hin).resolve_left ha, mem_armed_of_mem⟩
  · rw [hm, hnames, getElem?_armed, heap_armed]
    by_cases ha : a = s.manager.next
    · subst ha
      rw [if_pos rfl, ← h.length, List.getElem?_concat_length, h.length]
      by_cases hi : id = i
      · simp [hi]
      · rw [if_neg hi, hs.entries, hnext]
        simp [hi]
    · rw [if_neg ha]
      by_cases hi : id = i
      · -- the id was in no entry, so no live timer had it
        subst hi
        rw [if_pos rfl]
        refine iff_of_false (fun he => ha (Option.some.inj he).symm) fun hname => ?_
        have hlt : a < s.names.length := h.length ▸ h.ordered.heap_lt a hname.2
        rw [List.getElem?_append_left hlt] at hname
        rw [(hs.entries id a).mpr hname] at hid
        cases hid
      · rw [if_neg hi, hs.entries]
        refine and_congr_left fun hsome => ?_
        have hlt : a < s.names.length := h.length ▸ h.ordered.heap_lt a hsome
        rw [List.getElem?_append_left hlt]

/-- Making a timer persistent leaves both tables alone. -/
theorem inStep_persist (hs : s.InStep) {a : ℕ} {t : Timer κ} (ht : s.manager.heap a = some t)
    (hm : s'.manager = s.manager.store a { t with persistent := true })
    (hnames : s'.names = s.names) (hs' : s'.Numbered) : s'.InStep := by
  have hlive : ∀ b, (s'.manager.heap b).isSome = (s.manager.heap b).isSome := by
    intro b
    rw [hm, heap_store]
    by_cases hb : b = a
    · rw [if_pos hb, hb, ht]
      rfl
    · rw [if_neg hb]
  refine hs'.inStep (fun b => ?_) fun i b => ?_
  · rw [hlive, ← hs.live, hm]
    rfl
  · rw [hlive, hnames, ← hs.entries, hm]
    rfl

/-- Removing a timer takes it out of both tables. -/
theorem inStep_remove (h : s.Numbered) (hs : s.InStep) {id : ℤ} {a : ℕ}
    (hid : s.manager.idtimer[id]? = some a) (hm : s'.manager = s.manager.removed id a)
    (hnames : s'.names = s.names) (hs' : s'.Numbered) : s'.InStep := by
  have ha : a ∈ s.manager.timers := (hs.same a).mpr ⟨id, hid⟩
  refine hs'.inStep (fun b => ?_) fun i b => ?_
  · rw [hm, h.ordered.mem_removed ha, heap_removed, hs.live]
    by_cases hb : b = a <;> simp [hb]
  · rw [hm, hnames, getElem?_removed, heap_removed]
    by_cases hb : b = a
    · -- the timer has no other entry
      subst hb
      rw [if_pos rfl]
      refine iff_of_false (fun he => ?_) (by simp)
      split at he
      · cases he
      · next hi =>
          have h₁ := ((hs.entries id b).mp hid).1
          have h₂ := ((hs.entries i b).mp he).1
          exact hi (Option.some.inj (h₁.symm.trans h₂))
    · rw [if_neg hb, ← hs.entries]
      by_cases hi : id = i
      · subst hi
        rw [if_pos rfl, hid]
        exact iff_of_false (by simp) fun he => hb (Option.some.inj he).symm
      · rw [if_neg hi]

/-- `process` keeps the tables in step exactly when it erases the entries of the finished timers. -/
theorem inStep_process_iff (hs : s.InStep) {now : Timeval} {ran : List κ}
    (hp : Processed now [] s.manager.timers s.manager s'.manager ran)
    (hapart : s.manager.Apart now s.manager.timers) (hnames : s'.names = s.names)
    (hs' : s'.Numbered) : s'.InStep ↔ s.manager.Clean (.process now) := by
  have hlive : ∀ a, (s'.manager.heap a).isSome ↔
      (s.manager.heap a).isSome ∧ ¬∃ t ∈ s.manager.heap a, t.Finishes now := by
    intro a
    rw [hp.heap]
    cases ht : s.manager.heap a with
    | none => simp
    | some t =>
        rw [if_pos ((hs.live a).mpr (by rw [ht]; rfl))]
        have hafter : (t.after now).isSome ↔ ¬t.Finishes now := Timer.after_isSome
        simpa using hafter
  have hentry : ∀ (id : ℤ) (a : ℕ), s'.manager.idtimer[id]? = some a ↔
      s.manager.idtimer[id]? = some a ∧
        ¬∃ b ∈ s.manager.timers, ∃ t ∈ s.manager.heap b, t.Finishes now ∧ t.id = id := by
    intro id a
    rw [hp.idtimer]
    refine and_congr_right fun _ => ?_
    push Not
    exact Iff.rfl
  have hmem : ∀ a, a ∈ s'.manager.timers ↔ (s'.manager.heap a).isSome := by
    intro a
    refine ⟨fun ha => (hp.sub a ha).2, fun ha => ?_⟩
    obtain ⟨hsome, hnot⟩ := (hlive a).mp ha
    obtain ⟨t, ht⟩ := Option.isSome_iff_exists.mp hsome
    have hin := (hs.live a).mpr hsome
    by_cases hd : t.Due now
    · cases hpers : t.persistent with
      | true => exact hp.rearmed (by simpa using hapart) a hin t ht hd hpers
      | false => exact absurd ⟨t, ht, hd, hpers⟩ hnot
    · refine hp.keep a (.inr ⟨hin, fun u hu => ?_⟩)
      rwa [← Option.some.inj (ht.symm.trans hu)]
  constructor
  · intro hstep id a hid
    -- an entry stays exactly when its timer does
    have h := hstep.entries id a
    rw [hentry, hlive, hnames] at h
    obtain ⟨hname, hsome⟩ := (hs.entries id a).mp hid
    simp only [hid, hname, hsome, true_and] at h
    exact not_iff_not.mp h
  · intro hclean
    refine hs'.inStep hmem fun id a => ?_
    rw [hentry, hlive, hnames]
    constructor
    · rintro ⟨hid, hnot⟩
      obtain ⟨hname, hsome⟩ := (hs.entries id a).mp hid
      exact ⟨hname, hsome, fun hf => hnot ((hclean id a hid).mpr hf)⟩
    · rintro ⟨hname, hsome, hnot⟩
      have hid := (hs.entries id a).mpr ⟨hname, hsome⟩
      exact ⟨hid, fun hf => hnot ((hclean id a hid).mp hf)⟩

/-- **One call** keeps the tables in step exactly when it is clean. -/
theorem inStep_step_iff (h : s.Numbered) (hs : s.InStep) (hstep : (distinctTables κ).step s l s') :
    s'.InStep ↔ s.manager.Clean l.1 := by
  obtain ⟨hdistinct, hstep⟩ := hstep
  have hs' := numbered_step h hstep
  obtain ⟨call, reply⟩ := l
  obtain ⟨hexec, hnames⟩ := hstep
  cases call with
  | setTimer now sec usec persistent callback left =>
      obtain ⟨id, maxid, rfl, hm, hid, -⟩ := h.ordered.setTimer_inv hexec
      exact iff_of_true (inStep_setTimer h hs hm hnames hid hs' hdistinct) trivial
  | setPersistent id =>
      obtain ⟨rfl, ⟨-, hm⟩ | ⟨a, t, -, ht, hm⟩⟩ := setPersistent_inv hexec
      · obtain rfl : s' = s := by
          cases s; cases s'
          simp only [TimerReply.ids, List.append_nil] at hm hnames
          rw [hm, hnames]
        exact iff_of_true hs trivial
      · exact iff_of_true (inStep_persist hs ht hm (hnames.trans (List.append_nil _)) hs') trivial
  | remove id =>
      obtain ⟨rfl, ⟨-, hm⟩ | ⟨a, t, hid, -, hm⟩⟩ := remove_inv hexec
      · obtain rfl : s' = s := by
          cases s; cases s'
          simp only [TimerReply.ids, List.append_nil] at hm hnames
          rw [hm, hnames]
        exact iff_of_true hs trivial
      · exact iff_of_true (inStep_remove h hs hid hm (hnames.trans (List.append_nil _)) hs') trivial
  | process now =>
      obtain ⟨ran, rfl, hp⟩ := h.ordered.process_inv hexec
      exact inStep_process_iff hs hp hdistinct (hnames.trans (List.append_nil _)) hs'

/-- A call has one outcome. -/
theorem tables_det {t t' : NamedTimers κ} (h : (distinctTables κ).step s l t)
    (h' : (distinctTables κ).step s l t') : t = t' := by
  obtain ⟨-, hm, hnames⟩ := h
  obtain ⟨-, hm', hnames'⟩ := h'
  cases t
  cases t'
  have heq := (Prod.mk.inj (Except.ok.inj (hm.symm.trans hm'))).2
  exact congrArg₂ NamedTimers.mk heq (hnames.trans hnames'.symm)

/-- **The tables stay in step** in a run exactly when each of its calls is clean: the member `id` of
the timers that finish gives the ids of these timers. -/
theorem tables_in_step_iff {ls : List (TimerCall κ × TimerReply κ)} {s : NamedTimers κ}
    (h : (distinctTables κ).Run {} ls s) :
    (∀ bs u, bs <+: ls → (distinctTables κ).Run {} bs u → u.InStep) ↔
      ((distinctTables κ).guard fun s l => s.manager.Clean l.1).Run {} ls s :=
  h.always_iff (I := Numbered) (fun _ _ _ _ => tables_det)
    (fun _ _ _ hI _ hstep _ => numbered_step hI hstep.2)
    (fun _ _ _ hI hP hstep => inStep_step_iff hI hP hstep) ⟨.start, rfl⟩ .start

/-- A timer whose member `id` happens to hold its id. -/
theorem tables_in_step_ownId :
    ∃ s, (distinctTables ℕ).Run {}
        [(.setTimer ⟨10, 0⟩ 1 0 false 5 0, .id 0), (.process ⟨11, 0⟩, .ran [5])] s ∧
      s.InStep := by
  let m₁ : TimerManager ℕ := afterCall {} (.setTimer ⟨10, 0⟩ 1 0 false 5 0)
  have h₁ : exec {} (.setTimer ⟨10, 0⟩ 1 0 false 5 0) = .ok (.id 0, m₁) :=
    exec_eq (by decide +kernel)
  have h₂ : m₁.exec (.process ⟨11, 0⟩) = .ok (.ran [5], m₁.afterCall (.process ⟨11, 0⟩)) :=
    exec_eq (by decide +kernel)
  have hdistinct : m₁.Distinct (.process ⟨11, 0⟩) := by decide +kernel
  have hclean : m₁.Clean (.process ⟨11, 0⟩) := by decide +kernel
  have hrun : ((distinctTables ℕ).guard fun s l => s.manager.Clean l.1).Run {}
      [(.setTimer ⟨10, 0⟩ 1 0 false 5 0, .id 0), (.process ⟨11, 0⟩, .ran [5])]
      ⟨m₁.afterCall (.process ⟨11, 0⟩), [0]⟩ :=
    .cons (t := ⟨m₁, [0]⟩) ⟨trivial, by decide +kernel, h₁, rfl⟩
      (.cons ⟨hclean, hdistinct, h₂, rfl⟩ (.nil _))
  exact ⟨_, hrun.of_guard,
    (tables_in_step_iff hrun.of_guard).mpr hrun _ _ (List.prefix_refl _) hrun.of_guard⟩

/-- **A dangling entry.** The member `id` of the timer holds something else, so its entry stays when
it is deleted, and removing it again follows the pointer to a deleted timer. -/
theorem not_tables_in_step_strayId :
    ∃ s, (distinctTables ℕ).Run {}
        [(.setTimer ⟨10, 0⟩ 1 0 false 5 7, .id 0), (.process ⟨11, 0⟩, .ran [5])] s ∧
      ¬s.InStep ∧ s.manager.exec (.remove 0) = .error .undefined := by
  let m₁ : TimerManager ℕ := afterCall {} (.setTimer ⟨10, 0⟩ 1 0 false 5 7)
  let m₂ : TimerManager ℕ := m₁.afterCall (.process ⟨11, 0⟩)
  have h₁ : exec {} (.setTimer ⟨10, 0⟩ 1 0 false 5 7) = .ok (.id 0, m₁) :=
    exec_eq (by decide +kernel)
  have h₂ : m₁.exec (.process ⟨11, 0⟩) = .ok (.ran [5], m₂) := exec_eq (by decide +kernel)
  have hdistinct : m₁.Distinct (.process ⟨11, 0⟩) := by decide +kernel
  have hid : m₂.idtimer[(0 : ℤ)]? = some 0 := by decide +kernel
  have hgone : m₂.heap 0 = none := Option.isNone_iff_eq_none.mp (by decide +kernel)
  refine ⟨⟨m₂, [0]⟩, .cons (t := ⟨m₁, [0]⟩) ⟨by decide +kernel, h₁, rfl⟩
    (.cons ⟨hdistinct, h₂, rfl⟩ (.nil _)), fun hs => ?_, ?_⟩
  · have := (hs.entries 0 0).mp hid
    rw [hgone] at this
    cases this.2
  · simp [exec, remove, hid, deref, hgone, bind, Except.bind]

end TimerManager

end Libio
