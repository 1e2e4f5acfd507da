import Libio.Core.IoMultiplex
import Mathlib.Data.List.Basic

/-! # poll

The class `poll` of `core/poll.hh`. Its map holds a `struct pollfd` for each descriptor with
interest, of which only the member `events` matters beside the key, and never a null pointer. A
descriptor without an entry makes `pollfdMap.at(fd)` throw `std::out_of_range`. -/

namespace Libio

/-- The class `poll`. -/
structure Poll extends Results where
  pollfdMap : Std.ExtTreeMap ℤ Mask := ∅

namespace Poll

variable (p : Poll)

/-- `pollfdMap.at(fd)`. -/
def pollfdAt (fd : ℤ) : Except Fault Mask :=
  match p.pollfdMap[fd]? with
  | some events => .ok events
  | none => .error .outOfRange

/-- `is_readset(fd)`. -/
def isReadset (fd : ℤ) : Except Fault Bool := (p.pollfdAt fd).map Mask.rd

/-- `is_writeset(fd)`. -/
def isWriteset (fd : ℤ) : Except Fault Bool := (p.pollfdAt fd).map Mask.wr

/-- `add(fd, type)`. -/
def add (fd : ℤ) (type : Mask) : ℤ × Poll :=
  let events := (p.pollfdMap[fd]?).getD .zero
  (0, { p with pollfdMap := p.pollfdMap.insert fd (events.or type) })

/-- `remove(fd, type)`. -/
def remove (fd : ℤ) (type : Mask) : Except Fault (ℤ × Poll) := do
  let events ← p.pollfdAt fd
  let events := events.without type
  if events = .zero then .ok (0, { p with pollfdMap := p.pollfdMap.erase fd })
  else .ok (0, { p with pollfdMap := p.pollfdMap.insert fd events })

/-- The array `fds` as the system call leaves it: each descriptor of the map with its `revents`. -/
def fds (revents : ℤ → Revents) : List (ℤ × Revents) :=
  p.pollfdMap.keys.map fun fd => (fd, revents fd)

/-- What the system call returns: the number of structures with some `revents`. -/
def poll (a : KernelAnswer (ℤ → Revents)) : ℤ × List (ℤ × Revents) :=
  match a with
  | .ready revents => (((p.fds revents).countP fun e => e.2 ≠ {} : ℕ), p.fds revents)
  | .timeout => (0, p.fds fun _ => {})
  | .error => (-1, p.fds fun _ => {})

/-- `listen(timeout)`, with the answer of the kernel. -/
def listen (a : KernelAnswer (ℤ → Revents)) : ℤ × Poll :=
  let (res, fds) := p.poll a
  if res = 0 ∨ res = -1 then (res, p)
  else (res, { p with toResults := Results.collect {} (fds.map fun e => (e.1, e.2.event)) })

/-- The calls about interest. -/
def call : IoCall → Except Fault (Option Bool × Poll)
  | .add fd type => .ok (none, (p.add fd type).2)
  | .remove fd type => (p.remove fd type).map fun r => (none, r.2)
  | .isReadset fd => (p.isReadset fd).map fun b => (some b, p)
  | .isWriteset fd => (p.isWriteset fd).map fun b => (some b, p)

/-- The interest the map records. -/
def interest (fd : ℤ) : Mask := (p.pollfdMap[fd]?).getD .zero

/-- What an answer reports: the events of the descriptors in the map. -/
def reported (a : KernelAnswer (ℤ → Revents)) : InterestSet :=
  match a with
  | .ready revents => fun fd => if fd ∈ p.pollfdMap then (revents fd).event else .zero
  | .timeout => .empty
  | .error => .empty

/-- The class behind the interface. -/
def multiplex : IoMultiplex where
  State := Poll
  Report := ℤ → Revents
  new p := p = {}
  call := call
  listen p a := .ok (p.listen a)
  getActiveFd p := p.activeFd
  isReadable p fd := .ok (p.isReadable fd)
  isWriteable p fd := .ok (p.isWriteable fd)
  Covers _ := True
  Admits _ _ := True
  reported := reported
  interest := interest

/-! ## Following the set of interests -/

/-- A state that calls lead to: every entry has some event. -/
def Wf : Prop := ∀ (fd : ℤ) (m : Mask), p.pollfdMap[fd]? = some m → m ≠ .zero

/-- The calls that `poll` completes: those that look a descriptor up need an entry of it. -/
def Completes (x : InterestSet) : IoCall → Prop
  | .add _ _ => True
  | .remove fd _ => x fd ≠ .zero
  | .isReadset fd => x fd ≠ .zero
  | .isWriteset fd => x fd ≠ .zero

instance (x : InterestSet) : DecidablePred (Completes x)
  | .add _ _ => .isTrue trivial
  | .remove fd _ => inferInstanceAs (Decidable (x fd ≠ .zero))
  | .isReadset fd => inferInstanceAs (Decidable (x fd ≠ .zero))
  | .isWriteset fd => inferInstanceAs (Decidable (x fd ≠ .zero))

variable {p} {fd : ℤ} {type : Mask}

/-- `at` returns for a descriptor that is in the map. -/
theorem pollfdAt_eq_ok {m : Mask} : p.pollfdAt fd = .ok m ↔ p.pollfdMap[fd]? = some m := by
  unfold pollfdAt
  cases p.pollfdMap[fd]? <;> simp

/-- A descriptor has an entry when it has recorded interest. -/
theorem Wf.pollfdAt_iff (h : p.Wf) : (∃ m, p.pollfdAt fd = .ok m) ↔ p.interest fd ≠ .zero := by
  unfold interest
  simp only [pollfdAt_eq_ok]
  cases hm : p.pollfdMap[fd]? with
  | none => simp
  | some m => exact iff_of_true ⟨m, rfl⟩ (h fd m hm)

/-- What `remove` makes of the entry of a descriptor that is left with the events `m`. -/
def left (p : Poll) (fd : ℤ) (m : Mask) : Poll :=
  { p with pollfdMap := if m = .zero then p.pollfdMap.erase fd else p.pollfdMap.insert fd m }

/-- Every way in which `remove` returns. -/
theorem remove_eq_ok {r : ℤ × Poll} : p.remove fd type = .ok r ↔
    ∃ m, p.pollfdMap[fd]? = some m ∧ r = (0, p.left fd (m.without type)) := by
  unfold remove
  rw [bind_eq_ok]
  simp only [pollfdAt_eq_ok]
  refine exists_congr fun m => and_congr_right fun _ => ?_
  unfold left
  split <;> simp [eq_comm]

/-- The entry of a descriptor that is left with the events `m`. -/
theorem getElem?_left {fd' : ℤ} {m : Mask} : (p.left fd m).pollfdMap[fd']? =
    if fd = fd' then (if m = .zero then none else some m) else p.pollfdMap[fd']? := by
  unfold left
  by_cases hm : m = .zero
  · simp only [if_pos hm, Std.ExtTreeMap.getElem?_erase, compare_eq_iff_eq]
  · simp only [if_neg hm, Std.ExtTreeMap.getElem?_insert, compare_eq_iff_eq]

/-- The interest when an entry is stored. -/
theorem interest_left {m : Mask} : (p.left fd m).interest = Function.update p.interest fd m := by
  funext fd'
  unfold interest
  rw [getElem?_left]
  by_cases hfd : fd = fd'
  · subst hfd
    by_cases hm : m = .zero <;> simp [hm]
  · simp [hfd, Ne.symm hfd]

/-- `add` adds interest. -/
theorem interest_add : (p.add fd type).2.interest = InterestSet.add p.interest fd type := by
  funext fd'
  by_cases hfd : fd' = fd
  · subst hfd
    simp [interest, add, InterestSet.add]
  · simp [interest, add, InterestSet.add, Std.ExtTreeMap.getElem?_insert, hfd, Ne.symm hfd]

/-- **Adding** an event keeps the entries non-empty. -/
theorem Wf.add (h : p.Wf) (htype : type ≠ .zero) : (p.add fd type).2.Wf := by
  intro fd' m hm
  simp only [Poll.add, Std.ExtTreeMap.getElem?_insert] at hm
  split at hm
  · rw [← Option.some.inj hm]
    exact Mask.or_ne_zero htype
  · exact h fd' m hm

/-- **Removing** erases an entry without events. -/
theorem Wf.left (h : p.Wf) (m : Mask) : (p.left fd m).Wf := by
  intro fd' m' hm'
  rw [getElem?_left] at hm'
  split at hm'
  · split at hm'
    · cases hm'
    · next hne => rwa [← Option.some.inj hm']
  · exact h fd' m' hm'

/-- **One call.** Where `poll` completes a call it does what the set of interests does. -/
theorem Wf.matches_iff (h : p.Wf) {c : IoCall} :
    Matches multiplex.call InterestSet.call multiplex.interest p c ↔ Completes p.interest c := by
  have hentry : ∀ fd, (p.interest fd ≠ .zero ↔ ∃ m, p.pollfdAt fd = .ok m ∧ p.interest fd = m) := by
    intro fd
    rw [← h.pollfdAt_iff]
    refine exists_congr fun m => ⟨fun hm => ⟨hm, ?_⟩, And.left⟩
    rw [interest, pollfdAt_eq_ok.mp hm]
    rfl
  cases c with
  | add fd type => exact iff_of_true ⟨none, _, rfl, Prod.ext rfl interest_add⟩ trivial
  | remove fd type =>
      refine Iff.trans ⟨?_, ?_⟩ (hentry fd).symm
      · rintro ⟨o, t, hcall, -⟩
        obtain ⟨r, hr, -⟩ := map_eq_ok.mp hcall
        obtain ⟨m, hm, -⟩ := remove_eq_ok.mp hr
        exact ⟨m, pollfdAt_eq_ok.mpr hm, by rw [interest, hm]; rfl⟩
      · rintro ⟨m, hm, hinterest⟩
        have hremove : p.remove fd type = .ok (0, p.left fd (m.without type)) :=
          remove_eq_ok.mpr ⟨m, pollfdAt_eq_ok.mp hm, rfl⟩
        refine ⟨none, _, map_eq_ok.mpr ⟨_, hremove, rfl⟩, Prod.ext rfl ?_⟩
        rw [← hinterest]
        exact interest_left
  | isReadset fd =>
      refine Iff.trans ⟨?_, ?_⟩ (hentry fd).symm
      · rintro ⟨o, t, hcall, -⟩
        obtain ⟨b, hb, -⟩ := map_eq_ok.mp hcall
        obtain ⟨m, hm, -⟩ := map_eq_ok.mp hb
        exact ⟨m, hm, by rw [interest, pollfdAt_eq_ok.mp hm]; rfl⟩
      · rintro ⟨m, hm, hinterest⟩
        refine ⟨some m.rd, p, map_eq_ok.mpr ⟨_, map_eq_ok.mpr ⟨m, hm, rfl⟩, rfl⟩, ?_⟩
        rw [← hinterest]
        rfl
  | isWriteset fd =>
      refine Iff.trans ⟨?_, ?_⟩ (hentry fd).symm
      · rintro ⟨o, t, hcall, -⟩
        obtain ⟨b, hb, -⟩ := map_eq_ok.mp hcall
        obtain ⟨m, hm, -⟩ := map_eq_ok.mp hb
        exact ⟨m, hm, by rw [interest, pollfdAt_eq_ok.mp hm]; rfl⟩
      · rintro ⟨m, hm, hinterest⟩
        refine ⟨some m.wr, p, map_eq_ok.mpr ⟨_, map_eq_ok.mpr ⟨m, hm, rfl⟩, rfl⟩, ?_⟩
        rw [← hinterest]
        rfl

/-- Every valid call that returns keeps the entries non-empty. -/
theorem Wf.call (h : p.Wf) {c : IoCall} (hc : c.Valid) {o : Option Bool} {t : Poll}
    (hcall : p.call c = .ok (o, t)) : t.Wf := by
  cases c with
  | add fd type =>
      obtain ⟨-, rfl⟩ := Prod.mk.inj (Except.ok.inj hcall)
      exact h.add hc.2
  | remove fd type =>
      obtain ⟨r, hr, hrt⟩ := map_eq_ok.mp hcall
      obtain ⟨m, -, rfl⟩ := remove_eq_ok.mp hr
      obtain ⟨-, rfl⟩ := Prod.mk.inj hrt
      exact h.left _
  | isReadset fd =>
      obtain ⟨b, -, hbt⟩ := map_eq_ok.mp hcall
      obtain ⟨-, rfl⟩ := Prod.mk.inj hbt
      exact h
  | isWriteset fd =>
      obtain ⟨b, -, hbt⟩ := map_eq_ok.mp hcall
      obtain ⟨-, rfl⟩ := Prod.mk.inj hbt
      exact h

/-- **`poll` follows the set of interests** along the calls that look up descriptors with interest,
and along no other. -/
theorem followsSet_iff {calls : List IoCall} (hcalls : ∀ c ∈ calls, c.Valid) :
    multiplex.FollowsSet ({} : Poll) calls ↔ AllMeet InterestSet.call Completes .empty calls := by
  have hkeep : ∀ p c o t, Wf p → c.Valid → multiplex.call p c = .ok (o, t) → Wf t :=
    fun _ _ _ _ h hc hcall => h.call hc hcall
  have hstep : ∀ p c, Wf p → c.Valid →
      (Matches multiplex.call InterestSet.call multiplex.interest p c ↔ Completes p.interest c) :=
    fun _ _ h _ => h.matches_iff
  have hempty : ({} : Poll).interest = InterestSet.empty := by
    funext fd
    simp [interest, InterestSet.empty]
  rw [← hempty]
  exact follows_iff (C := Completes) hkeep hstep (fun fd m hm => by simp at hm) hcalls

/-! ## What `listen` shows -/

/-- The kernel reports something: `poll` returns a positive number. -/
def Positive (p : Poll) (a : KernelAnswer (ℤ → Revents)) : Prop :=
  match a with
  | .ready revents => ∃ fd ∈ p.pollfdMap, revents fd ≠ {}
  | .timeout => False
  | .error => False

/-- What the system call returns is positive when the kernel reports something. -/
theorem positive_iff {revents : ℤ → Revents} :
    p.Positive (.ready revents) ↔ 0 < (p.fds revents).countP fun e => e.2 ≠ {} := by
  rw [List.countP_pos_iff]
  simp [Positive, fds]

/-- The events of the array are those the answer reports. -/
theorem reportOf_fds {revents : ℤ → Revents} :
    Results.reportOf ((p.fds revents).map fun e => (e.1, e.2.event)) =
      p.reported (.ready revents) := by
  funext fd
  have hgraph : (p.fds revents).map (fun e => (e.1, e.2.event)) =
      p.pollfdMap.keys.map fun fd => (fd, (revents fd).event) := by simp [fds]
  rw [Results.reportOf, hgraph]
  simp only [reported]
  by_cases hfd : fd ∈ p.pollfdMap
  · rw [List.lookup_graph (fun fd => (revents fd).event) (Std.ExtTreeMap.mem_keys.mpr hfd), if_pos hfd]
    rfl
  · have hnone : (p.pollfdMap.keys.map fun fd => (fd, (revents fd).event)).lookup fd = none := by
      rw [List.lookup_eq_none_iff]
      intro e he
      obtain ⟨k, hk, rfl⟩ := List.mem_map.mp he
      have hne : fd ≠ k := fun h => hfd (h ▸ Std.ExtTreeMap.mem_keys.mp hk)
      simpa using hne
    rw [hnone, if_neg hfd]
    rfl

/-- **What `listen` does**, by what the kernel reports: it shows the report, or it returns early. -/
theorem listen_spec (p : Poll) (a : KernelAnswer (ℤ → Revents)) :
    (p.Positive a → (p.listen a).2.Consistent ∧ (p.listen a).2.shown = p.reported a) ∧
      (¬p.Positive a → (p.listen a).2 = p ∧ p.reported a = InterestSet.empty) := by
  cases a with
  | timeout => exact ⟨False.elim, fun _ => ⟨rfl, rfl⟩⟩
  | error => exact ⟨False.elim, fun _ => ⟨rfl, rfl⟩⟩
  | ready revents =>
      rw [positive_iff]
      constructor
      · intro hpos
        have hlisten : (p.listen (.ready revents)).2.toResults =
            Results.collect {} ((p.fds revents).map fun e => (e.1, e.2.event)) := by
          unfold listen poll
          simp only
          rw [if_neg (by omega)]
        have hnodup : (((p.fds revents).map fun e => (e.1, e.2.event)).map Prod.fst).Nodup := by
          simpa [fds, Function.comp_def] using Std.ExtTreeMap.nodup_keys
        rw [hlisten, Results.shown_collect_empty hnodup, reportOf_fds]
        exact ⟨Results.consistent_empty.collect _, rfl⟩
      · intro hzero
        refine ⟨?_, funext fun fd => ?_⟩
        · unfold listen poll
          simp only
          rw [if_pos (by omega)]
        · have hquiet : ∀ fd ∈ p.pollfdMap, revents fd = {} := by
            intro fd hfd
            by_contra hne
            exact hzero (positive_iff.mp ⟨fd, hfd, hne⟩)
          simp only [reported]
          split
          · next hfd => rw [hquiet fd hfd]; rfl
          · rfl

/-- **`poll` keeps stale descriptors**: a call reports what the kernel answered when the kernel
reports something, or no descriptor was active before. -/
theorem reports_iff (h : p.Consistent) (a : KernelAnswer (ℤ → Revents)) :
    multiplex.Reports p a ↔ p.Positive a ∨ p.activeFd = [] := by
  have hshows : ∀ {p : Poll}, p.Consistent → ∀ x, multiplex.Shows p x ↔ p.shown = x :=
    fun hp x => IoMultiplex.shows_iff_shown hp (fun _ => trivial) rfl (fun _ => rfl) fun _ => rfl
  have hlisten : multiplex.listen p a = .ok ((p.listen a).1, (p.listen a).2) := rfl
  rw [IoMultiplex.reports_iff_shows hlisten]
  by_cases hpos : p.Positive a
  · obtain ⟨hcons, hshown⟩ := (p.listen_spec a).1 hpos
    exact iff_of_true ((hshows hcons _).mpr hshown) (.inl hpos)
  · obtain ⟨hkeep, hempty⟩ := (p.listen_spec a).2 hpos
    have hreported : multiplex.reported p a = InterestSet.empty := hempty
    rw [hkeep, hreported, hshows h, or_iff_right hpos]
    exact h.shown_eq_empty_iff

/-- Calls about interest leave what is shown alone. -/
theorem consistent_call (h : p.Consistent) {c : IoCall} {o : Option Bool} {t : Poll}
    (hcall : p.call c = .ok (o, t)) : t.Consistent := by
  cases c with
  | add fd type =>
      obtain ⟨-, rfl⟩ := Prod.mk.inj (Except.ok.inj hcall)
      exact h
  | remove fd type =>
      obtain ⟨r, hr, hrt⟩ := map_eq_ok.mp hcall
      obtain ⟨m, -, rfl⟩ := remove_eq_ok.mp hr
      obtain ⟨-, rfl⟩ := Prod.mk.inj hrt
      exact h
  | isReadset fd =>
      obtain ⟨b, -, hbt⟩ := map_eq_ok.mp hcall
      obtain ⟨-, rfl⟩ := Prod.mk.inj hbt
      exact h
  | isWriteset fd =>
      obtain ⟨b, -, hbt⟩ := map_eq_ok.mp hcall
      obtain ⟨-, rfl⟩ := Prod.mk.inj hbt
      exact h

/-- Every reachable state is consistent. -/
theorem consistent_of_reachable (h : multiplex.lts.Reachable p) : p.Consistent := by
  refine h.invariant (P := fun p : Poll => p.Consistent) ?_ ?_
  · rintro _ rfl
    exact Results.consistent_empty
  · intro p e t hp hstep
    cases e with
    | call c =>
        obtain ⟨o, hcall⟩ := hstep
        exact consistent_call hp hcall
    | listen a =>
        obtain ⟨-, res, hlisten⟩ := hstep
        obtain rfl : (p.listen a).2 = t := congrArg Prod.snd (Except.ok.inj hlisten)
        by_cases hpos : p.Positive a
        · exact ((p.listen_spec a).1 hpos).1
        · rw [((p.listen_spec a).2 hpos).1]
          exact hp

end Poll

end Libio
