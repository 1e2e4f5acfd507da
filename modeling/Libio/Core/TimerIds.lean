import Libio.Core.TimerWalk

/-! # The ids of timers

`set_timer` takes its id from one of three places: zero when the map of ids is empty, one below the
smallest id of the map, or one above the largest id that was ever handed out. All of them are safe as
long as the ids of the map lie between 0 and `__maxid` (`IdsBelow`), and every event keeps that,
whatever entries `process` erases for the timers that have finished (`fresh_ids`). -/

namespace Libio

universe u

variable {κ : Type u}

/-- The event is a call of `set_timer`. -/
def WalkEvent.setsTimer : WalkEvent κ → Bool
  | .edit (.setTimer ..) => true
  | _ => false

/-- How many timers the events set. -/
def timersSet (es : List (WalkEvent κ)) : ℕ := es.countP WalkEvent.setsTimer

namespace TimerWalk

variable (s : TimerWalk κ)

/-- An event whose steps are not defined: it may have followed a pointer to a deleted timer. Nothing
is known afterwards of the set, the heap and the loop, and of the map only what is written there: a
removal erases the entry of its id, and `process` erases entries under any keys. -/
def Strays (t : TimerWalk κ) (e : WalkEvent κ) : Prop :=
  t.manager.maxid = s.manager.maxid ∧
    match e with
    | .edit (.setTimer ..) => False
    | .edit (.remove id) => t.manager.idtimer = s.manager.idtimer.erase id
    | .edit (.setPersistent _) | .edit (.process _) | .process _ =>
        t.manager.idtimer = s.manager.idtimer
    | .advance => ∃ keys : List ℤ,
        t.manager.idtimer = keys.foldl Std.ExtTreeMap.erase s.manager.idtimer

/-- A timer manager whose callbacks edit it, and which goes on after steps that are not defined. -/
def straying (κ : Type u) : Lts (TimerWalk κ) (WalkEvent κ) where
  init s := s = {}
  step s e t := s.next e = some t ∨ s.Strays t e

end TimerWalk

namespace TimerManager

/-- The ids of the map lie between 0 and `__maxid`. -/
structure IdsBelow (m : TimerManager κ) : Prop where
  nonneg : 0 ≤ m.maxid
  ids : ∀ (id : ℤ) (a : ℕ), m.idtimer[id]? = some a → 0 ≤ id ∧ id ≤ m.maxid

variable {m m' : TimerManager κ} {id : ℤ}

/-- There are no ids in the beginning. -/
theorem IdsBelow.start : IdsBelow ({} : TimerManager κ) := ⟨le_rfl, by simp⟩

/-- Nothing is added: the entries that are left were there before, and `__maxid` stays. -/
structure Narrows (m m' : TimerManager κ) : Prop where
  maxid : m'.maxid = m.maxid
  entries : ∀ (id : ℤ) (a : ℕ), m'.idtimer[id]? = some a → m.idtimer[id]? = some a

/-- Nothing is added where the ids are the same. -/
theorem Narrows.of_eq (hmaxid : m'.maxid = m.maxid) (hid : m'.idtimer = m.idtimer) :
    m.Narrows m' :=
  ⟨hmaxid, fun _ _ h => hid ▸ h⟩

/-- Erasing entries adds nothing, whatever their keys are. -/
theorem Narrows.of_erase (keys : List ℤ) (hmaxid : m'.maxid = m.maxid)
    (hid : m'.idtimer = keys.foldl Std.ExtTreeMap.erase m.idtimer) : m.Narrows m' := by
  refine ⟨hmaxid, ?_⟩
  rw [hid]
  clear hid
  induction keys using List.reverseRecOn with
  | nil => exact fun _ _ h => h
  | append_singleton keys key ih =>
      intro i a hi
      rw [List.foldl_concat, Std.ExtTreeMap.getElem?_erase] at hi
      split at hi
      · cases hi
      · exact ih i a hi

/-- What adds nothing keeps the ids below `__maxid`. -/
theorem IdsBelow.of_narrows (h : m.IdsBelow) (hnarrows : m.Narrows m') : m'.IdsBelow :=
  ⟨hnarrows.maxid ▸ h.nonneg,
    fun id a hid => hnarrows.maxid ▸ h.ids id a (hnarrows.entries id a hid)⟩

/-- An id in use is not negative, nor above the counter. -/
theorem IdsBelow.of_mem (h : m.IdsBelow) (hid : id ∈ m.idtimer) : 0 ≤ id ∧ id ≤ m.maxid := by
  obtain ⟨a, ha⟩ := Option.isSome_iff_exists.mp (Std.ExtTreeMap.mem_iff_isSome_getElem?.mp hid)
  exact h.ids id a ha

/-- `__maxid` grows by one at most. -/
theorem maxid_getId (h : m.getId = .ok (id, m')) : m'.maxid ≤ m.maxid + 1 := by
  unfold getId at h
  split at h
  · obtain ⟨-, rfl⟩ := Prod.mk.inj (Except.ok.inj h)
    exact Int.le_add_one le_rfl
  · split at h
    · obtain ⟨-, rfl⟩ := Prod.mk.inj (Except.ok.inj h)
      exact Int.le_add_one le_rfl
    · split at h
      · obtain ⟨-, rfl⟩ := Prod.mk.inj (Except.ok.inj h)
        exact le_rfl
      · cases h

section SetTimer

variable {now : Timeval} {sec usec left : ℤ} {persistent : Bool} {callback : κ}

/-- **`set_timer`** returns an id that is not in the map, and keeps the ids below `__maxid`. -/
theorem IdsBelow.setTimer (h : m.IdsBelow)
    (hset : m.setTimer now sec usec persistent callback left = .ok (id, m')) :
    id ∉ m.idtimer ∧ m'.IdsBelow ∧ m'.maxid ≤ m.maxid + 1 := by
  obtain ⟨⟨id', m₁⟩, hget, hset⟩ := bind_eq_ok.mp hset
  obtain ⟨rfl, rfl⟩ := Prod.mk.inj (Except.ok.inj hset)
  have hmaxid := maxid_getId hget
  obtain ⟨maxid, rfl, hnew, h0, hle, hgrow⟩ := getId_fresh h.nonneg h.ids hget
  refine ⟨fun hmem => ?_, ⟨h.nonneg.trans hgrow, fun i a hi => ?_⟩, hmaxid⟩
  · rw [Std.ExtTreeMap.mem_iff_isSome_getElem?, hnew] at hmem
    cases hmem
  · -- the new entry is the only one that was not there before
    have hentry : (m.idtimer.insert id' m.next)[i]? = some a := hi
    rw [Std.ExtTreeMap.getElem?_insert] at hentry
    split at hentry
    · next heq =>
        obtain rfl : id' = i := by simpa using heq
        exact ⟨h0, hle⟩
    · exact ⟨(h.ids i a hentry).1, (h.ids i a hentry).2.trans hgrow⟩

/-- Where `__maxid` may grow, `set_timer` returns. -/
theorem exists_setTimer (hmax : m.maxid < intMax) :
    ∃ id m', m.setTimer now sec usec persistent callback left = .ok (id, m') := by
  obtain ⟨id, m₁, hget⟩ := getId_ok fun _ _ _ => hmax
  exact ⟨id, _, bind_eq_ok.mpr ⟨_, hget, rfl⟩⟩

end SetTimer

/-- **A call sets a timer**, or adds nothing. -/
theorem exec_cases {call : TimerCall κ} {reply : TimerReply κ} (hedits : call.Edits)
    (hexec : m.exec call = .ok (reply, m')) :
    (∃ now sec usec persistent callback left id,
      call = .setTimer now sec usec persistent callback left ∧
        m.setTimer now sec usec persistent callback left = .ok (id, m')) ∨
    (WalkEvent.setsTimer (.edit call) = false ∧ m.Narrows m') := by
  cases call with
  | setTimer now sec usec persistent callback left =>
      obtain ⟨⟨id, m₁⟩, hset, hexec⟩ := bind_eq_ok.mp hexec
      obtain ⟨-, rfl⟩ := Prod.mk.inj (Except.ok.inj hexec)
      exact .inl ⟨now, sec, usec, persistent, callback, left, id, rfl, hset⟩
  | setPersistent id =>
      obtain ⟨-, ⟨-, rfl⟩ | ⟨a, t, -, -, rfl⟩⟩ := setPersistent_inv hexec
      · exact .inr ⟨rfl, .of_eq rfl rfl⟩
      · exact .inr ⟨rfl, .of_eq rfl rfl⟩
  | remove id =>
      obtain ⟨-, ⟨-, rfl⟩ | ⟨a, t, -, -, rfl⟩⟩ := remove_inv hexec
      · exact .inr ⟨rfl, .of_eq rfl rfl⟩
      · exact .inr ⟨rfl, .of_erase [id] rfl rfl⟩
  | process now => exact hedits.elim

end TimerManager

namespace TimerWalk

open TimerManager

variable {s t : TimerWalk κ} {e : WalkEvent κ}

/-- What the loop does by itself adds nothing. -/
theorem narrows_advance (h : s.advance = .ok t) : s.manager.Narrows t.manager := by
  unfold advance at h
  split at h
  · obtain rfl := Except.ok.inj h
    exact .of_eq rfl rfl
  · obtain rfl := Except.ok.inj h
    exact .of_eq rfl rfl
  · split at h
    · obtain ⟨u, -, h⟩ := bind_eq_ok.mp h
      split at h
      · obtain rfl := Except.ok.inj h
        exact .of_eq rfl rfl
      · obtain rfl := Except.ok.inj h
        exact .of_eq rfl rfl
    · cases h
  · obtain ⟨u, -, h⟩ := bind_eq_ok.mp h
    split at h
    · obtain rfl := Except.ok.inj h
      exact .of_eq rfl rfl
    · -- the entry under the member `id` of the timer goes, which may be that of another timer
      obtain rfl := Except.ok.inj h
      exact .of_erase [u.id] rfl rfl

/-- A step that is not defined adds nothing. -/
theorem Strays.narrows (h : s.Strays t e) : e.setsTimer = false ∧ s.manager.Narrows t.manager := by
  obtain ⟨hmaxid, hrest⟩ := h
  cases e with
  | edit call =>
      cases call with
      -- `set_timer` follows no pointer to a timer, so that all of its steps are defined
      | setTimer => exact hrest.elim
      | setPersistent id => exact ⟨rfl, .of_eq hmaxid hrest⟩
      | remove id => exact ⟨rfl, .of_erase [id] hmaxid hrest⟩
      | process now => exact ⟨rfl, .of_eq hmaxid hrest⟩
  | process now => exact ⟨rfl, .of_eq hmaxid hrest⟩
  | advance =>
      obtain ⟨keys, hkeys⟩ := hrest
      exact ⟨rfl, .of_erase keys hmaxid hkeys⟩

/-- **A step sets a timer**, or adds nothing. -/
theorem straying_cases (h : (straying κ).step s e t) :
    (∃ now sec usec persistent callback left id,
      e = .edit (.setTimer now sec usec persistent callback left) ∧
        s.manager.setTimer now sec usec persistent callback left = .ok (id, t.manager)) ∨
    (e.setsTimer = false ∧ s.manager.Narrows t.manager) := by
  rcases h with hnext | hstrays
  · cases e with
    | edit call =>
        rw [next] at hnext
        split at hnext
        case isFalse => cases hnext
        case isTrue hcond =>
          cases hexec : s.manager.exec call with
          | error err => simp [hexec] at hnext
          | ok res =>
              rw [hexec] at hnext
              obtain rfl := Option.some.inj hnext
              rcases exec_cases hcond.2 hexec with
                ⟨now, sec, usec, persistent, callback, left, id, rfl, hset⟩ | hrest
              · exact .inl ⟨now, sec, usec, persistent, callback, left, id, rfl, hset⟩
              · exact .inr hrest
    | process now =>
        rw [next] at hnext
        split at hnext
        · obtain rfl := Option.some.inj hnext
          exact .inr ⟨rfl, .of_eq rfl rfl⟩
        · cases hnext
    | advance =>
        rw [next] at hnext
        split at hnext
        · cases hnext
        · cases hadvance : s.advance with
          | error err =>
              rw [hadvance] at hnext
              cases hnext
          | ok u =>
              rw [hadvance] at hnext
              obtain rfl := Option.some.inj hnext
              exact .inr ⟨rfl, narrows_advance hadvance⟩
  · exact .inr hstrays.narrows

/-- **Step lemma.** A step keeps the ids below `__maxid`, and `__maxid` grows by one at most, in a
step that sets a timer. -/
theorem idsBelow_step (hs : s.manager.IdsBelow) (h : (straying κ).step s e t) :
    t.manager.IdsBelow ∧ t.manager.maxid ≤ s.manager.maxid + timersSet [e] := by
  rcases straying_cases h with
    ⟨now, sec, usec, persistent, callback, left, id, rfl, hset⟩ | ⟨hnot, hnarrows⟩
  · obtain ⟨-, hbelow, hle⟩ := hs.setTimer hset
    exact ⟨hbelow, hle⟩
  · refine ⟨hs.of_narrows hnarrows, ?_⟩
    rw [hnarrows.maxid]
    omega

/-- **Run lemma.** `__maxid` is at most the number of timers that were set. -/
theorem idsBelow_run {es : List (WalkEvent κ)} (h : (straying κ).Run s es t)
    (hs : s.manager.IdsBelow) :
    t.manager.IdsBelow ∧ t.manager.maxid ≤ s.manager.maxid + timersSet es := by
  induction h with
  | nil s => exact ⟨hs, by simp [timersSet]⟩
  | @cons s t u e es hst _ ih =>
      obtain ⟨ht, hle⟩ := idsBelow_step hs hst
      obtain ⟨hu, hle'⟩ := ih ht
      have hsum : timersSet (e :: es) = timersSet [e] + timersSet es := by
        rw [← List.singleton_append, timersSet, List.countP_append]
        rfl
      exact ⟨hu, by omega⟩

/-- **Fresh ids**: in every run the ids of the map lie between 0 and `__maxid`, and as long as fewer
than `2^31` timers are set, `set_timer` returns, with an id that is not in the map. -/
theorem fresh_ids {es : List (WalkEvent κ)} (h : (straying κ).Run {} es s) :
    (∀ id ∈ s.manager.idtimer, 0 ≤ id ∧ id ≤ s.manager.maxid) ∧
      (timersSet es + 1 < 2 ^ 31 → ∀ now sec usec persistent callback left, ∃ id m,
        s.manager.setTimer now sec usec persistent callback left = .ok (id, m) ∧
          id ∉ s.manager.idtimer) := by
  obtain ⟨hs, hle⟩ := idsBelow_run h .start
  refine ⟨fun id hid => hs.of_mem hid, fun hcount now sec usec persistent callback left => ?_⟩
  have hmaxid : s.manager.maxid < intMax := by
    have hzero : ({} : TimerWalk κ).manager.maxid = 0 := rfl
    rw [hzero] at hle
    unfold intMax
    omega
  obtain ⟨id, m, hset⟩ := exists_setTimer (m := s.manager) hmaxid
  exact ⟨id, m, hset, (hs.setTimer hset).1⟩

/-- Two timers, the first of which finishes with the id of the second one in its member `id`, so
that the wrong entry goes. The entry of the first one is left, and the next id is 2. -/
theorem fresh_ids_wrongErased :
    ∃ s : TimerWalk ℕ, s.manager.idtimer.keys = [0] ∧ s.manager.maxid = 1 ∧
      (∀ id ∈ s.manager.idtimer, 0 ≤ id ∧ id ≤ s.manager.maxid) ∧
      ∃ id m, s.manager.setTimer ⟨20, 0⟩ 5 0 false 9 0 = .ok (id, m) ∧ id ∉ s.manager.idtimer := by
  let es : List (WalkEvent ℕ) := [.edit (.setTimer ⟨10, 0⟩ 1 0 false 7 1),
    .edit (.setTimer ⟨10, 0⟩ 9 0 false 8 0), .process ⟨11, 0⟩, .advance, .advance, .advance]
  have hshow : (es.foldlM next {}).map (fun s => (s.manager.idtimer.keys, s.manager.maxid)) =
      some ([0], 1) := by
    decide +kernel
  obtain ⟨s, hs, hkeys⟩ := Option.map_eq_some_iff.mp hshow
  obtain ⟨hkeys, hmaxid⟩ := Prod.mk.inj hkeys
  have hrun : (straying ℕ).Run {} es s := .of_foldlM (fun _ _ _ => Or.inl) hs
  exact ⟨s, hkeys, hmaxid, (fresh_ids hrun).1,
    (fresh_ids hrun).2 (by decide) ⟨20, 0⟩ 5 0 false 9 0⟩

end TimerWalk

end Libio
