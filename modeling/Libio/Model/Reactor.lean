import Libio.Core.Epoll

/-! # The reactor

The class `reactor<epoll>` of `model/reactor.hh`, without its timers. A callback is named by a value
of the type `κ`; what it does is up to the user of the reactor, who is asked to run the callback
that `dispatch` hands out. -/

namespace Libio

universe u

/-- `struct channel`: the callbacks of a descriptor. -/
structure Channel (κ : Type u) where
  readcb : Option κ := none
  writecb : Option κ := none

/-- The two directions of the loop over the active descriptors. -/
inductive Dir
  | read
  | write
  deriving DecidableEq, Repr

/-- The class `reactor`. -/
structure Reactor (κ : Type u) where
  channels : ℤ → Option (Channel κ)
  needclean : List ℤ
  io : Epoll
  /-- What is left of the loop over `get_active_fd()`: for each active descriptor first its read
  event, then its write event. -/
  active : List (ℤ × Dir)

namespace Reactor

variable {κ : Type u} (re : Reactor κ)

/-- `add_read(fd)`. -/
def addRead (fd : ℤ) : Reactor κ := { re with io := (re.io.add fd .RD).2 }

/-- `add_write(fd)`. -/
def addWrite (fd : ℤ) : Reactor κ := { re with io := (re.io.add fd .WR).2 }

/-- `remove_read(fd)`. -/
def removeRead (fd : ℤ) : Reactor κ := { re with io := (re.io.remove fd .RD).2 }

/-- `remove_write(fd)`. -/
def removeWrite (fd : ℤ) : Reactor κ := { re with io := (re.io.remove fd .WR).2 }

/-- Replace the channel of a descriptor. -/
def setChannel (fd : ℤ) (c : Option (Channel κ)) : Reactor κ :=
  { re with channels := Function.update re.channels fd c }

/-- `init_channel(fd)`. -/
def initChannel (fd : ℤ) : Reactor κ := re.setChannel fd (some ((re.channels fd).getD {}))

/-- `set_read_handler(fd, f)`. -/
def setReadHandler (fd : ℤ) (f : κ) : Reactor κ :=
  let re := (re.initChannel fd).addRead fd
  re.setChannel fd ((re.channels fd).map fun c => { c with readcb := some f })

/-- `set_write_handler(fd, f)`. -/
def setWriteHandler (fd : ℤ) (f : κ) : Reactor κ :=
  let re := (re.initChannel fd).addWrite fd
  re.setChannel fd ((re.channels fd).map fun c => { c with writecb := some f })

/-- `remove_read_handler(fd)`. -/
def removeReadHandler (fd : ℤ) : Reactor κ :=
  match re.channels fd with
  | none => re
  | some c =>
      let re := re.setChannel fd (some { c with readcb := none })
      -- the channel itself stays until the round is over
      let re := if c.writecb.isNone then { re with needclean := re.needclean ++ [fd] } else re
      re.removeRead fd

/-- `erase(fd)`. -/
def erase (fd : ℤ) : Reactor κ := re.setChannel fd none

/-- The end of a round of the loop: the descriptors in `needclean` lose their channels. -/
def clean : Reactor κ := { re.needclean.foldl erase re with needclean := [] }

/-- The events of one descriptor in the order in which the loop looks at them. -/
def eventsOf (event : ℤ × Mask) : List (ℤ × Dir) :=
  (if event.2.rd then [(event.1, .read)] else []) ++
    if event.2.wr then [(event.1, .write)] else []

/-- A round of the loop: `listen` reports the active descriptors. -/
def listen (events : List (ℤ × Mask)) : Reactor κ :=
  { re.clean with active := events.flatMap eventsOf }

/-- The callback of a channel for one direction. -/
def callback (c : Channel κ) : Dir → Option κ
  | .read => c.readcb
  | .write => c.writecb

/-! ## What the methods of a connection may do to it -/

/-- `re'` is `re` after operations on the interest and the read handler of one descriptor. -/
structure Touches (fd : ℤ) (re re' : Reactor κ) : Prop where
  io : Epoll.Touches fd re.io re'.io
  channels : ∀ fd', fd' ≠ fd → re'.channels fd' = re.channels fd'
  channel : ∀ c, re.channels fd = some c → ∃ c', re'.channels fd = some c' ∧
    c'.writecb = c.writecb ∧ (c'.readcb = c.readcb ∨ c'.readcb = none)
  noChannel : re.channels fd = none → re'.channels fd = none
  needclean : (∀ c, re.channels fd = some c → c.writecb ≠ none) → re'.needclean = re.needclean
  active : re'.active = re.active

variable {re} {fd : ℤ}

/-- What touches the events of a descriptor touches the descriptor. -/
theorem Touches.of_io {io : Epoll} (h : Epoll.Touches fd re.io io) :
    Touches fd re { re with io := io } where
  io := h
  channels _ _ := rfl
  channel c hc := ⟨c, hc, rfl, .inl rfl⟩
  noChannel h := h
  needclean _ := rfl
  active := rfl

/-- Nothing touches at most this descriptor. -/
theorem Touches.refl (fd : ℤ) (re : Reactor κ) : Touches fd re re := .of_io (.refl fd re.io)

/-- So do two such operations. -/
theorem Touches.trans {re' re'' : Reactor κ} (h : Touches fd re re') (h' : Touches fd re' re'') :
    Touches fd re re'' where
  io := h.io.trans h'.io
  channels fd' hfd := (h'.channels fd' hfd).trans (h.channels fd' hfd)
  channel c hc := by
    obtain ⟨c', hc', hw, hr⟩ := h.channel c hc
    obtain ⟨c'', hc'', hw', hr'⟩ := h'.channel c' hc'
    refine ⟨c'', hc'', hw'.trans hw, ?_⟩
    rcases hr' with hr' | hr'
    · rw [hr']
      exact hr
    · exact .inr hr'
  noChannel hn := h'.noChannel (h.noChannel hn)
  needclean hw := by
    refine (h'.needclean fun c' hc' => ?_).trans (h.needclean hw)
    cases hc : re.channels fd with
    | none => rw [h.noChannel hc] at hc'; cases hc'
    | some c =>
        obtain ⟨c₁, hc₁, hw₁, -⟩ := h.channel c hc
        obtain rfl : c₁ = c' := Option.some.inj (hc₁.symm.trans hc')
        rw [hw₁]
        exact hw c hc
  active := h'.active.trans h.active

/-- A read handler that has been removed stays removed. -/
theorem Touches.readcb_none {re' : Reactor κ} (h : Touches fd re re')
    (hs : ∀ c, re.channels fd = some c → c.readcb = none) :
    ∀ c, re'.channels fd = some c → c.readcb = none := by
  intro c' hc'
  cases hc : re.channels fd with
  | none =>
      rw [h.noChannel hc] at hc'
      cases hc'
  | some c =>
      obtain ⟨d, hd, -, hr⟩ := h.channel c hc
      obtain rfl := Option.some.inj (hd.symm.trans hc')
      rcases hr with hr | hr
      · exact hr.trans (hs c hc)
      · exact hr

/-- So does `add_read` for it. -/
theorem touches_addRead : Touches fd re (re.addRead fd) := .of_io Epoll.touches_add

/-- So does `add_write`. -/
theorem touches_addWrite : Touches fd re (re.addWrite fd) := .of_io Epoll.touches_add

/-- So does `remove_read`. -/
theorem touches_removeRead : Touches fd re (re.removeRead fd) := .of_io Epoll.touches_remove

/-- So does `remove_write`. -/
theorem touches_removeWrite : Touches fd re (re.removeWrite fd) := .of_io Epoll.touches_remove

/-- So does `remove_read_handler`. -/
theorem touches_removeReadHandler : Touches fd re (re.removeReadHandler fd) := by
  unfold removeReadHandler
  cases hc : re.channels fd with
  | none => exact .refl fd re
  | some c =>
      have hset : Touches fd re (re.setChannel fd (some { c with readcb := none })) := {
        io := .refl fd re.io
        channels := fun fd' hfd => Function.update_of_ne hfd _ _
        channel := fun c' hc' => by
          obtain rfl := Option.some.inj (hc.symm.trans hc')
          exact ⟨_, Function.update_self fd _ _, rfl, .inr rfl⟩
        noChannel := fun hn => by rw [hc] at hn; cases hn
        needclean := fun _ => rfl
        active := rfl }
      refine Touches.trans ?_ touches_removeRead
      split
      · next hw =>
          exact {
            io := hset.io
            channels := hset.channels
            channel := hset.channel
            noChannel := hset.noChannel
            needclean := fun h => absurd (Option.isNone_iff_eq_none.mp hw) (h c hc)
            active := rfl }
      · exact hset

/-- Removing the read handler of a descriptor removes its read interest. -/
theorem io_removeReadHandler {c : Channel κ} (hc : re.channels fd = some c) :
    (re.removeReadHandler fd).io = (re.io.remove fd .RD).2 := by
  simp only [removeReadHandler, hc]
  cases c.writecb <;> rfl

/-! ## The interest of a live descriptor -/

/-- A descriptor that is open and has a channel, and whose record is in step with the kernel. -/
structure Live (re : Reactor κ) (fd : ℤ) : Prop where
  pos : 0 < fd
  client : re.io.kernel.clients fd ≠ none
  synced : re.io.Synced fd
  channel : re.channels fd ≠ none

/-- Operations on the descriptor that keep the record in step. -/
theorem Live.touches {re' : Reactor κ} (h : re.Live fd) (ht : Touches fd re re')
    (hs : re'.io.Synced fd) : re'.Live fd where
  pos := h.pos
  client := by
    rw [ht.io.clients]
    exact h.client
  synced := hs
  channel := by
    obtain ⟨c, hc⟩ := Option.ne_none_iff_exists'.mp h.channel
    obtain ⟨c', hc', -⟩ := ht.channel c hc
    rw [hc']
    exact Option.some_ne_none c'

/-- `add_read` adds read events to a live descriptor. -/
theorem Live.addRead (h : re.Live fd) :
    (re.addRead fd).Live fd ∧ (re.addRead fd).io.old fd = (re.io.old fd).or .RD :=
  let ⟨hs, ho⟩ := h.synced.add (Int.le_of_lt h.pos) (by decide)
  ⟨h.touches touches_addRead hs, ho h.client⟩

/-- `add_write` adds write events. -/
theorem Live.addWrite (h : re.Live fd) :
    (re.addWrite fd).Live fd ∧ (re.addWrite fd).io.old fd = (re.io.old fd).or .WR :=
  let ⟨hs, ho⟩ := h.synced.add (Int.le_of_lt h.pos) (by decide)
  ⟨h.touches touches_addWrite hs, ho h.client⟩

/-- `remove_read` takes read events away. -/
theorem Live.removeRead (h : re.Live fd) :
    (re.removeRead fd).Live fd ∧ (re.removeRead fd).io.old fd = (re.io.old fd).without .RD :=
  let ⟨hs, ho⟩ := h.synced.remove (Int.le_of_lt h.pos) (by decide)
  ⟨h.touches touches_removeRead hs, ho⟩

/-- `remove_write` takes write events away. -/
theorem Live.removeWrite (h : re.Live fd) :
    (re.removeWrite fd).Live fd ∧ (re.removeWrite fd).io.old fd = (re.io.old fd).without .WR :=
  let ⟨hs, ho⟩ := h.synced.remove (Int.le_of_lt h.pos) (by decide)
  ⟨h.touches touches_removeWrite hs, ho⟩

/-- So does `remove_read_handler` with read events. -/
theorem Live.removeReadHandler (h : re.Live fd) : (re.removeReadHandler fd).Live fd ∧
    (re.removeReadHandler fd).io.old fd = (re.io.old fd).without .RD := by
  obtain ⟨c, hc⟩ := Option.ne_none_iff_exists'.mp h.channel
  have htype : Mask.RD ≠ .zero := by decide
  obtain ⟨hs, ho⟩ := h.synced.remove (Int.le_of_lt h.pos) htype
  rw [← io_removeReadHandler hc] at hs ho
  exact ⟨h.touches touches_removeReadHandler hs, ho⟩

end Reactor

end Libio
