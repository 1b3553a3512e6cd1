import TickKernel.Proofs.Moves
import TickKernel.Proofs.Token

/-!
# Openings and passages

The history of the carriers tells how often a slot was named by a switch, how often
its gate was opened and how often its carrier passed.  The three counts differ only by
what is under way, so a switch back that comes before the outgoing carrier is at its
gate is not lost, and no carrier goes on unless a switch named its slot.
-/

namespace TickKernel.Host

namespace Event

def names (slot : ThreadId) (event : Event) : Bool :=
  event.action == .prepare slot

def opens (slot : ThreadId) (event : Event) : Bool :=
  event.action == .release slot

def passes (slot : ThreadId) (event : Event) : Bool :=
  event.carrier == slot && event.action == .pass

end Event

namespace Carriers

variable {state after : Carriers} {past : List Event} {id slot : ThreadId} {action : Action}

structure Accounts (past : List Event) (state : Carriers) (slot : ThreadId) : Prop where
  named : past.countP (Event.names slot) = past.countP (Event.opens slot) + state.aiming slot
  opened : past.countP (Event.opens slot) =
    past.countP (Event.passes slot) + if state.gates.isOpen slot then 1 else 0

namespace Accounts

theorem initial (slot : ThreadId) : Accounts [] Carriers.initial slot where
  named := by
    have hholds : (Carriers.initial.carrier ThreadId.idle).holdsProcessor = true := rfl
    rw [Guarded.initial.token.aiming_of_holds hholds]
    rfl
  opened := rfl

/-- A step keeps the account when what it adds to both sides is the same. -/
theorem add (h : Accounts past state slot) {event : Event}
    (hnamed : state.aiming slot + (if event.names slot then 1 else 0) =
      (if event.opens slot then 1 else 0) + after.aiming slot)
    (hopened : (if state.gates.isOpen slot then 1 else 0) + (if event.opens slot then 1 else 0) =
      (if event.passes slot then 1 else 0) + if after.gates.isOpen slot then 1 else 0) :
    Accounts (past ++ [event]) after slot := by
  obtain ⟨hnames, hopens⟩ := h
  constructor
  · simp only [List.countP_append, List.countP_singleton]
    omega
  · simp only [List.countP_append, List.countP_singleton]
    omega

theorem unchanged (h : Accounts past state slot) (action : Action)
    (hprepare : ∀ next, action ≠ .prepare next) (hrelease : ∀ next, action ≠ .release next)
    (hpass : action ≠ .pass) (haiming : after.aiming slot = state.aiming slot)
    (hopen : after.gates.isOpen slot = state.gates.isOpen slot) :
    Accounts (past ++ [⟨id, action⟩]) after slot := by
  apply h.add
  · simp [Event.names, Event.opens, hprepare, hrelease, haiming]
  · simp [Event.opens, Event.passes, hrelease, hpass, hopen]

theorem prepare (h : Accounts past state slot) (hguarded : state.Guarded) {next : ThreadId}
    (hholding : state.carrier id = .holding) (hnext : next ≠ id) :
    Accounts (past ++ [⟨id, .prepare next⟩])
      ((state.put id (.prepared next)).withGates (state.gates.ensure id)) slot := by
  have hid : (state.carrier id).holdsProcessor = true := by rw [hholding]; rfl
  have hbefore : state.aiming slot = 0 := by
    rw [hguarded.token.aiming_of_holds hid, hholding]
    rfl
  have hthen : (((state.put id (.prepared next)).withGates (state.gates.ensure id)).carrier
      id).holdsProcessor = true := by
    simp [Carrier.holdsProcessor]
  have haims := (hguarded.act (.prepare hholding hnext)).token.aiming_of_holds hthen slot
  apply h.add
  · rw [hbefore, haims]
    simp [Event.names, Event.opens, Carrier.target?]
  · simp [Event.opens, Event.passes]

theorem release (h : Accounts past state slot) (hguarded : state.Guarded) {next : ThreadId}
    (haimed : state.carrier id = .aimed next) :
    Accounts (past ++ [⟨id, .release next⟩])
      ((state.put id .turning).withGates (state.gates.setOpen next true)) slot := by
  have hid : (state.carrier id).holdsProcessor = true := by rw [haimed]; rfl
  have hgate : state.gates.has next = true := (hguarded.fits_of_eq haimed).2.2.1
  have haims := hguarded.token.aiming_of_holds hid slot
  obtain ⟨-, hclosed⟩ := hguarded.token.of_holds hid
  have hopened : (state.gates.setOpen next true).isOpen next = true := by
    rw [Gates.isOpen_setOpen_self, hgate]
    rfl
  have hnone := ((hguarded.act (.release haimed)).token.of_isOpen hopened).2.1
  rw [haimed] at haims
  apply h.add
  · rw [aiming_of_none hnone, haims]
    simp [Event.names, Event.opens, Carrier.target?]
  · by_cases hslot : slot = next
    · simp [Event.opens, Event.passes, hslot, hopened, hclosed next]
    · have hother := Gates.isOpen_setOpen_of_ne state.gates true hslot
      simp [Event.opens, Event.passes, hother, Ne.symm hslot]

theorem pass (h : Accounts past state slot) (hguarded : state.Guarded)
    (hwaiting : state.carrier id = .waiting) (hopen : state.gates.isOpen id = true) :
    Accounts (past ++ [⟨id, .pass⟩])
      ((state.put id .holding).withGates (state.gates.setOpen id false)) slot := by
  have hnone := (hguarded.token.of_isOpen hopen).2.1
  have hthen : (((state.put id .holding).withGates (state.gates.setOpen id false)).carrier
      id).holdsProcessor = true := by
    simp [Carrier.holdsProcessor]
  have haims := (hguarded.act (.pass hwaiting hopen)).token.aiming_of_holds hthen slot
  apply h.add
  · rw [aiming_of_none hnone, haims]
    simp [Event.names, Event.opens, Carrier.target?]
  · by_cases hslot : slot = id
    · simp [Event.opens, Event.passes, hslot, hopen, Gates.isOpen_setOpen_self]
    · have hother := Gates.isOpen_setOpen_of_ne state.gates false hslot
      simp [Event.opens, Event.passes, hother, Ne.symm hslot]

theorem act (h : Accounts past state slot) (hguarded : state.Guarded)
    (hacts : state.Acts id action after) : Accounts (past ++ [⟨id, action⟩]) after slot := by
  cases hacts with
  | prepare hholding hnext => exact h.prepare hguarded hholding hnext
  | find hprepared | miss hprepared =>
      apply h.unchanged .lookUp (by simp) (by simp) (by simp)
      · apply aiming_put
        rw [hprepared]
        rfl
      · rfl
  | @launch next hmissing =>
      obtain ⟨hnext, -, -, habsent⟩ := hguarded.fits_of_eq hmissing
      apply h.unchanged .launch (by simp) (by simp) (by simp)
      · rw [aiming_put, aiming_put]
        · rw [habsent]
          rfl
        · rw [carrier_put_of_ne _ _ hnext.symm, hmissing]
          rfl
      · rfl
  | @keep next hlaunched =>
      apply h.unchanged .keep (by simp) (by simp) (by simp)
      · apply (aiming_congr fun _ => rfl).trans
        apply aiming_put
        show (Carrier.aimed next).target? = _
        rw [hlaunched]
        rfl
      · exact Gates.isOpen_make _ _ _
  | release haimed => exact h.release hguarded haimed
  | turn hturning =>
      apply h.unchanged .turn (by simp) (by simp) (by simp)
      · apply aiming_put
        rw [hturning]
        rfl
      · rfl
  | pass hwaiting hopen => exact h.pass hguarded hwaiting hopen

end Accounts

/-! ## Courses -/

namespace Course

theorem guarded (h : Course past state) : state.Guarded := by
  induction h with
  | start => exact .initial
  | step event _ hact ih => exact ih.act (acts_of_act? hact)

theorem accounts (h : Course past state) (slot : ThreadId) : Accounts past state slot := by
  induction h with
  | start => exact .initial slot
  | step event hbefore hact ih => exact ih.act hbefore.guarded (acts_of_act? hact)

theorem split {event : Event} {later : List Event} (h : Course (past ++ event :: later) state) :
    ∃ before after, Course past before ∧ before.act? event.carrier event.action = some after := by
  generalize hevents : past ++ event :: later = events at h
  induction h generalizing later with
  | start => simp at hevents
  | @step events before after last hbefore hact ih =>
      rcases divided_snoc hevents with ⟨-, rfl, rfl⟩ | ⟨front, -, hearlier⟩
      · exact ⟨before, after, hbefore, hact⟩
      · exact ih hearlier

end Course

/--
At any time one carrier holds the processor or one gate is open, never more and never
less.  No slot has two gates, an open gate's carrier is outside, and a carrier is
launched only for a slot that has none.  Every opening of a slot's gate is matched by
a passage or still stands; every passage was preceded by an opening of its own, and
every opening by a switch that named the slot.
-/
theorem Course.single_token (h : Course past state) :
    state.tokens = 1 ∧
      (∀ id other, (state.carrier id).holdsProcessor = true →
        (state.carrier other).holdsProcessor = true → id = other) ∧
      state.gates.slots.Nodup ∧
      (∀ id, state.gates.isOpen id = true → (state.carrier id).isOutside = true) ∧
      (∀ id next, state.carrier id = .missing next →
        state.carrier next = .absent ∧ state.gates.has next = false) ∧
      (∀ slot, past.countP (Event.opens slot) =
        past.countP (Event.passes slot) + if state.gates.isOpen slot then 1 else 0) ∧
      ∀ slot before later, past = before ++ ⟨slot, .pass⟩ :: later →
        before.countP (Event.passes slot) < before.countP (Event.opens slot) ∧
          before.countP (Event.opens slot) ≤ before.countP (Event.names slot) := by
  have hguarded := h.guarded
  refine ⟨hguarded.token.tokens_eq_one hguarded.nodup, ?_, hguarded.nodup, ?_, ?_, ?_, ?_⟩
  · intro id other hid hother
    exact hguarded.token.holds_unique hid hother
  · intro id hopen
    exact (hguarded.token.of_isOpen hopen).2.2
  · intro id next hmissing
    obtain ⟨-, -, hgate, habsent⟩ := hguarded.fits_of_eq hmissing
    exact ⟨habsent, hgate⟩
  · exact fun slot => (h.accounts slot).opened
  · intro slot before later hpast
    obtain ⟨earlier, after, hbefore, hact⟩ := Course.split (hpast ▸ h)
    obtain ⟨hnamed, hopened⟩ := hbefore.accounts slot
    cases acts_of_act? hact with
    | pass _ hopen =>
        rw [if_pos hopen] at hopened
        omega

/-! ## Schedules -/

def play? (state : Carriers) (events : List Event) : Option Carriers :=
  events.foldlM (fun before event => before.act? event.carrier event.action) state

theorem act?_of_acts {action : Action} (h : state.Acts id action after) :
    state.act? id action = some after := by
  cases h with
  | prepare hholding hnext => exact if_pos ⟨hholding, hnext⟩
  | find hprepared hthere => simp [act?, hprepared, hthere]
  | miss hprepared hmissing => simp [act?, hprepared, hmissing]
  | launch hmissing => simp [act?, hmissing]
  | keep hlaunched => simp [act?, hlaunched]
  | release haimed => exact if_pos haimed
  | turn hturning => exact if_pos hturning
  | pass hwaiting hopen => simp [act?, Gates.pass?, hwaiting, hopen]

theorem play_cons {action : Action} (h : state.Acts id action after) (events : List Event) :
    state.play? (⟨id, action⟩ :: events) = after.play? events := by
  simp [play?, act?_of_acts h]

theorem Course.of_play {events : List Event} (h : Course past state)
    (hplay : state.play? events = some after) : Course (past ++ events) after := by
  induction events generalizing past state with
  | nil =>
      cases hplay
      rwa [List.append_nil]
  | cons event events ih =>
      simp only [play?, List.foldlM_cons, Option.bind_eq_bind, Option.bind_eq_some_iff] at hplay
      obtain ⟨middle, hact, hrest⟩ := hplay
      rw [← List.singleton_append, ← List.append_assoc]
      exact ih (h.step event hact) hrest

/-- The events of a switch that no other carrier comes between. -/
def crossing (found : Bool) (next prev : ThreadId) : List Event :=
  if found then
    [⟨prev, .prepare next⟩, ⟨prev, .lookUp⟩, ⟨prev, .release next⟩, ⟨next, .pass⟩]
  else
    [⟨prev, .prepare next⟩, ⟨prev, .lookUp⟩, ⟨prev, .launch⟩, ⟨prev, .keep⟩,
      ⟨prev, .release next⟩, ⟨next, .turn⟩, ⟨next, .pass⟩]

/-- A processor's switch is the one that no other carrier comes between. -/
theorem play_crossing {next prev : ThreadId} (hholding : state.carrier prev = .holding)
    (hnext : next ≠ prev)
    (hwaiting : state.gates.has next = true → state.carrier next = .waiting) :
    ∃ after, state.play? (crossing (state.gates.switch next prev).1 next prev) = some after ∧
      after.carrier next = .holding ∧ after.gates = (state.gates.switch next prev).2 := by
  have hown : (state.gates.ensure prev).has next = state.gates.has next := by
    simp [Gates.has_ensure, hnext.symm]
  have hprepared : ((state.put prev (.prepared next)).withGates
      (state.gates.ensure prev)).carrier prev = .prepared next := by simp
  rw [Gates.switch_eq, hown]
  cases hfound : state.gates.has next with
  | true =>
      have hgate : (state.gates.ensure prev).has next = true := hown.trans hfound
      have hopen : ((state.gates.ensure prev).setOpen next true).isOpen next = true := by
        rw [Gates.isOpen_setOpen_self, hgate]
        rfl
      rw [Gates.ensure_of_has hgate]
      unfold crossing
      rw [if_pos rfl, play_cons (.prepare hholding hnext),
        play_cons (.find hprepared (by simpa)),
        play_cons (.release (by simp)), play_cons (.pass (by simp [hnext, hwaiting hfound]) hopen)]
      exact ⟨_, rfl, carrier_put_self _ _ _, rfl⟩
  | false =>
      have hgate : (state.gates.ensure prev).has next = false := hown.trans hfound
      have hopen :
          (((state.gates.ensure prev).make next).setOpen next true).isOpen next = true := by
        rw [Gates.isOpen_setOpen_self, Gates.has_make_self]
        rfl
      rw [Gates.ensure_of_not_has hgate]
      unfold crossing
      rw [if_neg (by simp), play_cons (.prepare hholding hnext),
        play_cons (.miss hprepared (by simpa)),
        play_cons (.launch (carrier_put_self _ _ (.missing next))),
        play_cons (.keep (carrier_put_self _ _ (.launched next))), play_cons (.release (by simp)),
        play_cons (.turn (by simp [hnext])), play_cons (.pass (by simp) hopen)]
      exact ⟨_, rfl, carrier_put_self _ _ _, rfl⟩

/--
The idle thread's carrier switches to another one, which is launched, switches back at
once and so opens the first gate before anyone waits there.
-/
def quickReturn (idle other : ThreadId) : List Event :=
  [⟨idle, .prepare other⟩, ⟨idle, .lookUp⟩, ⟨idle, .launch⟩, ⟨other, .turn⟩, ⟨idle, .keep⟩,
    ⟨idle, .release other⟩, ⟨other, .pass⟩, ⟨other, .prepare idle⟩, ⟨other, .lookUp⟩,
    ⟨other, .release idle⟩]

/-- After a switch back that quick the gate stays open for the carrier that is on its way. -/
theorem Course.single_token_of_quickReturn :
    ∃ state, Course (quickReturn 7 0) state ∧ state.carrier 7 = .turning ∧
      state.gates.isOpen 7 = true ∧ state.tokens = 1 ∧ state.gates.slots.Nodup ∧
        (quickReturn 7 0).countP (Event.opens 7) = 1 ∧
          (quickReturn 7 0).countP (Event.passes 7) = 0 := by
  have hplay : ((initial.play? (quickReturn 7 0)).any fun state =>
      state.carrier 7 == .turning && state.gates.isOpen 7) = true := by decide
  obtain ⟨state, hstate, hat⟩ := (Option.any_eq_true _ _).1 hplay
  rw [Bool.and_eq_true, beq_iff_eq] at hat
  have hcourse := Course.start.of_play hstate
  obtain ⟨htoken, -, hnodup, -⟩ := hcourse.single_token
  exact ⟨state, hcourse, hat.1, hat.2, htoken, hnodup, by decide, by decide⟩

end Carriers

end TickKernel.Host
