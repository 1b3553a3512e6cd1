import Mathlib.Data.List.Nodup
import TickKernel.Host.Carriers
import TickKernel.Proofs.Gates

/-!
# One token among the carriers

The processor is passed from carrier to carrier like a token.  Either one carrier has
it, and all gates are closed, or it lies at the one open gate, whose carrier is
outside.  Every step of a carrier keeps it so, whatever the others are doing.
-/

namespace TickKernel.Host

theorem countP_all_of_forall_ne {p : ThreadId → Bool} {id : ThreadId}
    (hothers : ∀ other, other ≠ id → p other = false) :
    ThreadId.all.countP p = if p id then 1 else 0 := by
  have honly : ∀ other ∈ ThreadId.all, p other = true ↔ (p id && other == id) = true := by
    intro other _
    by_cases hother : other = id
    · simp [hother]
    · simp [hother, hothers other hother]
  rw [List.countP_congr honly]
  cases p id with
  | false => simp
  | true =>
      have hcount := List.count_eq_one_of_mem (List.nodup_finRange maxThreads) (ThreadId.mem_all id)
      simpa [List.count, ThreadId.all] using hcount

namespace Carrier

theorem holdsProcessor_of_target? {carrier : Carrier} {slot : ThreadId}
    (h : carrier.target? = some slot) : carrier.holdsProcessor = true := by
  cases carrier <;> first | rfl | cases h

theorem isOutside_of_not_holds {carrier : Carrier} (hholds : carrier.holdsProcessor = false)
    (hthere : carrier ≠ .absent) : carrier.isOutside = true := by
  cases carrier <;> first | rfl | exact absurd rfl hthere | cases hholds

end Carrier

namespace Carriers

variable {state after : Carriers} {id : ThreadId}

@[simp]
theorem carrier_put_self (state : Carriers) (id : ThreadId) (carrier : Carrier) :
    (state.put id carrier).carrier id = carrier :=
  if_pos rfl

@[simp]
theorem carrier_put_of_ne (state : Carriers) {id other : ThreadId} (carrier : Carrier)
    (hother : other ≠ id) : (state.put id carrier).carrier other = state.carrier other :=
  if_neg hother

@[simp]
theorem gates_put (state : Carriers) (id : ThreadId) (carrier : Carrier) :
    (state.put id carrier).gates = state.gates :=
  rfl

@[simp]
theorem carrier_withGates (state : Carriers) (gates : Gates) :
    (state.withGates gates).carrier = state.carrier :=
  rfl

@[simp]
theorem gates_withGates (state : Carriers) (gates : Gates) :
    (state.withGates gates).gates = gates :=
  rfl

/-- The steps of a carrier, by where it is and what it finds. -/
inductive Acts (state : Carriers) (id : ThreadId) : Action → Carriers → Prop where
  | prepare {next : ThreadId} : state.carrier id = .holding → next ≠ id →
      Acts state id (.prepare next)
        ((state.put id (.prepared next)).withGates (state.gates.ensure id))
  | find {next : ThreadId} : state.carrier id = .prepared next →
      state.gates.has next = true → Acts state id .lookUp (state.put id (.aimed next))
  | miss {next : ThreadId} : state.carrier id = .prepared next →
      state.gates.has next = false → Acts state id .lookUp (state.put id (.missing next))
  | launch {next : ThreadId} : state.carrier id = .missing next →
      Acts state id .launch ((state.put next .turning).put id (.launched next))
  | keep {next : ThreadId} : state.carrier id = .launched next →
      Acts state id .keep ((state.put id (.aimed next)).withGates (state.gates.make next))
  | release {next : ThreadId} : state.carrier id = .aimed next →
      Acts state id (.release next)
        ((state.put id .turning).withGates (state.gates.setOpen next true))
  | turn : state.carrier id = .turning → Acts state id .turn (state.put id .waiting)
  | pass : state.carrier id = .waiting → state.gates.isOpen id = true →
      Acts state id .pass ((state.put id .holding).withGates (state.gates.setOpen id false))

theorem acts_of_act? {action : Action} (h : state.act? id action = some after) :
    state.Acts id action after := by
  cases action with
  | prepare next =>
      simp only [act?, Option.ite_none_right_eq_some, Option.some.injEq] at h
      obtain ⟨⟨hholding, hother⟩, rfl⟩ := h
      exact .prepare hholding hother
  | lookUp =>
      simp only [act?] at h
      split at h
      next next hprepared =>
          cases hthere : state.gates.has next with
          | true =>
              simp only [hthere, if_true, Option.some.injEq] at h
              exact h ▸ .find hprepared hthere
          | false =>
              simp only [hthere, Bool.false_eq_true, if_false, Option.some.injEq] at h
              exact h ▸ .miss hprepared hthere
      next => cases h
  | launch =>
      simp only [act?] at h
      split at h
      next next hmissing => exact Option.some.inj h ▸ .launch hmissing
      next => cases h
  | keep =>
      simp only [act?] at h
      split at h
      next next hlaunched => exact Option.some.inj h ▸ .keep hlaunched
      next => cases h
  | release next =>
      simp only [act?, Option.ite_none_right_eq_some, Option.some.injEq] at h
      obtain ⟨haimed, rfl⟩ := h
      exact .release haimed
  | turn =>
      simp only [act?, Option.ite_none_right_eq_some, Option.some.injEq] at h
      obtain ⟨hturning, rfl⟩ := h
      exact .turn hturning
  | pass =>
      simp only [act?, Gates.pass?, Option.ite_none_right_eq_some, Option.map_eq_some_iff,
        Option.some.injEq] at h
      obtain ⟨hwaiting, gates, ⟨hopen, rfl⟩, rfl⟩ := h
      exact .pass hwaiting hopen

inductive Token (state : Carriers) : Prop where
  | held (id : ThreadId) : (state.carrier id).holdsProcessor = true →
      (∀ other, other ≠ id → (state.carrier other).holdsProcessor = false) →
        (∀ slot, state.gates.isOpen slot = false) → Token state
  | offered (id : ThreadId) : state.gates.isOpen id = true →
      (∀ other, other ≠ id → state.gates.isOpen other = false) →
        (∀ other, (state.carrier other).holdsProcessor = false) →
          (state.carrier id).isOutside = true → Token state

/-- What gates there are where a carrier is, and how it finds the next carrier. -/
def Fits (state : Carriers) (id : ThreadId) : Carrier → Prop
  | .absent => state.gates.has id = false
  | .holding => True
  | .prepared next => next ≠ id ∧ state.gates.has id = true
  | .missing next =>
      next ≠ id ∧ state.gates.has id = true ∧ state.gates.has next = false ∧
        state.carrier next = .absent
  | .launched next =>
      next ≠ id ∧ state.gates.has id = true ∧ state.gates.has next = false ∧
        (state.carrier next).isOutside = true
  | .aimed next =>
      next ≠ id ∧ state.gates.has id = true ∧ state.gates.has next = true ∧
        (state.carrier next).isOutside = true
  | .turning | .waiting =>
      state.gates.has id = true ∨ ∃ other, state.carrier other = .launched id

/-- To a carrier it is the same whether another one is at its gate or still on the way. -/
theorem Fits.congr {carrier : Carrier} (h : state.Fits id carrier)
    (hgates : after.gates = state.gates)
    (houtside : ∀ other, (after.carrier other).isOutside = (state.carrier other).isOutside)
    (habsent : ∀ other, state.carrier other = .absent → after.carrier other = .absent)
    (hlaunched : ∀ other next, state.carrier other = .launched next →
      after.carrier other = .launched next) : after.Fits id carrier := by
  unfold Fits at h ⊢
  rw [hgates]
  cases carrier with
  | absent | holding | prepared => exact h
  | missing next => exact ⟨h.1, h.2.1, h.2.2.1, habsent next h.2.2.2⟩
  | launched next | aimed next => exact ⟨h.1, h.2.1, h.2.2.1, (houtside next).trans h.2.2.2⟩
  | turning | waiting => exact h.imp_right fun ⟨other, hother⟩ => ⟨other, hlaunched other id hother⟩

def aiming (state : Carriers) (slot : ThreadId) : Nat :=
  ThreadId.all.countP fun id => (state.carrier id).target? == some slot

theorem aiming_congr {slot : ThreadId}
    (h : ∀ id, (after.carrier id).target? = (state.carrier id).target?) :
    after.aiming slot = state.aiming slot := by
  unfold aiming
  simp only [h]

theorem aiming_put {carrier : Carrier} {slot : ThreadId}
    (h : carrier.target? = (state.carrier id).target?) :
    (state.put id carrier).aiming slot = state.aiming slot := by
  apply aiming_congr
  intro other
  by_cases hother : other = id
  · rw [hother, carrier_put_self, h]
  · rw [carrier_put_of_ne _ _ hother]

theorem aiming_of_none (hnone : ∀ id, (state.carrier id).holdsProcessor = false)
    (slot : ThreadId) : state.aiming slot = 0 := by
  apply List.countP_eq_zero.2
  intro id _ haims
  have hidle := hnone id
  rw [Carrier.holdsProcessor_of_target? (beq_iff_eq.1 haims)] at hidle
  cases hidle

namespace Token

theorem holds_unique (h : state.Token) {other : ThreadId}
    (hid : (state.carrier id).holdsProcessor = true)
    (hother : (state.carrier other).holdsProcessor = true) : id = other := by
  have hholder : ∀ holder,
      (∀ slot, slot ≠ holder → (state.carrier slot).holdsProcessor = false) → id = other := by
    intro holder hothers
    have heq : ∀ slot, (state.carrier slot).holdsProcessor = true → slot = holder := by
      intro slot hslot
      by_contra hne
      rw [hothers slot hne] at hslot
      cases hslot
    rw [heq id hid, heq other hother]
  cases h with
  | held holder _ hothers => exact hholder holder hothers
  | offered slot _ _ hnone => exact hholder slot fun other _ => hnone other

theorem of_holds (h : state.Token) (hid : (state.carrier id).holdsProcessor = true) :
    (∀ other, other ≠ id → (state.carrier other).holdsProcessor = false) ∧
      ∀ slot, state.gates.isOpen slot = false := by
  cases h with
  | held holder hholds hothers hclosed =>
      have hholder : id = holder := by
        by_contra hne
        rw [hothers id hne] at hid
        cases hid
      subst hholder
      exact ⟨hothers, hclosed⟩
  | offered slot _ _ hnone =>
      rw [hnone id] at hid
      cases hid

theorem of_isOpen (h : state.Token) (hid : state.gates.isOpen id = true) :
    (∀ other, other ≠ id → state.gates.isOpen other = false) ∧
      (∀ other, (state.carrier other).holdsProcessor = false) ∧
        (state.carrier id).isOutside = true := by
  cases h with
  | held holder _ _ hclosed =>
      rw [hclosed id] at hid
      cases hid
  | offered slot _ hothers hnone houtside =>
      have hslot : id = slot := by
        by_contra hne
        rw [hothers id hne] at hid
        cases hid
      subst hslot
      exact ⟨hothers, hnone, houtside⟩

theorem tokens_eq_one (h : state.Token) (hnodup : state.gates.slots.Nodup) :
    state.tokens = 1 := by
  unfold tokens
  cases h with
  | held id hholds hothers hclosed =>
      rw [countP_all_of_forall_ne hothers, Gates.openCount_eq_zero hclosed, hholds]
      rfl
  | offered id hopen hothers hnone =>
      rw [countP_all_of_forall_ne fun other _ => hnone other, hnone id,
        Gates.openCount_eq_one hnodup hopen hothers]
      rfl

theorem aiming_of_holds (h : state.Token) (hid : (state.carrier id).holdsProcessor = true)
    (slot : ThreadId) :
    state.aiming slot = if (state.carrier id).target? == some slot then 1 else 0 := by
  apply countP_all_of_forall_ne
  intro other hother
  have hidle := (h.of_holds hid).1 other hother
  cases htarget : (state.carrier other).target? with
  | none => rfl
  | some next =>
      rw [Carrier.holdsProcessor_of_target? htarget] at hidle
      cases hidle

end Token

/-- What holds in every course of the carriers, whatever was done before. -/
structure Guarded (state : Carriers) : Prop where
  token : state.Token
  fits : ∀ id, state.Fits id (state.carrier id)
  nodup : state.gates.slots.Nodup

namespace Guarded

theorem fits_of_eq (h : state.Guarded) {carrier : Carrier} (hid : state.carrier id = carrier) :
    state.Fits id carrier :=
  hid ▸ h.fits id

theorem outside_of_has (h : state.Guarded) (hhas : state.gates.has id = true)
    (hholds : (state.carrier id).holdsProcessor = false) :
    (state.carrier id).isOutside = true := by
  apply Carrier.isOutside_of_not_holds hholds
  intro habsent
  have hmissing : state.gates.has id = false := h.fits_of_eq habsent
  rw [hhas] at hmissing
  cases hmissing

theorem initial : Carriers.initial.Guarded where
  token := by
    apply Token.held ThreadId.idle rfl
    · intro other hother
      simp [Carriers.initial, hother, Carrier.holdsProcessor]
    · exact fun _ => rfl
  fits id := by
    by_cases hid : id = ThreadId.idle
    · simp [Carriers.initial, hid, Fits]
    · simp [Carriers.initial, hid, Fits, Gates.has]
  nodup := List.nodup_nil

/-- Of a carrier that does not hold the processor, only the gate matters. -/
theorem fits_of_not_holds {carrier : Carrier} (hholds : carrier.holdsProcessor = false)
    (habsent : carrier = .absent → state.gates.has id = false)
    (houtside : carrier.isOutside = true →
      state.gates.has id = true ∨ ∃ other, state.carrier other = .launched id) :
    state.Fits id carrier := by
  cases carrier with
  | absent => exact habsent rfl
  | turning => exact houtside rfl
  | waiting => exact houtside rfl
  | holding => cases hholds
  | prepared => cases hholds
  | missing => cases hholds
  | launched => cases hholds
  | aimed => cases hholds

theorem has_of_outside (h : state.Guarded) (houtside : (state.carrier id).isOutside = true)
    (hunlaunched : ∀ other, state.carrier other ≠ .launched id) : state.gates.has id = true := by
  have hfits := h.fits id
  cases hcarrier : state.carrier id with
  | turning =>
      rw [hcarrier] at hfits
      exact hfits.resolve_right fun ⟨other, hother⟩ => hunlaunched other hother
  | waiting =>
      rw [hcarrier] at hfits
      exact hfits.resolve_right fun ⟨other, hother⟩ => hunlaunched other hother
  | absent | holding | prepared | missing | launched | aimed =>
      rw [hcarrier] at houtside
      cases houtside

/-- A carrier that holds the processor is the only one that can have launched another. -/
theorem unlaunched (h : state.Guarded) (hid : (state.carrier id).holdsProcessor = true)
    {slot : ThreadId} (hcarrier : state.carrier id ≠ .launched slot) (other : ThreadId) :
    state.carrier other ≠ .launched slot := by
  intro hlaunched
  have heq : id = other := h.token.holds_unique hid (by rw [hlaunched]; rfl)
  exact hcarrier (heq ▸ hlaunched)

/-- While a carrier holds the processor and has launched nobody, gates tell who is there. -/
theorem others_fit (h : state.Guarded) (hid : (state.carrier id).holdsProcessor = true)
    (hlaunched : ∀ slot, state.carrier id ≠ .launched slot)
    (hcarrier : ∀ other, other ≠ id → after.carrier other = state.carrier other)
    (hgates : ∀ other, other ≠ id → after.gates.has other = state.gates.has other)
    {other : ThreadId} (hother : other ≠ id) : after.Fits other (after.carrier other) := by
  rw [hcarrier other hother]
  apply fits_of_not_holds ((h.token.of_holds hid).1 other hother)
  · intro habsent
    rw [hgates other hother]
    exact h.fits_of_eq habsent
  · intro houtside
    rw [hgates other hother]
    exact .inl (h.has_of_outside houtside (h.unlaunched hid (hlaunched other)))

theorem token_of_holds (h : state.Guarded) (hid : (state.carrier id).holdsProcessor = true)
    (hholds : (after.carrier id).holdsProcessor = true)
    (hothers : ∀ other, other ≠ id → (after.carrier other).holdsProcessor =
      (state.carrier other).holdsProcessor)
    (hgates : ∀ slot, after.gates.isOpen slot = state.gates.isOpen slot) : after.Token := by
  obtain ⟨hidle, hclosed⟩ := h.token.of_holds hid
  apply Token.held id hholds
  · intro other hother
    rw [hothers other hother]
    exact hidle other hother
  · intro slot
    rw [hgates slot]
    exact hclosed slot

section

variable {next : ThreadId} (h : state.Guarded)

include h

/-- A carrier that holds the processor may go on holding it wherever its surroundings fit. -/
theorem go_on {carrier : Carrier} (gates : Gates) (hid : (state.carrier id).holdsProcessor = true)
    (hlaunched : ∀ slot, state.carrier id ≠ .launched slot)
    (hholds : carrier.holdsProcessor = true)
    (hopen : ∀ slot, gates.isOpen slot = state.gates.isOpen slot)
    (hhas : ∀ other, other ≠ id → gates.has other = state.gates.has other)
    (hnodup : gates.slots.Nodup)
    (hfits : ((state.put id carrier).withGates gates).Fits id carrier) :
    ((state.put id carrier).withGates gates).Guarded := by
  have hstay : ∀ other, other ≠ id →
      ((state.put id carrier).withGates gates).carrier other = state.carrier other := by
    intro other hother
    rw [carrier_withGates, carrier_put_of_ne _ _ hother]
  have hown : ((state.put id carrier).withGates gates).carrier id = carrier := by
    rw [carrier_withGates, carrier_put_self]
  constructor
  · apply h.token_of_holds hid
    · rw [hown]
      exact hholds
    · intro other hother
      rw [hstay other hother]
    · exact hopen
  · intro other
    by_cases hother : other = id
    · rw [hother, hown]
      exact hfits
    · exact h.others_fit hid hlaunched hstay hhas hother
  · exact hnodup

theorem prepare (hholding : state.carrier id = .holding) (hnext : next ≠ id) :
    ((state.put id (.prepared next)).withGates (state.gates.ensure id)).Guarded := by
  apply h.go_on
  · rw [hholding]
    rfl
  · simp [hholding]
  · rfl
  · simp
  · intro other hother
    simp [Gates.has_ensure, hother.symm]
  · exact Gates.nodup_ensure h.nodup id
  · simp [Fits, hnext]

theorem find (hprepared : state.carrier id = .prepared next)
    (hthere : state.gates.has next = true) : (state.put id (.aimed next)).Guarded := by
  have hid : (state.carrier id).holdsProcessor = true := by rw [hprepared]; rfl
  obtain ⟨hnext, hown⟩ := h.fits_of_eq hprepared
  have houtside := h.outside_of_has hthere ((h.token.of_holds hid).1 next hnext)
  apply h.go_on state.gates hid (by simp [hprepared]) rfl (fun _ => rfl) (fun _ _ => rfl) h.nodup
  simp [Fits, hnext, hown, hthere, houtside]

theorem miss (hprepared : state.carrier id = .prepared next)
    (hmissing : state.gates.has next = false) : (state.put id (.missing next)).Guarded := by
  have hid : (state.carrier id).holdsProcessor = true := by rw [hprepared]; rfl
  obtain ⟨hnext, hown⟩ := h.fits_of_eq hprepared
  have habsent : state.carrier next = .absent := by
    by_contra hthere
    have hholds := (h.token.of_holds hid).1 next hnext
    have hhas := h.has_of_outside (Carrier.isOutside_of_not_holds hholds hthere)
      (h.unlaunched hid (by simp [hprepared]))
    rw [hmissing] at hhas
    cases hhas
  apply h.go_on state.gates hid (by simp [hprepared]) rfl (fun _ => rfl) (fun _ _ => rfl) h.nodup
  simp [Fits, hnext, hown, hmissing, habsent]

theorem launch (hmissing : state.carrier id = .missing next) :
    ((state.put next .turning).put id (.launched next)).Guarded := by
  have hid : (state.carrier id).holdsProcessor = true := by rw [hmissing]; rfl
  obtain ⟨hnext, hown, hgate, habsent⟩ := h.fits_of_eq hmissing
  have hthird : ∀ other, other ≠ id → other ≠ next →
      ((state.put next .turning).put id (.launched next)).carrier other = state.carrier other := by
    intro other hother hne
    rw [carrier_put_of_ne _ _ hother, carrier_put_of_ne _ _ hne]
  have hlaunched : ((state.put next .turning).put id (.launched next)).carrier next = .turning := by
    rw [carrier_put_of_ne _ _ hnext, carrier_put_self]
  constructor
  · apply h.token_of_holds hid
    · simp [Carrier.holdsProcessor]
    · intro other hother
      by_cases hne : other = next
      · rw [hne, hlaunched, habsent]
        rfl
      · rw [hthird other hother hne]
    · simp
  · intro other
    by_cases hother : other = id
    · subst hother
      simp [Fits, hnext, hown, hgate, Carrier.isOutside]
    · by_cases hne : other = next
      · rw [hne, hlaunched]
        exact .inr ⟨id, carrier_put_self _ _ _⟩
      · have hidle := (h.token.of_holds hid).1 other hother
        rw [hthird other hother hne]
        apply fits_of_not_holds hidle
        · exact fun hother => h.fits_of_eq hother
        · intro houtside
          exact .inl (h.has_of_outside houtside (h.unlaunched hid (by simp [hmissing])))
  · exact h.nodup

theorem keep (hlaunched : state.carrier id = .launched next) :
    ((state.put id (.aimed next)).withGates (state.gates.make next)).Guarded := by
  have hid : (state.carrier id).holdsProcessor = true := by rw [hlaunched]; rfl
  obtain ⟨hnext, hown, hgate, houtside⟩ := h.fits_of_eq hlaunched
  constructor
  · apply h.token_of_holds hid
    · simp [Carrier.holdsProcessor]
    · intro other hother
      simp [hother]
    · simp
  · intro other
    by_cases hother : other = id
    · subst hother
      simp [Fits, hnext, hown, houtside, Gates.has_make]
    · have hidle := (h.token.of_holds hid).1 other hother
      rw [carrier_withGates, carrier_put_of_ne _ _ hother]
      apply fits_of_not_holds hidle
      · intro habsent
        have hne : next ≠ other := by
          rintro rfl
          rw [habsent] at houtside
          cases houtside
        have hmissing : state.gates.has other = false := h.fits_of_eq habsent
        simp [Gates.has_make, hmissing, hne]
      · intro hout
        left
        by_cases hne : other = next
        · simp [hne]
        · have hhas := h.has_of_outside hout (h.unlaunched hid (by simp [hlaunched, Ne.symm hne]))
          simp [Gates.has_make, hhas]
  · exact Gates.nodup_make h.nodup hgate

theorem release (haimed : state.carrier id = .aimed next) :
    ((state.put id .turning).withGates (state.gates.setOpen next true)).Guarded := by
  have hid : (state.carrier id).holdsProcessor = true := by rw [haimed]; rfl
  obtain ⟨hnext, hown, hgate, houtside⟩ := h.fits_of_eq haimed
  obtain ⟨hidle, hclosed⟩ := h.token.of_holds hid
  constructor
  · apply Token.offered next
    · rw [gates_withGates, Gates.isOpen_setOpen_self, hgate]
      rfl
    · intro other hother
      rw [gates_withGates, Gates.isOpen_setOpen_of_ne _ _ hother]
      exact hclosed other
    · intro other
      by_cases hother : other = id
      · simp [hother, Carrier.holdsProcessor]
      · simp [hother, hidle other hother]
    · simp [hnext, houtside]
  · intro other
    by_cases hother : other = id
    · subst hother
      simp [Fits, Gates.has_setOpen, hown]
    · apply h.others_fit hid
      · simp [haimed]
      · intro other hother
        simp [hother]
      · intro other hother
        simp [Gates.has_setOpen]
      · exact hother
  · simpa using h.nodup

theorem turn (hturning : state.carrier id = .turning) : (state.put id .waiting).Guarded := by
  have hunlike : ∀ {other : ThreadId} {carrier : Carrier}, state.carrier other = carrier →
      carrier ≠ .turning → (state.put id .waiting).carrier other = carrier := by
    intro other carrier hother hne
    rw [carrier_put_of_ne]
    · exact hother
    · rintro rfl
      exact hne (hother.symm.trans hturning)
  have hholds : ∀ other, ((state.put id .waiting).carrier other).holdsProcessor =
      (state.carrier other).holdsProcessor := by
    intro other
    by_cases hother : other = id
    · rw [hother, carrier_put_self, hturning]
      rfl
    · rw [carrier_put_of_ne _ _ hother]
  have houtside : ∀ other, ((state.put id .waiting).carrier other).isOutside =
      (state.carrier other).isOutside := by
    intro other
    by_cases hother : other = id
    · rw [hother, carrier_put_self, hturning]
      rfl
    · rw [carrier_put_of_ne _ _ hother]
  have hfits : ∀ {other : ThreadId} {carrier : Carrier}, state.Fits other carrier →
      (state.put id .waiting).Fits other carrier := by
    intro other carrier hcarrier
    have hgates : (state.put id .waiting).gates = state.gates := rfl
    apply hcarrier.congr hgates houtside
    · exact fun slot habsent => hunlike habsent (by simp)
    · exact fun slot next hlaunched => hunlike hlaunched (by simp)
  constructor
  · cases h.token with
    | held holder hholder hothers hclosed =>
        exact .held holder ((hholds holder).trans hholder)
          (fun other hother => (hholds other).trans (hothers other hother)) hclosed
    | offered slot hopen hothers hnone hout =>
        exact .offered slot hopen hothers (fun other => (hholds other).trans (hnone other))
          ((houtside slot).trans hout)
  · intro other
    by_cases hother : other = id
    · subst hother
      have hown : state.Fits other .turning := h.fits_of_eq hturning
      rw [carrier_put_self]
      exact hfits (show state.Fits other .waiting from hown)
    · rw [carrier_put_of_ne _ _ hother]
      exact hfits (h.fits other)
  · exact h.nodup

theorem pass (hwaiting : state.carrier id = .waiting) (hopen : state.gates.isOpen id = true) :
    ((state.put id .holding).withGates (state.gates.setOpen id false)).Guarded := by
  obtain ⟨hothers, hnone, -⟩ := h.token.of_isOpen hopen
  constructor
  · apply Token.held id
    · simp [Carrier.holdsProcessor]
    · intro other hother
      simp [hother, hnone other]
    · intro slot
      by_cases hslot : slot = id
      · rw [gates_withGates, hslot, Gates.isOpen_setOpen_self, Bool.and_false]
      · rw [gates_withGates, Gates.isOpen_setOpen_of_ne _ _ hslot]
        exact hothers slot hslot
  · intro other
    by_cases hother : other = id
    · subst hother
      rw [carrier_withGates, carrier_put_self]
      trivial
    · rw [carrier_withGates, carrier_put_of_ne _ _ hother]
      apply fits_of_not_holds (hnone other)
      · intro habsent
        rw [gates_withGates, Gates.has_setOpen]
        exact h.fits_of_eq habsent
      · intro houtside
        rw [gates_withGates, Gates.has_setOpen]
        refine .inl (h.has_of_outside houtside fun launcher hlauncher => ?_)
        have hidle := hnone launcher
        rw [hlauncher] at hidle
        cases hidle
  · simpa using h.nodup

theorem act {action : Action} (hacts : state.Acts id action after) : after.Guarded := by
  cases hacts with
  | prepare hholding hnext => exact h.prepare hholding hnext
  | find hprepared hthere => exact h.find hprepared hthere
  | miss hprepared hmissing => exact h.miss hprepared hmissing
  | launch hmissing => exact h.launch hmissing
  | keep hlaunched => exact h.keep hlaunched
  | release haimed => exact h.release haimed
  | turn hturning => exact h.turn hturning
  | pass hwaiting hopen => exact h.pass hwaiting hopen

end

end Guarded

end Carriers

end TickKernel.Host
