import TickKernel.Proofs.Packets

/-!
# Who has a packet

A packet is with the thread that put the closure in it until it is dropped or a thread was
entered for it, and from then on it is with nobody else.  In the end it was either dropped once
and taken by nobody, or it was never dropped and taken only by the thread that it was meant for.
-/

namespace TickKernel

variable {P : Type}

/-! ## Packings -/

/-- The thread that puts a closure in a packet in a transition, and the closure. -/
def Transition.packs? (t : Transition P) : Option (ThreadId × Nat) :=
  match t.step? with
  | some (.pack _ body _ _) => some (t.before.executing, body)
  | _ => none

def packings (past : List (Transition P)) : List (ThreadId × Nat) :=
  past.filterMap Transition.packs?

def Conveyed (past : List (Transition P)) (index : Nat) (id : ThreadId) : Prop :=
  ∃ creation, Enrolled past id creation ∧ creation.packet = some index

/-- The thread that took the closure of its packet, once for every call that it made. -/
def takersOf (past : List (Transition P)) (id : ThreadId) : List ThreadId :=
  (callsBy past id).map fun _ => id

section

variable {past : List (Transition P)} {t : Transition P} {index : Nat} {id : ThreadId}
  {creation : Creation}

theorem packings_append (past later : List (Transition P)) :
    packings (past ++ later) = packings past ++ packings later :=
  List.filterMap_append

theorem packings_snoc (past : List (Transition P)) (t : Transition P) :
    packings (past ++ [t]) = packings past ++ t.packs?.toList :=
  filterMap_snoc _ past t

theorem packs?_eq_none (h : ∀ step, t.step? = some step → step.isPack = false) :
    t.packs? = none := by
  unfold Transition.packs?
  split
  next hstep => cases h _ hstep
  next => rfl

theorem conveyed_snoc_of_ne (h : ∀ creation stack, t.step? = some (.enroll creation stack) →
    (∃ id, t.before.kernel.table.isNext id = true) → creation.packet ≠ some index) :
    Conveyed (past ++ [t]) index id ↔ Conveyed past index id := by
  constructor
  · intro ⟨creation, henrolled, hpacket⟩
    rcases enrolled_snoc.1 henrolled with hbefore | ⟨hnext, stack, hstep⟩
    · exact ⟨creation, hbefore, hpacket⟩
    · exact absurd hpacket (h creation stack hstep ⟨id, hnext⟩)
  · intro ⟨creation, henrolled, hpacket⟩
    exact ⟨creation, henrolled.append _, hpacket⟩

theorem callsBy_snoc_of_none (h : t.entered? id = none) :
    callsBy (past ++ [t]) id = callsBy past id := by
  rw [callsBy_append, h, Option.toList_none, List.append_nil]

theorem entered?_eq_none (h : ∀ call, t.step? ≠ some (.enter call)) : t.entered? id = none := by
  unfold Transition.entered?
  split
  next =>
      cases hstep : t.step? with
      | none => rfl
      | some step =>
          rw [Option.bind_some]
          cases step <;> first | rfl | exact absurd hstep (h _)
  next => rfl

end

/-! ## Dealings of the threads -/

namespace Machine

def dealings (m : Machine P) (id : ThreadId) : List Step :=
  Code.dealings (m.contextOf id).code

def Holds (m : Machine P) (id : ThreadId) (index : Nat) : Prop :=
  ∃ step ∈ m.dealings id, step.packet? = some index

variable [Backend P] {past : List (Transition P)} {m after : Machine P} {step : Step}
  {rest pushed : List Step} {move : Move} {id : ThreadId}

theorem Stepped.dealings_cases (hstepped : m.Stepped step rest pushed after)
    (hsingle : (m.dealings m.executing).length ≤ 1) :
    (∀ id, id ≠ m.executing → after.dealings id = m.dealings id) ∧
      (step.deals = false ∧ after.dealings m.executing = m.dealings m.executing ∨
        m.dealings m.executing = [step] ∧
          after.dealings m.executing = Code.dealings pushed ∧
            Passes step (Code.dealings pushed)) := by
  have hpasses := hstepped.expands.passes
  have hbefore : m.dealings m.executing = Code.dealings (step :: rest) := by
    rw [dealings, contextOf_executing rfl, hstepped.code]
  have hafter : after.dealings m.executing = Code.dealings pushed ++ Code.dealings rest := by
    rw [dealings, contextOf_executing hstepped.effect.executing, hstepped.code_after,
      Code.dealings_append]
  refine ⟨fun id hid => by rw [dealings, hstepped.effect.others id hid, dealings], ?_⟩
  cases hdeals : step.deals with
  | false =>
      have hlength := hpasses.length_le
      rw [hdeals] at hlength
      have hnone : Code.dealings pushed = [] :=
        List.eq_nil_of_length_eq_zero (by simpa using hlength)
      rw [hafter, hnone, hbefore, Code.dealings_cons_of_not hdeals]
      exact .inl ⟨rfl, rfl⟩
  | true =>
      rw [hbefore, Code.dealings_cons_of_deals hdeals, List.length_cons] at hsingle
      have hnone : Code.dealings rest = [] := List.eq_nil_of_length_eq_zero (by omega)
      rw [hafter, hbefore, Code.dealings_cons_of_deals hdeals, hnone, List.append_nil]
      exact .inr ⟨rfl, rfl, hpasses⟩

theorem Regular.dealings_switched [LawfulBackend P] (h : m.Regular past) {next prev : ThreadId}
    (hcode : m.context.code = .switch next prev :: rest)
    (hswitched : (m.setCode rest).Switched next prev after) (id : ThreadId) :
    after.dealings id = m.dealings id := by
  rcases h.employed.contextOf_switched h.seated hcode hswitched id with
    ⟨rfl, hafter⟩ | ⟨-, hafter | ⟨-, hnone, call, hafter⟩⟩
  · rw [dealings, hafter, dealings, contextOf_executing rfl, hcode]
    exact (Code.dealings_cons_of_not rfl rest).symm
  · rw [dealings, hafter, dealings]
  · rw [dealings, hafter, dealings, hnone]
    cases call <;> rfl

omit [Backend P] in
theorem dealings_interrupt (m : Machine P) (id : ThreadId) :
    m.interrupt.dealings id = m.dealings id := by
  by_cases hid : id = m.executing
  · subst hid
    rw [dealings, contextOf_executing (executing_interrupt m), context_interrupt,
      Code.dealings_append, dealings, contextOf_executing rfl]
    rfl
  · rw [dealings, contextOf_interrupt_of_ne m hid, dealings]

omit [Backend P] in
theorem dealings_call (m : Machine P) (request : Request) (hcode : m.context.code = []) :
    (∀ id, id ≠ m.executing → (m.call request).dealings id = m.dealings id) ∧
      m.dealings m.executing = [] ∧
        (m.call request).dealings m.executing = Code.dealings request.code := by
  refine ⟨fun id hid => by rw [dealings, contextOf_call_of_ne m request hid, dealings], ?_, ?_⟩
  · rw [dealings, contextOf_executing rfl, hcode]
    rfl
  · rw [dealings, contextOf_executing (executing_call m request), context_call]

end Machine

/-- One dealing at most, and with a creation that is proper if with any. -/
structure Sole (steps : List Step) : Prop where
  single : steps.length ≤ 1
  proper : ∀ step ∈ steps, ∀ creation, step.creation? = some creation → creation.IsProper

theorem Sole.nil : Sole [] :=
  ⟨Nat.zero_le 1, List.forall_mem_nil _⟩

theorem Sole.singleton {step : Step}
    (h : ∀ creation, step.creation? = some creation → creation.IsProper) : Sole [step] :=
  ⟨Nat.le_refl 1, List.forall_mem_singleton.2 h⟩

theorem Request.sole_code {request : Request} (h : request.IsProper) :
    Sole (Code.dealings request.code) ∧
      ∀ step ∈ Code.dealings request.code, step.packet? = none := by
  have hnone : Code.dealings request.code = [] → Sole (Code.dealings request.code) ∧
      ∀ step ∈ Code.dealings request.code, step.packet? = none :=
    fun hnil => hnil ▸ ⟨.nil, List.forall_mem_nil _⟩
  cases request
  case create name call stackSize block =>
      refine ⟨.singleton fun creation hcreation => ?_, List.forall_mem_singleton.2 rfl⟩
      cases hcreation
      exact h
  case spawn name body stackSize block =>
      exact ⟨.singleton nofun, List.forall_mem_singleton.2 rfl⟩
  case sleep ticks =>
      apply hnone
      simp only [Request.code]
      split <;> rfl
  all_goals exact hnone rfl

/-! ## Where packets are -/

namespace Machine

inductive Fate (past : List (Transition P)) (m : Machine P) (index : Nat) (packet : Packet) :
    Prop where
  /-- It is with a thread that is to create another one for it. -/
  | held (id : ThreadId) : m.Holds id index → (∀ other, ¬ Conveyed past index other) →
      packet.drops = 0 → packet.takers = [] → Fate past m index packet
  | dropped : (∀ id, ¬ m.Holds id index) → (∀ other, ¬ Conveyed past index other) →
      packet.drops = 1 → packet.takers = [] → Fate past m index packet
  | conveyed (id : ThreadId) : (∀ other, ¬ m.Holds other index) →
      (∀ other, Conveyed past index other ↔ other = id) → packet.drops = 0 →
        packet.takers = takersOf past id → Fate past m index packet

/-- Every packet is in one place, and the routine for closures is called only for packets. -/
structure Consigned (past : List (Transition P)) (m : Machine P) : Prop where
  sole : ∀ id, Sole (m.dealings id)
  enrolled : ∀ id creation, Enrolled past id creation → creation.IsProper
  size : m.shared.packets.size = (packings past).length
  packer : ∀ id index, m.Holds id index → ∃ body, (packings past)[index]? = some (id, body)
  known : ∀ index id, Conveyed past index id → index < (packings past).length
  fate : ∀ index packet, m.shared.packets[index]? = some packet →
    (packings past)[index]?.map Prod.snd = some packet.body ∧ m.Fate past index packet

variable {past past' : List (Transition P)} {m after : Machine P} {step : Step}
  {rest pushed : List Step} {move : Move} {id : ThreadId} {index : Nat} {packet later : Packet}

/-- What becomes of a packet depends on who has it, and on what its thread has called. -/
theorem Fate.still (h : m.Fate past index packet)
    (hholds : ∀ id, after.Holds id index ↔ m.Holds id index)
    (hconveyed : ∀ id, Conveyed past' index id ↔ Conveyed past index id)
    (hdrops : later.drops = packet.drops)
    (hnobody : (∀ id, ¬ Conveyed past index id) → later.takers = packet.takers)
    (hthread : ∀ id, Conveyed past index id → packet.takers = takersOf past id →
      later.takers = takersOf past' id) : after.Fate past' index later := by
  cases h with
  | held id hown hnone hzero htakers =>
      refine .held id ((hholds id).2 hown) (fun other => ?_) (hdrops.trans hzero)
        ((hnobody hnone).trans htakers)
      rw [hconveyed]
      exact hnone other
  | dropped hfree hnone hone htakers =>
      refine .dropped (fun id => ?_) (fun other => ?_) (hdrops.trans hone)
        ((hnobody hnone).trans htakers)
      · rw [hholds]
        exact hfree id
      · rw [hconveyed]
        exact hnone other
  | conveyed id hfree honly hzero htakers =>
      refine .conveyed id (fun other => ?_) (fun other => ?_) (hdrops.trans hzero)
        (hthread id ((honly id).2 rfl) htakers)
      · rw [hholds]
        exact hfree other
      · rw [hconveyed]
        exact honly other

namespace Consigned

/-- Only one thread has a packet. -/
theorem holds_unique (h : m.Consigned past) {other : ThreadId} (hid : m.Holds id index)
    (hother : m.Holds other index) : id = other := by
  obtain ⟨body, hpacked⟩ := h.packer id index hid
  obtain ⟨body', hpacked'⟩ := h.packer other index hother
  rw [hpacked, Option.some.injEq, Prod.mk.injEq] at hpacked'
  exact hpacked'.1

theorem of_holds (h : m.Consigned past) (hid : m.Holds id index)
    (hpacket : m.shared.packets[index]? = some packet) :
    (∀ other, ¬ Conveyed past index other) ∧ packet.drops = 0 ∧ packet.takers = [] := by
  cases (h.fate index packet hpacket).2 with
  | held _ _ hnone hzero htakers => exact ⟨hnone, hzero, htakers⟩
  | dropped hfree => exact absurd hid (hfree id)
  | conveyed _ hfree => exact absurd hid (hfree id)

theorem lt_of_holds (h : m.Consigned past) (hholds : m.Holds id index) :
    index < m.shared.packets.size := by
  obtain ⟨body, hpacked⟩ := h.packer id index hholds
  rw [h.size]
  exact (List.getElem?_eq_some_iff.1 hpacked).1

/-- As long as no packet is made, the fates of those that there are have to be followed. -/
theorem of_fates (h : m.Consigned past) (hsole : ∀ id, Sole (after.dealings id))
    (henrolled : ∀ id creation, Enrolled (past ++ [⟨m, move⟩]) id creation → creation.IsProper)
    (hpack : ∀ step, Transition.step? ⟨m, move⟩ = some step → step.isPack = false)
    (hsize : after.shared.packets.size = m.shared.packets.size)
    (hholds : ∀ id index, after.Holds id index → m.Holds id index)
    (hknown : ∀ index id, Conveyed (past ++ [⟨m, move⟩]) index id →
      Conveyed past index id ∨ m.Holds m.executing index)
    (hfate : ∀ index packet, m.shared.packets[index]? = some packet →
      ∃ later, after.shared.packets[index]? = some later ∧ later.body = packet.body ∧
        after.Fate (past ++ [⟨m, move⟩]) index later) :
    after.Consigned (past ++ [⟨m, move⟩]) := by
  have hpackings : packings (past ++ [⟨m, move⟩]) = packings past := by
    rw [packings_snoc, packs?_eq_none hpack, Option.toList_none, List.append_nil]
  refine ⟨hsole, henrolled, by rw [hsize, hpackings, h.size], ?_, ?_, ?_⟩
  · intro id index hholder
    rw [hpackings]
    exact h.packer id index (hholds id index hholder)
  · intro index id hconveyed
    rw [hpackings]
    rcases hknown index id hconveyed with hbefore | hholder
    · exact h.known index id hbefore
    · exact h.size ▸ h.lt_of_holds hholder
  · intro index later hlater
    have hlt : index < m.shared.packets.size := hsize ▸ (Array.getElem?_eq_some_iff.1 hlater).1
    have hpacket := Array.getElem?_eq_getElem hlt
    obtain ⟨later', hlater', hbody, hfate⟩ := hfate index _ hpacket
    obtain rfl : later' = later := Option.some.inj (hlater'.symm.trans hlater)
    exact ⟨by rw [hpackings, (h.fate index _ hpacket).1, hbody], hfate⟩

/-- What puts nothing in a packet, enters nobody and drops nothing leaves packets where they are. -/
theorem still (h : m.Consigned past) (hsole : ∀ id, Sole (after.dealings id))
    (hholds : ∀ id index, after.Holds id index ↔ m.Holds id index)
    (hpack : ∀ step, Transition.step? ⟨m, move⟩ = some step → step.isPack = false)
    (henroll : ∀ creation stack, Transition.step? ⟨m, move⟩ = some (.enroll creation stack) →
      ∀ id, m.kernel.table.isNext id = false)
    (hsize : after.shared.packets.size = m.shared.packets.size)
    (hpackets : ∀ index packet, m.shared.packets[index]? = some packet →
      ∃ later, after.shared.packets[index]? = some later ∧ later.body = packet.body ∧
        later.drops = packet.drops ∧
        ((∀ id, ¬ Conveyed past index id) → later.takers = packet.takers) ∧
        ∀ id, Conveyed past index id → packet.takers = takersOf past id →
          later.takers = takersOf (past ++ [⟨m, move⟩]) id) :
    after.Consigned (past ++ [⟨m, move⟩]) := by
  have henrolled : ∀ id creation, Enrolled (past ++ [⟨m, move⟩]) id creation ↔
      Enrolled past id creation :=
    fun id creation => enrolled_snoc_of_not fun made stack hstep => henroll made stack hstep id
  have hconveyed : ∀ index id, Conveyed (past ++ [⟨m, move⟩]) index id ↔
      Conveyed past index id := by
    simp only [Conveyed, henrolled, implies_true]
  refine h.of_fates hsole (fun id creation hnew => h.enrolled id creation ((henrolled id _).1 hnew))
    hpack hsize (fun id index => (hholds id index).1)
    (fun index id hnew => .inl ((hconveyed index id).1 hnew)) ?_
  intro index packet hpacket
  obtain ⟨later, hlater, hbody, hdrops, hnobody, hthread⟩ := hpackets index packet hpacket
  exact ⟨later, hlater, hbody, (h.fate index packet hpacket).2.still
    (fun id => hholds id index) (hconveyed index) hdrops hnobody hthread⟩

theorem conveyed_unique (h : m.Consigned past) {other : ThreadId} (hid : Conveyed past index id)
    (hother : Conveyed past index other) : id = other := by
  have hlt : index < m.shared.packets.size := h.size ▸ h.known index id hid
  cases (h.fate index _ (Array.getElem?_eq_getElem hlt)).2 with
  | held _ _ hnone => exact absurd hid (hnone id)
  | dropped _ hnone => exact absurd hid (hnone id)
  | conveyed own _ honly => exact ((honly id).1 hid).trans ((honly other).1 hother).symm

/-- A thread that calls the routine for closures was created for the packet that it takes. -/
theorem conveyed_of_takes (h : m.Consigned past) (hwords : (packings past).length ≤ UInt64.size)
    {creation : Creation} (henrolled : Enrolled past id creation)
    (htakes : (Step.enter creation.call).takes index = true) : creation.packet = some index := by
  simp only [Step.takes, Bool.and_eq_true, beq_iff_eq] at htakes
  have hproper := h.enrolled id creation henrolled
  unfold Creation.IsProper at hproper
  cases hpacket : creation.packet with
  | none =>
      rw [hpacket] at hproper
      exact absurd htakes.1 hproper
  | some own =>
      rw [hpacket] at hproper
      have hown : own < UInt64.size :=
        Nat.lt_of_lt_of_le (h.known own id ⟨creation, henrolled, hpacket⟩) hwords
      have hargument : (UInt64.ofNat own).toNat = index := by
        rw [hproper] at htakes
        exact htakes.2
      rw [UInt64.toNat_ofNat_of_lt' hown] at hargument
      rw [hargument]

theorem takes_of_conveyed (h : m.Consigned past) (hwords : (packings past).length ≤ UInt64.size)
    {creation : Creation} (henrolled : Enrolled past id creation)
    (hpacket : creation.packet = some index) : (Step.enter creation.call).takes index = true := by
  have hproper := h.enrolled id creation henrolled
  rw [Creation.IsProper, hpacket] at hproper
  have hindex : index < UInt64.size :=
    Nat.lt_of_lt_of_le (h.known index id ⟨creation, henrolled, hpacket⟩) hwords
  simp [Step.takes, hproper, UInt64.toNat_ofNat_of_lt' hindex]

theorem takers_enter (h : m.Consigned past) (hwords : (packings past).length ≤ UInt64.size)
    {creation : Creation} (hstep : Transition.step? ⟨m, .exec⟩ = some (.enter creation.call))
    (henrolled : Enrolled past m.executing creation)
    (hunique : ∀ other, Enrolled past m.executing other → other = creation)
    (hfirst : callsBy past m.executing = [])
    (htakers : later.takers =
      (if (Step.enter creation.call).takes index then [m.executing] else []) ++ packet.takers) :
    ((∀ id, ¬ Conveyed past index id) → later.takers = packet.takers) ∧
      ∀ id, Conveyed past index id → packet.takers = takersOf past id →
        later.takers = takersOf (past ++ [⟨m, .exec⟩]) id := by
  have hown : (Step.enter creation.call).takes index = true → Conveyed past index m.executing :=
    fun htakes => ⟨creation, henrolled, h.conveyed_of_takes hwords henrolled htakes⟩
  constructor
  · intro hnone
    rw [htakers, if_neg fun htakes => hnone m.executing (hown htakes)]
    rfl
  · intro id hconveyed hbefore
    have hcalls : ∀ id, Transition.entered? (⟨m, .exec⟩ : Transition P) id =
        if m.executing = id then some creation.call else none := by
      intro id
      rw [Transition.entered?, hstep]
      rfl
    by_cases hid : m.executing = id
    · subst hid
      obtain ⟨other, hother, hpacket⟩ := hconveyed
      rw [hunique other hother] at hpacket
      rw [htakers, if_pos (h.takes_of_conveyed hwords henrolled hpacket), hbefore, takersOf, hfirst,
        takersOf, callsBy_append, hfirst, hcalls, if_pos rfl]
      rfl
    · have hnot : ¬ (Step.enter creation.call).takes index = true :=
        fun htakes => hid (h.conveyed_unique (hown htakes) hconveyed)
      rw [htakers, if_neg hnot, hbefore, takersOf, takersOf,
        callsBy_snoc_of_none (by rw [hcalls, if_neg hid])]
      rfl

variable [Backend P]

theorem idle (h : m.Consigned past) (hwords : (packings past).length ≤ UInt64.size)
    (hstepped : m.Stepped step rest pushed after) (hdeals : step.deals = false)
    (hkept : ∀ id, after.dealings id = m.dealings id)
    (henters : ∀ call, step = .enter call → ∃ creation, Enrolled past m.executing creation ∧
      (∀ other, Enrolled past m.executing other → other = creation) ∧ call = creation.call ∧
        callsBy past m.executing = []) : after.Consigned (past ++ [⟨m, .exec⟩]) := by
  have hstep := hstepped.step?_eq
  have hown : ∀ other, Transition.step? ⟨m, .exec⟩ = some other → other = step :=
    fun other hother => Option.some.inj (hother.symm.trans hstep)
  have hpack : step.isPack = false := by cases step <;> first | rfl | cases hdeals
  refine h.still (fun id => hkept id ▸ h.sole id) (fun id index => by simp [Holds, hkept])
    (fun other hother => by rw [hown other hother]; exact hpack) ?_ ?_ ?_
  · intro creation stack hother
    rw [← hown _ hother] at hdeals
    cases hdeals
  · rw [hstepped.aftermath.packets, Step.size_packetsAfter, hpack]
    rfl
  · intro index packet hpacket
    obtain ⟨later, hlater, hbody, hdrops, htakers⟩ := step.exists_packetsAfter hpacket
    rw [← hstepped.aftermath.packets] at hlater
    have hdiscard : step ≠ .discard index := by
      rintro rfl
      cases hdeals
    rw [if_neg hdiscard] at hdrops
    refine ⟨later, hlater, hbody, hdrops, ?_⟩
    by_cases henter : ∃ call, step = .enter call
    · obtain ⟨call, rfl⟩ := henter
      obtain ⟨creation, henrolled, hunique, rfl, hfirst⟩ := henters call rfl
      exact h.takers_enter hwords hstep henrolled hunique hfirst htakers
    · have hnot : step.takes index = false := by
        cases step <;> first | rfl | exact absurd ⟨_, rfl⟩ henter
      rw [hnot] at htakers
      have hcalls : ∀ id, callsBy (past ++ [⟨m, .exec⟩]) id = callsBy past id := by
        refine fun id => callsBy_snoc_of_none (entered?_eq_none fun call hcall => henter ⟨call, ?_⟩)
        exact (hown _ hcall).symm
      refine ⟨fun _ => htakers, fun id _ hbefore => ?_⟩
      rw [takersOf, hcalls, ← takersOf, ← hbefore]
      exact htakers

omit [Backend P] in
theorem callsBy_of_deals (hstep : Transition.step? ⟨m, .exec⟩ = some step)
    (hdeals : step.deals = true) (id : ThreadId) :
    callsBy (past ++ [⟨m, .exec⟩]) id = callsBy past id := by
  refine callsBy_snoc_of_none (entered?_eq_none fun call hcall => ?_)
  rw [hstep, Option.some.injEq] at hcall
  rw [hcall] at hdeals
  cases hdeals

/-- What a step that passes a packet on does to the packets, of which it takes none. -/
theorem packets_of_deals (hstepped : m.Stepped step rest pushed after) (hdeals : step.deals = true)
    (hpacket : m.shared.packets[index]? = some packet) :
    ∃ later, after.shared.packets[index]? = some later ∧ later.body = packet.body ∧
      later.drops = packet.drops + (if step = .discard index then 1 else 0) ∧
        later.takers = packet.takers := by
  obtain ⟨later, hlater, hbody, hdrops, htakers⟩ := step.exists_packetsAfter hpacket
  rw [← hstepped.aftermath.packets] at hlater
  have hnot : step.takes index = false := by cases step <;> first | rfl | cases hdeals
  rw [hnot] at htakers
  exact ⟨later, hlater, hbody, hdrops, htakers⟩

/-- Unless it is dropped, a packet that neither comes to nor goes from anybody keeps its fate. -/
theorem fate_of_deals (h : m.Consigned past) (hstepped : m.Stepped step rest pushed after)
    (hdeals : step.deals = true) (hdiscard : step ≠ .discard index)
    (hpacket : m.shared.packets[index]? = some packet)
    (hholds : ∀ id, after.Holds id index ↔ m.Holds id index)
    (hconveyed : ∀ id, Conveyed (past ++ [⟨m, .exec⟩]) index id ↔ Conveyed past index id) :
    ∃ later, after.shared.packets[index]? = some later ∧ later.body = packet.body ∧
      after.Fate (past ++ [⟨m, .exec⟩]) index later := by
  obtain ⟨later, hlater, hbody, hdrops, htakers⟩ := packets_of_deals hstepped hdeals hpacket
  rw [if_neg hdiscard] at hdrops
  refine ⟨later, hlater, hbody, (h.fate index packet hpacket).2.still hholds hconveyed hdrops
    (fun _ => htakers) fun id _ hbefore => ?_⟩
  rw [takersOf, callsBy_of_deals hstepped.step?_eq hdeals, ← takersOf, ← hbefore, htakers]

omit [Backend P] in
theorem sole_of_own (h : m.Consigned past)
    (hothers : ∀ id, id ≠ m.executing → after.dealings id = m.dealings id)
    (hown : Sole (after.dealings m.executing)) (id : ThreadId) : Sole (after.dealings id) := by
  by_cases hid : id = m.executing
  · rw [hid]
    exact hown
  · rw [hothers id hid]
    exact h.sole id

theorem pass (h : m.Consigned past) (hstepped : m.Stepped step rest pushed after)
    (hothers : ∀ id, id ≠ m.executing → after.dealings id = m.dealings id)
    (hown : m.dealings m.executing = [step]) (hdeals : step.deals = true)
    (hpack : step.isPack = false) (hdiscard : ∀ index, step ≠ .discard index)
    (hsole : Sole (after.dealings m.executing))
    (hnext : ∀ index, (∃ other ∈ after.dealings m.executing, other.packet? = some index) ↔
      step.packet? = some index)
    (henroll : ∀ creation stack, step = .enroll creation stack →
      ∀ id, m.kernel.table.isNext id = false) : after.Consigned (past ++ [⟨m, .exec⟩]) := by
  have hstep := hstepped.step?_eq
  have hsame : ∀ other, Transition.step? ⟨m, .exec⟩ = some other → other = step :=
    fun other hother => Option.some.inj (hother.symm.trans hstep)
  refine h.still (h.sole_of_own hothers hsole) (fun id index => ?_)
    (fun other hother => by rw [hsame other hother]; exact hpack)
    (fun creation stack hother => henroll creation stack (hsame _ hother).symm) ?_ ?_
  · by_cases hid : id = m.executing
    · subst hid
      rw [Holds, hnext, Holds, hown]
      simp
    · rw [Holds, hothers id hid, Holds]
  · rw [hstepped.aftermath.packets, Step.size_packetsAfter, hpack]
    rfl
  · intro index packet hpacket
    obtain ⟨later, hlater, hbody, hdrops, htakers⟩ := packets_of_deals hstepped hdeals hpacket
    rw [if_neg (hdiscard index)] at hdrops
    refine ⟨later, hlater, hbody, hdrops, fun _ => htakers, fun id _ hbefore => ?_⟩
    rw [takersOf, callsBy_of_deals hstep hdeals, ← takersOf, ← hbefore, htakers]

omit [Backend P] in
theorem holds_iff_of_last (h : m.Consigned past)
    (hothers : ∀ id, id ≠ m.executing → after.dealings id = m.dealings id)
    (hown : m.dealings m.executing = [step]) (hnone : after.dealings m.executing = [])
    (id : ThreadId) (index : Nat) :
    after.Holds id index ↔ m.Holds id index ∧ step.packet? ≠ some index := by
  have hholder : step.packet? = some index → m.Holds m.executing index := by
    intro hpacket
    rw [Holds, hown]
    exact ⟨_, List.mem_singleton_self _, hpacket⟩
  by_cases hid : id = m.executing
  · subst hid
    rw [Holds, hnone, Holds, hown]
    simp
  · rw [Holds, hothers id hid, ← Holds]
    exact (and_iff_left_of_imp fun hholds hpacket =>
      hid (h.holds_unique hholds (hholder hpacket))).symm

theorem discard (h : m.Consigned past) {own : Nat}
    (hstepped : m.Stepped (.discard own) rest pushed after)
    (hothers : ∀ id, id ≠ m.executing → after.dealings id = m.dealings id)
    (hown : m.dealings m.executing = [.discard own])
    (hnone : after.dealings m.executing = []) : after.Consigned (past ++ [⟨m, .exec⟩]) := by
  have hstep := hstepped.step?_eq
  have henrolled : ∀ id creation, Enrolled (past ++ [⟨m, .exec⟩]) id creation ↔
      Enrolled past id creation := fun id creation => enrolled_snoc_of_not (by simp [hstep])
  have hconveyed : ∀ index id, Conveyed (past ++ [⟨m, .exec⟩]) index id ↔
      Conveyed past index id := by
    simp only [Conveyed, henrolled, implies_true]
  have hholder : m.Holds m.executing own := by
    rw [Holds, hown]
    exact ⟨_, List.mem_singleton_self _, rfl⟩
  have hkept : ∀ id index, after.Holds id index ↔ m.Holds id index ∧ some own ≠ some index :=
    h.holds_iff_of_last hothers hown hnone
  refine h.of_fates (h.sole_of_own hothers (hnone ▸ .nil))
    (fun id creation hnew => h.enrolled id creation ((henrolled id creation).1 hnew))
    (by simp [hstep, Step.isPack]) ?_ (fun id index hholds => ((hkept id index).1 hholds).1)
    (fun index id hnew => .inl ((hconveyed index id).1 hnew)) fun index packet hpacket => ?_
  · rw [hstepped.aftermath.packets, Step.size_packetsAfter]
    rfl
  · by_cases hindex : own = index
    · subst hindex
      obtain ⟨later, hlater, hbody, hdrops, htakers⟩ := packets_of_deals hstepped rfl hpacket
      obtain ⟨hnobody, hzero, huntaken⟩ := h.of_holds hholder hpacket
      refine ⟨later, hlater, hbody, .dropped (fun id hholds => ((hkept id own).1 hholds).2 rfl)
        (fun id => ?_) ?_ (htakers.trans huntaken)⟩
      · rw [hconveyed]
        exact hnobody id
      · rw [hdrops, hzero, if_pos rfl]
    · refine h.fate_of_deals hstepped rfl (by simpa using hindex) hpacket (fun id => ?_)
        (hconveyed index)
      rw [hkept, and_iff_left fun hpacket => hindex (Option.some.inj hpacket)]

/-- A thread that is entered has the packet that it was created for. -/
theorem enroll (h : m.Consigned past) {creation : Creation} {stack : Stack} {slot : ThreadId}
    (hstepped : m.Stepped (.enroll creation stack) rest pushed after)
    (hothers : ∀ id, id ≠ m.executing → after.dealings id = m.dealings id)
    (hown : m.dealings m.executing = [.enroll creation stack])
    (hnone : after.dealings m.executing = [])
    (hslot : ∀ id, m.kernel.table.isNext id = true ↔ slot = id) (hsilent : callsBy past slot = []) :
    after.Consigned (past ++ [⟨m, .exec⟩]) := by
  have hstep := hstepped.step?_eq
  have hproper : creation.IsProper :=
    (h.sole m.executing).proper (.enroll creation stack)
      (by rw [hown]; exact List.mem_singleton_self _) creation rfl
  have hconveyed : ∀ index id, Conveyed (past ++ [⟨m, .exec⟩]) index id ↔
      Conveyed past index id ∨ creation.packet = some index ∧ id = slot := by
    intro index id
    simp only [Conveyed, enrolled_snoc, hslot, hstep, or_and_right, exists_or]
    refine or_congr Iff.rfl ⟨?_, ?_⟩
    · intro ⟨other, ⟨hid, block, heq⟩, hpacket⟩
      cases heq
      exact ⟨hpacket, hid.symm⟩
    · intro ⟨hpacket, hid⟩
      exact ⟨creation, ⟨hid.symm, stack, rfl⟩, hpacket⟩
  have hholder : ∀ {index}, creation.packet = some index → m.Holds m.executing index := by
    intro index hpacket
    rw [Holds, hown]
    exact ⟨_, List.mem_singleton_self _, hpacket⟩
  have hkept : ∀ id index,
      after.Holds id index ↔ m.Holds id index ∧ creation.packet ≠ some index :=
    h.holds_iff_of_last hothers hown hnone
  refine h.of_fates (h.sole_of_own hothers (hnone ▸ .nil)) (fun id made hnew => ?_)
    (by simp [hstep, Step.isPack]) ?_ (fun id index hholds => ((hkept id index).1 hholds).1)
    (fun index id hnew => ((hconveyed index id).1 hnew).imp_right fun hown => hholder hown.1)
    fun index packet hpacket => ?_
  · rcases enrolled_snoc.1 hnew with hbefore | ⟨-, block, heq⟩
    · exact h.enrolled id made hbefore
    · rw [hstep] at heq
      cases heq
      exact hproper
  · rw [hstepped.aftermath.packets, Step.size_packetsAfter]
    rfl
  · by_cases hmeant : creation.packet = some index
    · obtain ⟨later, hlater, hbody, hdrops, htakers⟩ := packets_of_deals hstepped rfl hpacket
      obtain ⟨hnobody, hzero, huntaken⟩ := h.of_holds (hholder hmeant) hpacket
      refine ⟨later, hlater, hbody, .conveyed slot
        (fun id hholds => ((hkept id index).1 hholds).2 hmeant) (fun id => ?_)
        (hdrops.trans hzero) ?_⟩
      · rw [hconveyed, or_iff_right (hnobody id), and_iff_right hmeant]
      · rw [htakers, huntaken, takersOf, callsBy_of_deals hstep rfl, hsilent]
        rfl
    · refine h.fate_of_deals hstepped rfl (by simp) hpacket (fun id => ?_) fun id => ?_
      · rw [hkept, and_iff_left hmeant]
      · rw [hconveyed, or_iff_left fun hown => hmeant hown.1]

omit [Backend P] in
/-- A thread that goes on to a creation for a packet has that one, as well as what others have. -/
theorem holds_iff_of_made {creation : Creation}
    (hothers : ∀ id, id ≠ m.executing → after.dealings id = m.dealings id)
    (hown : m.dealings m.executing = [step]) (hnone : step.packet? = none)
    (hcreation : after.dealings m.executing = [.checkRoom creation])
    (hmade : creation.packet = some index) (id : ThreadId) (other : Nat) :
    after.Holds id other ↔ m.Holds id other ∨ id = m.executing ∧ other = index := by
  have hmade : (Step.checkRoom creation).packet? = some index := hmade
  by_cases hid : id = m.executing
  · subst hid
    rw [Holds, hcreation, Holds, hown]
    simp [hmade, hnone, eq_comm]
  · rw [Holds, hothers id hid, Holds]
    simp [hid]

/-- A packing makes a packet, which its thread then has. -/
theorem pack (h : m.Consigned past) {name : String} {body : Nat} {stackSize : UInt64}
    {block : Option UInt64}
    (hstepped : m.Stepped (.pack name body stackSize block) rest pushed after)
    (hothers : ∀ id, id ≠ m.executing → after.dealings id = m.dealings id)
    (hown : m.dealings m.executing = [.pack name body stackSize block])
    (hafter : after.dealings m.executing = Code.dealings pushed) :
    after.Consigned (past ++ [⟨m, .exec⟩]) := by
  have hstep := hstepped.step?_eq
  obtain ⟨creation, hproper, hmade, hcreation⟩ : ∃ creation : Creation, creation.IsProper ∧
      creation.packet = some m.shared.packets.size ∧
        after.dealings m.executing = [.checkRoom creation] := by
    refine ⟨_, ?_, ?_, hafter.trans (congrArg Code.dealings hstepped.pushed_pack)⟩
    · exact rfl
    · rfl
  have hpackings : packings (past ++ [⟨m, .exec⟩]) = packings past ++ [(m.executing, body)] := by
    rw [packings_snoc, Transition.packs?, hstep]
    rfl
  have henrolled : ∀ id creation, Enrolled (past ++ [⟨m, .exec⟩]) id creation ↔
      Enrolled past id creation := fun id creation => enrolled_snoc_of_not (by simp [hstep])
  have hconveyed : ∀ index id, Conveyed (past ++ [⟨m, .exec⟩]) index id ↔
      Conveyed past index id := by
    simp only [Conveyed, henrolled, implies_true]
  have hsize : after.shared.packets.size = m.shared.packets.size + 1 := by
    rw [hstepped.aftermath.packets, Step.size_packetsAfter]
    rfl
  have hholds := holds_iff_of_made hothers hown rfl hcreation hmade
  have hproper : ∀ made, (Step.checkRoom creation).creation? = some made → made.IsProper :=
    fun made heq => Option.some.inj heq ▸ hproper
  refine ⟨h.sole_of_own hothers (hcreation ▸ .singleton hproper), ?_, ?_, ?_, ?_, ?_⟩
  · intro id made hnew
    exact h.enrolled id made ((henrolled id made).1 hnew)
  · rw [hsize, hpackings, List.length_append, h.size]
    rfl
  · intro id index hholder
    rw [hpackings]
    rcases (hholds id index).1 hholder with hbefore | ⟨rfl, rfl⟩
    · obtain ⟨body, hpacked⟩ := h.packer id index hbefore
      exact ⟨body, by rw [List.getElem?_append_left (h.size ▸ h.lt_of_holds hbefore), hpacked]⟩
    · exact ⟨body, by rw [h.size]; exact List.getElem?_concat_length⟩
  · intro index id hknown
    rw [hpackings, List.length_append]
    exact Nat.lt_add_right _ (h.known index id ((hconveyed index id).1 hknown))
  · intro index later hlater
    by_cases hold : index < m.shared.packets.size
    · have hpacket := Array.getElem?_eq_getElem hold
      obtain ⟨later', hlater', hbody, hfate⟩ := h.fate_of_deals hstepped rfl (by simp) hpacket
        (fun id => (hholds id index).trans (or_iff_left fun hlast => Nat.ne_of_lt hold hlast.2))
        (hconveyed index)
      obtain rfl : later' = later := Option.some.inj (hlater'.symm.trans hlater)
      refine ⟨?_, hfate⟩
      rw [hpackings, List.getElem?_append_left (h.size ▸ hold), (h.fate index _ hpacket).1, hbody]
    · have hlt := (Array.getElem?_eq_some_iff.1 hlater).1
      obtain rfl : index = m.shared.packets.size := by omega
      rw [hstepped.aftermath.packets, Step.packetsAfter, Array.getElem?_push_size,
        Option.some.injEq] at hlater
      subst hlater
      refine ⟨by rw [hpackings, h.size, List.getElem?_concat_length]; rfl, ?_⟩
      refine .held m.executing ((hholds _ _).2 (.inr ⟨rfl, rfl⟩)) (fun id hknown => ?_) rfl rfl
      exact Nat.ne_of_lt (h.known _ id ((hconveyed _ id).1 hknown)) h.size

/-- A step on the way to the table passes its creation and its packet on, or drops the packet. -/
theorem advance (h : m.Consigned past) (hstepped : m.Stepped step rest pushed after)
    (hothers : ∀ id, id ≠ m.executing → after.dealings id = m.dealings id)
    (hown : m.dealings m.executing = [step]) {next : List Step}
    (hafter : after.dealings m.executing = next) (hpasses : Passes step next)
    (hcreation : step.creation?.isSome = true)
    (hkeeps : ∀ index, step.packet? = some index → ∃ other ∈ next, other.packet? = some index)
    (henroll : ∀ creation stack, step = .enroll creation stack →
      ∀ id, m.kernel.table.isNext id = false) : after.Consigned (past ++ [⟨m, .exec⟩]) := by
  obtain ⟨creation, hcreation⟩ := Option.isSome_iff_exists.1 hcreation
  have hnot : ¬ ∃ name body size block, step = .pack name body size block := by
    intro ⟨name, body, size, block, hpack⟩
    rw [hpack] at hcreation
    cases hcreation
  have hdeals := Step.deals_of_creation? hcreation
  have hlength := hpasses.length_le
  rw [if_pos hdeals] at hlength
  refine h.pass hstepped hothers hown hdeals ?_ ?_ ⟨hafter ▸ hlength, ?_⟩ (fun index => ?_) henroll
  · cases step <;> first | rfl | cases hcreation
  · rintro index rfl
    cases hcreation
  · intro other hmem made hmade
    have hbefore := (hpasses.creation?_eq (hafter ▸ hmem) hmade).resolve_right hnot
    exact (h.sole m.executing).proper step (hown ▸ List.mem_singleton_self _) made hbefore
  · rw [hafter]
    constructor
    · intro ⟨other, hmem, hpacket⟩
      exact (hpasses.packet?_eq hmem hpacket).resolve_right hnot
    · exact hkeeps index

theorem perform (h : m.Consigned past) (hwords : (packings past).length ≤ UInt64.size)
    (hstepped : m.Stepped step rest pushed after)
    (henters : ∀ call, step = .enter call → ∃ creation, Enrolled past m.executing creation ∧
      (∀ other, Enrolled past m.executing other → other = creation) ∧ call = creation.call ∧
        callsBy past m.executing = [])
    (hsilent : ∀ slot, m.kernel.table.isNext slot = true → callsBy past slot = []) :
    after.Consigned (past ++ [⟨m, .exec⟩]) := by
  obtain ⟨hothers, ⟨hdeals, hkept⟩ | ⟨hown, hafter, hpasses⟩⟩ :=
    hstepped.dealings_cases (h.sole m.executing).single
  · refine h.idle hwords hstepped hdeals (fun id => ?_) henters
    by_cases hid : id = m.executing
    · rw [hid, hkept]
    · exact hothers id hid
  · have hmem : step ∈ m.dealings m.executing := hown ▸ List.mem_singleton_self _
    have hdeals : step.deals = true := (Code.mem_dealings.1 hmem).2
    cases step
    case pack => exact h.pack hstepped hothers hown hafter
    case discard index =>
        refine h.discard hstepped hothers hown (hafter.trans ?_)
        generalize Code.dealings pushed = next at hpasses
        cases hpasses with
        | done => rfl
        | on hcreation => cases hcreation
        | refused hcreation => cases hcreation
    case enroll creation stack =>
        rcases hstepped.enroll_cases with ⟨hfull, hpushed⟩ | ⟨hroom, slot, -, hslot, hpushed⟩
        · rw [hpushed, Code.dealings_refuse] at hafter
          refine h.advance hstepped hothers hown hafter (.refused rfl) rfl (fun index hpacket => ?_)
            fun _ _ _ id => by simp [ThreadTable.isNext, hfull]
          have hpacket : creation.packet = some index := hpacket
          exact ⟨.discard index, by simp [hpacket], rfl⟩
        · refine h.enroll hstepped hothers hown ?_ hslot (hsilent slot ((hslot slot).2 rfl))
          rw [hafter, hpushed]
          rfl
    case checkRoom | allocate | writeFrame =>
        exact h.advance hstepped hothers hown hafter hpasses rfl
          (fun _ hpacket => hpasses.exists_packet? hpacket (by simp) (by simp)) (by simp)
    all_goals cases hdeals

omit [Backend P] in
theorem bystand (h : m.Consigned past) (hsole : ∀ id, Sole (after.dealings id))
    (hholds : ∀ id index, after.Holds id index ↔ m.Holds id index)
    (hshared : after.shared = m.shared)
    (hstep : ∀ step, Transition.step? ⟨m, move⟩ = some step → step.isSwitch = true) :
    after.Consigned (past ++ [⟨m, move⟩]) := by
  refine h.still hsole hholds (fun step heq => ?_) (fun creation stack heq => ?_)
    (by rw [hshared]) fun index packet hpacket => ?_
  · obtain ⟨next, prev, rfl⟩ := Step.eq_switch (hstep step heq)
    rfl
  · cases hstep _ heq
  · refine ⟨packet, by rw [hshared, hpacket], rfl, rfl, fun _ => rfl, fun id _ hbefore => ?_⟩
    rw [hbefore, takersOf, takersOf, callsBy_snoc_of_none (entered?_eq_none fun call heq => ?_)]
    cases hstep _ heq

theorem goes [LawfulBackend P] (h : m.Consigned past) (hregular : m.Regular past)
    (hwords : (packings past).length ≤ UInt64.size) (hgoes : m.Goes move after)
    (hproper : ∀ request, move = .call request → request.IsProper)
    (henters : ∀ call, m.nextStep? = some (.enter call) →
      ∃ creation, Enrolled past m.executing creation ∧
        (∀ other, Enrolled past m.executing other → other = creation) ∧ call = creation.call ∧
          callsBy past m.executing = [])
    (hsilent : ∀ slot, m.kernel.table.isNext slot = true → callsBy past slot = []) :
    after.Consigned (past ++ [⟨m, move⟩]) := by
  cases hgoes with
  | spin hnone =>
      exact h.bystand h.sole (fun _ _ => Iff.rfl) rfl fun step heq => by simp [hnone] at heq
  | step hstepped =>
      refine h.perform hwords hstepped (fun call heq => henters call ?_) hsilent
      rw [nextStep?_of_step? hstepped.step?_eq, heq]
  | switch hcode hswitched =>
      have hkept := hregular.dealings_switched hcode hswitched
      refine h.bystand (fun id => hkept id ▸ h.sole id) (fun id index => by rw [Holds, hkept]; rfl)
        hswitched.shared fun step heq => ?_
      rw [step?_of_switch hcode] at heq
      exact Option.some.inj heq ▸ rfl
  | call request hcode =>
      obtain ⟨hothers, hnone, hown⟩ := m.dealings_call request hcode
      obtain ⟨hsole, hpackets⟩ := Request.sole_code (hproper request rfl)
      refine h.bystand (h.sole_of_own hothers (hown ▸ hsole)) (fun id index => ?_) rfl nofun
      by_cases hid : id = m.executing
      · subst hid
        rw [Holds, hown, Holds, hnone]
        constructor
        · intro ⟨step, hmem, hpacket⟩
          rw [hpackets step hmem] at hpacket
          cases hpacket
        · intro ⟨step, hmem, _⟩
          cases hmem
      · rw [Holds, hothers id hid]
        rfl
  | interrupt =>
      have hkept := m.dealings_interrupt
      exact h.bystand (fun id => hkept id ▸ h.sole id) (fun id index => by rw [Holds, hkept]; rfl)
        rfl nofun

end Consigned

end Machine

/-! ## Runs -/

section

variable [Backend P] {config : Config} {policy : Policy} {cpu : P} {values : List Int32}
  {mutexes : Nat} {console : Console} {past : List (Transition P)} {m : Machine P}

/--
Nothing is given out twice: stacks do not overlap, nobody but a spawn has a thread call the
routine for closures, and every packet has a number of its own.
-/
structure Separated (past : List (Transition P)) : Prop where
  memory : Allocated past
  routine : ∀ t ∈ past, ∀ request, t.move = .call request → request.IsProper
  packets : (packings past).length ≤ UInt64.size

omit [Backend P] in
theorem Separated.of_append {later : List (Transition P)} (h : Separated (past ++ later)) :
    Separated past where
  memory := h.memory.of_append
  routine t hmem := h.routine t (List.mem_append_left _ hmem)
  packets := by
    have hlength := h.packets
    rw [packings_append, List.length_append] at hlength
    exact (Nat.le_add_right _ _).trans hlength

theorem Run.consigned [FrameBackend P] (hpolicy : policy.Sound) (hblank : LawfulBackend.Blank cpu)
    (run : Run (.fresh config policy cpu values mutexes console) past m)
    (hseparated : Separated past) : m.Consigned past := by
  refine run.invariant (fun past m => Separated past → m.Consigned past) ?_ ?_ hseparated
  · intro _
    have hnone : ∀ id,
        (Machine.fresh config policy cpu values mutexes console).dealings id = [] := by
      intro id
      rw [Machine.dealings, Machine.contextOf_fresh]
      rfl
    constructor
    · exact fun id => hnone id ▸ .nil
    · intro id creation ⟨t, hmem, _⟩
      cases hmem
    · rfl
    · intro id index ⟨step, hmem, _⟩
      rw [hnone] at hmem
      cases hmem
    · intro index id ⟨creation, ⟨t, hmem, _⟩, _⟩
      cases hmem
    · intro index packet hpacket
      cases hpacket
  · intro past m move run ih hgoes hseparated
    have hbefore := hseparated.of_append
    refine (ih hbefore).goes run.regular hbefore.packets hgoes
      (fun request => hseparated.routine ⟨m, move⟩ (by simp) request) (fun call hnext => ?_)
      fun slot hslot => ?_
    · obtain ⟨creation, henrolled, hcall, hnone, -⟩ :=
        run.first_call hpolicy hblank hbefore.memory hnext
      exact ⟨creation, henrolled, fun other hother => (run.enrolled henrolled).2 other hother,
        hcall, hnone⟩
    · cases run.starts hpolicy hblank hbefore.memory slot with
      | silent _ hcalls => exact (List.append_eq_nil_iff.1 hcalls).1
      | started creation _ _ henrolled =>
          rw [ThreadTable.isNext_eq_false (run.enrolled henrolled).1] at hslot
          cases hslot

end

end TickKernel
