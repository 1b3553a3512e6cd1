import TickKernel.Proofs.Consignment
import TickKernel.Proofs.Endings
import TickKernel.Proofs.Waiters

/-!
# What becomes of a closure

A spawn makes one packet and returns once it is known where that goes.  If it fails it has
dropped the packet.  If it succeeds the new thread has it, calls the closure once its first
dispatch leads there, and parks for ever when the closure returns.
-/

namespace TickKernel

variable {P : Type}

/-! ## The packet of an operation -/

def PackedBy (past : List (Transition P)) (creator : ThreadId) (body index : Nat) : Prop :=
  Since (fun before t => t.packs? = some (creator, body) ∧ index = (packings before).length)
    (·.CallsAgain creator) past

def Spawner (past : List (Transition P)) (creator : ThreadId) (body : Nat) : Prop :=
  ∃ name stackSize block, asked past creator = some (.spawn name body stackSize block)

def Resolved (past : List (Transition P)) (creator : ThreadId) (body : Nat) : Reply → Prop
  | .failed _ => ∃ index, PackedBy past creator body index ∧ ∀ id, ¬ Conveyed past index id
  | .thread id => ∃ index, PackedBy past creator body index ∧ Conveyed past index id
  | _ => False

/-- The steps of a spawn and those of an interrupt, with the packet that was made for it. -/
def Step.Spawns (past : List (Transition P)) (creator : ThreadId) (body : Nat) : Step → Prop
  | .pack _ own _ _ => own = body
  | .checkRoom creation | .allocate creation | .writeFrame creation _ | .enroll creation _ =>
      ∃ index, PackedBy past creator body index ∧ creation.packet = some index
  | .finish reply => Resolved past creator body reply
  | .mask | .unmask | .take _ | .free _ | .print _ | .savePointer _ _ | .discard _ | .countTick
  | .countDown | .closeInterval | .choose .dispatch | .dispatch _ | .switch _ _ | .resume => True
  | _ => False

section

variable {past : List (Transition P)} {t : Transition P} {creator id : ThreadId}
  {body index : Nat} {creation : Creation} {step : Step}

theorem PackedBy.getElem?_packings (h : PackedBy past creator body index) :
    (packings past)[index]? = some (creator, body) := by
  obtain ⟨before, t, later, rfl, ⟨hpacks, rfl⟩, -⟩ := h
  have hlater : packings (t :: later) = (creator, body) :: packings later := by
    rw [packings, List.filterMap_cons, hpacks]
    rfl
  rw [packings_append, hlater, List.getElem?_append_right (Nat.le_refl _), Nat.sub_self]
  rfl

theorem PackedBy.snoc (h : PackedBy past creator body index) (hcalls : ¬ t.CallsAgain creator) :
    PackedBy (past ++ [t]) creator body index :=
  since_append.2 (.inr ⟨h, hcalls⟩)

theorem Conveyed.append (h : Conveyed past index id) (later : List (Transition P)) :
    Conveyed (past ++ later) index id :=
  let ⟨creation, henrolled, hpacket⟩ := h
  ⟨creation, henrolled.append later, hpacket⟩

theorem Step.Spawns.snoc (h : step.Spawns past creator body) (hcalls : ¬ t.CallsAgain creator)
    (hclear : ∀ index id, (packings past)[index]? = some (creator, body) →
      (Conveyed (past ++ [t]) index id ↔ Conveyed past index id)) :
    step.Spawns (past ++ [t]) creator body := by
  cases step
  case pack => exact h
  case checkRoom | allocate | writeFrame | enroll =>
      obtain ⟨index, hpacked, hpacket⟩ := h
      exact ⟨index, hpacked.snoc hcalls, hpacket⟩
  case finish reply =>
      cases reply
      case failed cause =>
          obtain ⟨index, hpacked, hnone⟩ := h
          refine ⟨index, hpacked.snoc hcalls, fun id => ?_⟩
          rw [hclear index id hpacked.getElem?_packings]
          exact hnone id
      case thread id =>
          obtain ⟨index, hpacked, hconveyed⟩ := h
          exact ⟨index, hpacked.snoc hcalls, hconveyed.append [t]⟩
      all_goals exact h
  case choose use => cases use <;> exact h
  all_goals exact h

theorem spawns_printLine (past : List (Transition P)) (creator : ThreadId) (body : Nat)
    (text : String) : ∀ step ∈ Code.printLine text, step.Spawns past creator body := by
  simp [Code.printLine, Code.print, Step.Spawns]

/-- A refusal resolves a spawn if nobody was entered for its packet. -/
theorem spawns_refuse (hpacked : PackedBy past creator body index)
    (hnone : ∀ id, ¬ Conveyed past index id) (creation : Creation) (cause : Failure) :
    ∀ step ∈ Code.refuse creation cause, step.Spawns past creator body := by
  have hresolved : Resolved past creator body (.failed cause) := ⟨index, hpacked, hnone⟩
  cases hpacket : creation.packet <;> simp [Code.refuse, hpacket, Step.Spawns, hresolved]

end

namespace Machine

def Spawning (past : List (Transition P)) (m : Machine P) : Prop :=
  ∀ creator body, Spawner past creator body →
    ∀ step ∈ (m.contextOf creator).code, step.Spawns past creator body

variable {past : List (Transition P)} {m after : Machine P} {move : Move} {step : Step}
  {rest pushed : List Step} {creator id : ThreadId} {body index : Nat}

theorem holds_of_step? (hstep : Transition.step? ⟨m, .exec⟩ = some step)
    (hpacket : step.packet? = some index) : m.Holds m.executing index := by
  refine ⟨step, Code.mem_dealings.2 ⟨?_, Step.deals_of_packet? hpacket⟩, hpacket⟩
  rw [contextOf_executing rfl]
  exact List.mem_of_mem_head? (nextStep?_of_step? hstep)

theorem Consigned.conveyed_snoc (h : m.Consigned past)
    (hpacked : (packings past)[index]? = some (creator, body))
    (hown : m.executing = creator →
      ∀ creation stack, Transition.step? ⟨m, move⟩ ≠ some (.enroll creation stack)) :
    Conveyed (past ++ [⟨m, move⟩]) index id ↔ Conveyed past index id := by
  refine conveyed_snoc_of_ne fun creation stack hstep _ hpacket => ?_
  cases move with
  | call | interrupt => cases hstep
  | exec =>
      obtain ⟨other, hother⟩ := h.packer _ _ (holds_of_step? hstep hpacket)
      rw [hpacked, Option.some.injEq, Prod.mk.injEq] at hother
      exact hown hother.1.symm creation stack hstep

variable [Backend P]

/-- The packet of a creation that does not succeed is nobody's. -/
theorem Consigned.not_conveyed (h : m.Consigned past)
    (hstepped : m.Stepped step rest pushed after) (hpacket : step.packet? = some index)
    (hfull : ∀ creation stack, step = .enroll creation stack → m.kernel.table.isFull = true)
    (id : ThreadId) : ¬ Conveyed (past ++ [⟨m, .exec⟩]) index id := by
  have hholds := holds_of_step? hstepped.step?_eq hpacket
  have hsame : Conveyed (past ++ [⟨m, .exec⟩]) index id ↔ Conveyed past index id := by
    refine conveyed_snoc_of_ne fun creation stack hstep ⟨other, hnext⟩ => ?_
    rw [hstepped.step?_eq] at hstep
    simp [ThreadTable.isNext, hfull creation stack (Option.some.inj hstep)] at hnext
  rw [hsame]
  exact (h.of_holds hholds (Array.getElem?_eq_getElem (h.lt_of_holds hholds))).1 id

/-- A thread that is entered for a packet has it, and if there is no room it is nobody's. -/
theorem Stepped.spawns_enroll {creation : Creation} {stack : Stack} (hconsigned : m.Consigned past)
    (hstepped : m.Stepped (.enroll creation stack) rest pushed after)
    (hpacked : PackedBy (past ++ [⟨m, .exec⟩]) m.executing body index)
    (hpacket : creation.packet = some index) :
    ∀ other ∈ pushed, other.Spawns (past ++ [⟨m, .exec⟩]) m.executing body := by
  rcases hstepped.enroll_cases with ⟨hfull, rfl⟩ | ⟨-, slot, -, hslot, rfl⟩
  · exact spawns_refuse hpacked (hconsigned.not_conveyed hstepped hpacket fun _ _ _ => hfull)
      creation _
  · have henrolled : Enrolled (past ++ [⟨m, .exec⟩]) slot creation :=
      enrolled_snoc.2 (.inr ⟨(hslot slot).2 rfl, stack, hstepped.step?_eq⟩)
    have hresolved : Resolved (past ++ [⟨m, .exec⟩]) m.executing body (.thread slot) :=
      ⟨index, hpacked, creation, henrolled, hpacket⟩
    refine List.forall_mem_append.2 ⟨List.forall_mem_append.2 ⟨?_, spawns_printLine _ _ _ _⟩, ?_⟩
    · exact List.forall_mem_singleton.2 trivial
    · simp [Step.Spawns, hresolved]

theorem Stepped.spawns_pushed (hconsigned : m.Consigned past)
    (hstepped : m.Stepped step rest pushed after) (hstep : step.Spawns past m.executing body) :
    ∀ other ∈ pushed, other.Spawns (past ++ [⟨m, .exec⟩]) m.executing body := by
  have hcalls : ¬ Transition.CallsAgain ⟨m, .exec⟩ m.executing :=
    Transition.not_callsAgain (by simp) _
  cases hstepped.expands
  case nothing => exact List.forall_mem_nil _
  case answer reply hasks =>
      cases step
      case choose use => cases use <;> first | exact False.elim hstep | cases hasks
      all_goals first | exact False.elim hstep | cases hasks
  case pack name own stackSize block creation =>
      obtain rfl : own = body := hstep
      have hpacked : PackedBy (past ++ [⟨m, .exec⟩]) m.executing own m.shared.packets.size :=
        since_append.2 (.inl ⟨by rw [Transition.packs?, hstepped.step?_eq], hconsigned.size⟩)
      rw [hstepped.pushed_pack]
      simp only [Code.create, List.forall_mem_cons, Step.Spawns, true_and]
      exact ⟨⟨_, hpacked, rfl⟩, List.forall_mem_nil _⟩
  case room | stack | frame =>
      obtain ⟨index, hpacked, hpacket⟩ := hstep
      exact List.forall_mem_singleton.2 ⟨index, hpacked.snoc hcalls, hpacket⟩
  case noRoom creation _ cause =>
      obtain ⟨index, hpacked, hpacket⟩ := hstep
      exact List.forall_mem_append.2 ⟨spawns_printLine _ _ _ _,
        spawns_refuse (hpacked.snoc hcalls) (hconsigned.not_conveyed hstepped hpacket (by simp))
          creation cause⟩
  case noStack creation cause =>
      obtain ⟨index, hpacked, hpacket⟩ := hstep
      exact spawns_refuse (hpacked.snoc hcalls) (hconsigned.not_conveyed hstepped hpacket (by simp))
        creation cause
  case noSlot | slot =>
      obtain ⟨index, hpacked, hpacket⟩ := hstep
      exact hstepped.spawns_enroll hconsigned (hpacked.snoc hcalls) hpacket
  case choice => simp [Code.switchTo, Step.Spawns]
  case stay | leave => simp [Step.Spawns]
  case tick due hdue =>
      rcases hdue with rfl | rfl <;> simp [Code.reschedule, Code.choose, Step.Spawns]
  all_goals exact False.elim hstep

omit [Backend P] in
/-- Steps that wait stay steps of the spawn, unless a thread is entered for its packet. -/
theorem Spawning.kept (h : m.Spawning past) (hconsigned : m.Consigned past)
    (hspawner : Spawner past creator body) (hcalls : ¬ Transition.CallsAgain ⟨m, move⟩ creator)
    (hown : m.executing = creator →
      ∀ creation stack, Transition.step? ⟨m, move⟩ ≠ some (.enroll creation stack)) :
    ∀ step ∈ (m.contextOf creator).code, step.Spawns (past ++ [⟨m, move⟩]) creator body :=
  fun step hmem => (h creator body hspawner step hmem).snoc hcalls fun _ _ hpacked =>
    hconsigned.conveyed_snoc hpacked hown

theorem Spawning.perform [LawfulBackend P] (h : m.Spawning past) (hregular : m.Regular past)
    (hconsigned : m.Consigned past) (hstepped : m.Stepped step rest pushed after) :
    after.Spawning (past ++ [⟨m, .exec⟩]) := by
  intro creator body hspawner
  rw [Spawner, asked_exec] at hspawner
  have hcalls : ¬ Transition.CallsAgain ⟨m, .exec⟩ creator :=
    Transition.not_callsAgain (by simp) creator
  by_cases hid : creator = m.executing
  · subst hid
    have hown := h m.executing body hspawner
    rw [contextOf_executing rfl, hstepped.code, List.forall_mem_cons] at hown
    rw [contextOf_executing hstepped.effect.executing, hstepped.code_after]
    refine List.forall_mem_append.2 ⟨hstepped.spawns_pushed hconsigned hown.1, ?_⟩
    intro other hmem
    refine (hown.2 other hmem).snoc hcalls fun _ _ hpacked =>
      hconsigned.conveyed_snoc hpacked fun _ creation stack heq => ?_
    -- nothing is left of a creation behind the step that enters its thread
    rw [hstepped.step?_eq, Option.some.injEq] at heq
    have hnil : rest = [] := (hregular.orderly.fits hstepped).eq_nil (heq ▸ rfl)
    rw [hnil] at hmem
    cases hmem
  · rw [hstepped.effect.others creator hid]
    exact h.kept hconsigned hspawner hcalls fun heq => absurd heq.symm hid

theorem Spawning.switch [LawfulBackend P] (h : m.Spawning past) (hregular : m.Regular past)
    (hconsigned : m.Consigned past) {next prev : ThreadId}
    (hcode : m.context.code = .switch next prev :: rest)
    (hswitched : (m.setCode rest).Switched next prev after) :
    after.Spawning (past ++ [⟨m, .exec⟩]) := by
  intro creator body hspawner
  rw [Spawner, asked_exec] at hspawner
  have hbefore := h.kept hconsigned hspawner
    (Transition.not_callsAgain (t := ⟨m, .exec⟩) (by simp) creator)
    fun _ _ _ heq => by simp [step?_of_switch hcode] at heq
  rcases hregular.employed.contextOf_switched hregular.seated hcode hswitched creator with
    ⟨rfl, hafter⟩ | ⟨-, hafter | ⟨hnone, -⟩⟩
  · rw [contextOf_executing rfl, hcode, List.forall_mem_cons] at hbefore
    rw [hafter]
    exact hbefore.2
  · rw [hafter]
    exact hbefore
  · obtain ⟨name, stackSize, block, hasked⟩ := hspawner
    rw [hasked] at hnone
    cases hnone

omit [Backend P] in
theorem Spawning.call (h : m.Spawning past) (hconsigned : m.Consigned past) (request : Request) :
    (m.call request).Spawning (past ++ [⟨m, .call request⟩]) := by
  intro creator body hspawner
  obtain ⟨name, stackSize, block, hasked⟩ := hspawner
  rw [asked_call] at hasked
  split at hasked
  next hid =>
      obtain rfl : request = .spawn name body stackSize block := Option.some.inj hasked
      rw [contextOf_executing ((executing_call m _).trans hid), context_call]
      exact List.forall_mem_singleton.2 rfl
  next hid =>
      rw [contextOf_call_of_ne m request (Ne.symm hid)]
      exact h.kept hconsigned ⟨name, stackSize, block, hasked⟩ (fun hagain => hid hagain.1)
        fun heq => absurd heq hid

omit [Backend P] in
theorem Spawning.interrupt (h : m.Spawning past) (hconsigned : m.Consigned past) :
    m.interrupt.Spawning (past ++ [⟨m, .interrupt⟩]) := by
  intro creator body hspawner
  rw [Spawner, asked_interrupt] at hspawner
  have hbefore := h.kept hconsigned hspawner
    (Transition.not_callsAgain (t := ⟨m, .interrupt⟩) (by simp) creator)
    (by simp [Transition.step?])
  by_cases hid : creator = m.executing
  · subst hid
    rw [contextOf_executing (executing_interrupt m), context_interrupt]
    refine List.forall_mem_append.2 ⟨?_, hbefore⟩
    simp [interruptCode, Code.tick, Step.Spawns]
  · rw [contextOf_interrupt_of_ne m hid]
    exact hbefore

/-- Whatever happens, a thread that asked for a spawn has steps of that one only. -/
theorem Spawning.goes [LawfulBackend P] (h : m.Spawning past) (hregular : m.Regular past)
    (hconsigned : m.Consigned past) (hgoes : m.Goes move after) :
    after.Spawning (past ++ [⟨m, move⟩]) := by
  cases hgoes with
  | spin hnone =>
      intro creator body hspawner
      rw [Spawner, asked_exec] at hspawner
      exact h.kept hconsigned hspawner (Transition.not_callsAgain (by simp) creator)
        fun _ _ _ heq => by simp [hnone] at heq
  | step hstepped => exact h.perform hregular hconsigned hstepped
  | switch hcode hswitched => exact h.switch hregular hconsigned hcode hswitched
  | call request => exact h.call hconsigned request
  | interrupt => exact h.interrupt hconsigned

/-! ## Dropped for good, and parked for good -/

theorem Goes.drops_le (hgoes : m.Goes move after) {packet : Packet}
    (hpacket : m.shared.packets[index]? = some packet) :
    ∃ later, after.shared.packets[index]? = some later ∧ packet.drops ≤ later.drops := by
  rcases hgoes.steps_or_still with ⟨step, rest, pushed, -, hstepped⟩ | ⟨hshared, -⟩
  · obtain ⟨later, hlater, -, hdrops, -⟩ := step.exists_packetsAfter hpacket
    rw [← hstepped.aftermath.packets] at hlater
    exact ⟨later, hlater, hdrops ▸ Nat.le_add_right _ _⟩
  · exact ⟨packet, by rw [hshared, hpacket], Nat.le_refl _⟩

/-- A thread that parks never comes back to its own code. -/
theorem Regular.parks [LawfulBackend P] (h : m.Regular past) (hgoes : m.Goes move after)
    (hseeking : Code.seeking (m.contextOf id).code = some .forever) :
    Code.seeking (after.contextOf id).code = some .forever := by
  have hasked : asked (past ++ [⟨m, move⟩]) id ≠ none := by
    have hserves := h.serves_of_seeking hseeking
    cases move with
    | exec => rcases hserves with hasked | hasked <;> simp [hasked]
    | interrupt => rcases hserves with hasked | hasked <;> simp [hasked]
    | call request =>
        rw [asked_call]
        split
        · nofun
        · rcases hserves with hasked | hasked <;> simp [hasked]
  cases h.ending hgoes hasked with
  | kept hlast => rw [Code.seeking, hlast, ← Code.seeking, hseeking]
  | @ended step pushed _ hid hstepped =>
      rw [contextOf_executing hid, hstepped.code] at hseeking
      have hseeks : step.seeks = some .forever := hseeking
      rw [contextOf_executing (hstepped.effect.executing.trans hid), hstepped.code_after,
        List.append_nil]
      rcases hstepped.expands.settles_or_seeks hseeks with hsettles | ⟨last, hlast, hlater⟩
      · cases hsettles <;> cases hseeks
      · rw [Code.seeking, hlast, Option.bind_some, hlater]
  | called request hid hcode =>
      rw [contextOf_executing hid, hcode] at hseeking
      cases hseeking
  | struck hid hcode =>
      rw [contextOf_executing hid, hcode] at hseeking
      cases hseeking

end Machine

/-! ## Closures in a run -/

/-- What becomes of a closure whose spawn failed, in a transition and afterwards. -/
structure Forfeited (t : Transition P) (past : List (Transition P)) (m : Machine P)
    (body index : Nat) : Prop where
  /-- It has been dropped, once. -/
  dropped : ∃ packet, t.before.shared.packets[index]? = some packet ∧ packet.body = body ∧
    packet.drops = 1
  /-- It is not dropped again, and nobody takes it. -/
  kept : ∃ packet, m.shared.packets[index]? = some packet ∧ packet.drops = 1 ∧ packet.takers = []
  /-- No thread is created for it. -/
  nobody : ∀ id, ¬ Conveyed past index id

/-- What becomes of a closure that a thread was created for. -/
structure Entrusted [Backend P] (past : List (Transition P)) (m : Machine P) (body index : Nat)
    (id : ThreadId) : Prop where
  /-- It is not dropped, and whoever takes it is this thread, calling its entry routine. -/
  kept : ∃ packet, m.shared.packets[index]? = some packet ∧ packet.body = body ∧
    packet.drops = 0 ∧ packet.takers = takersOf past id
  /-- No other thread is created for it. -/
  alone : ∀ other, Conveyed past index other ↔ other = id
  /-- The thread's slot is given to nobody else. -/
  slot : ∃ creation, creation.call = ⟨closureRoutine, UInt64.ofNat index⟩ ∧
    ∀ other, Enrolled past id other ↔ other = creation
  once : (takersOf past id).length ≤ 1
  /-- It is not taken before the thread is dispatched. -/
  quiet : (∀ u ∈ past, u.target? ≠ some id) → takersOf past id = []
  /-- The thread's first dispatch leads to it. -/
  dispatched : ∀ before u later, past = before ++ u :: later → u.target? = some id →
    (∀ v ∈ before, v.target? ≠ some id) →
      u.before.Launches id ⟨closureRoutine, UInt64.ofNat index⟩
  /-- When it has returned, its thread executes nothing but the kernel's own code. -/
  parked : (∃ u ∈ past, u.before.executing = id ∧ u.move = .call .leave) →
    m.executing = id → m.atUserLevel = false

section

variable [Backend P] {config : Config} {policy : Policy} {cpu : P} {values : List Int32}
  {mutexes : Nat} {console : Console} {past before later : List (Transition P)} {m : Machine P}
  {t : Transition P} {creator id : ThreadId} {body index : Nat}

theorem Run.drops_le (run : Run (.fresh config policy cpu values mutexes console) past m)
    (hmem : t ∈ past) {packet : Packet} (hpacket : t.before.shared.packets[index]? = some packet) :
    ∃ later, m.shared.packets[index]? = some later ∧ packet.drops ≤ later.drops := by
  refine run.invariant (fun past m => ∀ t ∈ past, ∀ packet,
    t.before.shared.packets[index]? = some packet →
      ∃ later, m.shared.packets[index]? = some later ∧ packet.drops ≤ later.drops)
    (List.forall_mem_nil _) ?_ t hmem packet hpacket
  intro past m move run ih hgoes t hmem packet hpacket
  rcases List.mem_append.1 hmem with hmem | hlast
  · obtain ⟨middle, hmiddle, hbefore⟩ := ih t hmem packet hpacket
    obtain ⟨later, hlater, hafter⟩ := hgoes.drops_le hmiddle
    exact ⟨later, hlater, hbefore.trans hafter⟩
  · obtain rfl := List.mem_singleton.1 hlast
    exact hgoes.drops_le hpacket

section

variable [LawfulBackend P]

theorem Run.parks_of_leave (run : Run (.fresh config policy cpu values mutexes console) past m)
    (hmem : t ∈ past) (hexecuting : t.before.executing = id) (hleave : t.move = .call .leave) :
    Code.seeking (m.contextOf id).code = some .forever := by
  refine run.invariant (fun past m => ∀ t ∈ past, t.before.executing = id →
    t.move = .call .leave → Code.seeking (m.contextOf id).code = some .forever)
    (List.forall_mem_nil _) ?_ t hmem hexecuting hleave
  intro past m move run ih hgoes t hmem hexecuting hleave
  rcases List.mem_append.1 hmem with hmem | hlast
  · exact run.regular.parks hgoes (ih t hmem hexecuting hleave)
  · obtain rfl := List.mem_singleton.1 hlast
    obtain rfl : move = .call .leave := hleave
    have hexecuting : m.executing = id := hexecuting
    rw [Machine.after, Machine.contextOf_executing ((Machine.executing_call m _).trans hexecuting),
      Machine.context_call]
    rfl

end

variable [FrameBackend P]

theorem Run.spawning (hpolicy : policy.Sound) (hblank : LawfulBackend.Blank cpu)
    (run : Run (.fresh config policy cpu values mutexes console) past m)
    (hseparated : Separated past) : m.Spawning past := by
  refine run.invariant (fun past m => Separated past → m.Spawning past) ?_ ?_ hseparated
  · intro _ creator body ⟨_, _, _, hasked⟩
    cases hasked
  · intro past m move run ih hgoes hseparated
    have hbefore := hseparated.of_append
    exact (ih hbefore).goes run.regular (run.consigned hpolicy hblank hbefore) hgoes

/-- A packet that nobody has and that nobody was created for was dropped. -/
theorem Run.forfeited (hpolicy : policy.Sound) (hblank : LawfulBackend.Blank cpu)
    (run : Run (.fresh config policy cpu values mutexes console) (before ++ t :: later) m)
    (hseparated : Separated (before ++ t :: later))
    (hpacked : (packings before)[index]? = some (creator, body))
    (hfree : ¬ t.before.Holds creator index) (hnone : ∀ id, ¬ Conveyed before index id) :
    Forfeited t (before ++ t :: later) m body index := by
  have hconsigned := run.before.1.consigned hpolicy hblank hseparated.of_append
  have hlt : index < t.before.shared.packets.size := by
    rw [hconsigned.size]
    exact (List.getElem?_eq_some_iff.1 hpacked).1
  have hpacket := Array.getElem?_eq_getElem hlt
  obtain ⟨hbody, hfate⟩ := hconsigned.fate index _ hpacket
  rw [hpacked] at hbody
  have hone : t.before.shared.packets[index].drops = 1 := by
    cases hfate with
    | held id hholds =>
        obtain ⟨other, hother⟩ := hconsigned.packer id index hholds
        rw [hpacked, Option.some.injEq, Prod.mk.injEq] at hother
        exact absurd (hother.1 ▸ hholds) hfree
    | dropped _ _ hone => exact hone
    | conveyed id _ honly => exact absurd ((honly id).2 rfl) (hnone id)
  obtain ⟨packet, hlater, hdrops⟩ := run.drops_le (by simp) hpacket
  have hpositive : packet.drops ≠ 0 := by omega
  have hdropped : ∃ packet, t.before.shared.packets[index]? = some packet ∧
      packet.body = body ∧ packet.drops = 1 :=
    ⟨_, hpacket, (Option.some.inj hbody).symm, hone⟩
  cases ((run.consigned hpolicy hblank hseparated).fate index packet hlater).2 with
  | held _ _ _ hzero => exact absurd hzero hpositive
  | dropped _ hnobody hone htakers =>
      exact ⟨hdropped, ⟨packet, hlater, hone, htakers⟩, hnobody⟩
  | conveyed _ _ _ hzero => exact absurd hzero hpositive

/-- A packet that a thread was created for is this thread's alone. -/
theorem Run.entrusted (hpolicy : policy.Sound) (hblank : LawfulBackend.Blank cpu)
    (run : Run (.fresh config policy cpu values mutexes console) past m)
    (hseparated : Separated past) (hpacked : (packings past)[index]? = some (creator, body))
    (hconveyed : Conveyed past index id) : Entrusted past m body index id := by
  have hconsigned := run.consigned hpolicy hblank hseparated
  have hstarts := run.starts hpolicy hblank hseparated.memory id
  obtain ⟨creation, henrolled, hmeant⟩ := hconveyed
  have hproper := hconsigned.enrolled id creation henrolled
  rw [Creation.IsProper, hmeant] at hproper
  have hlt : index < m.shared.packets.size := by
    rw [hconsigned.size]
    exact (List.getElem?_eq_some_iff.1 hpacked).1
  have hpacket := Array.getElem?_eq_getElem hlt
  obtain ⟨hbody, hfate⟩ := hconsigned.fate index _ hpacket
  rw [hpacked] at hbody
  obtain ⟨honly, hzero, htakers⟩ : (∀ other, Conveyed past index other ↔ other = id) ∧
      m.shared.packets[index].drops = 0 ∧ m.shared.packets[index].takers = takersOf past id := by
    cases hfate with
    | held _ _ hnone | dropped _ hnone => exact absurd ⟨creation, henrolled, hmeant⟩ (hnone id)
    | conveyed own _ honly hzero htakers =>
        obtain rfl := (honly id).1 ⟨creation, henrolled, hmeant⟩
        exact ⟨honly, hzero, htakers⟩
  constructor
  · exact ⟨_, hpacket, (Option.some.inj hbody).symm, hzero, htakers⟩
  · exact honly
  · refine ⟨creation, hproper, fun other => ⟨(run.enrolled henrolled).2 other, ?_⟩⟩
    rintro rfl
    exact henrolled
  · rw [takersOf, List.length_map]
    cases hstarts with
    | silent _ hcalls => simp [(List.append_eq_nil_iff.1 hcalls).1]
    | started own _ _ _ hcalls =>
        have hlength := congrArg List.length hcalls
        rw [Machine.callsOf, List.length_append, List.length_singleton] at hlength
        omega
  · intro hnever
    have hapart := (run.apart_of_undispatched hblank henrolled.ne_idle hnever).1
    rw [takersOf, (List.append_eq_nil_iff.1 (hstarts.callsOf_eq_nil hapart)).1]
    rfl
  · rintro before u later rfl htarget hnever
    rw [← hproper]
    exact run.first_dispatch hpolicy hblank hseparated.memory henrolled htarget hnever
  · intro hleft hown
    obtain ⟨u, hmem, hexecuting, hleave⟩ := hleft
    have hseeking := run.parks_of_leave hmem hexecuting hleave
    rw [Machine.contextOf_executing hown] at hseeking
    rw [Machine.atUserLevel, List.isEmpty_eq_false_iff]
    exact (Code.isOperation_of_seeking hseeking).1

/--
Every closure that is given to a spawn is consumed once.  A spawn that fails has dropped it once,
and nobody ever takes it.  A spawn that returns a thread does not drop it, no other thread is
created for it, and only that thread takes it, once at most and not before its first dispatch,
which leads there; when the closure returns its thread never gets back to its own code,
and the slot is given to nobody else.
-/
theorem Run.closure_consumed_once (hpolicy : policy.Sound) (hblank : LawfulBackend.Blank cpu)
    (run : Run (.fresh config policy cpu values mutexes console) (before ++ t :: later) m)
    (hseparated : Separated (before ++ t :: later)) {name : String} {stackSize : UInt64}
    {block : Option UInt64}
    (hreturns : t.Returns before creator (.spawn name body stackSize block)) :
    ∃ index, PackedBy before creator body index ∧
      ((∃ cause, t.step? = some (.finish (.failed cause))) ∧
          Forfeited t (before ++ t :: later) m body index ∨
        ∃ id, t.step? = some (.finish (.thread id)) ∧
          Entrusted (before ++ t :: later) m body index id) := by
  obtain ⟨reply, hstep⟩ := hreturns.finishes
  have hcode : (t.before.contextOf creator).code = [.finish reply] := by
    rw [Machine.contextOf_executing hreturns.executing]
    exact run.before.1.regular.orderly.code_of_finish (Machine.nextStep?_of_step? hstep)
  have hresolved : Resolved before creator body reply := by
    refine run.before.1.spawning hpolicy hblank hseparated.of_append creator body
      ⟨name, stackSize, block, hreturns.asked⟩ (.finish reply) ?_
    rw [hcode]
    exact List.mem_singleton_self _
  cases reply
  case failed cause =>
      obtain ⟨index, hpacked, hnone⟩ := hresolved
      refine ⟨index, hpacked, .inl ⟨⟨cause, hstep⟩, ?_⟩⟩
      refine run.forfeited hpolicy hblank hseparated hpacked.getElem?_packings ?_ hnone
      intro ⟨step, hmem, _⟩
      rw [Machine.dealings, hcode] at hmem
      cases hmem
  case thread id =>
      obtain ⟨index, hpacked, hconveyed⟩ := hresolved
      refine ⟨index, hpacked, .inr ⟨id, hstep, ?_⟩⟩
      have hstill : (packings (before ++ t :: later))[index]? = some (creator, body) := by
        have hbefore := hpacked.getElem?_packings
        rw [packings_append, List.getElem?_append_left (List.getElem?_eq_some_iff.1 hbefore).1,
          hbefore]
      exact run.entrusted hpolicy hblank hseparated hstill (hconveyed.append _)
  all_goals exact False.elim hresolved

end

/-- The idle thread spawns a thread, up to the last step of it. -/
def hire : List Move :=
  .call (.spawn "errand" 5 4096 (some 0x10000)) :: List.replicate 20 .exec

/-- The new thread is dispatched, and its closure returns. -/
def errand : List Move :=
  .call .yield :: List.replicate 13 .exec ++ .call .leave :: List.replicate 2 .exec

/-- The new thread took the closure, and is on its way to parking. -/
theorem Run.closure_consumed_once_of_errand :
    ∃ (before later : List (Transition Host)) (t : Transition Host) (m : Machine Host),
      Run (.fresh {} .roundRobin {} [] 0 { sinks := [], installed := none })
          (before ++ t :: later) m ∧
        t.Returns before ThreadId.idle (.spawn "errand" 5 4096 (some 0x10000)) ∧
          m.executing = 0 ∧ m.atUserLevel = false ∧ takersOf (before ++ t :: later) 0 = [0] ∧
            ∃ index packet, PackedBy before ThreadId.idle 5 index ∧
              m.shared.packets[index]? = some packet ∧ packet.body = 5 ∧ packet.drops = 0 ∧
                packet.takers = [0] := by
  let start : Machine Host := .fresh {} .roundRobin {} [] 0 { sinks := [], installed := none }
  let middle := hire.foldl Machine.after start
  let before := start.transitions hire
  let later := (middle.after .exec).transitions errand
  let t : Transition Host := ⟨middle, .exec⟩
  let m := errand.foldl Machine.after (middle.after .exec)
  have run : Run start (before ++ t :: later) m :=
    .of_plays_at (by decide +kernel) (by decide +kernel)
  have hblocks : stacksOf (before ++ t :: later) = [⟨0x10000, 4192⟩] := by decide +kernel
  have hpackings : packings (before ++ t :: later) = [(ThreadId.idle, 5)] := by decide +kernel
  have hmoves : (before ++ t :: later).map Transition.move = hire ++ .exec :: errand := by
    decide +kernel
  have hseparated : Separated (before ++ t :: later) := by
    constructor
    · constructor
      · rw [hblocks]
        exact List.forall_mem_singleton.2 ⟨by decide, by decide⟩
      · rw [hblocks]
        exact List.pairwise_singleton _ _
    · intro u hmem request hcall
      have hmove := hmoves ▸ List.mem_map_of_mem hmem
      rw [hcall] at hmove
      have hrequest : request ∈ [.spawn "errand" 5 4096 (some 0x10000), .yield, .leave] := by
        simpa [hire, errand] using hmove
      simp only [List.mem_cons, List.not_mem_nil, or_false] at hrequest
      rcases hrequest with rfl | rfl | rfl <;> trivial
    · rw [hpackings]
      decide
  have hstep : t.step? = some (.finish (.thread 0)) := by decide +kernel
  have hreturns : t.Returns before ThreadId.idle (.spawn "errand" 5 4096 (some 0x10000)) :=
    ⟨by decide +kernel, by decide +kernel, _, hstep⟩
  have htakers : takersOf (before ++ t :: later) 0 = [0] := by decide +kernel
  obtain ⟨index, hpacked, ⟨⟨cause, hfailed⟩, -⟩ | ⟨id, hthread, hentrusted⟩⟩ :=
    Run.closure_consumed_once Policy.sound_roundRobin Host.blank run hseparated hreturns
  · rw [hstep] at hfailed
    cases hfailed
  · obtain rfl : 0 = id := by
      rw [hstep] at hthread
      cases hthread
      rfl
    obtain ⟨packet, hpacket, hbody, hdrops, htaken⟩ := hentrusted.kept
    have hexecuting : m.executing = 0 := by decide +kernel
    have hleft : ∃ u ∈ before ++ t :: later, u.before.executing = 0 ∧ u.move = .call .leave := by
      have hany : (before ++ t :: later).any
          (fun u => u.before.executing == 0 && u.move == .call .leave) = true := by decide +kernel
      obtain ⟨u, hmem, hboth⟩ := List.any_eq_true.1 hany
      rw [Bool.and_eq_true, beq_iff_eq, beq_iff_eq] at hboth
      exact ⟨u, hmem, hboth⟩
    exact ⟨before, later, t, m, run, hreturns, hexecuting, hentrusted.parked hleft hexecuting,
      htakers, index, packet, hpacked, hpacket, hbody, hdrops, htaken.trans htakers⟩

end TickKernel
