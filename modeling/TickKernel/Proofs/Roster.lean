import TickKernel.Proofs.MutualExclusion
import TickKernel.Proofs.Neighbours
import TickKernel.Proofs.RoundRobin
import TickKernel.Proofs.Switches

/-!
# Who is in the table

The table lists the creations that succeeded, in their order, and the idle thread in the
last slot; every other slot is as it was at first.  A creation fills the next free slot and
answers with it.  Nothing changes who a slot belongs to after that, and nobody ever
dispatches, wakes or reports a slot that belongs to nobody.
-/

namespace TickKernel

variable {P : Type}

/-- A run of one kernel beside others that leave its synchronization objects to it. -/
inductive OwnRun [Backend P] (start : Machine P) : List (Transition P) → Machine P → Prop where
  | nil : OwnRun start [] start
  | snoc {past : List (Transition P)} {m : Machine P} (move : Move) :
      OwnRun start past m → m.Allows move → OwnRun start (past ++ [⟨m, move⟩]) (m.after move)
  | others {past : List (Transition P)} {m : Machine P} (shared : Shared) :
      OwnRun start past m → shared.mutexes = m.shared.mutexes →
        shared.semaphores = m.shared.semaphores → shared.taken = m.shared.taken →
          OwnRun start past (m.withShared shared)

/-! ## Creations and slots -/

def Transition.enrolls? (t : Transition P) : Option (Creation × Stack) :=
  match t.step? with
  | some (.enroll creation stack) =>
      if t.before.kernel.table.isFull then none else some (creation, stack)
  | _ => none

def creations (past : List (Transition P)) : List (Creation × Stack) :=
  past.filterMap Transition.enrolls?

/-- Identity, name, entry routine and stack that a slot has after some creations. -/
def occupant (created : List (Creation × Stack)) (id : ThreadId) :
    ThreadId × String × UInt64 × Option Stack :=
  if id = ThreadId.idle then ControlBlock.idle.identity
  else
    match created[id.val]? with
    | some (creation, stack) =>
        (ControlBlock.created id creation.name creation.call.entry stack).identity
    | none => (ControlBlock.vacant id).identity

theorem creations_append (past later : List (Transition P)) :
    creations (past ++ later) = creations past ++ creations later :=
  List.filterMap_append

theorem creations_snoc (past : List (Transition P)) (t : Transition P) :
    creations (past ++ [t]) = creations past ++ t.enrolls?.toList :=
  filterMap_snoc _ past t

theorem enrolls?_of_step? {t : Transition P} {creation : Creation} {stack : Stack}
    (h : t.step? = some (.enroll creation stack)) :
    t.enrolls? = if t.before.kernel.table.isFull then none else some (creation, stack) := by
  rw [Transition.enrolls?, h]

theorem fst_occupant (created : List (Creation × Stack)) (id : ThreadId) :
    (occupant created id).1 = id := by
  unfold occupant
  split
  next hidle => exact hidle.symm
  next => split <;> rfl

theorem occupant_append {created : List (Creation × Stack)} {id : ThreadId}
    (h : id = ThreadId.idle ∨ id.val < created.length) (later : List (Creation × Stack)) :
    occupant (created ++ later) id = occupant created id := by
  unfold occupant
  rcases h with rfl | hlt
  · rw [if_pos rfl, if_pos rfl]
  · rw [List.getElem?_append_left hlt]

theorem occupant_snoc {created : List (Creation × Stack)} {id : ThreadId}
    (creation : Creation × Stack) (h : id.val ≠ created.length) :
    occupant (created ++ [creation]) id = occupant created id := by
  have hsame : (created ++ [creation])[id.val]? = created[id.val]? := by
    by_cases hlt : id.val < created.length
    · exact List.getElem?_append_left hlt
    · have hbeyond : (created ++ [creation]).length ≤ id.val := by
        rw [List.length_append, List.length_singleton]
        omega
      rw [List.getElem?_eq_none hbeyond, List.getElem?_eq_none (Nat.not_lt.1 hlt)]
  rw [occupant, occupant, hsame]

/-- Blocks of the same thread differ in state, countdown and counters only. -/
theorem ControlBlock.eq_of_identity_eq {block other : ControlBlock}
    (h : block.identity = other.identity) :
    block = { other with
      state := block.state, sleepTicks := block.sleepTicks
      dispatches := block.dispatches, lastDispatches := block.lastDispatches } := by
  obtain ⟨id, name, entry, stack, state, sleepTicks, dispatches, lastDispatches⟩ := block
  simp only [identity, Prod.mk.injEq] at h
  obtain ⟨rfl, rfl, rfl, rfl⟩ := h
  rfl

theorem Step.identity_tableAfter (step : Step) (table : ThreadTable) (id : ThreadId)
    (hnext : ∀ creation stack, step = .enroll creation stack → table.isNext id = false) :
    ((step.tableAfter table).block id).identity = (table.block id).identity := by
  cases step <;> try rfl
  case dispatch target =>
      simp only [tableAfter, ThreadTable.block_dispatch]
      repeat' split
      all_goals simp
  case block =>
      simp only [tableAfter, ThreadTable.block_modifyCurrent]
      split <;> simp
  case doze ticks =>
      simp only [tableAfter, ThreadTable.block_modifyCurrent]
      split <;> simp
  case wake woken =>
      simp only [tableAfter, ThreadTable.block_wake]
      split <;> simp
  case countDown =>
      simp only [tableAfter, ThreadTable.block_countDown]
      split <;> simp
  case closeInterval => simp [tableAfter]
  case enroll creation stack =>
      rw [tableAfter, ThreadTable.block_insert, hnext creation stack rfl]
      rfl

theorem Step.count_tableAfter (step : Step) {table : ThreadTable}
    (hfull : ∀ creation stack, step = .enroll creation stack → table.isFull = true) :
    (step.tableAfter table).count = table.count := by
  cases step <;> try rfl
  case dispatch target => exact table.count_dispatch target
  case wake id => exact table.count_wake id
  case enroll creation stack =>
      rw [tableAfter, (table.insert_eq_none_iff _).2 (hfull creation stack rfl)]
      rfl

namespace ControlBlock

theorem closeInterval_vacant (id : ThreadId) : (vacant id).closeInterval = vacant id :=
  rfl

end ControlBlock

/-- A step leaves a vacant slot vacant unless it names it or fills it. -/
theorem Step.block_tableAfter_of_vacant {step : Step} {table : ThreadTable} {id : ThreadId}
    (hvacant : table.block id = ControlBlock.vacant id) (hcontains : table.contains id = false)
    (hcurrent : id ≠ table.current) (hnames : step.names ≠ some id)
    (hnext : ∀ creation stack, step = .enroll creation stack → table.isNext id = false) :
    (step.tableAfter table).block id = ControlBlock.vacant id := by
  cases step <;> try exact hvacant
  case dispatch target =>
      have htarget : id ≠ target := fun heq => hnames (congrArg some heq.symm)
      rw [tableAfter, ThreadTable.block_dispatch_of_ne htarget hcurrent, hvacant]
  case block => rw [tableAfter, ThreadTable.block_modifyCurrent, if_neg hcurrent, hvacant]
  case doze ticks => rw [tableAfter, ThreadTable.block_modifyCurrent, if_neg hcurrent, hvacant]
  case wake woken =>
      have hwoken : id ≠ woken := fun heq => hnames (congrArg some heq.symm)
      rw [tableAfter, ThreadTable.block_wake_of_ne table hwoken, hvacant]
  case countDown => rw [tableAfter, ThreadTable.block_countDown, hcontains, hvacant]; rfl
  case closeInterval =>
      rw [tableAfter, ThreadTable.block_closeInterval, hvacant, ControlBlock.closeInterval_vacant]
  case enroll creation stack =>
      rw [tableAfter, ThreadTable.block_insert, hnext creation stack rfl]
      exact hvacant

namespace Machine

/-- The table lists the creations of a run and nothing else. -/
structure Roster (past : List (Transition P)) (m : Machine P) : Prop where
  count : m.kernel.table.count = (creations past).length
  occupant : ∀ id, (m.kernel.table.block id).identity = occupant (creations past) id
  vacant : ∀ id, m.kernel.table.contains id = false →
    m.kernel.table.block id = ControlBlock.vacant id

variable {past : List (Transition P)} {m after : Machine P} {step : Step} {rest pushed : List Step}
  {move : Move} {id : ThreadId}

theorem Populated.boot (number : Nat) (config : Config) {policy : Policy} (hpolicy : policy.Sound)
    (cpu : P) (values : List Int32) (mutexes : Nat) (console : Console) :
    (boot (.new number config policy cpu) (.new values mutexes console)).Populated := by
  have h := Populated.fresh config hpolicy cpu values mutexes console
  exact ⟨h.sound, h.current, h.executing, h.mutexLine, h.semaphoreLine, h.named⟩

theorem Populated.withShared {shared : Shared} (h : m.Populated)
    (hmutexes : shared.mutexes = m.shared.mutexes)
    (hsemaphores : shared.semaphores = m.shared.semaphores) :
    (m.withShared shared).Populated where
  sound := h.sound
  current := h.current
  executing := h.executing
  mutexLine index id hmem := by
    refine h.mutexLine index id ?_
    rwa [Shared.mutexLine, ← hmutexes]
  semaphoreLine index id hmem := by
    refine h.semaphoreLine index id ?_
    rwa [Shared.semaphoreLine, ← hsemaphores]
  named := h.named

theorem Populated.ne_current (h : m.Populated) (hcontains : m.kernel.table.contains id = false) :
    id ≠ m.kernel.table.current := by
  rintro rfl
  rw [h.current] at hcontains
  cases hcontains

theorem Populated.ne_executing (h : m.Populated) (hcontains : m.kernel.table.contains id = false) :
    id ≠ m.executing := by
  rintro rfl
  rw [h.executing] at hcontains
  cases hcontains

/-- A slot that belongs to nobody: it is as it was at first, and nothing refers to it. -/
structure Unused (m : Machine P) (id : ThreadId) : Prop where
  blank : m.kernel.table.block id = ControlBlock.vacant id
  notCurrent : id ≠ m.kernel.table.current
  notExecuting : id ≠ m.executing
  notChosen : id ≠ m.kernel.choice
  noInfo : m.kernel.info? id = none
  noStats : ∀ info ∈ m.kernel.stats.threads, info.id ≠ id

namespace Roster

theorem id_block (h : m.Roster past) (id : ThreadId) : (m.kernel.table.block id).id = id := by
  have hsame := congrArg Prod.fst (h.occupant id)
  rw [fst_occupant] at hsame
  exact hsame

theorem boot (number : Nat) (config : Config) (policy : Policy) (cpu : P) (shared : Shared) :
    (Machine.boot (.new number config policy cpu) shared).Roster [] := by
  have hblock : ∀ id, ThreadTable.initial.block id =
      if id = ThreadId.idle then ControlBlock.idle else ControlBlock.vacant id := by
    intro id
    simp [ThreadTable.block, ThreadTable.initial]
  constructor
  · rfl
  · intro id
    show (ThreadTable.initial.block id).identity = _
    rw [hblock, TickKernel.occupant]
    split <;> rfl
  · intro id hcontains
    show ThreadTable.initial.block id = _
    rw [hblock, if_neg]
    rintro rfl
    cases hcontains

theorem of_table (h : m.Roster past) (hnone : Transition.enrolls? ⟨m, move⟩ = none)
    (htable : after.kernel.table = m.kernel.table) : after.Roster (past ++ [⟨m, move⟩]) := by
  have hsame : creations (past ++ [⟨m, move⟩]) = creations past := by
    rw [creations_snoc, hnone, Option.toList_none, List.append_nil]
  exact ⟨by rw [hsame, htable, h.count], by rw [hsame, htable]; exact h.occupant,
    by rw [htable]; exact h.vacant⟩

variable [Backend P]

theorem enroll {creation : Creation} {stack : Stack} (h : m.Roster past)
    (hstepped : m.Stepped (.enroll creation stack) rest pushed after)
    (hroom : m.kernel.table.isFull = false) : after.Roster (past ++ [⟨m, .exec⟩]) := by
  have hcreations : creations (past ++ [⟨m, .exec⟩]) = creations past ++ [(creation, stack)] := by
    rw [creations_snoc, enrolls?_of_step? hstepped.step?_eq, if_neg (by simp [hroom])]
    rfl
  have htable := hstepped.effect.table
  obtain ⟨⟨entered, table⟩, hinsert⟩ : ∃ entered, m.kernel.table.insert
      (ControlBlock.created · creation.name creation.call.entry stack) = some entered := by
    rw [← Option.isSome_iff_exists, Option.isSome_iff_ne_none, Ne,
      ThreadTable.insert_eq_none_iff, hroom]
    simp
  obtain ⟨hentered, hcount⟩ := ThreadTable.count_of_insert hinsert
  have hnext : ∀ id, m.kernel.table.isNext id = true ↔ entered = id :=
    fun _ => ThreadTable.isNext_iff_of_insert hinsert
  have hne : entered ≠ ThreadId.idle := by
    rintro rfl
    have hidle := (hnext _).2 rfl
    rw [ThreadTable.isNext_eq_false m.kernel.table.contains_idle] at hidle
    cases hidle
  have hafter : after.kernel.table = table := by
    rw [htable, Step.tableAfter, hinsert]
    rfl
  have hblock : ∀ id, after.kernel.table.block id = if entered = id then
      ControlBlock.created id creation.name creation.call.entry stack
      else m.kernel.table.block id := by
    intro id
    rw [htable, Step.tableAfter, ThreadTable.block_insert]
    exact if_congr (hnext id) rfl rfl
  constructor
  · rw [hcreations, hafter, hcount, h.count, List.length_append]
    rfl
  · intro id
    rw [hcreations, hblock]
    by_cases hid : entered = id
    · subst hid
      rw [if_pos rfl, TickKernel.occupant, if_neg hne, hentered, h.count]
      simp
    · have hval : id.val ≠ (creations past).length := by
        rw [← h.count, ← hentered]
        exact fun heq => hid (Fin.ext heq.symm)
      rw [if_neg hid, h.occupant, occupant_snoc _ hval]
  · intro id hcontains
    have hother : entered ≠ id := by
      rintro rfl
      simp [ThreadTable.contains, hafter, hcount, hentered] at hcontains
    rw [hblock, if_neg hother]
    apply h.vacant
    rw [← Bool.not_eq_true] at hcontains ⊢
    intro hbefore
    refine hcontains (ThreadTable.contains_of_count_le ?_ hbefore)
    rw [hafter, hcount]
    omega

theorem perform (h : m.Roster past) (hpopulated : m.Populated)
    (hstepped : m.Stepped step rest pushed after) : after.Roster (past ++ [⟨m, .exec⟩]) := by
  by_cases henrolls : ∃ creation stack,
      step = .enroll creation stack ∧ m.kernel.table.isFull = false
  · obtain ⟨creation, stack, rfl, hroom⟩ := henrolls
    exact h.enroll hstepped hroom
  · -- nobody is entered, so every slot keeps its identity
    have hfull : ∀ creation stack, step = .enroll creation stack →
        m.kernel.table.isFull = true := by
      intro creation stack heq
      rw [← Bool.not_eq_false]
      exact fun hroom => henrolls ⟨creation, stack, heq, hroom⟩
    have hnext : ∀ creation stack, step = .enroll creation stack →
        ∀ id, m.kernel.table.isNext id = false := by
      intro creation stack heq id
      simp [ThreadTable.isNext, hfull creation stack heq]
    have hnone : Transition.enrolls? ⟨m, .exec⟩ = none := by
      unfold Transition.enrolls?
      rw [hstepped.step?_eq]
      split
      next creation stack heq => rw [if_pos (hfull creation stack (Option.some.inj heq))]
      next => rfl
    have hsame : creations (past ++ [⟨m, .exec⟩]) = creations past := by
      rw [creations_snoc, hnone, Option.toList_none, List.append_nil]
    have htable := hstepped.effect.table
    have hcount : after.kernel.table.count = m.kernel.table.count := by
      rw [htable]
      exact step.count_tableAfter hfull
    constructor
    · rw [hsame, hcount, h.count]
    · intro id
      rw [hsame, htable, step.identity_tableAfter _ id fun _ _ heq => hnext _ _ heq id]
      exact h.occupant id
    · intro id hcontains
      have hbefore : m.kernel.table.contains id = false := by
        rw [← hcontains, ThreadTable.contains, ThreadTable.contains, hcount]
      rw [htable]
      refine Step.block_tableAfter_of_vacant (h.vacant id hbefore) hbefore
        (hpopulated.ne_current hbefore) (fun hnames => ?_) fun _ _ heq => hnext _ _ heq id
      have hnamed := hpopulated.named id (List.mem_filterMap.2
        ⟨step, hstepped.code ▸ List.mem_cons_self, hnames⟩)
      rw [hnamed] at hbefore
      cases hbefore

theorem goes (h : m.Roster past) (hpopulated : m.Populated) (hgoes : m.Goes move after) :
    after.Roster (past ++ [⟨m, move⟩]) := by
  cases hgoes with
  | spin hnone => exact h.of_table (by rw [Transition.enrolls?, hnone]) rfl
  | step hstepped => exact h.perform hpopulated hstepped
  | switch hcode hswitched =>
      refine h.of_table (by rw [Transition.enrolls?, step?_of_switch hcode]) ?_
      rw [hswitched.kernel]
      rfl
  | call | interrupt => exact h.of_table rfl rfl

end Roster

end Machine

/-! ## What a creation answers -/

def Request.creates : Request → Bool
  | .create _ _ _ _ | .spawn _ _ _ _ => true
  | _ => false

/-- A transition in which a thread enters another one in the next slot. -/
structure Transition.Enters (t : Transition P) (before : List (Transition P))
    (creator created : ThreadId) : Prop where
  executing : t.before.executing = creator
  enrolls : t.enrolls? ≠ none
  slot : created.val = (creations before).length

def Transition.CallsAgain (t : Transition P) (id : ThreadId) : Prop :=
  t.before.executing = id ∧ ∃ request, t.move = .call request

theorem Transition.not_callsAgain {t : Transition P} (h : ∀ request, t.move ≠ .call request)
    (id : ThreadId) : ¬ t.CallsAgain id :=
  fun hagain => hagain.2.elim h

def EnteredBy (past : List (Transition P)) (creator created : ThreadId) : Prop :=
  Since (fun before t => t.Enters before creator created) (·.CallsAgain creator) past

/-- An answer that names a thread names the one that was entered for it. -/
def Step.Answers (past : List (Transition P)) (id : ThreadId) : Step → Prop
  | .finish (.thread created) =>
      ∀ request, asked past id = some request → request.creates = true → EnteredBy past id created
  | .choose .answer => asked past id = some .selectNext
  | _ => True

theorem Step.Answers.append {past : List (Transition P)} {id : ThreadId} {step : Step}
    {t : Transition P} (h : step.Answers past id) (hcalls : ¬ t.CallsAgain id) :
    step.Answers (past ++ [t]) id := by
  have hasked : asked (past ++ [t]) id = asked past id := by
    obtain ⟨m, move⟩ := t
    cases move with
    | exec => exact asked_exec past m id
    | interrupt => exact asked_interrupt past m id
    | call request =>
        rw [asked_call, if_neg]
        exact fun hid => hcalls ⟨hid, request, rfl⟩
  unfold Step.Answers at h ⊢
  split at h
  next created =>
      rw [hasked]
      exact fun request hrequest hcreates =>
        since_append.2 (.inr ⟨h request hrequest hcreates, hcalls⟩)
  next => rwa [hasked]
  next => trivial

/-- Only these steps lead to an answer that names a thread. -/
theorem Kernel.Expands.mem_finish_thread {kernel : Kernel P} {step : Step} {pushed : List Step}
    {created : ThreadId} (h : kernel.Expands step pushed)
    (hmem : .finish (.thread created) ∈ pushed) :
    step = .identify .answer ∨ (∃ creation stack, step = .enroll creation stack) ∨
      ∃ lock, step.asksUnder = some lock := by
  cases h
  case identity => exact .inl rfl
  case answer lock reply hasks => exact .inr (.inr ⟨lock, hasks⟩)
  case slot creation stack id pointer text => exact .inr (.inl ⟨creation, stack, rfl⟩)
  case tick due hdue => rcases hdue with rfl | rfl <;> simp at hmem
  case retry call => cases call <;> simp [Code.attempt] at hmem
  case noRoom creation _ _ | noStack creation _ | noSlot creation _ _ =>
      cases hpacket : creation.packet <;> simp [Code.refuse, hpacket] at hmem
  all_goals simp at hmem

theorem Kernel.Expands.choose_answer_not_mem {kernel : Kernel P} {step : Step}
    {pushed : List Step} (h : kernel.Expands step pushed) : .choose .answer ∉ pushed :=
  fun hmem => Bool.noConfusion (h.leadsTo hmem)

namespace Machine

variable [Backend P] {past : List (Transition P)} {m after : Machine P} {step : Step}
  {rest pushed : List Step} {move : Move} {id created : ThreadId}

/-- A full table refuses a thread, any other gives it the next slot, and the creation answers so. -/
theorem Stepped.enroll_cases {creation : Creation} {stack : Stack}
    (hstepped : m.Stepped (.enroll creation stack) rest pushed after) :
    m.kernel.table.isFull = true ∧ pushed = Code.refuse creation (.creation .tableFull) ∨
      m.kernel.table.isFull = false ∧ ∃ slot : ThreadId, slot.val = m.kernel.table.count ∧
        (∀ id, m.kernel.table.isNext id = true ↔ slot = id) ∧
          pushed = [.savePointer slot (Backend.firstPointer m.kernel.cpu stack)]
            ++ Code.printLine (Code.creationLine creation slot stack)
            ++ [.free .table, .unmask, .finish (.thread slot)] := by
  cases hinsert : m.kernel.table.insert
      (ControlBlock.created · creation.name creation.call.entry stack) with
  | none =>
      refine .inl ⟨(ThreadTable.insert_eq_none_iff _ _).1 hinsert, ?_⟩
      exact hstepped.pushed_eq _ (by simp [perform, enroll, hinsert])
  | some entered =>
      obtain ⟨slot, table⟩ := entered
      refine .inr ⟨?_, slot, (ThreadTable.count_of_insert hinsert).1,
        fun id => ThreadTable.isNext_iff_of_insert hinsert, ?_⟩
      · rw [← Bool.not_eq_true]
        intro hfull
        rw [(ThreadTable.insert_eq_none_iff _ _).2 hfull] at hinsert
        cases hinsert
      · exact hstepped.pushed_eq _ (by simp [perform, enroll, hinsert])

theorem Stepped.slot_of_enroll {creation : Creation} {stack : Stack}
    (hstepped : m.Stepped (.enroll creation stack) rest pushed after)
    (hmem : .finish (.thread created) ∈ pushed) :
    m.kernel.table.isFull = false ∧ created.val = m.kernel.table.count := by
  rcases hstepped.enroll_cases with ⟨-, rfl⟩ | ⟨hroom, slot, hslot, -, rfl⟩
  · cases hpacket : creation.packet <;> simp [Code.refuse, hpacket] at hmem
  · have hsame : created = slot := by simpa using hmem
    exact ⟨hroom, hsame ▸ hslot⟩

/-- Only the policy's choice answers a question under a lock with a thread. -/
theorem Stepped.finish_thread_not_mem {lock : SpinLock}
    (hstepped : m.Stepped step rest pushed after) (hasks : step.asksUnder = some lock)
    (hchoose : step ≠ .choose .answer) : .finish (.thread created) ∉ pushed := by
  have hanswer : (∃ reply, ((m.setCode rest).perform step).context.code =
      [.free lock, .unmask, .finish reply] ++ rest ∧ reply ≠ .thread created) →
        .finish (.thread created) ∉ pushed := by
    intro ⟨reply, hcode, hreply⟩ hmem
    rw [hstepped.pushed_eq _ hcode] at hmem
    have hthread : .thread created = reply := by simpa using hmem
    exact hreply hthread.symm
  cases step <;> try cases hasks
  case choose use =>
      cases use
      · exact absurd rfl hchoose
      · cases hasks
  case checkTarget target =>
      by_cases hcontains : m.kernel.table.contains target = true
      · intro hmem
        rw [hstepped.pushed_eq ([.free .table] ++ Code.switchTo target ++ [.unmask] ++ Code.done)
          (by simp [perform, checkTarget, hcontains])] at hmem
        simp at hmem
      · refine hanswer ⟨.failed (.scheduling (.noSuchThread target)), ?_, by simp⟩
        simp [perform, checkTarget, hcontains, pushAnswer]
  case snapshot use =>
      cases use
      · cases hasks
        refine hanswer ⟨.stats m.kernel.stats, ?_, by simp⟩
        rw [perform, useSnapshot, pushAnswer, context_push, context_setCode]
        rfl
      · cases hasks
  case inspect query =>
      refine hanswer ⟨m.answer query, ?_, by cases query <;> simp [answer]⟩
      rw [perform, pushAnswer, context_push, context_setCode]
      cases query <;> rfl
  case describe other =>
      refine hanswer ⟨.info (m.kernel.info? other), ?_, by simp⟩
      rw [perform, pushAnswer, context_push, context_setCode]
      rfl
  case install sink =>
      refine hanswer ⟨.sink (m.shared.console.install sink).1, ?_, by simp⟩
      simp only [perform, installSink, pushAnswer, context_push, setConsole, context_modifyShared,
        context_setCode]
      rfl
  case remove =>
      refine hanswer ⟨.sink m.shared.console.remove.1, ?_, by simp⟩
      simp only [perform, removeSink, pushAnswer, context_push, setConsole, context_modifyShared,
        context_setCode]
      rfl

/-- Every thread will answer a creation with the thread that it entered. -/
def Answering (past : List (Transition P)) (m : Machine P) : Prop :=
  ∀ id : ThreadId, ∀ step ∈ (m.contextOf id).code, step.Answers past id

omit [Backend P] in
theorem answers_call (past : List (Transition P)) (m : Machine P) (request : Request) :
    ∀ step ∈ request.code, step.Answers (past ++ [⟨m, .call request⟩]) m.executing := by
  cases request
  case selectNext => simp [Request.code, Step.Answers, asked_call]
  case sleep ticks =>
      simp only [Request.code]
      split <;> simp [Step.Answers]
  all_goals simp [Request.code, Step.Answers]

omit [Backend P] in
theorem answers_launchCode (past : List (Transition P)) (id : ThreadId)
    (call : Option EntryCall) : ∀ step ∈ (call.map launchCode).getD [], step.Answers past id := by
  cases call <;> simp [launchCode, Step.Answers]

namespace Answering

variable [LawfulBackend P]

theorem of_pushed (h : m.Answering past) (hregular : m.Regular past) (hroster : m.Roster past)
    (hstepped : m.Stepped step rest pushed after) :
    ∀ other ∈ pushed, other.Answers (past ++ [⟨m, .exec⟩]) m.executing := by
  intro other hmem
  unfold Step.Answers
  split
  next created =>
      intro request hasked hcreates
      rw [asked_exec] at hasked
      rcases hstepped.expands.mem_finish_thread hmem with rfl | ⟨creation, stack, rfl⟩ | hasks
      · have hserved : asked past m.executing = some .currentId := hregular.served hstepped
        rw [hasked] at hserved
        cases hserved
        cases hcreates
      · obtain ⟨hroom, hslot⟩ := hstepped.slot_of_enroll hmem
        refine since_append.2 (.inl ⟨rfl, ?_, hslot.trans hroster.count⟩)
        simp [enrolls?_of_step? hstepped.step?_eq, hroom]
      · obtain ⟨lock, hasks⟩ := hasks
        by_cases hchoose : step = .choose .answer
        · subst hchoose
          have hown : asked past m.executing = some .selectNext := by
            refine h m.executing (.choose .answer) ?_
            rw [contextOf_executing rfl, hstepped.code]
            exact List.mem_cons_self
          rw [hasked] at hown
          cases hown
          cases hcreates
        · exact absurd hmem (hstepped.finish_thread_not_mem hasks hchoose)
  next => exact absurd hmem hstepped.expands.choose_answer_not_mem
  next => trivial

theorem goes (h : m.Answering past) (hregular : m.Regular past) (hroster : m.Roster past)
    (hgoes : m.Goes move after) : after.Answering (past ++ [⟨m, move⟩]) := by
  refine hgoes.forall_steps (fun id step => step.Answers (past ++ [⟨m, move⟩]) id) ?_ ?_ ?_ ?_ ?_
  · intro id hcalls step hmem
    refine (h id step hmem).append ?_
    rintro ⟨hid, request, hmove⟩
    exact hcalls request hmove hid.symm
  · rintro step rest pushed hstepped rfl
    exact h.of_pushed hregular hroster hstepped
  · rintro request rfl
    exact answers_call past m request
  · simp [interruptCode, Step.Answers]
  · exact answers_launchCode _

end Answering

end Machine

/-! ## Runs -/

namespace OwnRun

variable [Backend P] [LawfulBackend P] {number : Nat} {config : Config} {policy : Policy} {cpu : P}
  {values : List Int32} {mutexes : Nat} {console : Console} {past : List (Transition P)}
  {m : Machine P} {id : ThreadId}

theorem sharedRun
    (run : OwnRun (.boot (.new number config policy cpu) (.new values mutexes console)) past m) :
    SharedRun (.boot (.new number config policy cpu) (.new values mutexes console)) past m := by
  induction run with
  | nil => exact .nil
  | snoc move _ allowed ih => exact ih.snoc move allowed
  | others shared _ hmutexes hsemaphores htaken ih =>
      have hsound := ih.regular.objects
      exact ih.others shared ⟨hmutexes ▸ hsound.mutexes, hsemaphores ▸ hsound.semaphores⟩ htaken

/-- What always holds of a kernel that has its synchronization objects to itself. -/
theorem invariant (hpolicy : policy.Sound)
    (run : OwnRun (.boot (.new number config policy cpu) (.new values mutexes console)) past m) :
    m.Populated ∧ m.Roster past ∧ m.Answering past := by
  induction run with
  | nil =>
      refine ⟨.boot number config hpolicy cpu values mutexes console,
        .boot number config policy cpu _, fun id step hmem => ?_⟩
      have hnone : (Machine.boot (.new number config policy cpu)
        (.new values mutexes console)).contextOf id = {} := Machine.contextOf_boot _ _ id
      rw [hnone] at hmem
      cases hmem
  | snoc move run allowed ih =>
      obtain ⟨hpopulated, hroster, hanswering⟩ := ih
      have hregular := run.sharedRun.regular
      have hgoes := Machine.goes_after _ allowed
      exact ⟨hpopulated.goes hregular.objects hregular.seated hregular.orderly hregular.employed
        hgoes, hroster.goes hpopulated hgoes, hanswering.goes hregular hroster hgoes⟩
  | others shared _ hmutexes hsemaphores _ ih =>
      obtain ⟨hpopulated, hroster, hanswering⟩ := ih
      exact ⟨hpopulated.withShared hmutexes hsemaphores, ⟨hroster.count, hroster.occupant,
        hroster.vacant⟩, hanswering⟩

omit [LawfulBackend P] in
theorem before {earlier later : List (Transition P)} {t : Transition P}
    (run : OwnRun (.boot (.new number config policy cpu) (.new values mutexes console))
      (earlier ++ t :: later) m) :
    OwnRun (.boot (.new number config policy cpu) (.new values mutexes console)) earlier t.before ∧
      t.before.Allows t.move := by
  generalize hpast : earlier ++ t :: later = past at run
  induction run generalizing later with
  | nil => simp at hpast
  | @snoc moves last move run allowed ih =>
      rcases divided_snoc hpast with ⟨-, rfl, rfl⟩ | ⟨others, -, hearlier⟩
      · exact ⟨run, allowed⟩
      · exact ih hearlier
  | others shared run hmutexes hsemaphores htaken ih => exact ih hpast

/-- A slot that belongs to nobody is not run, chosen or reported. -/
theorem unused (hpolicy : policy.Sound)
    (run : OwnRun (.boot (.new number config policy cpu) (.new values mutexes console)) past m)
    (hcontains : m.kernel.table.contains id = false) : m.Unused id := by
  obtain ⟨hpopulated, hroster, -⟩ := run.invariant hpolicy
  constructor
  · exact hroster.vacant id hcontains
  · exact hpopulated.ne_current hcontains
  · exact hpopulated.ne_executing hcontains
  · rintro rfl
    rw [hpopulated.sound.contains_choice hpopulated.current] at hcontains
    cases hcontains
  · simp [Kernel.info?, ThreadTable.get?, hcontains]
  · intro info hinfo
    have hmem := List.mem_of_mem_take hinfo
    obtain ⟨block, hblock, rfl⟩ := List.mem_map.1 hmem
    obtain ⟨slot, hslot, rfl⟩ := List.mem_map.1 hblock
    have hexists : m.kernel.table.contains slot = true := by
      simp [ThreadTable.contains, ThreadTable.mem_createdIds.1 hslot]
    have hown : (m.kernel.table.block slot).id = slot := hroster.id_block slot
    show (m.kernel.table.block slot).id ≠ id
    rw [hown]
    rintro rfl
    rw [hexists] at hcontains
    cases hcontains

/-- A thread that exists keeps its slot, whatever any thread does. -/
theorem occupant_eq (hpolicy : policy.Sound) {earlier later : List (Transition P)}
    {t : Transition P}
    (run : OwnRun (.boot (.new number config policy cpu) (.new values mutexes console))
      (earlier ++ t :: later) m)
    (hcontains : t.before.kernel.table.contains id = true) :
    (m.kernel.table.block id).identity = (t.before.kernel.table.block id).identity := by
  obtain ⟨-, hroster, -⟩ := run.invariant hpolicy
  obtain ⟨-, hbefore, -⟩ := run.before.1.invariant hpolicy
  rw [hroster.occupant, hbefore.occupant, creations_append]
  apply occupant_append
  rw [← hbefore.count]
  simpa [ThreadTable.contains] using hcontains

/-- Only a thread that exists is dispatched, woken or switched to. -/
theorem contains_of_names (hpolicy : policy.Sound) {t : Transition P}
    (run : OwnRun (.boot (.new number config policy cpu) (.new values mutexes console)) past m)
    (hmem : t ∈ past) (hnames : t.step?.bind Step.names = some id ∨ t.Resumes id) :
    t.before.kernel.table.contains id = true := by
  obtain ⟨earlier, later, rfl⟩ := List.append_of_mem hmem
  obtain ⟨hpopulated, -, -⟩ := run.before.1.invariant hpolicy
  rcases hnames with hnames | hresumes
  · obtain ⟨step, hstep, hnamed⟩ := Option.bind_eq_some_iff.1 hnames
    have hnext := Machine.nextStep?_of_step? hstep
    exact hpopulated.named id (List.mem_filterMap.2 ⟨step, List.mem_of_mem_head? hnext, hnamed⟩)
  · have hseated := run.before.1.sharedRun.regular.seated
    obtain ⟨u, move⟩ := t
    exact hpopulated.contains_of_named hseated (.inr (.inr hresumes))

/--
The thread table of a kernel that has its mutexes and semaphores to itself.  Slots are named by
their numbers and hold, in order, the threads whose creation succeeded, and the idle thread
at the end.  A creation returns the number of those before it.  A slot that belongs to nobody is
blank, and nothing refers to it; only threads that exist are ever dispatched, woken or switched
to.  What a thread was created with never changes, and no move changes anything of any thread's
block but its state, its countdown and its counters.
-/
theorem append_only (hpolicy : policy.Sound)
    (run : OwnRun (.boot (.new number config policy cpu) (.new values mutexes console)) past m) :
    (∀ id, (m.kernel.table.block id).id = id) ∧
      m.kernel.table.count = (creations past).length ∧
      m.kernel.table.count ≤ maxCreated ∧
      (∀ id, (m.kernel.table.block id).identity = occupant (creations past) id) ∧
      (∀ creator created request, Transition.Returns ⟨m, .exec⟩ past creator request →
        request.creates = true → m.nextStep? = some (.finish (.thread created)) →
          EnteredBy past creator created) ∧
      (∀ id, m.kernel.table.contains id = false → m.Unused id) ∧
      (∀ t ∈ past, ∀ id, t.step?.bind Step.names = some id ∨ t.Resumes id →
        t.before.kernel.table.contains id = true) ∧
      ∀ before t later, past = before ++ t :: later →
        ∀ id, t.before.kernel.table.contains id = true →
          (m.kernel.table.block id).identity = (t.before.kernel.table.block id).identity ∧
          t.after.kernel.table.block id =
            { t.before.kernel.table.block id with
              state := (t.after.kernel.table.block id).state
              sleepTicks := (t.after.kernel.table.block id).sleepTicks
              dispatches := (t.after.kernel.table.block id).dispatches
              lastDispatches := (t.after.kernel.table.block id).lastDispatches } := by
  obtain ⟨-, hroster, hanswering⟩ := run.invariant hpolicy
  refine ⟨hroster.id_block, hroster.count, m.kernel.table.count_le, hroster.occupant, ?_, ?_, ?_,
    ?_⟩
  · intro creator created request hreturns hcreates hnext
    refine hanswering creator (.finish (.thread created)) ?_ request hreturns.asked hcreates
    rw [Machine.contextOf_executing hreturns.executing]
    exact List.mem_of_mem_head? hnext
  · exact fun id hcontains => run.unused hpolicy hcontains
  · exact fun t hmem id hnames => run.contains_of_names hpolicy hmem hnames
  · rintro before t later rfl id hcontains
    refine ⟨run.occupant_eq hpolicy hcontains, ?_⟩
    obtain ⟨hearlier, allowed⟩ := run.before
    have hmoved := hearlier.snoc t.move allowed
    exact ControlBlock.eq_of_identity_eq (occupant_eq hpolicy hmoved hcontains)

end OwnRun

theorem Run.ownRun [Backend P] {start m : Machine P} {past : List (Transition P)}
    (run : Run start past m) : OwnRun start past m := by
  induction run with
  | nil => exact .nil
  | snoc move _ allowed ih => exact ih.snoc move allowed

/-- Two threads are created, and the first one is dispatched. -/
def hiring : List Move :=
  .call (.create "first" ⟨0x3000, 7⟩ 4096 (some 0x10000)) :: List.replicate 20 .exec
    ++ .call (.create "second" ⟨0x3000, 9⟩ 4096 (some 0x20000)) :: List.replicate 20 .exec
    ++ .call .yield :: List.replicate 13 .exec

/-- The second slot is the second thread's, and the third nobody's. -/
theorem OwnRun.append_only_of_hiring :
    ∃ (past : List (Transition Host)) (m : Machine Host),
      OwnRun (.boot (.new 1 {} .roundRobin {}) (.new [] 0 { sinks := [], installed := none }))
          past m ∧
        m.executing = 0 ∧ (m.kernel.table.block 1).name = "second" ∧ m.Unused 2 := by
  let start : Machine Host :=
    .boot (.new 1 {} .roundRobin {}) (.new [] 0 { sinks := [], installed := none })
  let past := start.transitions hiring
  let m := hiring.foldl Machine.after start
  have run : OwnRun start past m := Run.ownRun (.of_plays (by decide +kernel))
  have hsecond : occupant (creations past) 1 = (1, "second", 0x3000, some ⟨0x20000, 4192⟩) := by
    decide +kernel
  have hthird : m.kernel.table.contains 2 = false := by decide +kernel
  obtain ⟨-, -, -, hoccupant, -, hunused, -⟩ := OwnRun.append_only Policy.sound_roundRobin run
  have hname : (m.kernel.table.block 1).name = "second" := by
    have hidentity := hoccupant 1
    rw [hsecond, ControlBlock.identity, Prod.mk.injEq, Prod.mk.injEq] at hidentity
    exact hidentity.2.1
  exact ⟨past, m, run, by decide +kernel, hname, hunused 2 hthird⟩

end TickKernel
