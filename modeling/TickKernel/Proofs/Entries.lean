import TickKernel.Proofs.Aftermath
import TickKernel.Proofs.Requests
import TickKernel.Proofs.States

/-!
# How a new thread is entered

A creation writes the first frame, enters the thread in the table and saves its stack
pointer in steps that follow one another at once.  Nothing else writes a slot's saved
pointer, so a new thread's is the one that its own frame gave.
-/

namespace TickKernel

variable {P : Type}

@[simp]
def Step.isEntry : Step → Bool
  | .enroll _ _ | .savePointer _ _ => true
  | _ => false

theorem Step.get_pointersAfter (pointers : Vector UInt64 maxThreads) (other id : ThreadId)
    (pointer : UInt64) :
    ((savePointer other pointer).pointersAfter pointers).get id =
      if other = id then pointer else pointers.get id := by
  show (pointers.set other pointer other.isLt)[id.val] = _
  rw [Vector.getElem_set]
  simp only [← Fin.ext_iff]
  rfl

def Code.Settled (code : List Step) : Prop :=
  ∀ step ∈ code, step.isEntry = false

@[simp]
theorem Code.settled_nil : Settled [] :=
  List.forall_mem_nil _

@[simp]
theorem Code.settled_cons {step : Step} {rest : List Step} :
    Settled (step :: rest) ↔ step.isEntry = false ∧ Settled rest :=
  List.forall_mem_cons

theorem Code.Settled.append {front back : List Step} (hfront : Code.Settled front)
    (hback : Code.Settled back) : Code.Settled (front ++ back) := by
  intro step hmem
  rcases List.mem_append.1 hmem with hmem | hmem
  · exact hfront step hmem
  · exact hback step hmem

/-- What a step puts in front of the others to enter a thread. -/
inductive Kernel.Enters (kernel : Kernel P) : Step → List Step → Prop where
  | settled {step : Step} {pushed : List Step} : Code.Settled pushed → Enters kernel step pushed
  | frame (creation : Creation) (stack : Stack) :
      Enters kernel (.writeFrame creation stack) [.enroll creation stack]
  | slot {creation : Creation} {stack : Stack} (id : ThreadId) (pointer : UInt64)
      {others : List Step} : Code.Settled others →
        Enters kernel (.enroll creation stack) (.savePointer id pointer :: others)

theorem settled_refuse (creation : Creation) (cause : Failure) :
    Code.Settled (Code.refuse creation cause) := by
  cases h : creation.packet <;> simp [Code.refuse, h]

theorem Kernel.Expands.enters {kernel : Kernel P} {step : Step} {pushed : List Step}
    (h : kernel.Expands step pushed) : kernel.Enters step pushed := by
  have hsettled : (∀ creation stack, step.leadsTo (.enroll creation stack) = false) →
      (∀ id pointer, step.leadsTo (.savePointer id pointer) = false) → Code.Settled pushed := by
    intro henroll hsave other hmem
    have hleads := h.leadsTo hmem
    cases other
    case enroll creation stack => exact Bool.noConfusion ((henroll _ _).symm.trans hleads)
    case savePointer id pointer => exact Bool.noConfusion ((hsave _ _).symm.trans hleads)
    all_goals rfl
  cases h
  case frame creation stack => exact .frame creation stack
  case slot creation stack id pointer text => exact .slot id pointer (by simp)
  case noSlot creation _ cause => exact .settled (settled_refuse creation cause)
  case nothing hplain => exact .settled Code.settled_nil
  case answer => exact .settled (by simp)
  all_goals exact .settled (hsettled (fun _ _ => rfl) fun _ _ => rfl)

theorem Request.settled_code (request : Request) : Code.Settled request.code := by
  intro step hmem
  have hasked := request.isAskedFor_code hmem
  cases step
  case enroll | savePointer => cases hasked
  all_goals rfl

theorem settled_launchCode (call : Option EntryCall) :
    Code.Settled ((call.map launchCode).getD []) := by
  cases call <;> simp [launchCode]

namespace Machine

/-- The stack pointer that a slot has, or gets in the next step. -/
def pointerOf (m : Machine P) (id : ThreadId) : UInt64 :=
  match m.context.code.head? with
  | some (.savePointer other pointer) =>
      if other = id then pointer else m.kernel.pointers.get id
  | _ => m.kernel.pointers.get id

theorem pointerOf_eq {m : Machine P} {id : ThreadId}
    (h : ∀ other pointer, m.context.code.head? ≠ some (.savePointer other pointer)) :
    m.pointerOf id = m.kernel.pointers.get id := by
  unfold pointerOf
  split
  next other pointer hhead => exact absurd hhead (h other pointer)
  next => rfl

theorem pointerOf_of_settled {m : Machine P} (h : Code.Settled m.context.code) (id : ThreadId) :
    m.pointerOf id = m.kernel.pointers.get id := by
  apply pointerOf_eq
  intro other pointer hhead
  cases h _ (List.mem_of_mem_head? hhead)

theorem pointerOf_of_save {m : Machine P} {rest : List Step} {id other : ThreadId}
    {pointer : UInt64} (hcode : m.context.code = .savePointer other pointer :: rest) :
    m.pointerOf id = if other = id then pointer else m.kernel.pointers.get id := by
  rw [pointerOf, hcode]
  rfl

variable [Backend P]

/-- Threads are entered in the next step only, and right after their frame was written. -/
structure Entering (past : List (Transition P)) (m : Machine P) : Prop where
  own : Code.Settled m.context.code.tail
  others : ∀ id : ThreadId, id ≠ m.executing → Code.Settled (m.contextOf id).code
  framed : ∀ creation stack, m.context.code.head? = some (.enroll creation stack) →
    ∃ before earlier, past = before ++ [⟨earlier, .exec⟩] ∧
      Transition.step? ⟨earlier, .exec⟩ = some (.writeFrame creation stack) ∧
        earlier.exec = m ∧ earlier.kernel.cpu = m.kernel.cpu

variable [LawfulBackend P] {past : List (Transition P)} {m after : Machine P} {step : Step}
  {rest pushed : List Step}

omit [LawfulBackend P] in
theorem Stepped.pointerOf_enroll {creation : Creation} {stack : Stack}
    (hstepped : m.Stepped (.enroll creation stack) rest pushed after)
    (hrest : Code.Settled rest) (id : ThreadId) :
    after.pointerOf id =
      if m.kernel.table.isNext id then Backend.firstPointer m.kernel.cpu stack
      else m.kernel.pointers.get id := by
  have hafter : after = (m.setCode rest).enroll creation stack := hstepped.eq
  have hpointers : after.kernel.pointers = m.kernel.pointers := hstepped.aftermath.pointers
  rw [enroll] at hafter
  split at hafter
  next hfull =>
      have hcode : Code.Settled after.context.code := by
        rw [hafter, context_push, context_setCode]
        exact (settled_refuse creation _).append hrest
      have hnext : m.kernel.table.isNext id = false :=
        ThreadTable.isNext_of_insert_eq_none hfull
      rw [pointerOf_of_settled hcode, hpointers, hnext]
      rfl
  next entered table hroom =>
      have hcode : after.context.code =
          .savePointer entered (Backend.firstPointer m.kernel.cpu stack) ::
            (Code.printLine (Code.creationLine creation entered stack)
              ++ [.free .table, .unmask, .finish (.thread entered)] ++ rest) := by
        rw [hafter, context_push, modifyTable, context_modifyKernel, context_setCode]
        rfl
      rw [pointerOf_of_save hcode, hpointers]
      exact if_congr (ThreadTable.isNext_iff_of_insert hroom).symm rfl rfl

/-- The step that comes next with interrupts enabled enters no thread. -/
theorem Regular.isEntry_of_enabled (h : m.Regular past) (henabled : m.interruptsEnabled = true)
    {next : Step} (hnext : m.nextStep? = some next) : next.isEntry = false := by
  obtain ⟨rest, hcode⟩ := List.head?_eq_some_iff.1 hnext
  cases next
  case enroll | savePointer =>
      -- Entering a thread stands under a guard, and there is none.
      have hstands := h.orderly.stands_of_code hcode id
      rw [h.orderly.cover_of_enabled henabled] at hstands
      cases hstands
  all_goals rfl

namespace Entering

omit [LawfulBackend P] in
theorem fresh (config : Config) (policy : Policy) (cpu : P) (values : List Int32) (mutexes : Nat)
    (console : Console) : (fresh config policy cpu values mutexes console).Entering [] := by
  constructor
  · rw [context_fresh]
    exact Code.settled_nil
  · intro id _
    rw [contextOf_fresh]
    exact Code.settled_nil
  · rw [context_fresh]
    exact nofun

omit [LawfulBackend P] in
theorem settled_rest (h : m.Entering past) (hcode : m.context.code = step :: rest) :
    Code.Settled rest := by
  have hown := h.own
  rwa [hcode] at hown

omit [LawfulBackend P] in
theorem perform (h : m.Entering past) (hstepped : m.Stepped step rest pushed after) :
    after.Entering (past ++ [⟨m, .exec⟩]) := by
  have hrest := h.settled_rest hstepped.code
  have henters := hstepped.expands.enters
  constructor
  · rw [hstepped.code_after]
    cases henters with
    | settled hpushed =>
        exact fun other hmem => hpushed.append hrest other (List.mem_of_mem_tail hmem)
    | frame => exact hrest
    | slot id pointer hothers => exact hothers.append hrest
  · intro id hid
    rw [hstepped.effect.executing] at hid
    rw [hstepped.effect.others id hid]
    exact h.others id hid
  · intro creation stack hhead
    rw [hstepped.code_after] at hhead
    cases henters with
    | settled hpushed =>
        have hentry := hpushed.append hrest _ (List.mem_of_mem_head? hhead)
        cases hentry
    | frame =>
        cases hhead
        refine ⟨past, m, rfl, hstepped.step?_eq, hstepped.after_eq, ?_⟩
        rw [hstepped.eq]
        rfl
    | slot => cases hhead

omit [LawfulBackend P] in
theorem settled_of_switched {next prev : ThreadId} (h : m.Entering past)
    (hcode : m.context.code = .switch next prev :: rest)
    (hswitched : (m.setCode rest).Switched next prev after) (id : ThreadId) :
    Code.Settled (after.contextOf id).code :=
  hswitched.forall_contexts (fun _ context => Code.Settled context.code) h.others
    (h.settled_rest hcode) (fun _ => settled_launchCode) id

omit [LawfulBackend P] in
theorem switch {next prev : ThreadId} (h : m.Entering past)
    (hcode : m.context.code = .switch next prev :: rest)
    (hswitched : (m.setCode rest).Switched next prev after) :
    after.Entering (past ++ [⟨m, .exec⟩]) := by
  have hsettled := h.settled_of_switched hcode hswitched
  constructor
  · exact fun other hmem => hsettled after.executing other (List.mem_of_mem_tail hmem)
  · exact fun id _ => hsettled id
  · intro creation stack hhead
    have hentry := hsettled after.executing _ (List.mem_of_mem_head? hhead)
    cases hentry

omit [LawfulBackend P] in
theorem call (h : m.Entering past) (request : Request) :
    (m.call request).Entering (past ++ [⟨m, .call request⟩]) := by
  have hsettled := request.settled_code
  constructor
  · rw [context_call]
    exact fun other hmem => hsettled other (List.mem_of_mem_tail hmem)
  · intro id hid
    rw [contextOf_call_of_ne m request hid]
    exact h.others id hid
  · intro creation stack hhead
    rw [context_call] at hhead
    have hentry := hsettled _ (List.mem_of_mem_head? hhead)
    cases hentry

/-- With interrupts enabled no thread is being entered. -/
theorem settled_of_enabled (h : m.Entering past) (hregular : m.Regular past)
    (henabled : m.interruptsEnabled = true) : Code.Settled m.context.code := by
  cases hcode : m.context.code with
  | nil => exact Code.settled_nil
  | cons step rest =>
      intro other hmem
      rcases List.mem_cons.1 hmem with rfl | hmem
      · exact hregular.isEntry_of_enabled henabled (by simp [nextStep?, hcode])
      · exact h.settled_rest hcode other hmem

theorem interrupt (h : m.Entering past) (hregular : m.Regular past)
    (henabled : m.interruptsEnabled = true) :
    m.interrupt.Entering (past ++ [⟨m, .interrupt⟩]) := by
  constructor
  · rw [context_interrupt]
    have hinterrupt : Code.Settled [.countTick, .resume] := by simp
    exact hinterrupt.append (h.settled_of_enabled hregular henabled)
  · intro id hid
    rw [contextOf_interrupt_of_ne m hid]
    exact h.others id hid
  · intro creation stack hhead
    rw [context_interrupt] at hhead
    cases hhead

theorem goes {move : Move} (h : m.Entering past) (hregular : m.Regular past)
    (hgoes : m.Goes move after) : after.Entering (past ++ [⟨m, move⟩]) := by
  cases hgoes with
  | spin hnone =>
      refine ⟨h.own, h.others, fun creation stack hhead => ?_⟩
      have hnext : m.nextStep? = some (.enroll creation stack) := hhead
      simp [Transition.step?, hnext, spins] at hnone
  | step hstepped => exact h.perform hstepped
  | switch hcode hswitched => exact h.switch hcode hswitched
  | call request => exact h.call request
  | interrupt henabled => exact h.interrupt hregular henabled

omit [LawfulBackend P] in
/-- A thread that exists keeps the stack pointer that it got when it was entered. -/
theorem pointerOf_perform (h : m.Entering past) (hstepped : m.Stepped step rest pushed after)
    {id : ThreadId} (hcontains : m.kernel.table.contains id = true) :
    after.pointerOf id = m.pointerOf id := by
  have hrest := h.settled_rest hstepped.code
  have hafter := hstepped.code_after
  have hpointers := hstepped.aftermath.pointers
  cases hentry : step.isEntry with
  | false =>
      have hbefore : m.pointerOf id = m.kernel.pointers.get id := by
        apply pointerOf_eq
        rw [hstepped.code]
        rintro other pointer ⟨⟩
        cases hentry
      have hsame : after.kernel.pointers = m.kernel.pointers := by
        rw [hpointers]
        cases step <;> first | rfl | cases hentry
      rw [hbefore, ← hsame]
      cases hstepped.expands.enters with
      | settled hpushed => exact pointerOf_of_settled (hafter ▸ hpushed.append hrest) id
      | frame =>
          apply pointerOf_eq
          rw [hafter]
          exact nofun
      | slot => cases hentry
  | true =>
      cases step
      case enroll creation stack =>
          have hbefore : m.pointerOf id = m.kernel.pointers.get id := by
            apply pointerOf_eq
            rw [hstepped.code]
            exact nofun
          rw [hstepped.pointerOf_enroll hrest, ThreadTable.isNext_eq_false hcontains, hbefore]
          rfl
      case savePointer other pointer =>
          rw [hstepped.expands.eq_nil rfl, List.nil_append] at hafter
          rw [pointerOf_of_settled (by rwa [hafter]), pointerOf_of_save hstepped.code, hpointers]
          exact Step.get_pointersAfter m.kernel.pointers other id pointer
      all_goals cases hentry

theorem pointerOf_goes {move : Move} (h : m.Entering past) (hregular : m.Regular past)
    (hgoes : m.Goes move after) {id : ThreadId} (hcontains : m.kernel.table.contains id = true) :
    after.pointerOf id = m.pointerOf id := by
  cases hgoes with
  | spin => rfl
  | step hstepped => exact h.pointerOf_perform hstepped hcontains
  | switch hcode hswitched =>
      rw [pointerOf_of_settled (h.settled_of_switched hcode hswitched after.executing),
        hswitched.kernel, pointerOf_eq]
      · rfl
      · rw [hcode]
        exact nofun
  | call request hcode =>
      rw [pointerOf_of_settled (by rw [context_call]; exact request.settled_code),
        pointerOf_of_settled (by rw [hcode]; exact Code.settled_nil)]
      rfl
  | interrupt henabled =>
      rw [pointerOf_of_settled (h.settled_of_enabled hregular henabled), pointerOf_eq]
      · rfl
      · rw [context_interrupt]
        exact nofun

end Entering

end Machine

theorem Run.entering [Backend P] [LawfulBackend P] {config : Config} {policy : Policy} {cpu : P}
    {values : List Int32} {mutexes : Nat} {console : Console} {past : List (Transition P)}
    {m : Machine P} (run : Run (.fresh config policy cpu values mutexes console) past m) :
    m.Entering past := by
  apply run.invariant fun past m => m.Entering past
  · exact .fresh config policy cpu values mutexes console
  · exact fun past m move run h hgoes => h.goes run.regular hgoes

end TickKernel
