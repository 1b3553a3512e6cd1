import TickKernel.Proofs.Blocks
import TickKernel.Proofs.Flags
import TickKernel.Proofs.Stretch

/-!
# Operations that fail

A creation, a start and a switch to a given thread may fail.  `Kernel.Refuses` lists the
causes, the first that applies.  An operation that nothing interrupts is followed step by
step to its decision: if it is refused there, the steps that are left undo what was done,
and when it returns nothing differs but what was printed and the packet of a closure that
was dropped.
-/

namespace TickKernel

variable {P : Type}

namespace Machine

/-! ## Undisturbed execution -/

section

variable [Backend P] {m middle after other : Machine P}

theorem execute_add (m : Machine P) (first second : Nat) :
    m.execute (first + second) = (m.execute first).execute second := by
  induction first generalizing m with
  | zero => rw [Nat.zero_add, execute]
  | succ first ih =>
      rw [Nat.add_right_comm]
      cases huser : m.atUserLevel with
      | true => simp [execute_of_atUserLevel m huser]
      | false => simpa [execute, huser] using ih m.exec

/-- The executing thread comes to `after` by its own steps, on the way to its own code. -/
def Comes (m after : Machine P) : Prop :=
  ∃ fuel, m.execute fuel = after

theorem Comes.refl (m : Machine P) : m.Comes m :=
  ⟨0, rfl⟩

theorem Comes.trans (h : m.Comes middle) (h' : middle.Comes after) : m.Comes after := by
  obtain ⟨first, rfl⟩ := h
  obtain ⟨second, rfl⟩ := h'
  exact ⟨first + second, m.execute_add first second⟩

theorem comes_exec {step : Step} {rest : List Step} (hcode : m.context.code = step :: rest) :
    m.Comes m.exec :=
  ⟨1, by simp [execute, atUserLevel, hcode]⟩

theorem Comes.unique (h : m.Comes after) (h' : m.Comes other) (huser : after.atUserLevel = true)
    (huser' : other.atUserLevel = true) : after = other := by
  obtain ⟨first, rfl⟩ := h
  obtain ⟨second, rfl⟩ := h'
  rw [← execute_of_atUserLevel _ huser second, ← execute_of_atUserLevel _ huser' first,
    ← execute_add, ← execute_add, Nat.add_comm]

end

/-! ## Steps one after the other -/

/-- Nothing differs but words of locks, what was printed, packets and the threads' contexts. -/
structure Within (m after : Machine P) : Prop where
  kernel : after.kernel = { m.kernel with tableTaken := after.kernel.tableTaken }
  shared : after.shared = { m.shared with
    console := after.shared.console, packets := after.shared.packets, taken := after.shared.taken }

/-- The executing thread went on, and its flag and guards will be what they would have been. -/
structure Proceeds [Backend P] (m after : Machine P) : Prop where
  comes : m.Comes after
  executing : after.executing = m.executing
  others : ∀ id, id ≠ m.executing → after.contextOf id = m.contextOf id
  masking : after.context.maskingBehind = m.context.maskingBehind

section

variable {m middle after : Machine P}

theorem Within.refl (m : Machine P) : m.Within m :=
  ⟨rfl, rfl⟩

theorem Within.trans (h : m.Within middle) (h' : middle.Within after) : m.Within after := by
  constructor
  · rw [h'.kernel, h.kernel]
  · rw [h'.shared, h.shared]

variable [Backend P]

theorem Proceeds.refl (m : Machine P) : m.Proceeds m :=
  ⟨.refl m, rfl, fun _ _ => rfl, rfl⟩

theorem Proceeds.trans (h : m.Proceeds middle) (h' : middle.Proceeds after) : m.Proceeds after where
  comes := h.comes.trans h'.comes
  executing := h'.executing.trans h.executing
  others id hid := (h'.others id (h.executing ▸ hid)).trans (h.others id hid)
  masking := h'.masking.trans h.masking

theorem Stepped.proceeds {step : Step} {rest pushed : List Step}
    (hstepped : m.Stepped step rest pushed m.exec) (hbanner : step ≠ .countThreads .banner) :
    m.Proceeds m.exec where
  comes := comes_exec hstepped.code
  executing := hstepped.effect.executing
  others := hstepped.effect.others
  masking := hstepped.maskingBehind_eq hbanner

end

end Machine

@[simp]
def Step.isHarmless : Step → Bool
  | .mask | .unmask | .take _ | .free _ | .finish _ | .print _ | .discard _ | .pack _ _ _ _
  | .checkRoom _ | .allocate _ | .checkTarget _ => true
  | _ => false

/-- Plain steps, the flag's and the banner aside, that find their locks free. -/
@[simp]
def Code.Straight (cover : Cover) : List Step → Prop
  | [] => True
  | step :: rest =>
      step.isPlain = true ∧ ¬ step.IsDead cover ∧ Straight (step.coverAfter cover) rest

namespace Machine

variable [Backend P] {m after : Machine P} {step : Step} {rest pushed : List Step} {cover : Cover}

theorem within_perform (m : Machine P) (h : step.isHarmless = true) :
    m.Within (m.perform step) := by
  cases step
  case take lock => cases lock <;> exact ⟨rfl, rfl⟩
  case free lock => cases lock <;> exact ⟨rfl, rfl⟩
  case checkTarget target =>
      simp only [perform, checkTarget]
      split <;> exact ⟨rfl, rfl⟩
  case checkRoom creation =>
      simp only [perform, checkRoom]
      split <;> exact ⟨rfl, rfl⟩
  case allocate creation =>
      simp only [perform, allocate]
      split
      · exact ⟨rfl, rfl⟩
      · split <;> exact ⟨rfl, rfl⟩
  all_goals first | exact ⟨rfl, rfl⟩ | cases h

theorem Stepped.within (hstepped : m.Stepped step rest pushed after) (h : step.isHarmless = true) :
    m.Within after := by
  rw [hstepped.eq]
  have hset : m.Within (m.setCode rest) := ⟨rfl, rfl⟩
  exact hset.trans (within_perform _ h)

namespace At

/-- One step, with the steps that follow it as its definition has them. -/
theorem branch (h : m.At (step :: rest) cover) (hlive : ¬ step.IsDead cover)
    (hswitch : step.isSwitch = false) (code : List Step)
    (hcode : ((m.setCode rest).perform step).context.code = code) :
    ∃ pushed, m.Stepped step rest pushed m.exec ∧ m.exec.At code (step.coverAfter cover) := by
  obtain ⟨pushed, hstepped, hafter⟩ := h.exec_step hlive hswitch
  have hpushed : pushed ++ rest = code := by
    rw [← hcode, ← hstepped.eq, hafter.code]
  exact ⟨pushed, hstepped, hpushed ▸ hafter⟩

theorem straight (front : List Step) (h : m.At (front ++ rest) cover)
    (hstraight : Code.Straight cover front) :
    ∃ after, m.Proceeds after ∧ after.At rest (Code.coverAfter cover front) ∧
      ((∀ step ∈ front, step.isHarmless = true) → m.Within after) := by
  induction front generalizing m cover with
  | nil => exact ⟨m, .refl m, h, fun _ => .refl m⟩
  | cons step front ih =>
      obtain ⟨hplain, hlive, hstraight⟩ := hstraight
      have hswitch : step.isSwitch = false := by cases step <;> first | rfl | cases hplain
      have hbanner : step ≠ .countThreads .banner := by rintro rfl; cases hplain
      obtain ⟨pushed, hstepped, hnext⟩ := At.exec_step h hlive hswitch
      rw [hstepped.expands.eq_nil hplain] at hnext
      obtain ⟨after, hproceeds, hafter, hwithin⟩ := ih hnext hstraight
      refine ⟨after, (hstepped.proceeds hbanner).trans hproceeds, hafter, fun hharmless => ?_⟩
      obtain ⟨hfirst, hothers⟩ := List.forall_mem_cons.1 hharmless
      exact (hstepped.within hfirst).trans (hwithin hothers)

/-- An operation returns by its last step, after which its thread is in its own code. -/
theorem finish {reply : Reply} (h : m.At [.finish reply] cover) :
    m.Proceeds m.exec ∧ m.Within m.exec ∧ m.exec.At [] ⟨0, []⟩ ∧
      m.exec.context.answer = some reply := by
  obtain ⟨pushed, hstepped, hafter⟩ := At.exec_step h (by simp [Step.IsDead]) rfl
  rw [hstepped.expands.eq_nil rfl] at hafter
  have hcover : cover = ⟨0, []⟩ := by
    have hown := hafter.orderly.own
    rw [hafter.code, hafter.cover] at hown
    exact hown
  refine ⟨hstepped.proceeds (by simp), hstepped.within rfl, hcover ▸ hafter, ?_⟩
  rw [hstepped.effect.answer]
  rfl

end At

def Fails (m : Machine P) (cause : Failure) : Prop :=
  ∃ after, m.Proceeds after ∧ m.Within after ∧ after.At [] ⟨0, []⟩ ∧
    after.context.answer = some (.failed cause)

theorem Fails.before {middle : Machine P} {cause : Failure} (h : middle.Fails cause)
    (hproceeds : m.Proceeds middle) (hwithin : m.Within middle) : m.Fails cause := by
  obtain ⟨after, hends, hkept, hafter, hanswer⟩ := h
  exact ⟨after, hproceeds.trans hends, hwithin.trans hkept, hafter, hanswer⟩

namespace At

theorem fails {cause : Failure} (h : m.At [.finish (.failed cause)] cover) : m.Fails cause :=
  ⟨m.exec, h.finish⟩

/-- A refused creation gives its lock and its guard back, drops its packet and returns. -/
theorem refused {creation : Creation} {cause : Failure}
    (h : m.At (Code.refuse creation cause) ⟨1, [.table]⟩) : m.Fails cause := by
  let front := [Step.free .table, .unmask] ++ (creation.packet.map Step.discard).toList
  have hstraight : Code.Straight ⟨1, [.table]⟩ front := by
    cases hpacket : creation.packet <;> simp [front, hpacket, Step.isPlain, Step.IsDead]
  have hharmless : ∀ step ∈ front, step.isHarmless = true := by
    cases hpacket : creation.packet <;> simp [front, hpacket]
  obtain ⟨last, hproceeds, hlast, hwithin⟩ := straight front h hstraight
  exact (fails hlast).before hproceeds (hwithin hharmless)

end At

end Machine

/-- Why a kernel would not create a thread, the first cause that applies. -/
def Kernel.creationFailure? [Backend P] (kernel : Kernel P) (stackSize : UInt64)
    (block : Option UInt64) : Option Failure :=
  let reserved := Backend.reserved kernel.cpu
  if kernel.table.isFull then some (.creation .tableFull)
  else if UInt64.size ≤ stackSize.toNat + reserved.toNat then
    some (.creation (.stackTooLarge stackSize))
  else
    match Stack.allocate (stackSize + reserved) block with
    | .error cause => some (.memory cause)
    | .ok _ => none

namespace Kernel

variable [Backend P] {kernel : Kernel P} {stackSize : UInt64} {block : Option UInt64}

omit [Backend P] in
theorem isFull_eq_false (hroom : kernel.table.count < maxCreated) :
    kernel.table.isFull = false := by
  rw [ThreadTable.isFull, beq_eq_false_iff_ne]
  exact Nat.ne_of_lt hroom

theorem creationFailure?_of_large (hroom : kernel.table.count < maxCreated)
    (hlarge : UInt64.size ≤ stackSize.toNat + (Backend.reserved kernel.cpu).toNat) :
    kernel.creationFailure? stackSize block =
      some (.creation (.stackTooLarge stackSize)) := by
  simp only [creationFailure?, isFull_eq_false hroom, Bool.false_eq_true, if_false, hlarge,
    if_true]

theorem creationFailure?_of_room (block : Option UInt64) (hroom : kernel.table.count < maxCreated)
    (hsmall : stackSize.toNat + (Backend.reserved kernel.cpu).toNat < UInt64.size) :
    (stackSize + Backend.reserved kernel.cpu).toNat =
        stackSize.toNat + (Backend.reserved kernel.cpu).toNat ∧
      kernel.creationFailure? stackSize block =
        match Stack.blockSize (stackSize + Backend.reserved kernel.cpu), block with
        | .error cause, _ => some (.memory cause)
        | .ok _, none => some (.memory .outOfMemory)
        | .ok _, some _ => none := by
  refine ⟨by rw [UInt64.toNat_add]; exact Nat.mod_eq_of_lt hsmall, ?_⟩
  simp only [creationFailure?, isFull_eq_false hroom, Bool.false_eq_true, if_false,
    Nat.not_le.2 hsmall, Stack.allocate]
  cases Stack.blockSize (stackSize + Backend.reserved kernel.cpu) with
  | error cause => rfl
  | ok size => cases block <;> rfl

end Kernel

/-- A kernel with a new thread: its table has it, its frame is in memory, its pointer is saved. -/
def Kernel.withThread [Backend P] (kernel : Kernel P) (creation : Creation) (stack : Stack)
    (id : ThreadId) (table : ThreadTable) : Kernel P :=
  { kernel with
    table := table
    memory := Backend.writeFirstFrame kernel.cpu kernel.memory stack creation.call
    pointers := kernel.pointers.set id (Backend.firstPointer kernel.cpu stack) id.isLt }

/-- The operation of the executing thread creates a thread with this stack, and returns it. -/
structure Machine.Creates [Backend P] (m : Machine P) (creation : Creation) (stack : Stack)
    (after : Machine P) (id : ThreadId) : Prop where
  proceeds : m.Proceeds after
  user : after.At [] ⟨0, []⟩
  answer : after.context.answer = some (.thread id)
  kernel : ∃ table,
    m.kernel.table.insert (ControlBlock.created · creation.name creation.call.entry stack) =
        some (id, table) ∧
      after.kernel = { m.kernel.withThread creation stack id table with
        tableTaken := after.kernel.tableTaken }

namespace Machine

theorem Creates.before [Backend P] {m middle after : Machine P} {creation : Creation}
    {stack : Stack} {id : ThreadId} (h : middle.Creates creation stack after id)
    (hproceeds : m.Proceeds middle)
    (hkernel : middle.kernel = { m.kernel with tableTaken := middle.kernel.tableTaken }) :
    m.Creates creation stack after id where
  proceeds := hproceeds.trans h.proceeds
  user := h.user
  answer := h.answer
  kernel := by
    obtain ⟨table, hinsert, hafter⟩ := h.kernel
    rw [hkernel] at hinsert hafter
    exact ⟨table, hinsert, hafter⟩

namespace At

variable [Backend P] {m : Machine P} {creation : Creation} {cause : Failure}

theorem refused_of_full (h : m.At [.checkRoom creation] ⟨1, [.table]⟩)
    (hfull : m.kernel.table.isFull = true) : m.Fails (.creation .tableFull) := by
  obtain ⟨pushed, hstepped, hnext⟩ := h.branch (by simp [Step.IsDead]) rfl
    (Code.printLine (Code.refusalLine creation) ++
      Code.refuse creation (.creation .tableFull))
    (by simp [perform, checkRoom, hfull])
  obtain ⟨printed, hprints, hprinted, hwithin⟩ :=
    straight _ hnext (by simp [Step.isPlain, Step.IsDead])
  have hrefused := hprinted.refused.before hprints (hwithin (by simp))
  exact hrefused.before (hstepped.proceeds (by simp)) (hstepped.within rfl)

theorem reaches_allocate (h : m.At [.checkRoom creation] ⟨1, [.table]⟩)
    (hroom : m.kernel.table.isFull = false) :
    m.Proceeds m.exec ∧ m.Within m.exec ∧ m.exec.At [.allocate creation] ⟨1, [.table]⟩ := by
  obtain ⟨pushed, hstepped, hnext⟩ := h.branch (by simp [Step.IsDead]) rfl
    [.allocate creation] (by simp [perform, checkRoom, hroom])
  exact ⟨hstepped.proceeds (by simp), hstepped.within rfl, hnext⟩

theorem refused_of_allocate (h : m.At [.allocate creation] ⟨1, [.table]⟩)
    (hcode : ((m.setCode []).perform (.allocate creation)).context.code =
      Code.refuse creation cause) : m.Fails cause := by
  obtain ⟨pushed, hstepped, hnext⟩ := h.branch (by simp [Step.IsDead]) rfl _ hcode
  exact (refused hnext).before (hstepped.proceeds (by simp)) (hstepped.within rfl)

/-- A creation comes to its first decision without having changed anything. -/
theorem reaches_checkRoom (h : m.At (Code.create creation) ⟨0, []⟩) :
    ∃ after, m.Proceeds after ∧ m.Within after ∧ after.At [.checkRoom creation] ⟨1, [.table]⟩ := by
  obtain ⟨after, hproceeds, hafter, hwithin⟩ :=
    straight [.mask, .take .table] h (by simp [Step.isPlain, Step.IsDead])
  exact ⟨after, hproceeds, hwithin (by simp), hafter⟩

theorem code_allocate_of_failure (hroom : m.kernel.table.isFull = false)
    (hcause : m.kernel.creationFailure? creation.stackSize creation.block = some cause) :
    ((m.setCode []).perform (.allocate creation)).context.code = Code.refuse creation cause := by
  simp only [Kernel.creationFailure?, hroom, Bool.false_eq_true, if_false] at hcause
  rcases (m.setCode []).allocate_cases creation with
    ⟨hlarge, hafter⟩ | ⟨hsmall, ⟨failure, hstack, hafter⟩ | ⟨stack, hstack, -⟩⟩
  · rw [kernel_setCode] at hlarge
    simp only [hlarge, if_true, Option.some.injEq] at hcause
    rw [perform, hafter, context_push, context_setCode, List.append_nil, hcause]
  · rw [kernel_setCode] at hsmall hstack
    simp only [Nat.not_le.2 hsmall, if_false, hstack, Option.some.injEq] at hcause
    rw [perform, hafter, context_push, context_setCode, List.append_nil, hcause]
  · rw [kernel_setCode] at hsmall hstack
    simp only [Nat.not_le.2 hsmall, if_false, hstack] at hcause
    cases hcause

/-- A creation is refused for the first cause that applies. -/
theorem create_refused (h : m.At (Code.create creation) ⟨0, []⟩)
    (hcause : m.kernel.creationFailure? creation.stackSize creation.block = some cause) :
    m.Fails cause := by
  obtain ⟨asking, hfirst, hsame, hask⟩ := h.reaches_checkRoom
  have hkernel : asking.kernel.creationFailure? creation.stackSize creation.block = some cause := by
    rw [hsame.kernel]
    exact hcause
  cases hfull : asking.kernel.table.isFull with
  | true =>
      simp only [Kernel.creationFailure?, hfull, if_true, Option.some.injEq] at hkernel
      subst hkernel
      exact (hask.refused_of_full hfull).before hfirst hsame
  | false =>
      obtain ⟨hnext, hstill, hallocate⟩ := hask.reaches_allocate hfull
      have hcode : ((asking.exec.setCode []).perform (.allocate creation)).context.code =
          Code.refuse creation cause := by
        refine code_allocate_of_failure ?_ ?_
        · rw [hstill.kernel]
          exact hfull
        · rw [hstill.kernel]
          exact hkernel
      have hfails := (hallocate.refused_of_allocate hcode).before hnext hstill
      exact hfails.before hfirst hsame

/-- What is left of a creation from its stack on leads to a new thread. -/
theorem created_of_writeFrame {stack : Stack}
    (h : m.At [.writeFrame creation stack] ⟨1, [.table]⟩) (hroom : m.kernel.table.isFull = false) :
    ∃ after id, m.Creates creation stack after id := by
  obtain ⟨_, hwrites, hframed⟩ := h.branch (by simp [Step.IsDead]) rfl
    [.enroll creation stack] (by simp [perform, writeFrame])
  have hframe : m.exec.kernel = { m.kernel with
      memory := Backend.writeFirstFrame m.kernel.cpu m.kernel.memory stack creation.call } := by
    rw [hwrites.eq]
    rfl
  cases hinsert : m.exec.kernel.table.insert
      (ControlBlock.created · creation.name creation.call.entry stack) with
  | none =>
      rw [ThreadTable.insert_eq_none_iff, hframe, hroom] at hinsert
      cases hinsert
  | some entered =>
      obtain ⟨id, table⟩ := entered
      let front := Code.printLine (Code.creationLine creation id stack) ++ [.free .table, .unmask]
      let pointer := Backend.firstPointer m.exec.kernel.cpu stack
      obtain ⟨_, henters, hentered⟩ := hframed.branch (by simp [Step.IsDead]) rfl
        (.savePointer id pointer :: (front ++ [.finish (.thread id)]))
        (by simp [perform, enroll, hinsert, front, pointer])
      have hentry : m.exec.exec.kernel = { m.exec.kernel with table := table } := by
        rw [henters.eq]
        simp [perform, enroll, hinsert, modifyTable]
      obtain ⟨_, hsaves, hsaved⟩ := hentered.branch (by simp [Step.IsDead]) rfl
        (front ++ [.finish (.thread id)]) (by simp [perform, savePointer])
      have hpointer : m.exec.exec.exec.kernel = { m.exec.exec.kernel with
          pointers := m.exec.exec.kernel.pointers.set id pointer } := by
        rw [hsaves.eq]
        rfl
      obtain ⟨last, hproceeds, hlast, hwithin⟩ :=
        straight front hsaved (by simp [front, Step.isPlain, Step.IsDead])
      obtain ⟨hends, hstill, hafter, hanswer⟩ := hlast.finish
      refine ⟨last.exec, id, ?_, hafter, hanswer, table, ?_, ?_⟩
      · have henrolls := (hwrites.proceeds (by simp)).trans (henters.proceeds (by simp))
        exact ((henrolls.trans (hsaves.proceeds (by simp))).trans hproceeds).trans hends
      · rw [hframe] at hinsert
        exact hinsert
      · rw [((hwithin (by simp [front])).trans hstill).kernel, hpointer, hentry, hframe]
        simp only [pointer, hframe]
        rfl

/-- A creation that is not refused makes a thread. -/
theorem create_done (h : m.At (Code.create creation) ⟨0, []⟩)
    (hnone : m.kernel.creationFailure? creation.stackSize creation.block = none) :
    ∃ stack after id,
      Stack.allocate (creation.stackSize + Backend.reserved m.kernel.cpu) creation.block =
          .ok stack ∧
        m.Creates creation stack after id := by
  obtain ⟨asking, hfirst, hsame, hask⟩ := h.reaches_checkRoom
  rw [Kernel.creationFailure?] at hnone
  split at hnone
  next => cases hnone
  next hfull =>
      rw [Bool.not_eq_true] at hfull
      split at hnone
      next => cases hnone
      next hlarge =>
          split at hnone
          next => cases hnone
          next stack hstack =>
              obtain ⟨hnext, hstill, hallocate⟩ :=
                hask.reaches_allocate (by rw [hsame.kernel]; exact hfull)
              have hkernel := (hsame.trans hstill).kernel
              have hcpu : asking.exec.kernel.cpu = m.kernel.cpu := by rw [hkernel]
              obtain ⟨_, hallocates, hwrite⟩ := hallocate.branch (by simp [Step.IsDead]) rfl
                [.writeFrame creation stack] (by simp [perform, allocate, hcpu, hlarge, hstack])
              have hmade := ((hsame.trans hstill).trans (hallocates.within rfl)).kernel
              have hroom : asking.exec.exec.kernel.table.isFull = false := by
                rw [hmade]
                exact hfull
              obtain ⟨after, id, hcreates⟩ := hwrite.created_of_writeFrame hroom
              refine ⟨stack, after, id, hstack, hcreates.before ?_ hmade⟩
              exact (hfirst.trans hnext).trans (hallocates.proceeds (by simp))

theorem switchTo_refused {target : ThreadId}
    (h : m.At (Request.switchTo target).code ⟨0, []⟩)
    (habsent : m.kernel.table.contains target = false) :
    m.Fails (.scheduling (.noSuchThread target)) := by
  obtain ⟨asking, hfirst, hask, hsame⟩ :=
    straight [.mask, .take .table] h (by simp [Step.isPlain, Step.IsDead])
  have hkernel := (hsame (by simp)).kernel
  have habsent : asking.kernel.table.contains target = false := by
    rw [hkernel]
    exact habsent
  obtain ⟨_, hstepped, hnext⟩ := hask.branch (by simp [Step.IsDead]) rfl
    ([Step.free .table, .unmask]
      ++ [.finish (.failed (.scheduling (.noSuchThread target)))])
    (by simp [perform, checkTarget, pushAnswer, habsent])
  obtain ⟨last, hfrees, hlast, hkept⟩ := straight _ hnext (by simp [Step.isPlain, Step.IsDead])
  have hrefused := hlast.fails.before hfrees (hkept (by simp))
  exact (hrefused.before (hstepped.proceeds (by simp)) (hstepped.within rfl)).before hfirst
    (hsame (by simp))

theorem start_refused (h : m.At Request.start.code ⟨0, []⟩) (hstarted : m.kernel.started = true) :
    m.Fails (.scheduling .alreadyStarted) := by
  obtain ⟨_, hstepped, hnext⟩ := h.branch (by simp [Step.IsDead]) rfl
    [.finish (.failed (.scheduling .alreadyStarted))] (by simp [perform, claimStart, hstarted])
  have hsame : m.Within m.exec := by
    rw [hstepped.eq, perform, claimStart, kernel_setCode, if_pos hstarted]
    exact ⟨rfl, rfl⟩
  exact hnext.fails.before (hstepped.proceeds (by simp)) hsame

/-- A first start sets the flag of the kernel, and nothing else, before it arms the timer. -/
theorem start_claims (h : m.At Request.start.code ⟨0, []⟩) (hfirst : m.kernel.started = false) :
    ∃ arming, m.Proceeds arming ∧ arming.At [.armTimer] ⟨1, []⟩ ∧ m.exec.Within arming ∧
      m.exec.kernel = { m.kernel with started := true } ∧ m.exec.shared = m.shared := by
  obtain ⟨_, hclaims, hclaimed⟩ := h.branch (by simp [Step.IsDead]) rfl
    ([Step.mask] ++ [.armTimer]) (by simp [perform, claimStart, hfirst])
  obtain ⟨arming, hmasks, harming, hsame⟩ :=
    straight _ hclaimed (by simp [Step.isPlain, Step.IsDead])
  refine ⟨arming, (hclaims.proceeds (by simp)).trans hmasks, harming, hsame (by simp), ?_⟩
  rw [hclaims.eq, perform, claimStart, kernel_setCode, if_neg (by simp [hfirst])]
  exact ⟨rfl, rfl⟩

end At

theorem armTimer_zero {m : Machine Host} (hperiod : m.kernel.config.tickPeriod = 0) :
    m.armTimer =
      m.push [.withdrawStart, .unmask, .finish (.failed (.timer (.invalidPeriod 0)))] := by
  have htimer : Backend.startTimer m.kernel.cpu m.kernel.config.tickPeriod =
      (.error (.invalidPeriod 0), m.kernel.cpu) := by
    rw [hperiod]
    rfl
  simp only [armTimer, htimer]
  rfl

theorem armTimer_of_ne {m : Machine Host} (hperiod : m.kernel.config.tickPeriod ≠ 0) :
    m.armTimer.context.code =
      .routeTicks :: Code.countThreads .banner ++ m.context.code := by
  have htimer : Backend.startTimer m.kernel.cpu m.kernel.config.tickPeriod =
      (.ok (), m.kernel.cpu.startTimer m.kernel.config.tickPeriod) := by
    simp [Backend.startTimer, hperiod]
  simp [armTimer, htimer]

/-- A host takes every tick period but zero; a start that it refuses is withdrawn. -/
theorem At.start_withdrawn {m : Machine Host} (h : m.At Request.start.code ⟨0, []⟩)
    (hfirst : m.kernel.started = false) (hperiod : m.kernel.config.tickPeriod = 0) :
    m.Fails (.timer (.invalidPeriod 0)) := by
  obtain ⟨arming, hclaims, harming, hsame, hkernel, hshared⟩ := h.start_claims hfirst
  have hzero : (arming.setCode []).kernel.config.tickPeriod = 0 := by
    rw [kernel_setCode, hsame.kernel, hkernel]
    exact hperiod
  obtain ⟨_, harms, hfailed⟩ := harming.branch (by simp [Step.IsDead]) rfl
    [.withdrawStart, .unmask, .finish (.failed (.timer (.invalidPeriod 0)))]
    (by simp [perform, armTimer_zero hzero])
  have harm : arming.Within arming.exec := by
    rw [harms.eq, perform, armTimer_zero hzero]
    exact ⟨rfl, rfl⟩
  obtain ⟨_, hwithdraws, hwithdrawn⟩ := hfailed.branch (by simp [Step.IsDead]) rfl
    ([Step.unmask] ++ [.finish (.failed (.timer (.invalidPeriod 0)))]) (by simp [perform])
  have hwithdraw : arming.exec.exec.kernel = { arming.exec.kernel with started := false } ∧
      arming.exec.exec.shared = arming.exec.shared := by
    rw [hwithdraws.eq]
    exact ⟨rfl, rfl⟩
  obtain ⟨last, hunmasks, hlast, hkept⟩ :=
    straight _ hwithdrawn (by simp [Step.isPlain, Step.IsDead])
  obtain ⟨hends, hstill, hafter, hanswer⟩ := hlast.finish
  refine ⟨last.exec, ?_, ⟨?_, ?_⟩, hafter, hanswer⟩
  · have hfails := (hclaims.trans (harms.proceeds (by simp))).trans (hwithdraws.proceeds (by simp))
    exact hfails.trans (hunmasks.trans hends)
  · -- the flag was set by the claim, and is taken back
    rw [((hkept (by simp)).trans hstill).kernel, hwithdraw.1, (hsame.trans harm).kernel, hkernel,
      ← hfirst]
  · rw [((hkept (by simp)).trans hstill).shared, hwithdraw.2, (hsame.trans harm).shared, hshared]

end Machine

/-! ## The causes -/

def Request.creates? : Request → Option (UInt64 × Option UInt64)
  | .create _ _ stackSize block | .spawn _ _ stackSize block => some (stackSize, block)
  | _ => none

def Request.isFallible (request : Request) : Prop :=
  request.creates?.isSome = true ∨ request = .start ∨ ∃ target, request = .switchTo target

/-- Why a kernel of a host refuses an operation: the first cause that applies. -/
inductive Kernel.Refuses (kernel : Kernel Host) : Request → Failure → Prop where
  | tableFull {request : Request} {stackSize : UInt64} {block : Option UInt64} :
      request.creates? = some (stackSize, block) → kernel.table.count = maxCreated →
        Refuses kernel request (.creation .tableFull)
  /-- The stack and the reserved bytes exceed the address space. -/
  | stackTooLarge {request : Request} {stackSize : UInt64} {block : Option UInt64} :
      request.creates? = some (stackSize, block) → kernel.table.count < maxCreated →
        UInt64.size ≤ stackSize.toNat + 96 →
          Refuses kernel request (.creation (.stackTooLarge stackSize))
  /-- Rounded up to the alignment they exceed the largest block. -/
  | invalidLayout {request : Request} {stackSize size : UInt64} {block : Option UInt64} :
      request.creates? = some (stackSize, block) → kernel.table.count < maxCreated →
        stackSize.toNat + 96 < UInt64.size →
          2 ^ 63 - 16 < Stack.roundUp (stackSize.toNat + 96) →
            (size.toNat = if Stack.roundUp (stackSize.toNat + 96) < UInt64.size then
              Stack.roundUp (stackSize.toNat + 96) else stackSize.toNat + 96) →
              Refuses kernel request (.memory (.invalidLayout size))
  /-- There is no memory for them. -/
  | outOfMemory {request : Request} {stackSize : UInt64} :
      request.creates? = some (stackSize, none) → kernel.table.count < maxCreated →
        Stack.roundUp (stackSize.toNat + 96) ≤ 2 ^ 63 - 16 →
          Refuses kernel request (.memory .outOfMemory)
  | noSuchThread {target : ThreadId} : kernel.table.contains target = false →
      Refuses kernel (.switchTo target) (.scheduling (.noSuchThread target))
  | alreadyStarted : kernel.started = true → Refuses kernel .start (.scheduling .alreadyStarted)
  | invalidPeriod : kernel.started = false → kernel.config.tickPeriod = 0 →
      Refuses kernel .start (.timer (.invalidPeriod 0))

namespace Kernel

variable {kernel : Kernel Host} {request : Request} {stackSize : UInt64} {block : Option UInt64}

theorem creationFailure?_of_refuses {cause : Failure}
    (hcreates : request.creates? = some (stackSize, block)) (h : kernel.Refuses request cause) :
    kernel.creationFailure? stackSize block = some cause := by
  cases h with
  | noSuchThread | alreadyStarted | invalidPeriod => cases hcreates
  | tableFull hsame hfull =>
      obtain ⟨rfl, rfl⟩ := Prod.mk.inj (Option.some.inj (hcreates.symm.trans hsame))
      simp [creationFailure?, ThreadTable.isFull, hfull]
  | stackTooLarge hsame hroom hlarge =>
      obtain ⟨rfl, rfl⟩ := Prod.mk.inj (Option.some.inj (hcreates.symm.trans hsame))
      exact creationFailure?_of_large hroom hlarge
  | invalidLayout hsame hroom hsmall hmax hsize =>
      obtain ⟨rfl, rfl⟩ := Prod.mk.inj (Option.some.inj (hcreates.symm.trans hsame))
      obtain ⟨hbytes, hfailure⟩ := creationFailure?_of_room block hroom hsmall
      rw [Host.reserved_host] at hbytes hfailure
      rw [hfailure, Stack.blockSize_eq_error (hbytes ▸ hmax) (hbytes ▸ hsize)]
  | outOfMemory hsame hroom hmax =>
      obtain ⟨rfl, rfl⟩ := Prod.mk.inj (Option.some.inj (hcreates.symm.trans hsame))
      have hsmall : stackSize.toNat + 96 < UInt64.size := by
        have hround : Stack.roundUp (stackSize.toNat + 96) =
          (stackSize.toNat + 96 + 15) / 16 * 16 := rfl
        have hword : UInt64.size = 2 ^ 64 := rfl
        omega
      obtain ⟨hbytes, hfailure⟩ := creationFailure?_of_room none hroom hsmall
      rw [Host.reserved_host] at hbytes hfailure
      have hnonzero : 0 < (stackSize + 96).toNat := hbytes ▸ Nat.succ_pos _
      obtain ⟨size, hsize, -⟩ :=
        Stack.blockSize_eq_ok (stackSize + 96) hnonzero (hbytes ▸ hmax)
      rw [hfailure, hsize]

theorem refuses_of_creationFailure? {cause : Failure}
    (hcreates : request.creates? = some (stackSize, block))
    (h : kernel.creationFailure? stackSize block = some cause) : kernel.Refuses request cause := by
  by_cases hfull : kernel.table.count = maxCreated
  · have hcause : kernel.creationFailure? stackSize block = some (.creation .tableFull) := by
      simp [creationFailure?, ThreadTable.isFull, hfull]
    obtain rfl := Option.some.inj (hcause.symm.trans h)
    exact .tableFull hcreates hfull
  have hroom : kernel.table.count < maxCreated := Nat.lt_of_le_of_ne kernel.table.count_le hfull
  by_cases hlarge : UInt64.size ≤ stackSize.toNat + 96
  · obtain rfl := Option.some.inj ((creationFailure?_of_large hroom hlarge).symm.trans h)
    exact .stackTooLarge hcreates hroom hlarge
  have hsmall := Nat.not_le.1 hlarge
  obtain ⟨hbytes, hfailure⟩ := creationFailure?_of_room block hroom hsmall
  rw [Host.reserved_host] at hbytes hfailure
  have hnonzero : 0 < (stackSize + 96).toNat := hbytes ▸ Nat.succ_pos _
  rw [hfailure] at h
  by_cases hmax : Stack.roundUp (stackSize.toNat + 96) ≤ 2 ^ 63 - 16
  · obtain ⟨size, hsize, -⟩ :=
      Stack.blockSize_eq_ok (stackSize + 96) hnonzero (hbytes ▸ hmax)
    rw [hsize] at h
    cases block with
    | none =>
        obtain rfl := Option.some.inj h
        exact .outOfMemory hcreates hroom hmax
    | some low => cases h
  · let size : UInt64 := UInt64.ofNat (if Stack.roundUp (stackSize.toNat + 96) < UInt64.size then
      Stack.roundUp (stackSize.toNat + 96) else stackSize.toNat + 96)
    have hsize : size.toNat = if Stack.roundUp (stackSize.toNat + 96) < UInt64.size then
        Stack.roundUp (stackSize.toNat + 96) else stackSize.toNat + 96 := by
      apply UInt64.toNat_ofNat_of_lt'
      split <;> assumption
    rw [Stack.blockSize_eq_error (hbytes ▸ Nat.not_le.1 hmax) (hbytes ▸ hsize)] at h
    obtain rfl := Option.some.inj h
    exact .invalidLayout hcreates hroom hsmall (Nat.not_le.1 hmax) hsize

end Kernel

/-! ## What fails, and what it leaves -/

structure Machine.Spared (m after : Machine P) : Prop where
  kernel : after.kernel = m.kernel
  shared : after.shared =
    { m.shared with console := after.shared.console, packets := after.shared.packets }
  executing : after.executing = m.executing
  masking : after.context.masking = m.context.masking
  others : ∀ id, id ≠ m.executing → after.contextOf id = m.contextOf id

namespace Machine

section

variable {past : List (Transition P)} {m : Machine P} {request : Request}

theorem code_of_atUserLevel (huser : m.atUserLevel = true) : m.context.code = [] :=
  List.isEmpty_iff.1 huser

variable [Backend P]

theorem At.of_regular [LawfulBackend P] (h : m.Regular past) (hcode : m.context.code = []) :
    m.At [] ⟨0, []⟩ where
  orderly := h.orderly.mono fun _ => trivial
  objects := h.objects
  seated := h.seated
  code := hcode
  cover := by
    have hown := h.orderly.own
    rwa [hcode] at hown

omit [Backend P] in
theorem At.unlocked (h : m.At [] ⟨0, []⟩) :
    m.kernel.tableTaken = false ∧ m.shared.taken = [] := by
  have hwords := h.orderly.words
  have hheld : m.context.held = [] := congrArg Cover.held h.cover
  rw [hheld] at hwords
  exact ⟨hwords.table, hwords.others⟩

omit [Backend P] in
theorem At.call (h : m.At [] ⟨0, []⟩) (request : Request) :
    (m.call request).At request.code ⟨0, []⟩ where
  orderly := h.orderly.call h.code request
  objects := h.objects
  seated := h.seated.call h.code request
  code := by rw [context_call]
  cover := by
    have hcover := h.cover
    rw [context_call]
    exact hcover

/-- A thread that is back in its own code, with nothing but its lock words changed, is spared. -/
theorem At.spared {after : Machine P} (h : m.At [] ⟨0, []⟩)
    (hkeeps : ∀ enabled, request ≠ .setInterrupts enabled)
    (hproceeds : (m.call request).Proceeds after) (hwithin : (m.call request).Within after)
    (hafter : after.At [] ⟨0, []⟩) : m.Spared after where
  kernel := by
    have hkernel := hwithin.kernel
    rw [hafter.unlocked.1, ← h.unlocked.1] at hkernel
    exact hkernel
  shared := by
    have hshared := hwithin.shared
    rw [hafter.unlocked.2, ← h.unlocked.2] at hshared
    exact hshared
  executing := hproceeds.executing
  masking := by
    have hmasking := hproceeds.masking
    rw [context_call, Context.maskingBehind, Context.maskingBehind, hafter.code] at hmasking
    exact hmasking.trans (request.maskingBehind_code m.context.masking hkeeps)
  others id hid := (hproceeds.others id hid).trans (contextOf_call_of_ne m request hid)

end

variable {m : Machine Host} {request : Request}

/-- A request to create a thread comes to the creation without having changed anything. -/
theorem At.reaches_create {stackSize : UInt64} {block : Option UInt64}
    (h : m.At request.code ⟨0, []⟩) (hcreates : request.creates? = some (stackSize, block)) :
    ∃ after creation, m.Proceeds after ∧ m.Within after ∧
      after.At (Code.create creation) ⟨0, []⟩ ∧ creation.stackSize = stackSize ∧
        creation.block = block := by
  cases request
  case create name call _ _ =>
      cases hcreates
      exact ⟨m, ⟨name, call, stackSize, block, none⟩, .refl m, .refl m, h, rfl, rfl⟩
  case spawn name body _ _ =>
      cases hcreates
      let packet := m.shared.packets.size
      obtain ⟨_, hstepped, hnext⟩ := h.branch (by simp [Step.IsDead]) rfl
        (Code.create ⟨name, ⟨closureRoutine, UInt64.ofNat packet⟩, stackSize, block,
          some packet⟩)
        (by simp [perform, pack, packet])
      exact ⟨_, _, hstepped.proceeds (by simp), hstepped.within rfl, hnext, rfl, rfl⟩
  all_goals cases hcreates

/-- An operation that is refused returns the cause and spares everything. -/
theorem At.refused_of_refuses {cause : Failure} (h : m.At [] ⟨0, []⟩)
    (hrefuses : m.kernel.Refuses request cause) :
    ∃ after, (m.call request).Proceeds after ∧ after.At [] ⟨0, []⟩ ∧
      after.context.answer = some (.failed cause) ∧ m.Spared after := by
  have hcall := h.call request
  have hends : (∀ enabled, request ≠ .setInterrupts enabled) ∧ (m.call request).Fails cause := by
    cases hcreates : request.creates? with
    | some stack =>
        obtain ⟨stackSize, block⟩ := stack
        refine ⟨fun enabled hset => ?_, ?_⟩
        · rw [hset] at hcreates
          cases hcreates
        obtain ⟨making, creation, hfirst, hsame, hmaking, rfl, rfl⟩ := hcall.reaches_create hcreates
        have hcause := Kernel.creationFailure?_of_refuses hcreates hrefuses
        exact (hmaking.create_refused (by rw [hsame.kernel]; exact hcause)).before hfirst hsame
    | none =>
        cases hrefuses with
        | tableFull hsame | stackTooLarge hsame | invalidLayout hsame | outOfMemory hsame =>
            rw [hcreates] at hsame
            cases hsame
        | noSuchThread habsent => exact ⟨by simp, hcall.switchTo_refused habsent⟩
        | alreadyStarted hstarted => exact ⟨by simp, hcall.start_refused hstarted⟩
        | invalidPeriod hfirst hperiod => exact ⟨by simp, hcall.start_withdrawn hfirst hperiod⟩
  obtain ⟨hkeeps, after, hproceeds, hwithin, hafter, hanswer⟩ := hends
  exact ⟨after, hproceeds, hafter, hanswer, h.spared hkeeps hproceeds hwithin hafter⟩

/-- A creation that is not refused returns a new thread. -/
theorem At.created_of_not_refuses (h : m.At [] ⟨0, []⟩) (hcreates : request.creates?.isSome = true)
    (hnone : ∀ cause, ¬ m.kernel.Refuses request cause) :
    ∃ after id, (m.call request).Proceeds after ∧ after.At [] ⟨0, []⟩ ∧
      after.context.answer = some (.thread id) := by
  obtain ⟨⟨stackSize, block⟩, hcreates⟩ := Option.isSome_iff_exists.1 hcreates
  obtain ⟨making, creation, hfirst, hsame, hmaking, rfl, rfl⟩ :=
    (h.call request).reaches_create hcreates
  have hfailure : m.kernel.creationFailure? creation.stackSize creation.block = none := by
    rw [Option.eq_none_iff_forall_ne_some]
    exact fun cause hcause => hnone cause (Kernel.refuses_of_creationFailure? hcreates hcause)
  obtain ⟨_, after, id, -, hcreates⟩ := hmaking.create_done (by rw [hsame.kernel]; exact hfailure)
  exact ⟨after, id, hfirst.trans hcreates.proceeds, hcreates.user, hcreates.answer⟩

end Machine

/-! ## Operations past their last decision -/

namespace Machine

variable [Backend P] [LawfulBackend P] {past : List (Transition P)} {m after : Machine P}
  {id : ThreadId}

/-- An operation of a thread returned, or has nothing left that could fail. -/
def Succeeds (m : Machine P) (id : ThreadId) : Prop :=
  (m.contextOf id).code.getLast? = some (.finish .done) ∨ (m.contextOf id).answer = some .done

/-- What an operation returned stays until its thread asks for another one. -/
theorem Regular.answer_of_goes {move : Move} {reply : Reply} (h : m.Regular past)
    (hgoes : m.Goes move after) (hasked : asked past id ≠ none)
    (hcall : Transition.asks? ⟨m, move⟩ id = none)
    (hanswer : (m.contextOf id).answer = some reply) :
    (after.contextOf id).answer = some reply := by
  cases hgoes with
  | spin => exact hanswer
  | @step step rest pushed _ hstepped =>
      by_cases hid : id = m.executing
      · subst hid
        rw [contextOf_executing hstepped.effect.executing, hstepped.effect.answer]
        by_cases hfinish : ∃ other, step = .finish other
        · -- a thread that is about to return has not returned before
          obtain ⟨other, rfl⟩ := hfinish
          obtain rfl : rest = [] := h.orderly.fits hstepped
          have hnone := h.employed.unanswered m.executing (by
            rw [contextOf_executing rfl, hstepped.code]
            exact ⟨by simp, by simp⟩)
          rw [hnone] at hanswer
          cases hanswer
        · cases step <;> first | exact hanswer | exact absurd ⟨_, rfl⟩ hfinish
      · rw [hstepped.effect.others id hid]
        exact hanswer
  | switch hcode hswitched =>
      rcases h.employed.contextOf_switched h.seated hcode hswitched id with
        ⟨rfl, hafter⟩ | ⟨-, hafter | ⟨hnever, -⟩⟩
      · rw [hafter]
        exact hanswer
      · rw [hafter]
        exact hanswer
      · exact absurd hnever hasked
  | call request =>
      have hid : id ≠ m.executing := by
        rintro rfl
        simp [Transition.asks?] at hcall
      rw [contextOf_call_of_ne m request hid]
      exact hanswer
  | interrupt =>
      by_cases hid : id = m.executing
      · rw [contextOf_executing ((executing_interrupt m).trans hid.symm), context_interrupt,
          ← contextOf_executing hid.symm]
        exact hanswer
      · rw [contextOf_interrupt_of_ne m hid]
        exact hanswer

/-- It will succeed, whatever happens until then. -/
theorem Regular.succeeds_of_goes {move : Move} (h : m.Regular past) (hgoes : m.Goes move after)
    (hasked : asked past id ≠ none) (hcall : Transition.asks? ⟨m, move⟩ id = none)
    (hsucceeds : m.Succeeds id) : after.Succeeds id := by
  rcases hsucceeds with hlast | hanswer
  · have hlater : asked (past ++ [⟨m, move⟩]) id ≠ none := by
      rw [asked_eq_bind, lastCall_append, hcall]
      rw [asked_eq_bind] at hasked
      exact hasked
    cases h.ending hgoes hlater with
    | kept hkept => exact .inl (hkept.trans hlast)
    | @ended step pushed _ hid hstepped =>
        subst hid
        rw [contextOf_executing rfl, hstepped.code] at hlast
        obtain rfl : step = .finish .done := Option.some.inj hlast
        refine .inr ?_
        rw [contextOf_executing hstepped.effect.executing, hstepped.effect.answer]
        rfl
    | called request hid =>
        subst hid
        simp [Transition.asks?] at hcall
    | struck hid hcode =>
        rw [contextOf_executing hid, hcode] at hlast
        cases hlast
  · exact .inr (h.answer_of_goes hgoes hasked hcall hanswer)

/-- What every step keeps holds wherever a thread comes to undisturbed. -/
theorem Regular.invariant_of_comes (h : m.Regular past)
    (good : List (Transition P) → Machine P → Prop) (hgood : good past m)
    (step : ∀ past m, m.Regular past → m.Goes .exec m.exec → good past m →
      good (past ++ [⟨m, .exec⟩]) m.exec)
    (hcomes : m.Comes after) : ∃ later, after.Regular later ∧ good later after := by
  obtain ⟨fuel, rfl⟩ := hcomes
  induction fuel generalizing m past with
  | zero => exact ⟨past, h, hgood⟩
  | succ fuel ih =>
      rw [execute]
      split
      next => exact ⟨past, h, hgood⟩
      next huser =>
          have hgoes : m.Goes .exec m.exec := m.goes_after (Bool.eq_false_of_not_eq_true huser)
          exact ih (h.goes hgoes) (step past m h hgoes hgood)

theorem Regular.succeeds_of_comes (h : m.Regular past) (hasked : asked past id ≠ none)
    (hsucceeds : m.Succeeds id) (hcomes : m.Comes after) : after.Succeeds id := by
  let good := fun (past : List (Transition P)) (m : Machine P) =>
    asked past id ≠ none ∧ m.Succeeds id
  have hstep : ∀ past m, m.Regular past → m.Goes .exec m.exec → good past m →
      good (past ++ [⟨m, .exec⟩]) m.exec := by
    intro past m hregular hgoes hgood
    refine ⟨?_, hregular.succeeds_of_goes hgoes hgood.1 rfl hgood.2⟩
    rw [asked_exec]
    exact hgood.1
  obtain ⟨later, -, hlater⟩ := h.invariant_of_comes good ⟨hasked, hsucceeds⟩ hstep hcomes
  exact hlater.2

/-- A thread that executes undisturbed has asked for what it had asked for. -/
theorem Regular.comes (h : m.Regular past) (hcomes : m.Comes after) :
    ∃ later, after.Regular later ∧ ∀ id, asked later id = asked past id := by
  refine h.invariant_of_comes (fun later _ => ∀ id, asked later id = asked past id)
    (fun _ => rfl) ?_ hcomes
  exact fun past m _ _ hasked id => (asked_exec past m id).trans (hasked id)

omit [LawfulBackend P] in
/-- Its own code is where it stops: whatever else it comes to, it comes to before. -/
theorem Comes.of_user {between : Machine P} (h : m.Comes between) (h' : m.Comes after)
    (huser : after.atUserLevel = true) : between.Comes after := by
  obtain ⟨first, rfl⟩ := h
  obtain ⟨second, rfl⟩ := h'
  refine ⟨second, ?_⟩
  rw [← execute_add, Nat.add_comm, execute_add, execute_of_atUserLevel _ huser]

namespace At

omit [LawfulBackend P] in
theorem switchTo_succeeds {target : ThreadId} (h : m.At (Request.switchTo target).code ⟨0, []⟩)
    (hexists : m.kernel.table.contains target = true) :
    ∃ switching, m.Comes switching ∧ switching.Succeeds m.executing := by
  obtain ⟨asking, hfirst, hask, hsame⟩ :=
    straight [.mask, .take .table] h (by simp [Step.isPlain, Step.IsDead])
  have hexists : asking.kernel.table.contains target = true := by
    rw [(hsame (by simp)).kernel]
    exact hexists
  obtain ⟨_, hstepped, hnext⟩ := hask.branch (by simp [Step.IsDead]) rfl
    ([.free .table] ++ Code.switchTo target ++ [.unmask] ++ Code.done)
    (by simp [perform, checkTarget, hexists])
  have hproceeds := hfirst.trans (hstepped.proceeds (by simp))
  refine ⟨_, hproceeds.comes, .inl ?_⟩
  rw [contextOf_executing hproceeds.executing, hnext.code]
  rfl

omit [LawfulBackend P] in
theorem start_succeeds (h : m.At (.routeTicks :: Code.countThreads .banner) ⟨1, []⟩) :
    ∃ starting, m.Comes starting ∧ starting.Succeeds m.executing := by
  obtain ⟨counting, hfirst, hcount, -⟩ :=
    straight [.routeTicks, .mask, .take .table] h (by simp [Step.isPlain, Step.IsDead])
  obtain ⟨_, hstepped, hnext⟩ := hcount.branch (by simp [Step.IsDead]) rfl
    ([.unmask, .free .table]
      ++ Code.printLine (Code.startLine counting.kernel.table.count
          counting.kernel.config.tickPeriod)
      ++ Code.reschedule ++ [.unmask, .setFlag true] ++ Code.done)
    (by simp [perform, useCount])
  refine ⟨counting.exec, hfirst.comes.trans (comes_exec hcount.code), .inl ?_⟩
  rw [contextOf_executing (hstepped.effect.executing.trans hfirst.executing), hnext.code]
  rfl

theorem start_arms {m : Machine Host} (h : m.At Request.start.code ⟨0, []⟩)
    (hfirst : m.kernel.started = false) (hperiod : m.kernel.config.tickPeriod ≠ 0) :
    ∃ armed, m.Proceeds armed ∧ armed.At (.routeTicks :: Code.countThreads .banner) ⟨1, []⟩ := by
  obtain ⟨arming, hclaims, harming, hsame, hkernel, -⟩ := h.start_claims hfirst
  have hperiod : (arming.setCode []).kernel.config.tickPeriod ≠ 0 := by
    rw [kernel_setCode, hsame.kernel, hkernel]
    exact hperiod
  obtain ⟨_, harms, harmed⟩ := harming.branch (by simp [Step.IsDead]) rfl
    (.routeTicks :: Code.countThreads .banner) (by simp [perform, armTimer_of_ne hperiod])
  exact ⟨_, hclaims.trans (harms.proceeds (by simp)), harmed⟩

theorem succeeds_of_not_refuses {m : Machine Host} {request : Request} (h : m.At [] ⟨0, []⟩)
    (hkind : request = .start ∨ ∃ target, request = .switchTo target)
    (hnone : ∀ cause, ¬ m.kernel.Refuses request cause) :
    ∃ deciding, (m.call request).Comes deciding ∧ deciding.Succeeds m.executing := by
  obtain rfl | ⟨target, rfl⟩ := hkind
  · have hfirst : m.kernel.started = false := by
      rw [← Bool.not_eq_true]
      exact fun hstarted => hnone _ (.alreadyStarted hstarted)
    have hperiod : m.kernel.config.tickPeriod ≠ 0 :=
      fun hzero => hnone _ (.invalidPeriod hfirst hzero)
    obtain ⟨armed, hproceeds, harmed⟩ := (h.call .start).start_arms hfirst hperiod
    obtain ⟨starting, hcomes, hsucceeds⟩ := harmed.start_succeeds
    refine ⟨starting, hproceeds.comes.trans hcomes, ?_⟩
    rw [hproceeds.executing] at hsucceeds
    exact hsucceeds
  · have hexists : m.kernel.table.contains target = true := by
      rw [← Bool.not_eq_false]
      exact fun habsent => hnone _ (.noSuchThread habsent)
    exact (h.call (.switchTo target)).switchTo_succeeds hexists

end At

/-- An operation that fails was refused, and returned the cause. -/
theorem Regular.refuses_of_failed {m after : Machine Host} {past : List (Transition Host)}
    {request : Request} {cause : Failure} (h : m.Regular past) (huser : m.atUserLevel = true)
    (hfallible : request.isFallible) (hcomes : (m.call request).Comes after)
    (hback : after.atUserLevel = true) (hsame : after.executing = m.executing)
    (hfails : after.context.answer = some (.failed cause)) : m.kernel.Refuses request cause := by
  have hstart : m.At [] ⟨0, []⟩ := .of_regular h (code_of_atUserLevel huser)
  by_cases hcause : ∃ other, m.kernel.Refuses request other
  · obtain ⟨other, hrefuses⟩ := hcause
    obtain ⟨last, hproceeds, hlast, hanswer, -⟩ := hstart.refused_of_refuses hrefuses
    obtain rfl : last = after :=
      hproceeds.comes.unique hcomes (by simp [atUserLevel, hlast.code]) hback
    obtain rfl : other = cause := by simpa using hanswer.symm.trans hfails
    exact hrefuses
  · -- an operation that is not refused returns something else
    have hnone : ∀ cause, ¬ m.kernel.Refuses request cause :=
      fun other hrefuses => hcause ⟨other, hrefuses⟩
    exfalso
    by_cases hcreates : request.creates?.isSome = true
    · obtain ⟨last, id, hproceeds, hlast, hanswer⟩ :=
        hstart.created_of_not_refuses hcreates hnone
      obtain rfl : last = after :=
        hproceeds.comes.unique hcomes (by simp [atUserLevel, hlast.code]) hback
      cases hanswer.symm.trans hfails
    · obtain ⟨deciding, hreaches, hsucceeds⟩ :=
        hstart.succeeds_of_not_refuses (hfallible.resolve_left hcreates) hnone
      have hgoes : m.Goes (.call request) (m.call request) := m.goes_after huser
      obtain ⟨later, hlater, hasked⟩ := (h.goes hgoes).comes hreaches
      have hreturns : after.Succeeds m.executing := by
        refine hlater.succeeds_of_comes ?_ hsucceeds (hreaches.of_user hcomes hback)
        rw [hasked, asked_call]
        simp
      rw [Succeeds, contextOf_executing hsame, code_of_atUserLevel hback, hfails] at hreturns
      simp at hreturns

end Machine

variable {number : Nat} {config : Config} {policy : Policy} {cpu : Host} {values : List Int32}
  {mutexes : Nat} {console : Console} {past : List (Transition Host)} {m : Machine Host}
  {request : Request}

/--
A creation, a start or a switch to a given thread that nothing interrupts fails exactly
for the first cause that applies, and spares everything when it does: the whole kernel and
what the kernels share are as before the call, but for what was printed and for the packet
of a closure that was dropped, and so are the flag and the guards of the caller and the
contexts of all other threads.  A creation without a cause to fail returns a new thread.
-/
theorem SharedRun.failure_spares
    (run : SharedRun (.boot (.new number config policy cpu) (.new values mutexes console)) past m)
    (huser : m.atUserLevel = true) (hfallible : request.isFallible) :
    (∀ cause, m.kernel.Refuses request cause →
      ∃ after, (m.call request).Comes after ∧ after.atUserLevel = true ∧
        after.context.answer = some (.failed cause)) ∧
    (∀ after cause, (m.call request).Comes after → after.atUserLevel = true →
      after.executing = m.executing → after.context.answer = some (.failed cause) →
        m.kernel.Refuses request cause ∧ m.Spared after) ∧
    (request.creates?.isSome = true → (∀ cause, ¬ m.kernel.Refuses request cause) →
      ∃ after id, (m.call request).Comes after ∧ after.atUserLevel = true ∧
        after.executing = m.executing ∧ after.context.answer = some (.thread id)) := by
  have hstart : m.At [] ⟨0, []⟩ := .of_regular run.regular (Machine.code_of_atUserLevel huser)
  refine ⟨fun cause hrefuses => ?_, fun after cause hcomes hback hsame hfails => ?_,
    fun hcreates hnone => ?_⟩
  · obtain ⟨after, hproceeds, hafter, hanswer, -⟩ := hstart.refused_of_refuses hrefuses
    exact ⟨after, hproceeds.comes, by simp [Machine.atUserLevel, hafter.code], hanswer⟩
  · have hrefuses := run.regular.refuses_of_failed huser hfallible hcomes hback hsame hfails
    obtain ⟨last, hproceeds, hlast, -, hspared⟩ := hstart.refused_of_refuses hrefuses
    obtain rfl : last = after :=
      hproceeds.comes.unique hcomes (by simp [Machine.atUserLevel, hlast.code]) hback
    exact ⟨hrefuses, hspared⟩
  · obtain ⟨after, id, hproceeds, hafter, hanswer⟩ := hstart.created_of_not_refuses hcreates hnone
    exact ⟨after, id, hproceeds.comes, by simp [Machine.atUserLevel, hafter.code],
      hproceeds.executing, hanswer⟩

/-- The idle thread of a kernel without other threads starts it. -/
def starting : List Move :=
  .call .start :: List.replicate 32 .exec

/-- A kernel that runs is not started again, and goes on as it did. -/
theorem SharedRun.failure_spares_of_start :
    ∃ (past : List (Transition Host)) (m after : Machine Host),
      SharedRun (.boot (.new 1 {} .roundRobin {}) (.new [] 0 { sinks := [], installed := none }))
          past m ∧
        m.atUserLevel = true ∧ Request.start.isFallible ∧ m.kernel.started = true ∧
          (m.call .start).Comes after ∧
            after.context.answer = some (.failed (.scheduling .alreadyStarted)) ∧
              m.Spared after := by
  let start : Machine Host :=
    .boot (.new 1 {} .roundRobin {}) (.new [] 0 { sinks := [], installed := none })
  let m := starting.foldl Machine.after start
  have hrun : Run start (start.transitions starting) m := .of_plays (by decide +kernel)
  have huser : m.atUserLevel = true := by decide +kernel
  have hfallible : Request.start.isFallible := .inr (.inl rfl)
  have hstarted : m.kernel.started = true := by decide +kernel
  have hcomes : (m.call .start).Comes ((m.call .start).execute 2) := ⟨2, rfl⟩
  have hfails : ((m.call .start).execute 2).context.answer =
      some (.failed (.scheduling .alreadyStarted)) := by decide +kernel
  obtain ⟨-, hspares, -⟩ := SharedRun.failure_spares hrun.sharedRun huser hfallible
  obtain ⟨-, hspared⟩ :=
    hspares _ _ hcomes (by decide +kernel) (by decide +kernel) hfails
  exact ⟨_, m, _, hrun.sharedRun, huser, hfallible, hstarted, hcomes, hfails, hspared⟩

end TickKernel
