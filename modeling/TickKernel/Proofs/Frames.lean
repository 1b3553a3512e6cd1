import TickKernel.Proofs.Aftermath
import TickKernel.Proofs.Framing
import TickKernel.Proofs.Switches

/-!
# First frames

A creation writes the call that the new thread is to make into the uppermost words of the
thread's stack.  As long as an allocator gives blocks that do not overlap, no other
creation touches these words, and the first switch to the thread finds the call that the
thread was created with.
-/

namespace TickKernel

variable {P : Type}

/-! ## What is written into memory -/

def Step.frames? : Step → Option (Creation × Stack)
  | .writeFrame creation stack => some (creation, stack)
  | _ => none

theorem Step.memoryAfter_of_frames?_eq_none [Backend P] {cpu : P} {memory : Memory} {step : Step}
    (h : step.frames? = none) : step.memoryAfter cpu memory = memory := by
  cases step <;> first | rfl | cases h

def Transition.frames? (t : Transition P) : Option (Creation × Stack) :=
  t.step?.bind Step.frames?

/-- The blocks that creations got for their stacks. -/
def stacksOf (past : List (Transition P)) : List Stack :=
  past.filterMap fun t => t.frames?.map Prod.snd

theorem mem_stacksOf {past : List (Transition P)} {t : Transition P} {creation : Creation}
    {stack : Stack} (hmem : t ∈ past) (hframes : t.frames? = some (creation, stack)) :
    stack ∈ stacksOf past :=
  List.mem_filterMap.2 ⟨t, hmem, by rw [hframes]; rfl⟩

/-- What an allocator guarantees: blocks that are aligned, in memory and do not overlap. -/
structure Allocated (past : List (Transition P)) : Prop where
  blocks : ∀ stack ∈ stacksOf past, stack.IsBlock
  apart : (stacksOf past).Pairwise Stack.Apart

theorem Allocated.of_append {past later : List (Transition P)} (h : Allocated (past ++ later)) :
    Allocated past := by
  have happend : stacksOf (past ++ later) = stacksOf past ++ stacksOf later :=
    List.filterMap_append
  constructor
  · intro stack hmem
    apply h.blocks
    rw [happend]
    exact List.mem_append_left _ hmem
  · have hapart := h.apart
    rw [happend] at hapart
    exact (List.pairwise_append.1 hapart).1

theorem Allocated.append_of_none {past : List (Transition P)} {t : Transition P}
    (h : Allocated past) (hnone : t.frames? = none) : Allocated (past ++ [t]) := by
  have hstacks : stacksOf (past ++ [t]) = stacksOf past := by
    simp [stacksOf, List.filterMap_append, hnone]
  exact ⟨hstacks ▸ h.blocks, hstacks ▸ h.apart⟩

/-! ## Room for frames -/

@[simp]
def Step.Roomy [Backend P] (cpu : P) : Step → Prop
  | .writeFrame _ stack => stack.IsRoomy cpu
  | _ => True

section

variable [Backend P] {cpu : P}

theorem roomy_refuse (creation : Creation) (cause : Failure) :
    ∀ step ∈ Code.refuse creation cause, step.Roomy cpu := by
  cases hpacket : creation.packet <;> simp [Code.refuse, hpacket]

theorem Kernel.Expands.roomy {kernel : Kernel P} {step : Step} {pushed : List Step}
    (h : kernel.Expands step pushed) (hallocate : ∀ creation, step ≠ .allocate creation) :
    ∀ other ∈ pushed, other.Roomy cpu := by
  intro other hmem
  have hleads := h.leadsTo hmem
  cases other
  case writeFrame =>
      cases step
      case allocate creation => exact absurd rfl (hallocate creation)
      all_goals cases hleads
  all_goals exact trivial

theorem Request.roomy_code (request : Request) : ∀ step ∈ request.code, step.Roomy cpu := by
  intro step hmem
  have hasked := request.isAskedFor_code hmem
  cases step
  case writeFrame => cases hasked
  all_goals exact trivial

theorem roomy_launchCode (call : Option EntryCall) :
    ∀ step ∈ (call.map launchCode).getD [], step.Roomy cpu := by
  cases call <;> simp [launchCode]

end

namespace Machine

variable [Backend P]

def Roomy (cpu : P) (m : Machine P) : Prop :=
  ∀ id : ThreadId, ∀ step ∈ (m.contextOf id).code, step.Roomy cpu

/-- Frames are laid out on a kernel's processor as on another one. -/
def Layout (cpu : P) (m : Machine P) : Prop :=
  Backend.firstFrame m.kernel.cpu = Backend.firstFrame cpu

variable [FrameBackend P] {cpu : P} {past : List (Transition P)} {m after : Machine P} {move : Move}

theorem Layout.goes (h : m.Layout cpu) (hgoes : m.Goes move after) : after.Layout cpu := by
  cases hgoes with
  | spin | call | interrupt => exact h
  | switch hcode hswitched =>
      rw [Layout, hswitched.kernel]
      exact (FrameBackend.firstFrame_switch _ _ _).trans h
  | step hstepped =>
      rcases hstepped.effect.cpu with hcpu | ⟨period, hcpu⟩
      · rw [Layout, hcpu]
        exact h
      · rw [Layout, hcpu]
        exact (FrameBackend.firstFrame_startTimer _ _).trans h

omit [FrameBackend P] in
theorem Layout.firstPointer_eq (h : m.Layout cpu) (stack : Stack) :
    Backend.firstPointer m.kernel.cpu stack = Backend.firstPointer cpu stack := by
  rw [Backend.firstPointer, Backend.frameBytes, h]
  rfl

omit [FrameBackend P] in
theorem Stepped.allocate_cases {creation : Creation} {rest pushed : List Step}
    (hstepped : m.Stepped (.allocate creation) rest pushed after) :
    (∃ cause, pushed = Code.refuse creation cause) ∨
      ∃ stack, creation.stackSize.toNat + (Backend.reserved m.kernel.cpu).toNat < UInt64.size ∧
        Stack.allocate (creation.stackSize + Backend.reserved m.kernel.cpu) creation.block =
          .ok stack ∧ pushed = [.writeFrame creation stack] := by
  have hpushed : ∀ code, (m.setCode rest).allocate creation = (m.setCode rest).push code →
      pushed = code := by
    intro code hcode
    refine hstepped.pushed_eq code ?_
    rw [perform, hcode, context_push, context_setCode]
  rcases (m.setCode rest).allocate_cases creation with
    ⟨-, hafter⟩ | ⟨hsmall, ⟨cause, -, hafter⟩ | ⟨stack, hstack, hafter⟩⟩
  · exact .inl ⟨_, hpushed _ hafter⟩
  · exact .inl ⟨_, hpushed _ hafter⟩
  · exact .inr ⟨stack, hsmall, hstack, hpushed _ hafter⟩

/-- A stack is what was asked for and the reserved bytes, rounded up. -/
theorem Stepped.roomy_allocate {creation : Creation} {rest pushed : List Step}
    (hstepped : m.Stepped (.allocate creation) rest pushed after) (hlayout : m.Layout cpu) :
    ∀ step ∈ pushed, step.Roomy cpu := by
  rcases hstepped.allocate_cases with ⟨cause, rfl⟩ | ⟨stack, hsmall, hstack, rfl⟩
  · exact roomy_refuse creation cause
  · obtain ⟨hwhole, hroom⟩ := Stack.of_blockSize (Stack.size_of_allocate hstack)
    have hreserved := FrameBackend.room m.kernel.cpu
    have hbytes : (creation.stackSize + Backend.reserved m.kernel.cpu).toNat =
        creation.stackSize.toNat + (Backend.reserved m.kernel.cpu).toNat := by
      rw [UInt64.toNat_add]
      exact Nat.mod_eq_of_lt hsmall
    rw [hlayout] at hreserved
    have hroomy : stack.IsRoomy cpu := ⟨hwhole, by omega⟩
    simpa using hroomy

theorem Roomy.goes (h : m.Roomy cpu) (hlayout : m.Layout cpu) (hgoes : m.Goes move after) :
    after.Roomy cpu := by
  refine hgoes.forall_steps (fun _ step => step.Roomy cpu) (fun id _ => h id) ?_
    (fun request _ => request.roomy_code) (fun _ => by simp [interruptCode])
    fun _ => roomy_launchCode
  intro step rest pushed hstepped _
  by_cases hallocate : ∃ creation, step = .allocate creation
  · obtain ⟨creation, rfl⟩ := hallocate
    exact hstepped.roomy_allocate hlayout
  · exact hstepped.expands.roomy fun creation heq => hallocate ⟨creation, heq⟩

/-! ## Frames that stay as they were written -/

/-- Every first frame that was written still holds its thread's call. -/
def Framed (cpu : P) (past : List (Transition P)) (m : Machine P) : Prop :=
  ∀ t ∈ past, ∀ creation stack, t.frames? = some (creation, stack) →
    stack.IsRoomy cpu ∧ ∀ (index : Nat) (value : UInt64),
      (Backend.firstFrame cpu creation.call)[index]? = some value →
        m.kernel.memory.wordAt (Backend.firstPointer cpu stack) index = value

omit [FrameBackend P] in
theorem Framed.of_memory (h : m.Framed cpu past) (hmemory : after.kernel.memory = m.kernel.memory)
    (hnone : Transition.frames? ⟨m, move⟩ = none) : after.Framed cpu (past ++ [⟨m, move⟩]) := by
  intro t hmem creation stack hframes
  rcases List.mem_append.1 hmem with hmem | hmem
  · rw [hmemory]
    exact h t hmem creation stack hframes
  · rw [List.mem_singleton.1 hmem, hnone] at hframes
    cases hframes

/-- A frame that is written is there to be read, and those written before lie in other blocks. -/
theorem Framed.of_written {creation : Creation} {stack : Stack} (h : m.Framed cpu past)
    (hallocated : Allocated (past ++ [⟨m, move⟩]))
    (hnew : Transition.frames? ⟨m, move⟩ = some (creation, stack)) (hroom : stack.IsRoomy cpu)
    (hmemory : after.kernel.memory =
      Backend.writeFirstFrame cpu m.kernel.memory stack creation.call) :
    after.Framed cpu (past ++ [⟨m, move⟩]) := by
  have hblock : stack.IsBlock :=
    hallocated.blocks stack (mem_stacksOf (List.mem_append_right _ (by simp)) hnew)
  intro t hmem other block hother
  rcases List.mem_append.1 hmem with hbefore | hlast
  · obtain ⟨hbig, hwords⟩ := h t hbefore other block hother
    have happend : stacksOf (past ++ [⟨m, move⟩]) = stacksOf past ++ [stack] := by
      rw [stacksOf, List.filterMap_append, List.filterMap_cons, hnew]
      rfl
    have hapart := hallocated.apart
    rw [happend] at hapart
    have hsplit := (List.pairwise_append.1 hapart).2.2 block (mem_stacksOf hbefore hother)
      stack (by simp)
    have hother := hallocated.blocks block (mem_stacksOf hmem hother)
    refine ⟨hbig, fun index value hvalue => ?_⟩
    have hindex := (List.getElem?_eq_some_iff.1 hvalue).1
    rw [FrameBackend.length_firstFrame] at hindex
    rw [hmemory, Stack.wordAt_writeFirstFrame_of_apart _ hother hblock hbig hroom hsplit hindex]
    exact hwords index value hvalue
  · obtain rfl := List.mem_singleton.1 hlast
    obtain ⟨rfl, rfl⟩ := Prod.mk.inj (Option.some.inj (hnew.symm.trans hother))
    refine ⟨hroom, fun index value hvalue => ?_⟩
    rw [hmemory]
    exact Stack.wordAt_writeFirstFrame _ hblock hroom hvalue

theorem Framed.goes (h : m.Framed cpu past) (hlayout : m.Layout cpu) (hroomy : m.Roomy cpu)
    (hgoes : m.Goes move after) (hallocated : Allocated (past ++ [⟨m, move⟩])) :
    after.Framed cpu (past ++ [⟨m, move⟩]) := by
  cases hgoes with
  | spin hnone => exact h.of_memory rfl (by rw [Transition.frames?, hnone]; rfl)
  | call | interrupt => exact h.of_memory rfl rfl
  | switch hcode hswitched =>
      refine h.of_memory ?_ (by rw [Transition.frames?, step?_of_switch hcode]; rfl)
      rw [hswitched.kernel]
      rfl
  | @step step rest pushed _ hstepped =>
      have hstep := hstepped.step?_eq
      have hmemory := hstepped.aftermath.memory
      cases hframes : step.frames? with
      | none =>
          refine h.of_memory ?_ (by rw [Transition.frames?, hstep]; exact hframes)
          rw [hmemory, Step.memoryAfter_of_frames?_eq_none hframes]
      | some frame =>
          obtain ⟨creation, stack⟩ := frame
          obtain rfl : step = .writeFrame creation stack := by
            cases step <;> cases hframes
            rfl
          have hnew : Transition.frames? ⟨m, .exec⟩ = some (creation, stack) := by
            rw [Transition.frames?, hstep]
            rfl
          have hroom : stack.IsRoomy cpu := by
            refine hroomy m.executing (.writeFrame creation stack) ?_
            rw [contextOf_executing rfl, hstepped.code]
            exact List.mem_cons_self
          refine h.of_written hallocated hnew hroom ?_
          rw [hmemory, Step.memoryAfter, Backend.writeFirstFrame, hlayout.firstPointer_eq, hlayout]
          rfl

end Machine

section

variable [Backend P] [FrameBackend P] {config : Config} {policy : Policy} {cpu : P}
  {values : List Int32} {mutexes : Nat} {console : Console} {past : List (Transition P)}
  {m : Machine P}

theorem Run.layout (run : Run (.fresh config policy cpu values mutexes console) past m) :
    m.Layout cpu := by
  refine run.invariant (fun _ m => m.Layout cpu) rfl ?_
  exact fun _ _ _ _ h hgoes => h.goes hgoes

theorem Run.roomy (run : Run (.fresh config policy cpu values mutexes console) past m) :
    m.Roomy cpu := by
  refine run.invariant (fun _ m => m.Roomy cpu) (fun id => ?_) ?_
  · rw [Machine.contextOf_fresh]
    exact List.forall_mem_nil _
  · exact fun _ _ _ run h hgoes => h.goes run.layout hgoes

/-- Frames stay as they were written for as long as blocks do not overlap. -/
theorem Run.framed (run : Run (.fresh config policy cpu values mutexes console) past m)
    (hallocated : Allocated past) : m.Framed cpu past := by
  refine run.invariant (fun past m => Allocated past → m.Framed cpu past) ?_ ?_ hallocated
  · exact fun _ t hmem => absurd hmem List.not_mem_nil
  · exact fun _ _ _ run ih hgoes hallocated =>
      (ih hallocated.of_append).goes run.layout run.roomy hgoes hallocated

end

/-! ## Threads and the calls they were created with -/

def Enrolled (past : List (Transition P)) (id : ThreadId) (creation : Creation) : Prop :=
  ∃ t ∈ past, ∃ stack, t.step? = some (.enroll creation stack) ∧
    t.before.kernel.table.isNext id = true

theorem Enrolled.append {past : List (Transition P)} {id : ThreadId} {creation : Creation}
    (h : Enrolled past id creation) (later : List (Transition P)) :
    Enrolled (past ++ later) id creation := by
  obtain ⟨t, hmem, henrolled⟩ := h
  exact ⟨t, List.mem_append_left _ hmem, henrolled⟩

theorem enrolled_snoc {past : List (Transition P)} {t : Transition P} {id : ThreadId}
    {creation : Creation} :
    Enrolled (past ++ [t]) id creation ↔ Enrolled past id creation ∨
      t.before.kernel.table.isNext id = true ∧
        ∃ stack, t.step? = some (.enroll creation stack) := by
  constructor
  · intro ⟨u, hmem, stack, hstep, hnext⟩
    rcases List.mem_append.1 hmem with hmem | hlast
    · exact .inl ⟨u, hmem, stack, hstep, hnext⟩
    · obtain rfl := List.mem_singleton.1 hlast
      exact .inr ⟨hnext, stack, hstep⟩
  · intro h
    rcases h with henrolled | ⟨hnext, stack, hstep⟩
    · exact henrolled.append [t]
    · exact ⟨t, by simp, stack, hstep, hnext⟩

theorem enrolled_snoc_of_not {past : List (Transition P)} {t : Transition P} {id : ThreadId}
    {creation : Creation}
    (h : ∀ made stack, t.step? = some (.enroll made stack) →
      t.before.kernel.table.isNext id = false) :
    Enrolled (past ++ [t]) id creation ↔ Enrolled past id creation := by
  rw [enrolled_snoc]
  refine or_iff_left fun hnew => ?_
  obtain ⟨hnext, stack, hstep⟩ := hnew
  rw [h creation stack hstep] at hnext
  cases hnext

theorem Enrolled.ne_idle {past : List (Transition P)} {id : ThreadId} {creation : Creation}
    (h : Enrolled past id creation) : id ≠ ThreadId.idle := by
  obtain ⟨t, -, -, -, hnext⟩ := h
  rintro rfl
  rw [ThreadTable.isNext_eq_false t.before.kernel.table.contains_idle] at hnext
  cases hnext

theorem ThreadTable.contains_of_isNext {table : ThreadTable} {make : ThreadId → ControlBlock}
    {id : ThreadId} (hnext : table.isNext id = true) :
    (((table.insert make).map Prod.snd).getD table).contains id = true := by
  cases hinsert : table.insert make with
  | none =>
      rw [isNext_of_insert_eq_none hinsert] at hnext
      cases hnext
  | some entered =>
      obtain ⟨slot, after⟩ := entered
      obtain rfl := (isNext_iff_of_insert hinsert).1 hnext
      obtain ⟨hslot, hcount⟩ := count_of_insert hinsert
      have hlt : slot.val < after.count := by omega
      simp [contains, hlt]

theorem Machine.Goes.contains_of_enroll [Backend P] {m after : Machine P} {move : Move}
    {id : ThreadId} {creation : Creation} {stack : Stack} (hgoes : m.Goes move after)
    (hstep : Transition.step? ⟨m, move⟩ = some (.enroll creation stack))
    (hnext : m.kernel.table.isNext id = true) : after.kernel.table.contains id = true := by
  cases hgoes with
  | spin hnone =>
      rw [hnone] at hstep
      cases hstep
  | switch hcode =>
      rw [step?_of_switch hcode] at hstep
      cases hstep
  | call | interrupt => cases hstep
  | step hstepped =>
      rw [hstepped.step?_eq] at hstep
      obtain rfl := Option.some.inj hstep
      rw [hstepped.effect.table]
      exact ThreadTable.contains_of_isNext hnext

section

variable [Backend P] {config : Config} {policy : Policy} {cpu : P} {values : List Int32}
  {mutexes : Nat} {console : Console} {past : List (Transition P)} {m : Machine P}
  {id : ThreadId} {creation : Creation}

/-- Whoever was created exists, and was created once. -/
theorem Run.enrolled (run : Run (.fresh config policy cpu values mutexes console) past m)
    (h : Enrolled past id creation) :
    m.kernel.table.contains id = true ∧ ∀ other, Enrolled past id other → other = creation := by
  refine run.invariant
    (fun past m => ∀ id creation, Enrolled past id creation → m.kernel.table.contains id = true ∧
      ∀ other, Enrolled past id other → other = creation) ?_ ?_ id creation h
  · rintro id creation ⟨t, hmem, -⟩
    cases hmem
  · intro past m move run ih hgoes id creation henrolled
    -- a slot that was free just now is free no more
    rcases enrolled_snoc.1 henrolled with hbefore | ⟨hnext, stack, hstep⟩
    · obtain ⟨hcontains, hunique⟩ := ih id creation hbefore
      refine ⟨Machine.contains_of_goes hgoes hcontains, fun other hother => ?_⟩
      rcases enrolled_snoc.1 hother with hother | ⟨hnext, -⟩
      · exact hunique other hother
      · rw [ThreadTable.isNext_eq_false hcontains] at hnext
        cases hnext
    · constructor
      · exact hgoes.contains_of_enroll hstep hnext
      · intro other hother
        rcases enrolled_snoc.1 hother with hother | ⟨-, stack, hstep'⟩
        · rw [ThreadTable.isNext_eq_false (ih id other hother).1] at hnext
          cases hnext
        · cases hstep.symm.trans hstep'
          rfl

end

section

variable [Backend P] [FrameBackend P] {config : Config} {policy : Policy} {cpu : P}
  {values : List Int32} {mutexes : Nat} {console : Console} {past : List (Transition P)}
  {m : Machine P} {next : ThreadId}

/-- A thread with the stack pointer of its first frame finds there the call it was created with. -/
theorem Run.savedCall_of_created
    (run : Run (.fresh config policy cpu values mutexes console) past m)
    (hallocated : Allocated past) (hcreated : Created past next (m.kernel.pointers.get next)) :
    ∃ creation, Enrolled past next creation ∧ m.savedCall next = some creation.call := by
  obtain ⟨before, later, first, second, creation, stack, rfl, hwrites, -, henters, hnext,
    hpointer⟩ := hcreated
  have hframes : Transition.frames? ⟨first, .exec⟩ = some (creation, stack) := by
    rw [Transition.frames?, hwrites]
    rfl
  have hlayout : first.Layout cpu := run.before.1.layout
  obtain ⟨-, hwords⟩ := run.framed hallocated ⟨first, .exec⟩ (by simp) creation stack hframes
  refine ⟨creation, ⟨⟨second, .exec⟩, by simp, stack, henters, hnext⟩, ?_⟩
  rw [Machine.savedCall, hpointer, hlayout.firstPointer_eq]
  apply FrameBackend.reads
  rw [run.layout]
  exact hwords

end

end TickKernel
