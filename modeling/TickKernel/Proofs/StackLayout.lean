import TickKernel.Proofs.Framing
import TickKernel.Proofs.Refusals

/-!
# Stacks of new threads

A creation asks for the size that its caller wants and for the bytes of one interrupt frame and
one switch frame, rounded up.  In a block that an allocator can give, every sum on the way is
exact: the first switch frame ends at the block's high end, the stack pointer is aligned, and
below it there is room for what was asked for and for an interrupt frame.
-/

namespace TickKernel

variable {P : Type}

/-- A processor whose reserved bytes are one frame of each kind, both of whole alignments. -/
class AlignedBackend (P : Type) [Backend P] extends FrameBackend P where
  /-- Bytes that an interrupt puts on a stack. -/
  interruptBytes : P → Nat
  reserved_eq : ∀ cpu : P, (Backend.reserved cpu).toNat =
    interruptBytes cpu + (Backend.frameBytes cpu).toNat
  frame_aligned : ∀ cpu : P, (Backend.frameBytes cpu).toNat % 16 = 0

instance : AlignedBackend Host where
  interruptBytes _ := Host.interruptFrameBytes.toNat
  reserved_eq _ := rfl
  frame_aligned host := by
    rw [Host.frameBytes_host]
    decide

instance : AlignedBackend Board where
  interruptBytes board := board.model.interruptFrameBytes.toNat
  reserved_eq board := by
    rw [Board.frameBytes_board]
    show board.model.reservedBytes.toNat = _
    cases board.model <;> rfl
  frame_aligned board := by
    rw [Board.frameBytes_board]
    cases board.model <;> rfl

def Backend.bytesFor [Backend P] (cpu : P) (stackSize : UInt64) : Nat :=
  stackSize.toNat + (Backend.reserved cpu).toNat

namespace Stack

/--
How the stack of a thread that was never run is laid out.  All sums and differences are those of
natural numbers: nothing on the way exceeds a word or falls below zero.
-/
structure LaidOut [Backend P] [AlignedBackend P] (cpu : P) (stackSize : UInt64) (stack : Stack)
    (pointer : UInt64) : Prop where
  /-- Not even what rounding adds goes beyond a word. -/
  bytes_fit : Backend.bytesFor cpu stackSize + 15 < 2 ^ 64
  size_eq : stack.size.toNat = roundUp (Backend.bytesFor cpu stackSize)
  low_aligned : stack.low.toNat % 16 = 0
  high_aligned : stack.high.toNat % 16 = 0
  end_fits : stack.low.toNat + stack.size.toNat < 2 ^ 64
  high_eq : stack.high.toNat = stack.low.toNat + stack.size.toNat
  pointer_aligned : pointer.toNat % 16 = 0
  low_le : stack.low.toNat ≤ pointer.toNat
  /-- The frame ends at the high end. -/
  frame_end : pointer.toNat + (Backend.frameBytes cpu).toNat = stack.high.toNat
  contains_pointer : stack.contains pointer = true
  usage_pointer : stack.usage pointer = Backend.frameBytes cpu
  /-- Below the frame there is room for the thread and for an interrupt. -/
  room : stackSize.toNat + AlignedBackend.interruptBytes cpu ≤ pointer.toNat - stack.low.toNat

variable [Backend P] {cpu : P} {stackSize : UInt64} {stack : Stack}

/-- The reserved bytes are more than none, so no request is empty. -/
theorem bytesFor_pos [FrameBackend P] (cpu : P) (stackSize : UInt64) :
    0 < Backend.bytesFor cpu stackSize := by
  have := FrameBackend.room cpu
  unfold Backend.bytesFor
  omega

/-- In a block of the size that was asked for a first frame is laid out as it should be. -/
theorem laidOut [AlignedBackend P] (hblock : stack.IsBlock)
    (hmax : roundUp (Backend.bytesFor cpu stackSize) ≤ 2 ^ 63 - 16)
    (hsize : stack.size.toNat = roundUp (Backend.bytesFor cpu stackSize)) :
    stack.IsRoomy cpu ∧ stack.LaidOut cpu stackSize (Backend.firstPointer cpu stack) := by
  have hround : roundUp (Backend.bytesFor cpu stackSize) =
    (stackSize.toNat + (Backend.reserved cpu).toNat + 15) / 16 * 16 := rfl
  have hbytes : Backend.bytesFor cpu stackSize =
    stackSize.toNat + (Backend.reserved cpu).toNat := rfl
  have hreserved := AlignedBackend.reserved_eq cpu
  have hframe := AlignedBackend.frame_aligned cpu
  have hroom := FrameBackend.room cpu
  have hword := (Backend.reserved cpu).toNat_lt
  have hlength : (Backend.frameBytes cpu).toNat = 8 * (Backend.firstFrame cpu default).length :=
    toNat_frameBytes (by omega)
  have hroomy : stack.IsRoomy cpu := ⟨by omega, by omega⟩
  obtain ⟨haligned, hbounded⟩ := hblock
  have hhigh := IsBlock.toNat_high ⟨haligned, hbounded⟩ hroomy.1
  have hpointer := toNat_firstPointer_eq ⟨haligned, hbounded⟩ hroomy
  rw [← hlength] at hpointer
  have hbelow : (Backend.firstPointer cpu stack).toNat + (Backend.frameBytes cpu).toNat =
      stack.high.toNat := by omega
  have hle : Backend.firstPointer cpu stack ≤ stack.high := by
    rw [UInt64.le_iff_toNat_le]
    omega
  have hlow : stack.low ≤ Backend.firstPointer cpu stack := by
    rw [UInt64.le_iff_toNat_le]
    omega
  refine ⟨hroomy, ?_⟩
  constructor
  · omega
  · exact hsize
  · exact haligned
  · omega
  · exact hbounded
  · exact hhigh
  · omega
  · omega
  · exact hbelow
  · simp [contains, hlow, hle]
  · rw [usage, if_pos hle]
    apply UInt64.toNat_inj.1
    rw [UInt64.toNat_sub_of_le _ _ hle]
    omega
  · omega

theorem word_writeFirstFrame_of_outside [AlignedBackend P] (memory : Memory) (call : EntryCall)
    (hblock : stack.IsBlock) (hroomy : stack.IsRoomy cpu)
    {address : UInt64} (houtside : address.toNat < (Backend.firstPointer cpu stack).toNat ∨
      stack.high.toNat ≤ address.toNat) :
    (Backend.writeFirstFrame cpu memory stack call).word address = memory.word address := by
  have hhigh := hblock.toNat_high hroomy.1
  have hbounded := hblock.bounded
  have hpointer := (toNat_firstPointer hblock hroomy).2
  have hlength := FrameBackend.length_firstFrame cpu call
  apply Memory.word_writeWords_of_outside
  · omega
  · omega

end Stack

namespace Machine

variable [Backend P] {m : Machine P} {creation : Creation}

theorem At.of_create [LawfulBackend P] {past : List (Transition P)} (h : m.Regular past)
    (hcode : m.context.code = Code.create creation) : m.At (Code.create creation) ⟨0, []⟩ := by
  refine ⟨h.orderly.mono fun _ => trivial, h.objects, h.seated, hcode, ?_⟩
  have hown := h.orderly.own
  rw [hcode] at hown
  generalize m.context.cover = cover at hown ⊢
  obtain ⟨guards, held⟩ := cover
  simp [Disciplined, Step.Fits, Step.IsDead, Step.coverBehind, Bare] at hown
  obtain ⟨hbare, ⟨-, rfl, rfl⟩ | ⟨-, rfl, rfl⟩⟩ := hown
  · simp at hbare
  · rfl

/-- A created thread owns its stack, and its stack pointer is that of its first frame. -/
theorem Creates.stack_eq {after : Machine P} {stack : Stack} {id : ThreadId}
    (h : m.Creates creation stack after id) :
    (after.kernel.table.block id).stack = some stack ∧
      after.kernel.pointers.get id = Backend.firstPointer m.kernel.cpu stack ∧
      after.kernel.memory =
        Backend.writeFirstFrame m.kernel.cpu m.kernel.memory stack creation.call := by
  obtain ⟨table, hinsert, hkernel⟩ := h.kernel
  have hblock := m.kernel.table.block_insert
    (ControlBlock.created · creation.name creation.call.entry stack) id
  rw [hinsert, if_pos ((ThreadTable.isNext_iff_of_insert hinsert).2 rfl)] at hblock
  rw [hkernel]
  refine ⟨?_, ?_, rfl⟩
  · show (table.block id).stack = some stack
    rw [show table.block id = _ from hblock]
    rfl
  · show (m.kernel.pointers.set id (Backend.firstPointer m.kernel.cpu stack))[id] = _
    simp

inductive Settles [Backend P] (m : Machine P) (creation : Creation) : Prop where
  | tooLarge : 2 ^ 64 ≤ Backend.bytesFor m.kernel.cpu creation.stackSize →
      m.Fails (.creation (.stackTooLarge creation.stackSize)) → Settles m creation
  | invalid (size : UInt64) : Backend.bytesFor m.kernel.cpu creation.stackSize < 2 ^ 64 →
      2 ^ 63 - 16 < Stack.roundUp (Backend.bytesFor m.kernel.cpu creation.stackSize) →
        m.Fails (.memory (.invalidLayout size)) → Settles m creation
  | noMemory : Stack.roundUp (Backend.bytesFor m.kernel.cpu creation.stackSize) ≤ 2 ^ 63 - 16 →
      creation.block = none → m.Fails (.memory .outOfMemory) → Settles m creation
  | made (low size : UInt64) (after : Machine P) (id : ThreadId) :
      Stack.roundUp (Backend.bytesFor m.kernel.cpu creation.stackSize) ≤ 2 ^ 63 - 16 →
        creation.block = some low →
          size.toNat = Stack.roundUp (Backend.bytesFor m.kernel.cpu creation.stackSize) →
            m.Creates creation ⟨low, size⟩ after id → Settles m creation

theorem At.settles [FrameBackend P] (h : m.At (Code.create creation) ⟨0, []⟩)
    (hroom : m.kernel.table.count < maxCreated) : m.Settles creation := by
  have hword : UInt64.size = 2 ^ 64 := rfl
  have hbytes : Backend.bytesFor m.kernel.cpu creation.stackSize =
    creation.stackSize.toNat + (Backend.reserved m.kernel.cpu).toNat := rfl
  by_cases hlarge : 2 ^ 64 ≤ Backend.bytesFor m.kernel.cpu creation.stackSize
  · exact .tooLarge hlarge (h.create_refused (Kernel.creationFailure?_of_large hroom hlarge))
  have hsmall := Nat.not_le.1 hlarge
  obtain ⟨hsum, hfailure⟩ := Kernel.creationFailure?_of_room creation.block hroom hsmall
  rw [← hbytes] at hsum
  by_cases hmax : Stack.roundUp (Backend.bytesFor m.kernel.cpu creation.stackSize) ≤ 2 ^ 63 - 16
  · have hpos := Stack.bytesFor_pos m.kernel.cpu creation.stackSize
    obtain ⟨size, hsize, hrounded⟩ := Stack.blockSize_eq_ok
      (creation.stackSize + Backend.reserved m.kernel.cpu) (hsum ▸ hpos) (hsum ▸ hmax)
    rw [hsize] at hfailure
    rw [hsum] at hrounded
    cases hblock : creation.block with
    | none =>
        rw [hblock] at hfailure
        exact .noMemory hmax hblock (h.create_refused (hblock ▸ hfailure))
    | some low =>
        rw [hblock] at hfailure
        obtain ⟨stack, after, id, hstack, hcreates⟩ := h.create_done (hblock ▸ hfailure)
        rw [hblock] at hstack
        simp only [Stack.allocate, hsize, Except.ok.injEq] at hstack
        subst hstack
        exact .made low size after id hmax hblock hrounded hcreates
  · -- the size that the refusal names is the rounded one, if a word holds it
    let named := if Stack.roundUp (Backend.bytesFor m.kernel.cpu creation.stackSize) < UInt64.size
      then Stack.roundUp (Backend.bytesFor m.kernel.cpu creation.stackSize)
      else Backend.bytesFor m.kernel.cpu creation.stackSize
    have hnamed : (UInt64.ofNat named).toNat = named := by
      apply UInt64.toNat_ofNat_of_lt'
      simp only [named]
      split <;> assumption
    have hrefused : Stack.blockSize (creation.stackSize + Backend.reserved m.kernel.cpu) =
        .error (.invalidLayout (UInt64.ofNat named)) :=
      Stack.blockSize_eq_error (hsum ▸ Nat.not_le.1 hmax) (by rw [hsum]; exact hnamed)
    rw [hrefused] at hfailure
    exact .invalid _ hsmall (Nat.not_le.1 hmax) (h.create_refused hfailure)

end Machine

variable [Backend P] {number : Nat} {config : Config} {policy : Policy} {cpu : P}
  {values : List Int32} {mutexes : Nat} {console : Console} {past : List (Transition P)}
  {m : Machine P} {creation : Creation}

/--
A creation that finds room in the table, in any run, fails as too large exactly if its size and
the reserved bytes exceed a word, and as no layout exactly if they do not, but rounded up exceed
the largest block.  Otherwise it depends on the allocator: without a block it fails, and in a
block that an allocator may give it makes a thread whose stack is laid out in exact sums, with
the first frame between the saved stack pointer and the high end and memory outside as it was.
-/
theorem SharedRun.stack_layout [AlignedBackend P]
    (run : SharedRun (.boot (.new number config policy cpu) (.new values mutexes console)) past m)
    (hcode : m.context.code = Code.create creation)
    (hroom : m.kernel.table.count < maxCreated) :
    ∃ after reply, m.Comes after ∧ after.atUserLevel = true ∧
      after.context.answer = some reply ∧
      (reply = .failed (.creation (.stackTooLarge creation.stackSize)) ↔
        2 ^ 64 ≤ Backend.bytesFor m.kernel.cpu creation.stackSize) ∧
      ((∃ size, reply = .failed (.memory (.invalidLayout size))) ↔
        Backend.bytesFor m.kernel.cpu creation.stackSize < 2 ^ 64 ∧
          2 ^ 63 - 16 < Stack.roundUp (Backend.bytesFor m.kernel.cpu creation.stackSize)) ∧
      (reply = .failed (.memory .outOfMemory) ↔
        Stack.roundUp (Backend.bytesFor m.kernel.cpu creation.stackSize) ≤ 2 ^ 63 - 16 ∧
          creation.block = none) ∧
      ((∃ id, reply = .thread id) ↔
        Stack.roundUp (Backend.bytesFor m.kernel.cpu creation.stackSize) ≤ 2 ^ 63 - 16 ∧
          creation.block ≠ none) ∧
      ∀ id low, reply = .thread id → creation.block = some low → low.toNat % 16 = 0 →
        low.toNat + Stack.roundUp (Backend.bytesFor m.kernel.cpu creation.stackSize) < 2 ^ 64 →
          ∃ stack pointer, (after.kernel.table.block id).stack = some stack ∧ stack.low = low ∧
            after.kernel.pointers.get id = pointer ∧
            stack.LaidOut m.kernel.cpu creation.stackSize pointer ∧
            (∀ (index : Nat) (value : UInt64),
              (Backend.firstFrame m.kernel.cpu creation.call)[index]? = some value →
                after.kernel.memory.wordAt pointer index = value) ∧
            ∀ address : UInt64,
              address.toNat < pointer.toNat ∨ stack.high.toNat ≤ address.toNat →
                after.kernel.memory.word address = m.kernel.memory.word address := by
  have hround : Stack.roundUp (Backend.bytesFor m.kernel.cpu creation.stackSize) =
    (Backend.bytesFor m.kernel.cpu creation.stackSize + 15) / 16 * 16 := rfl
  have huser : ∀ {after : Machine P}, after.At [] ⟨0, []⟩ → after.atUserLevel = true := by
    intro after hafter
    simp [Machine.atUserLevel, hafter.code]
  cases (Machine.At.of_create run.regular hcode).settles hroom with
  | tooLarge hlarge hfails =>
      obtain ⟨after, hproceeds, -, hafter, hanswer⟩ := hfails
      refine ⟨after, _, hproceeds.comes, huser hafter, hanswer, ?_⟩
      simp
      omega
  | invalid size hsmall hlarge hfails =>
      obtain ⟨after, hproceeds, -, hafter, hanswer⟩ := hfails
      refine ⟨after, _, hproceeds.comes, huser hafter, hanswer, ?_⟩
      simp
      omega
  | noMemory hmax hblock hfails =>
      obtain ⟨after, hproceeds, -, hafter, hanswer⟩ := hfails
      refine ⟨after, _, hproceeds.comes, huser hafter, hanswer, ?_⟩
      simp [hblock]
      omega
  | made low size after id hmax hblock hsize hcreates =>
      refine ⟨after, _, hcreates.proceeds.comes, huser hcreates.user, hcreates.answer,
        by simp; omega, by simp; omega, by simp [hblock], by simp [hblock]; omega, ?_⟩
      intro other start hreply hstart haligned hbounded
      obtain rfl := Reply.thread.inj hreply
      obtain rfl := Option.some.inj (hblock.symm.trans hstart)
      have hisBlock : Stack.IsBlock ⟨low, size⟩ := ⟨haligned, by rw [hsize]; exact hbounded⟩
      obtain ⟨hroomy, hlaidOut⟩ := Stack.laidOut hisBlock hmax hsize
      obtain ⟨hstack, hpointer, hmemory⟩ := hcreates.stack_eq
      refine ⟨⟨low, size⟩, _, hstack, rfl, hpointer, hlaidOut, fun index value hvalue => ?_,
        fun address houtside => ?_⟩
      · rw [hmemory]
        exact Stack.wordAt_writeFirstFrame _ hisBlock hroomy hvalue
      · rw [hmemory]
        exact Stack.word_writeFirstFrame_of_outside _ _ hisBlock hroomy houtside

/-- A thread whose stack is no whole multiple of the alignment. -/
def oddWorker : Creation :=
  { name := "worker", call := ⟨0x80000, 7⟩, stackSize := 1000, block := some 0x40000000,
    packet := none }

/-- On a board with large frames an odd size is rounded up, and the frame lies at the top. -/
theorem SharedRun.stack_layout_of_oddWorker :
    ∃ (past : List (Transition Board)) (m after : Machine Board) (id : ThreadId) (stack : Stack)
        (pointer : UInt64),
      SharedRun
          (.boot (.new 1 {} .roundRobin { model := .pi })
            (.new [] 0 { sinks := [], installed := none })) past m ∧
        m.context.code = Code.create oddWorker ∧ m.kernel.table.count < maxCreated ∧
          m.Comes after ∧ (after.kernel.table.block id).stack = some stack ∧
            after.kernel.pointers.get id = pointer ∧ stack.size.toNat = 1760 ∧
              pointer.toNat = stack.low.toNat + 1600 ∧
                stack.LaidOut m.kernel.cpu oddWorker.stackSize pointer := by
  let start : Machine Board :=
    .boot (.new 1 {} .roundRobin { model := .pi }) (.new [] 0 { sinks := [], installed := none })
  let moves : List Move :=
    [.call (.create oddWorker.name oddWorker.call oddWorker.stackSize oddWorker.block)]
  let m := moves.foldl Machine.after start
  have hrun : Run start (start.transitions moves) m := .of_plays (by decide +kernel)
  have hcode : m.context.code = Code.create oddWorker := by decide +kernel
  have hroom : m.kernel.table.count < maxCreated := by decide +kernel
  have hreserved : Backend.bytesFor m.kernel.cpu oddWorker.stackSize = 1752 := by decide +kernel
  have hframe : (Backend.frameBytes m.kernel.cpu).toNat = 160 := by decide +kernel
  obtain ⟨after, reply, hcomes, -, -, -, -, -, hmade, hlayout⟩ :=
    SharedRun.stack_layout hrun.sharedRun hcode hroom
  rw [hreserved] at hmade hlayout
  obtain ⟨id, hreply⟩ := hmade.2 ⟨by decide, by decide⟩
  obtain ⟨stack, pointer, hstack, -, hpointer, hlaidOut, -⟩ :=
    hlayout id 0x40000000 hreply rfl (by decide) (by decide)
  have hsize := hlaidOut.size_eq
  rw [hreserved] at hsize
  have hsize : stack.size.toNat = 1760 := hsize
  have hend := hlaidOut.frame_end
  rw [hframe, hlaidOut.high_eq, hsize] at hend
  exact ⟨_, m, after, id, stack, pointer, hrun.sharedRun, hcode, hroom, hcomes, hstack, hpointer,
    hsize, by omega, hlaidOut⟩

end TickKernel
