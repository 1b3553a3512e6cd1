import TickKernel.Proofs.Blocks
import TickKernel.Proofs.Gates
import TickKernel.Proofs.Suspension

/-!
# Where a thread starts

A processor starts a thread from the frame that was written for it, the first time that it is
switched to.  Hosts and boards do.  The frame lies at the high end of the thread's stack, so
frames in blocks that do not overlap leave one another alone.
-/

namespace TickKernel

/-- A processor that starts every thread that it did not suspend from the frame written for it. -/
class FrameBackend (P : Type) [Backend P] extends LawfulBackend P where
  starts : ∀ (cpu : P) (next prev : ThreadId), next ≠ prev → ¬ suspended cpu next →
    (Backend.switch cpu next prev).1 = false
  switch_adds : ∀ (cpu : P) (next prev id : ThreadId),
    suspended (Backend.switch cpu next prev).2 id → suspended cpu id ∨ id = prev ∨ id = next
  startTimer_adds : ∀ (cpu : P) (period : UInt32) (id : ThreadId),
    suspended (Backend.startTimer cpu period).2 id → suspended cpu id
  /-- The layout of a frame does not depend on what the processor has done. -/
  firstFrame_switch : ∀ (cpu : P) (next prev : ThreadId),
    Backend.firstFrame (Backend.switch cpu next prev).2 = Backend.firstFrame cpu
  firstFrame_startTimer : ∀ (cpu : P) (period : UInt32),
    Backend.firstFrame (Backend.startTimer cpu period).2 = Backend.firstFrame cpu
  length_firstFrame : ∀ (cpu : P) (call : EntryCall),
    (Backend.firstFrame cpu call).length = (Backend.firstFrame cpu default).length
  reads : ∀ (cpu : P) (call : EntryCall) (word : Nat → UInt64),
    (∀ (index : Nat) (value : UInt64), (Backend.firstFrame cpu call)[index]? = some value →
      word index = value) → Backend.callOfFrame cpu word = some call
  /-- The reserved bytes hold a frame, wherever the alignment puts it. -/
  room : ∀ cpu : P, 8 * (Backend.firstFrame cpu default).length + 16 ≤ (Backend.reserved cpu).toNat

def LawfulBackend.Blank {P : Type} [Backend P] [LawfulBackend P] (cpu : P) : Prop :=
  ∀ id, ¬ suspended cpu id

namespace Stack

/-- What an allocator guarantees of one block: it is aligned and does not end beyond memory. -/
structure IsBlock (stack : Stack) : Prop where
  aligned : stack.low.toNat % 16 = 0
  bounded : stack.low.toNat + stack.size.toNat < 2 ^ 64

def Apart (first second : Stack) : Prop :=
  first.low.toNat + first.size.toNat ≤ second.low.toNat ∨
    second.low.toNat + second.size.toNat ≤ first.low.toNat

variable {P : Type} [Backend P] {cpu : P} {first second : Stack} {call : EntryCall}

/-- Whole multiples of the alignment, with room for a frame at the high end. -/
def IsRoomy (cpu : P) (stack : Stack) : Prop :=
  stack.size.toNat % 16 = 0 ∧
    8 * (Backend.firstFrame cpu default).length + 16 ≤ stack.size.toNat

theorem toNat_frameBytes (h : 8 * (Backend.firstFrame cpu default).length < 2 ^ 64) :
    (Backend.frameBytes cpu).toNat = 8 * (Backend.firstFrame cpu default).length := by
  have hlength : (UInt64.ofNat (Backend.firstFrame cpu default).length).toNat
      = (Backend.firstFrame cpu default).length := UInt64.toNat_ofNat_of_lt' (by
    have hword : UInt64.size = 2 ^ 64 := rfl
    omega)
  have height : (8 : UInt64).toNat = 8 := rfl
  rw [Backend.frameBytes, UInt64.toNat_mul, hlength, height]
  exact Nat.mod_eq_of_lt h

/-- A block of whole multiples of the alignment ends at its high end. -/
theorem IsBlock.toNat_high (h : first.IsBlock) (hwhole : first.size.toNat % 16 = 0) :
    first.high.toNat = first.low.toNat + first.size.toNat := by
  have hlow := h.aligned
  have hsum : (first.low + first.size).toNat = first.low.toNat + first.size.toNat := by
    rw [UInt64.toNat_add]
    exact Nat.mod_eq_of_lt h.bounded
  rw [high, toNat_alignDown, hsum]
  omega

/-- A first frame begins as high as the alignment lets it. -/
theorem toNat_firstPointer_eq (hblock : first.IsBlock) (hroomy : first.IsRoomy cpu) :
    (Backend.firstPointer cpu first).toNat =
      (first.low.toNat + first.size.toNat - 8 * (Backend.firstFrame cpu default).length)
        / 16 * 16 := by
  have hbounded := hblock.bounded
  obtain ⟨hwhole, hroom⟩ := hroomy
  have hframe : (Backend.frameBytes cpu).toNat = 8 * (Backend.firstFrame cpu default).length :=
    toNat_frameBytes (by omega)
  have hhigh := hblock.toNat_high hwhole
  have hbytes : Backend.frameBytes cpu ≤ first.high := by
    rw [UInt64.le_iff_toNat_le, hhigh, hframe]
    omega
  rw [Backend.firstPointer, frameBase, toNat_alignDown, UInt64.toNat_sub_of_le _ _ hbytes, hhigh,
    hframe]

theorem toNat_firstPointer (hblock : first.IsBlock) (hroomy : first.IsRoomy cpu) :
    first.low.toNat ≤ (Backend.firstPointer cpu first).toNat ∧
      (Backend.firstPointer cpu first).toNat + 8 * (Backend.firstFrame cpu default).length
        ≤ first.low.toNat + first.size.toNat := by
  have hpointer := toNat_firstPointer_eq hblock hroomy
  have haligned := hblock.aligned
  obtain ⟨hwhole, hroom⟩ := hroomy
  omega

variable [FrameBackend P]

theorem wordAt_writeFirstFrame (memory : Memory) (hblock : first.IsBlock)
    (hroomy : first.IsRoomy cpu) {index : Nat} {value : UInt64}
    (hvalue : (Backend.firstFrame cpu call)[index]? = some value) :
    (Backend.writeFirstFrame cpu memory first call).wordAt (Backend.firstPointer cpu first) index
      = value := by
  have hbound := hblock.bounded
  have hpointer := (toNat_firstPointer hblock hroomy).2
  have hlength := FrameBackend.length_firstFrame cpu call
  obtain ⟨hindex, rfl⟩ := List.getElem?_eq_some_iff.1 hvalue
  exact Memory.wordAt_writeWords memory (by omega) hindex

theorem wordAt_writeFirstFrame_of_apart (memory : Memory) (hfirst : first.IsBlock)
    (hsecond : second.IsBlock) (hroomy : first.IsRoomy cpu) (hroomy' : second.IsRoomy cpu)
    (hapart : first.Apart second) {index : Nat}
    (hindex : index < (Backend.firstFrame cpu default).length) :
    (Backend.writeFirstFrame cpu memory second call).wordAt (Backend.firstPointer cpu first) index
      = memory.wordAt (Backend.firstPointer cpu first) index := by
  have hbound := hfirst.bounded
  have hbound' := hsecond.bounded
  obtain ⟨hlow, hhigh⟩ := toNat_firstPointer hfirst hroomy
  obtain ⟨hlow', hhigh'⟩ := toNat_firstPointer hsecond hroomy'
  have hlength := FrameBackend.length_firstFrame cpu call
  have hword : (Backend.firstPointer cpu first + 8 * UInt64.ofNat index).toNat =
      (Backend.firstPointer cpu first).toNat + 8 * index := Memory.toNat_add_word (by omega)
  apply Memory.word_writeWords_of_outside
  · omega
  · rcases hapart with hbelow | habove <;> omega

end Stack

/-! ## Hosts -/

instance : FrameBackend Host where
  starts host next prev hne hnot := by
    have hknown : (Backend.switch host next prev).1 = (host.gates.ensure prev).has next := rfl
    have hmissing : host.gates.has next = false := Bool.eq_false_iff.2 hnot
    rw [hknown, Host.Gates.has_ensure, hmissing, Bool.false_or]
    exact beq_false_of_ne hne.symm
  switch_adds host next prev id h := by
    have hknown : (host.gates.switch next prev).2.has id = true := h
    rw [Host.Gates.has_switch, Bool.or_eq_true, Bool.or_eq_true, beq_iff_eq, beq_iff_eq] at hknown
    rcases hknown with (hbefore | hprev) | hnext
    · exact .inl hbefore
    · exact .inr (.inl hprev.symm)
    · exact .inr (.inr hnext.symm)
  startTimer_adds host period id h := by
    simp only [Backend.startTimer] at h
    split at h <;> exact h
  firstFrame_switch _ _ _ := rfl
  firstFrame_startTimer _ _ := rfl
  length_firstFrame _ _ := rfl
  reads host call word h := by
    have hentry : word 0 = call.entry := h 0 _ rfl
    have hargument : word 1 = call.argument := h 1 _ rfl
    have hroutine : word 2 = startRoutine := h 2 _ rfl
    simp [Backend.callOfFrame, hentry, hargument, hroutine]
  room host := by
    show 8 * 4 + 16 ≤ 96
    decide

theorem Host.blank : LawfulBackend.Blank ({} : Host) :=
  fun _ hknown => Bool.noConfusion hknown

/-! ## Boards -/

instance : FrameBackend Board where
  starts board next prev _ hnot := by
    rw [← Bool.not_eq_true]
    exact fun hmem => hnot (List.contains_iff_mem.1 hmem)
  switch_adds board next prev id h := by
    simp only [Backend.switch] at h
    split at h
    next => exact .inl h
    next => exact (List.mem_cons.1 h).symm.imp_right .inl
  startTimer_adds board period id h := by
    have hmem : id ∈ (board.startTimer period).2.suspended := h
    rwa [(board.same_startTimer period).2.2] at hmem
  firstFrame_switch _ _ _ := rfl
  firstFrame_startTimer board period := by
    funext call
    show Board.firstFrame (board.startTimer period).2.model call = Board.firstFrame board.model call
    rw [(board.same_startTimer period).1]
  length_firstFrame board call := by
    simp [Backend.firstFrame, Board.firstFrame]
  reads board call word h := by
    have hentry : word 0 = call.entry := h 0 _ rfl
    have hargument : word 1 = call.argument := h 1 _ rfl
    have hroutine : word Board.resumeWord = startRoutine := h Board.resumeWord _ rfl
    simp [Backend.callOfFrame, hentry, hargument, hroutine]
  room board := by
    cases h : board.model <;>
      simp [Backend.firstFrame, Board.firstFrame, Backend.reserved, h, BoardModel.reservedBytes,
        BoardModel.switchFrameWords, BoardModel.switchFrameBytes, BoardModel.interruptFrameBytes]

theorem Board.blank {board : Board} (h : board.suspended = []) : LawfulBackend.Blank board := by
  intro id hknown
  have hmem : id ∈ board.suspended := hknown
  rw [h] at hmem
  cases hmem

end TickKernel
