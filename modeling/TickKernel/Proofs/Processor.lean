import TickKernel.Proofs.Neighbours

/-!
# Kernels on one processor

The kernels of a process share the hardware as well.  What one of them does to it is a change
between two moves of the others that leaves alone which of their threads were suspended.  A
`CoreRun` is a run of the kernels that share one processor: a kernel that has started the timer
routes the ticks next, for it has interrupts masked.
-/

namespace TickKernel

/-- A processor whose kernels each keep their own suspended threads. -/
class SharedBackend (P : Type) [Backend P] extends LawfulBackend P where
  adopts : ∀ (own seen : P) (id : ThreadId),
    suspended (Backend.adopt own seen) id ↔ suspended own id

instance : SharedBackend Host where
  adopts _ _ _ := Iff.rfl

instance : SharedBackend Board where
  adopts _ _ _ := Iff.rfl

variable {P : Type} [Backend P]

namespace Machine

/-- Nothing that holds of all runs depends on the hardware but which threads were suspended. -/
theorem Regular.withCpu [LawfulBackend P] {past : List (Transition P)} {m : Machine P}
    (h : m.Regular past) {cpu : P}
    (hsame : ∀ id, LawfulBackend.suspended cpu id ↔ LawfulBackend.suspended m.kernel.cpu id) :
    (m.modifyKernel fun kernel => { kernel with cpu := cpu }).Regular past where
  orderly := ⟨h.orderly.disciplined, h.orderly.nested, h.orderly.calm, h.orderly.bare,
    h.orderly.words⟩
  objects := h.objects
  seated := ⟨h.seated.home, h.seated.away⟩
  employed := by
    refine ⟨h.employed.serves, h.employed.unanswered, fun id hid => ?_⟩
    exact (h.employed.kept id hid).imp_left (hsame id).2

theorem Regular.after_secluded [LawfulBackend P] {past : List (Transition P)} {m : Machine P}
    {move : Move} (h : m.secluded.Regular past) (allowed : m.Allows move) :
    ∃ later, (m.after move).secluded.Regular later := by
  by_cases hspins : ∃ step rest,
      move = .exec ∧ m.context.code = step :: rest ∧ m.spins step = true
  · obtain ⟨step, rest, rfl, hcode, htaken⟩ := hspins
    rw [after, m.exec_of_spins hcode htaken]
    exact ⟨past, h⟩
  · obtain ⟨taken, hafter⟩ := h.orderly.after_secluded allowed hspins
    have hlater := h.goes (m.secluded.goes_after allowed)
    have hwords := hlater.orderly.words.others
    rw [hafter] at hlater hwords
    obtain rfl : taken = (m.after move).context.held.filter (· != .table) := hwords
    exact ⟨_, hlater⟩

end Machine

namespace Process

variable {process : Process P} {index other : Nat} {m mine after : Machine P}

theorem shared_of_machine? (h : process.machine? index = some m) : m.shared = process.shared := by
  obtain ⟨stored, -, rfl⟩ := Option.map_eq_some_iff.1 h
  rfl

theorem machine?_boot {kernels : List (Kernel P)} {shared : Shared} {hardware : P}
    (h : (Process.boot kernels shared hardware).machine? index = some m) :
    ∃ kernel ∈ kernels, m = (Machine.boot kernel shared).withHardware hardware := by
  simp only [machine?, Process.boot, List.getElem?_map, Option.map_map, Option.map_eq_some_iff,
    Function.comp_apply] at h
  obtain ⟨kernel, hkernel, rfl⟩ := h
  exact ⟨kernel, List.mem_of_getElem? hkernel, rfl⟩

theorem contextOf_machine?_boot {kernels : List (Kernel P)} {shared : Shared} {hardware : P}
    (h : (Process.boot kernels shared hardware).machine? index = some m) (id : ThreadId) :
    m.contextOf id = {} := by
  obtain ⟨kernel, -, rfl⟩ := machine?_boot h
  exact Machine.contextOf_boot kernel shared id

theorem machine?_update (h : (process.update index after).machine? other = some mine) :
    other = index ∧ mine = (after.withShared after.shared).withHardware after.kernel.cpu ∨
      other ≠ index ∧ ∃ stored, process.machines[other]? = some stored ∧
        mine = (stored.withShared after.shared).withHardware after.kernel.cpu := by
  simp only [machine?, update, Option.map_eq_some_iff] at h
  obtain ⟨stored, hstored, rfl⟩ := h
  by_cases hother : index = other
  · subst hother
    rw [List.getElem?_set, if_pos rfl] at hstored
    split at hstored
    next => exact .inl ⟨rfl, by rw [Option.some.inj hstored]⟩
    next => cases hstored
  · rw [List.getElem?_set_ne hother] at hstored
    exact .inr ⟨Ne.symm hother, stored, hstored, rfl⟩

/-- Every machine is in order beside the others. -/
structure Ordered [LawfulBackend P] (process : Process P) : Prop where
  sound : process.shared.Sound
  apart : ∀ index m, process.machine? index = some m → ∃ past, m.secluded.Regular past

namespace Ordered

variable [SharedBackend P]

theorem boot {kernels : List (Kernel P)} {values : List Int32} {mutexes : Nat} {console : Console}
    (hardware : P)
    (hnew : ∀ kernel ∈ kernels, ∃ number config policy cpu,
      kernel = .new number config policy cpu) :
    (Process.boot kernels (.new values mutexes console) hardware).Ordered where
  sound := Shared.sound_new values mutexes console
  apart index m hm := by
    obtain ⟨kernel, hkernel, rfl⟩ := machine?_boot hm
    obtain ⟨number, config, policy, cpu, rfl⟩ := hnew kernel hkernel
    have hboot := Machine.Regular.boot number config policy cpu values mutexes console
    exact ⟨[], hboot.withCpu fun id => SharedBackend.adopts cpu hardware id⟩

/-- What one kernel does leaves the others in order. -/
theorem step {move : Move} (h : process.Ordered) (hm : process.machine? index = some m)
    (allowed : m.Allows move) : (process.update index (m.after move)).Ordered := by
  have hsound : (m.after move).shared.Sound :=
    Machine.sound_of_goes (shared_of_machine? hm ▸ h.sound) (m.goes_after allowed)
  refine ⟨hsound, fun other mine hmine => ?_⟩
  rcases machine?_update hmine with ⟨rfl, rfl⟩ | ⟨-, stored, hstored, rfl⟩
  · obtain ⟨past, hregular⟩ := h.apart other m hm
    obtain ⟨later, hlater⟩ := hregular.after_secluded allowed
    exact ⟨later, hlater.withCpu fun id => SharedBackend.adopts _ _ id⟩
  · obtain ⟨past, hregular⟩ := h.apart other _ (by rw [machine?, hstored, Option.map_some])
    have hbeside : (stored.withShared (m.after move).shared).secluded.shared.Sound :=
      ⟨hsound.mutexes, hsound.semaphores⟩
    refine ⟨past, (hregular.withShared hbeside rfl).withCpu fun id => ?_⟩
    exact (SharedBackend.adopts _ _ id).trans (SharedBackend.adopts _ _ id).symm

/-- Whatever becomes of the hardware, the kernels are in order beside each other. -/
theorem withHardware (h : process.Ordered) (hardware : P) :
    ({ process with hardware := hardware } : Process P).Ordered where
  sound := h.sound
  apart index m hm := by
    obtain ⟨stored, hstored, rfl⟩ := Option.map_eq_some_iff.1 hm
    obtain ⟨past, hregular⟩ := h.apart index _ (by rw [machine?, hstored, Option.map_some])
    refine ⟨past, hregular.withCpu fun id => ?_⟩
    exact (SharedBackend.adopts _ _ id).trans (SharedBackend.adopts _ _ id).symm

end Ordered

/-! ## Runs on one processor -/

/-- A run of kernels on one processor, which a kernel keeps while it has the ticks to route. -/
inductive CoreRun (start : Process P) : List (Transition P) → Process P → Prop where
  | nil : CoreRun start [] start
  | snoc {past : List (Transition P)} {process : Process P} {index : Nat} {m : Machine P}
      (move : Move) : CoreRun start past process → process.machine? index = some m →
        m.Allows move →
          (∀ other mine, process.machine? other = some mine →
            mine.nextStep? = some .routeTicks → other = index) →
            CoreRun start (past ++ [⟨m, move⟩]) (process.update index (m.after move))

namespace CoreRun

variable {start : Process P} {past : List (Transition P)}

theorem reaches (run : CoreRun start past process) : start.Reaches process := by
  induction run with
  | nil => exact .refl
  | snoc move _ hm allowed _ ih => exact .step ih (.move move hm allowed)

theorem ordered [SharedBackend P] {kernels : List (Kernel P)} {values : List Int32}
    {mutexes : Nat} {console : Console} {hardware : P}
    (hnew : ∀ kernel ∈ kernels, ∃ number config policy cpu,
      kernel = .new number config policy cpu)
    (run : CoreRun (.boot kernels (.new values mutexes console) hardware) past process) :
    process.Ordered := by
  induction run with
  | nil => exact .boot hardware hnew
  | snoc move _ hm allowed _ ih => exact ih.step hm allowed

theorem trans {middle : Process P} {later : List (Transition P)}
    (run : CoreRun start past middle) (hlater : CoreRun middle later process) :
    CoreRun start (past ++ later) process := by
  induction hlater with
  | nil => rwa [List.append_nil]
  | snoc move _ hm allowed hkept ih =>
      rw [← List.append_assoc]
      exact ih.snoc move hm allowed hkept

end CoreRun

/-! ## Given moves -/

def plays (process : Process P) : List (Nat × Move) → Bool
  | [] => true
  | (index, move) :: moves =>
      match process.machine? index with
      | none => false
      | some m =>
          decide (m.Allows move)
            && decide (∀ other < process.machines.length,
              (process.machine? other).bind Machine.nextStep? = some .routeTicks → other = index)
            && (process.update index (m.after move)).plays moves

def play (process : Process P) : List (Nat × Move) → Process P
  | [] => process
  | (index, move) :: moves =>
      match process.machine? index with
      | none => process
      | some m => (process.update index (m.after move)).play moves

def transitions (process : Process P) : List (Nat × Move) → List (Transition P)
  | [] => []
  | (index, move) :: moves =>
      match process.machine? index with
      | none => []
      | some m => ⟨m, move⟩ :: (process.update index (m.after move)).transitions moves

theorem CoreRun.of_plays {moves : List (Nat × Move)} (h : process.plays moves = true) :
    CoreRun process (process.transitions moves) (process.play moves) := by
  induction moves generalizing process with
  | nil => exact .nil
  | cons head moves ih =>
      obtain ⟨index, move⟩ := head
      unfold plays at h
      unfold transitions play
      cases hm : process.machine? index with
      | none => simp [hm] at h
      | some m =>
          rw [hm] at h
          simp only [Bool.and_eq_true, decide_eq_true_eq] at h
          obtain ⟨⟨allowed, hkept⟩, hmoves⟩ := h
          refine .trans (CoreRun.nil.snoc move hm allowed fun other mine hmine hnext => ?_)
            (ih hmoves)
          obtain ⟨stored, hstored, -⟩ := Option.map_eq_some_iff.1 hmine
          exact hkept other (List.getElem?_eq_some_iff.1 hstored).1 (by rw [hmine]; exact hnext)

end Process

end TickKernel
