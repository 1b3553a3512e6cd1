import TickKernel.Kernel.Process
import TickKernel.Proofs.Requests

/-!
# A kernel among others

The kernels of a process share synchronization objects, the console and the packets of
closures.  Seen from one of them, what the others do is a change of what they share,
between two moves of its own, that leaves alone the locks that its own threads hold.
A `SharedRun` is a run of one kernel seen in that way, and every process consists of
such runs side by side: a thread that spins for another kernel's lock makes no move.
-/

namespace TickKernel

variable {P : Type}

/-- A run of one kernel, between whose moves others change what they share with it. -/
inductive SharedRun [Backend P] (start : Machine P) :
    List (Transition P) → Machine P → Prop where
  | nil : SharedRun start [] start
  | snoc {past : List (Transition P)} {m : Machine P} (move : Move) :
      SharedRun start past m → m.Allows move →
        SharedRun start (past ++ [⟨m, move⟩]) (m.after move)
  | others {past : List (Transition P)} {m : Machine P} (shared : Shared) :
      SharedRun start past m → shared.Sound → shared.taken = m.shared.taken →
        SharedRun start past (m.withShared shared)

namespace Machine

/-! ## What others leave alone -/

section

variable {struck : Prop} {past : List (Transition P)} {m : Machine P} {shared : Shared}

theorem Orderly.withShared (h : m.Orderly struck) (htaken : shared.taken = m.shared.taken) :
    (m.withShared shared).Orderly struck where
  disciplined := h.disciplined
  nested := h.nested
  calm := h.calm
  bare := h.bare
  words := by
    have hwords := h.words
    rw [← htaken] at hwords
    exact hwords

theorem Regular.withShared [Backend P] [LawfulBackend P] (h : m.Regular past)
    (hsound : shared.Sound) (htaken : shared.taken = m.shared.taken) :
    (m.withShared shared).Regular past where
  orderly := h.orderly.withShared htaken
  objects := hsound
  seated := ⟨h.seated.home, h.seated.away⟩
  employed := ⟨h.employed.serves, h.employed.unanswered, h.employed.kept⟩

theorem contextOf_boot (kernel : Kernel P) (shared : Shared) (id : ThreadId) :
    (boot kernel shared).contextOf id = {} := by
  show (Vector.replicate maxThreads ({} : Context))[id] = {}
  simp

theorem Regular.boot [Backend P] [LawfulBackend P] (number : Nat) (config : Config)
    (policy : Policy) (cpu : P) (values : List Int32) (mutexes : Nat) (console : Console) :
    (Machine.boot (.new number config policy cpu) (.new values mutexes console)).Regular [] := by
  have hstart : Run (Machine.fresh config policy cpu values mutexes console) [] _ := .nil
  have h := hstart.regular
  exact
    { orderly := ⟨h.orderly.disciplined, h.orderly.nested, h.orderly.calm, h.orderly.bare,
        h.orderly.words⟩
      objects := h.objects
      seated := ⟨h.seated.home, h.seated.away⟩
      employed := ⟨h.employed.serves, h.employed.unanswered, h.employed.kept⟩ }

end

end Machine

namespace SharedRun

variable [Backend P] {start m : Machine P} {past : List (Transition P)}

/-- What holds at the start, is kept by every move and by what others do, always holds. -/
theorem invariant (Good : List (Transition P) → Machine P → Prop) (run : SharedRun start past m)
    (base : Good [] start)
    (step : ∀ past m move, SharedRun start past m → Good past m → m.Goes move (m.after move) →
      Good (past ++ [⟨m, move⟩]) (m.after move))
    (others : ∀ past m shared, SharedRun start past m → Good past m → shared.Sound →
      shared.taken = m.shared.taken → Good past (m.withShared shared)) : Good past m := by
  induction run with
  | nil => exact base
  | snoc move run allowed ih => exact step _ _ move run ih (Machine.goes_after _ allowed)
  | others shared run hsound htaken ih => exact others _ _ shared run ih hsound htaken

theorem before {earlier later : List (Transition P)} {t : Transition P}
    (run : SharedRun start (earlier ++ t :: later) m) :
    SharedRun start earlier t.before ∧ t.before.Allows t.move := by
  generalize hpast : earlier ++ t :: later = past at run
  induction run generalizing later with
  | nil => simp at hpast
  | @snoc moves last move run allowed ih =>
      rcases divided_snoc hpast with ⟨-, rfl, rfl⟩ | ⟨others, -, hearlier⟩
      · exact ⟨run, allowed⟩
      · exact ih hearlier
  | others shared run hsound htaken ih => exact ih hpast

variable [LawfulBackend P] {number : Nat} {config : Config} {policy : Policy} {cpu : P}
  {values : List Int32} {mutexes : Nat} {console : Console}

theorem regular
    (run : SharedRun (.boot (.new number config policy cpu) (.new values mutexes console)) past m) :
    m.Regular past := by
  refine run.invariant (fun past m => m.Regular past) ?_ ?_ ?_
  · exact .boot number config policy cpu values mutexes console
  · exact fun _ _ _ _ h hgoes => h.goes hgoes
  · exact fun _ _ _ _ h hsound htaken => h.withShared hsound htaken

end SharedRun

theorem Run.sharedRun [Backend P] {start m : Machine P} {past : List (Transition P)}
    (run : Run start past m) : SharedRun start past m := by
  induction run with
  | nil => exact .nil
  | snoc move _ allowed ih => exact ih.snoc move allowed

/-! ## Processes -/

namespace Machine

def withTaken (m : Machine P) (taken : List SpinLock) : Machine P :=
  m.withShared { m.shared with taken := taken }

/-- The machine without the locks that other kernels' threads hold. -/
def secluded (m : Machine P) : Machine P :=
  m.withTaken (m.context.held.filter (· != .table))

section

variable (m : Machine P) (taken : List SpinLock)

@[simp]
theorem kernel_withTaken : (m.withTaken taken).kernel = m.kernel :=
  rfl

@[simp]
theorem context_withTaken : (m.withTaken taken).context = m.context :=
  rfl

@[simp]
theorem mutexes_withTaken : (m.withTaken taken).shared.mutexes = m.shared.mutexes :=
  rfl

@[simp]
theorem semaphores_withTaken : (m.withTaken taken).shared.semaphores = m.shared.semaphores :=
  rfl

/-- Whatever a step does, it does with other words in the locks as well. -/
theorem perform_withTaken [Backend P] (step : Step) :
    (m.withTaken taken).perform step = (m.perform step).withTaken (step.takenAfter taken) := by
  cases step
  case take lock => cases lock <;> rfl
  case free lock => cases lock <;> rfl
  case identify use => cases use <;> rfl
  case countThreads use => cases use <;> rfl
  case choose use => cases use <;> rfl
  case snapshot use => cases use <;> rfl
  case allocate creation =>
      simp only [perform, allocate, kernel_withTaken]
      split
      next hlarge => simp only [hlarge, if_true]; rfl
      next hlarge =>
          simp only [hlarge, if_false]
          split
          all_goals rfl
  all_goals
    simp only [perform, enter, enroll, armTimer, leaveBody, checkTarget, dispatch, checkDeadline,
      checkRoom, claimStart, tryAcquire, tryRelease, tryTake, giveBack, switch,
      kernel_withTaken, context_withTaken, mutexes_withTaken, semaphores_withTaken]
    repeat' split
  all_goals
    first
    | rfl
    | simp only [if_pos, *]; rfl

end

section

variable {struck : Prop} {m : Machine P}

/-- Among its own locks a thread spins for the table's at most, and for that among all. -/
theorem Orderly.spins_secluded (h : m.secluded.Orderly struck) {step : Step} {rest : List Step}
    (hcode : m.context.code = step :: rest) (hfree : m.spins step = false) :
    m.secluded.spins step = false := by
  by_cases hdead : step.IsDead m.context.cover
  · cases step
    case take lock =>
        -- the word of the table's lock belongs to the kernel
        obtain ⟨rfl, -⟩ := hdead
        exact hfree
    all_goals rfl
  · rw [h.spins_eq_false_iff]
    rintro lock hmem rfl
    exact (h.stands_of_code hcode hdead).2 hmem

/-- A move that does not spin is the same move without the locks of others. -/
theorem Orderly.after_secluded [Backend P] {move : Move} (h : m.secluded.Orderly struck)
    (allowed : m.Allows move)
    (hfree : ¬ ∃ step rest,
      move = .exec ∧ m.context.code = step :: rest ∧ m.spins step = true) :
    ∃ taken, m.secluded.after move = (m.after move).withTaken taken := by
  cases move with
  | call request => exact ⟨_, rfl⟩
  | interrupt => exact ⟨_, rfl⟩
  | exec =>
      cases hcode : m.context.code with
      | nil => simp [Allows, atUserLevel, hcode] at allowed
      | cons step rest =>
          have hspins : m.spins step = false := by
            rw [← Bool.not_eq_true]
            exact fun htaken => hfree ⟨step, rest, rfl, hcode, htaken⟩
          refine ⟨step.takenAfter m.secluded.shared.taken, ?_⟩
          rw [after, after, exec_of_code m.secluded hcode (h.spins_secluded hcode hspins),
            exec_of_code m hcode hspins]
          exact (m.setCode rest).perform_withTaken _ step

end

end Machine

namespace Process

def boot (kernels : List (Kernel P)) (shared : Shared) (hardware : P) : Process P where
  machines := kernels.map (Machine.boot · shared)
  shared := shared
  hardware := hardware

theorem machine?_eq {process : Process Host} {index : Nat} :
    process.machine? index = process.machines[index]?.map (·.withShared process.shared) :=
  rfl

/-- Every machine is one of a run of its kernel, others having gone on between its moves. -/
structure Composed (values : List Int32) (mutexes : Nat) (console : Console)
    (process : Process Host) : Prop where
  sound : process.shared.Sound
  apart : ∀ index m, process.machine? index = some m → ∃ number config policy past,
    SharedRun (.boot (.new number config policy {}) (.new values mutexes console)) past m.secluded

namespace Composed

variable {values : List Int32} {mutexes : Nat} {console : Console} {process : Process Host}

theorem boot {kernels : List (Kernel Host)} (hardware : Host)
    (hnew : ∀ kernel ∈ kernels, ∃ number config policy, kernel = .new number config policy {}) :
    (Process.boot kernels (.new values mutexes console) hardware).Composed
      values mutexes console where
  sound := Shared.sound_new values mutexes console
  apart index m hm := by
    simp only [machine?_eq, Process.boot, List.getElem?_map, Option.map_map, Option.map_eq_some_iff,
      Function.comp_apply] at hm
    obtain ⟨kernel, hkernel, rfl⟩ := hm
    obtain ⟨number, config, policy, rfl⟩ := hnew kernel (List.mem_of_getElem? hkernel)
    exact ⟨number, config, policy, [], .nil⟩

theorem apart_move {m : Machine Host} {past : List (Transition Host)} {number : Nat}
    {config : Config} {policy : Policy} {move : Move}
    (run : SharedRun (.boot (.new number config policy {}) (.new values mutexes console)) past
      m.secluded)
    (allowed : m.Allows move) :
    ∃ later, SharedRun (.boot (.new number config policy {}) (.new values mutexes console)) later
      (m.after move).secluded := by
  by_cases hspins : ∃ step rest,
      move = .exec ∧ m.context.code = step :: rest ∧ m.spins step = true
  · obtain ⟨step, rest, rfl, hcode, htaken⟩ := hspins
    rw [Machine.after, m.exec_of_spins hcode htaken]
    exact ⟨past, run⟩
  · obtain ⟨taken, hafter⟩ := run.regular.orderly.after_secluded allowed hspins
    have hrun := run.snoc move allowed
    have hwords := hrun.regular.orderly.words.others
    rw [hafter] at hrun hwords
    obtain rfl : taken = (m.after move).context.held.filter (· != .table) := hwords
    exact ⟨_, hrun⟩

theorem step {later : Process Host} (h : process.Composed values mutexes console)
    (hstep : Process.Step process later) : later.Composed values mutexes console := by
  obtain @⟨index, m, move, hm, allowed⟩ := hstep
  have hshared : m.shared = process.shared := by
    rw [machine?_eq, Option.map_eq_some_iff] at hm
    obtain ⟨mine, -, rfl⟩ := hm
    rfl
  have hsound : (m.after move).shared.Sound :=
    Machine.sound_of_goes (hshared ▸ h.sound) (m.goes_after allowed)
  refine ⟨hsound, fun other mine hmine => ?_⟩
  simp only [machine?_eq, update, Option.map_eq_some_iff] at hmine
  obtain ⟨stored, hstored, rfl⟩ := hmine
  by_cases hother : index = other
  · subst hother
    rw [List.getElem?_set, if_pos rfl] at hstored
    split at hstored
    next =>
        obtain rfl := Option.some.inj hstored
        obtain ⟨number, config, policy, past, run⟩ := h.apart index m hm
        exact ⟨number, config, policy, apart_move run allowed⟩
    next => cases hstored
  · -- another machine stands still, with the shared state as the move left it
    rw [List.getElem?_set_ne hother] at hstored
    obtain ⟨number, config, policy, past, run⟩ :=
      h.apart other _ (by rw [machine?_eq, hstored, Option.map_some])
    exact ⟨number, config, policy, past,
      run.others (stored.withShared (m.after move).shared).secluded.shared
        ⟨hsound.mutexes, hsound.semaphores⟩ rfl⟩

end Composed

/-- Every kernel of a process of hosts is in a run of its own beside the others. -/
theorem Reaches.sharedRun {kernels : List (Kernel Host)} {values : List Int32} {mutexes : Nat}
    {console : Console} {hardware : Host} {process : Process Host}
    (hnew : ∀ kernel ∈ kernels, ∃ number config policy, kernel = .new number config policy {})
    (h : (Process.boot kernels (.new values mutexes console) hardware).Reaches process)
    {index : Nat} {m : Machine Host} (hm : process.machine? index = some m) :
    ∃ number config policy past,
      SharedRun (.boot (.new number config policy {}) (.new values mutexes console)) past
        m.secluded := by
  have hcomposed : process.Composed values mutexes console := by
    clear hm
    induction h with
    | refl => exact .boot hardware hnew
    | step _ hstep ih => exact ih.step hstep
  exact hcomposed.apart index m hm

end Process

end TickKernel
