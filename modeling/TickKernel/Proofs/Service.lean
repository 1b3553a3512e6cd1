import TickKernel.Board.Interrupt
import TickKernel.Proofs.Acknowledgement
import TickKernel.Proofs.Timekeeping

/-!
# Interrupt entries among the kernels' steps

An entry is over with the interrupt controller before the kernel's tick begins, and what kernels
do has nothing to say about interrupts.  So of all that a run acknowledges nothing stays
unfinished, however many threads are in the middle of a tick.
-/

namespace TickKernel

theorem Machine.Goes.exchanges_eq {m after : Machine Board} {move : Move}
    (hgoes : m.Goes move after) :
    after.kernel.cpu.exchanges = m.kernel.cpu.exchanges := by
  cases hgoes with
  | spin | call | interrupt => rfl
  | switch _ hswitched =>
      rw [hswitched.kernel]
      rfl
  | @step step _ _ _ hstepped =>
      rw [hstepped.aftermath.cpu]
      cases step
      case armTimer => exact m.kernel.cpu.exchanges_startTimer _
      all_goals rfl

/-! ## Entries -/

namespace Process

def ticked? (process : Process Board) : Option (Nat × Machine Board) :=
  process.tickIndex?.bind fun index => (process.machine? index).map (index, ·)

def dispatchTick (process : Process Board) : Process Board :=
  match process.ticked? with
  | none => process
  | some (index, m) => process.update index m.interrupt

def withBoard (process : Process Board) (board : Board) : Process Board :=
  { process with hardware := board }

/-- An interrupt is entered.  The controller is dealt with first, then a due tick is handed on. -/
def serve (process : Process Board) : Process Board :=
  let (due, board) := process.hardware.serveInterrupt
  if due then (process.withBoard board).dispatchTick else process.withBoard board

/--
An interrupt can be entered.  A due tick needs a thread that takes interrupts; any other entry
is over before anybody goes on.
-/
def Enterable (process : Process Board) : Prop :=
  process.hardware.raised = Board.timerInterrupt →
    ∀ index m, process.ticked? = some (index, m) → m.interruptsEnabled = true

variable {process : Process Board} {index : Nat} {m : Machine Board}

theorem enterable_iff (process : Process Board) :
    process.Enterable ↔ process.hardware.raised = Board.timerInterrupt →
      process.ticked?.all (·.2.interruptsEnabled) = true := by
  rw [Enterable]
  refine imp_congr_right fun _ => ?_
  cases process.ticked? with
  | none => simp
  | some ticked => simp [Prod.ext_iff]

instance (process : Process Board) : Decidable process.Enterable :=
  decidable_of_iff _ process.enterable_iff.symm

theorem machine?_of_ticked? (h : process.ticked? = some (index, m)) :
    process.tickIndex? = some index ∧ process.machine? index = some m := by
  obtain ⟨place, hplace, hm⟩ := Option.bind_eq_some_iff.1 h
  obtain ⟨mine, hmine, heq⟩ := Option.map_eq_some_iff.1 hm
  cases heq
  exact ⟨hplace, hmine⟩

theorem machine?_withBoard (process : Process Board) (board : Board) (index : Nat) :
    (process.withBoard board).machine? index =
      (process.machine? index).map (·.withHardware board) := by
  simp only [machine?, withBoard, Option.map_map]
  rfl

theorem ticked?_withBoard (process : Process Board) (board : Board) :
    (process.withBoard board).ticked? =
      process.ticked?.map fun ticked => (ticked.1, ticked.2.withHardware board) := by
  simp only [ticked?, machine?_withBoard, Option.map_bind, Function.comp_def, Option.map_map]
  rfl

theorem tickTarget_of_ticked? (h : process.ticked? = some (index, m)) :
    m.shared.tickTarget = some m.kernel.number := by
  obtain ⟨hindex, hm⟩ := machine?_of_ticked? h
  obtain ⟨number, htarget, hfind⟩ := Option.bind_eq_some_iff.1 hindex
  obtain ⟨hlt, hnumber, -⟩ := List.findIdx?_eq_some_iff_getElem.1 hfind
  obtain ⟨stored, hstored, rfl⟩ := Option.map_eq_some_iff.1 hm
  rw [List.getElem?_eq_getElem hlt] at hstored
  obtain rfl := Option.some.inj hstored
  exact htarget.trans (congrArg some (beq_iff_eq.1 hnumber).symm)

/-- What an entry comes to. -/
inductive Serves (process : Process Board) : Process Board → Prop where
  /-- No tick is due, or there is nobody to be ticked. -/
  | still (hidle : process.hardware.raised = Board.timerInterrupt → process.ticked? = none) :
      Serves process (process.withBoard process.hardware.serveInterrupt.2)
  | ticked (index : Nat) (m : Machine Board)
      (htimer : process.hardware.raised = Board.timerInterrupt)
      (hticked : process.ticked? = some (index, m)) :
      Serves process ((process.withBoard process.hardware.serveInterrupt.2).update index
        (m.withHardware process.hardware.serveInterrupt.2).interrupt)

theorem serves (process : Process Board) : process.Serves process.serve := by
  have hdue := process.hardware.serveInterrupt_eq_true
  have hlater := ticked?_withBoard process process.hardware.serveInterrupt.2
  unfold serve
  cases hserved : process.hardware.serveInterrupt.1 with
  | false =>
      simp only [hserved, Bool.false_eq_true, if_false]
      exact .still fun htimer => Bool.noConfusion (hserved.symm.trans (hdue.2 htimer))
  | true =>
      simp only [hserved, if_true, dispatchTick, hlater]
      cases hticked : process.ticked? with
      | none => exact .still fun _ => hticked
      | some ticked => exact .ticked ticked.1 ticked.2 (hdue.1 hserved) hticked

theorem machine?_withBoard_of_ticked? (h : process.ticked? = some (index, m)) (board : Board) :
    (process.withBoard board).machine? index = some (m.withHardware board) := by
  rw [machine?_withBoard, (machine?_of_ticked? h).2, Option.map_some]

/-- What an entry does to the board is done before a tick is handed on. -/
theorem served (process : Process Board) : process.hardware.Served process.serve.hardware := by
  have hserved := process.hardware.served
  have hserves := process.serves
  generalize process.serve = later at hserves ⊢
  cases hserves with
  | still => exact hserved
  | ticked => exact ⟨hserved.trace, hserved.model, hserved.interval⟩

/-- The kernels are in order after an entry, if whoever is ticked takes interrupts. -/
theorem Ordered.serve (h : process.Ordered) (htaken : process.Enterable) :
    process.serve.Ordered := by
  have hboard := h.withHardware process.hardware.serveInterrupt.2
  have hserves := process.serves
  generalize process.serve = later at hserves ⊢
  cases hserves with
  | still => exact hboard
  | ticked index m htimer hticked =>
      have hallowed : (m.withHardware process.hardware.serveInterrupt.2).Allows .interrupt :=
        htaken htimer index m hticked
      exact hboard.step (machine?_withBoard_of_ticked? hticked _) hallowed

/-- An entry interrupts the kernel that is ticked if a tick is due, and leaves the others alone. -/
theorem contexts_serve {later : Machine Board} (h : process.serve.machine? index = some later) :
    ∃ m, process.machine? index = some m ∧
      (process.hardware.raised = Board.timerInterrupt ∧ process.ticked? = some (index, m) ∧
          later.contexts = m.interrupt.contexts ∨
        (process.hardware.raised = Board.timerInterrupt →
            ∀ ticked ∈ process.ticked?, ticked.1 ≠ index) ∧
          later.contexts = m.contexts) := by
  have hserves := process.serves
  generalize process.serve = after at h hserves
  cases hserves with
  | still hidle =>
      rw [machine?_withBoard, Option.map_eq_some_iff] at h
      obtain ⟨m, hm, rfl⟩ := h
      exact ⟨m, hm, .inr ⟨fun htimer => by simp [hidle htimer], rfl⟩⟩
  | ticked place own htimer hticked =>
      rcases machine?_update h with ⟨rfl, rfl⟩ | ⟨hother, stored, hstored, rfl⟩
      · exact ⟨own, (machine?_of_ticked? hticked).2, .inl ⟨htimer, hticked, rfl⟩⟩
      · have hm : process.machine? index =
            some ((stored.withShared process.shared).withHardware process.hardware) :=
          congrArg (Option.map _) hstored
        exact ⟨_, hm, .inr ⟨fun _ => by simp [hticked, Ne.symm hother], rfl⟩⟩

theorem enterInterrupt_of_machine? (h : process.machine? index = some m) :
    Board.enterInterrupt m =
      (process.hardware.serveInterrupt.1, m.withHardware process.hardware.serveInterrupt.2) := by
  obtain ⟨stored, -, rfl⟩ := Option.map_eq_some_iff.1 h
  have hserved := Board.serveInterrupt_adopt stored.kernel.cpu process.hardware
  unfold Board.enterInterrupt
  rw [show ((stored.withShared process.shared).withHardware process.hardware).kernel.cpu =
    Backend.adopt stored.kernel.cpu process.hardware from rfl, hserved]
  rfl

theorem machine?_serve (h : process.ticked? = some (index, m)) :
    process.serve.machine? index = some (Board.deliver m) := by
  have hboard := machine?_withBoard_of_ticked? h process.hardware.serveInterrupt.2
  have htarget := tickTarget_of_ticked? h
  have hrouted : (m.withHardware process.hardware.serveInterrupt.2).shared.tickTarget ==
      some (m.withHardware process.hardware.serveInterrupt.2).kernel.number :=
    beq_iff_eq.2 htarget
  have hdue := process.hardware.serveInterrupt_eq_true
  have hserves := process.serves
  unfold Board.deliver
  rw [enterInterrupt_of_machine? (machine?_of_ticked? h).2]
  simp only [hrouted, Bool.and_true]
  generalize process.serve = later at hserves ⊢
  cases hserves with
  | still hidle =>
      rw [if_neg, hboard]
      intro htimer
      cases h.symm.trans (hidle (hdue.1 htimer))
  | ticked place own htimer hticked =>
      cases hticked.symm.trans h
      rw [if_pos (hdue.2 htimer)]
      exact machine?_update_self hboard _

end Process

/-! ## Runs with interrupts -/

/-- One thing that happens on a board with kernels on it. -/
inductive Occurrence where
  /-- A kernel makes a move. -/
  | move (index : Nat) (t : Transition Board)
  /-- The devices change their words. -/
  | devices
  /-- An interrupt is entered. -/
  | entry (before : Process Board)

def Occurrence.raised? : Occurrence → Option UInt32
  | .entry before => some before.hardware.raised
  | .move .. | .devices => none

namespace Process

/--
A run of kernels on a board whose devices change their words as they like, and where any
interrupt is entered at any instant at which it can be.
-/
inductive ServedRun (start : Process Board) : List Occurrence → Process Board → Prop where
  | nil : ServedRun start [] start
  | move {past : List Occurrence} {process : Process Board} {index : Nat} {m : Machine Board}
      (move : Move) : ServedRun start past process → process.machine? index = some m →
        m.Allows move → move ≠ .interrupt →
          ServedRun start (past ++ [.move index ⟨m, move⟩]) (process.update index (m.after move))
  | devices {past : List Occurrence} {process : Process Board} (words : UInt64 → UInt32) :
      ServedRun start past process →
        ServedRun start (past ++ [.devices])
          (process.withBoard { process.hardware with words := words })
  | entry {past : List Occurrence} {process : Process Board} : ServedRun start past process →
      process.Enterable → ServedRun start (past ++ [.entry process]) process.serve

namespace ServedRun

variable {start process : Process Board} {past : List Occurrence} {index : Nat}
  {m : Machine Board}

theorem hardware_of_machine? (hm : process.machine? index = some m) :
    m.kernel.cpu.exchanges = process.hardware.exchanges := by
  obtain ⟨stored, -, rfl⟩ := Option.map_eq_some_iff.1 hm
  rfl

/-- Every entry so far found one interrupt and was done with it. -/
theorem exchanges_eq (run : ServedRun start past process) :
    process.hardware.exchanges = start.hardware.exchanges ++
      (past.filterMap Occurrence.raised?).flatMap Exchange.ofEntry := by
  induction run with
  | nil => simp
  | @move past process index m move run hm allowed hmove ih =>
      have hsame : (process.update index (m.after move)).hardware.exchanges =
          process.hardware.exchanges :=
        (m.goes_after allowed).exchanges_eq.trans (hardware_of_machine? hm)
      rw [hsame, ih, List.filterMap_append]
      simp [Occurrence.raised?]
  | @devices past process words run ih =>
      have hsame : (process.withBoard { process.hardware with words }).hardware.exchanges =
          process.hardware.exchanges := rfl
      rw [hsame, ih, List.filterMap_append]
      simp [Occurrence.raised?]
  | @entry past process run htaken ih =>
      rw [process.served.exchanges, ih, List.filterMap_append]
      simp [Occurrence.raised?]

theorem unfinished_eq (run : ServedRun start past process) :
    process.hardware.unfinished = start.hardware.unfinished := by
  rw [Board.unfinished, run.exchanges_eq, List.foldl_append, Exchange.foldl_flatMap_ofEntry]
  rfl

/-- Nobody makes a move with an interrupt unfinished. -/
theorem unfinished_of_mem (run : ServedRun start past process) {index : Nat}
    {t : Transition Board} (hmem : .move index t ∈ past) :
    t.before.kernel.cpu.unfinished = start.hardware.unfinished := by
  induction run with
  | nil => cases hmem
  | move move run hm allowed hmove ih =>
      rcases List.mem_append.1 hmem with hmem | hmem
      · exact ih hmem
      · cases List.mem_singleton.1 hmem
        rw [Board.unfinished, hardware_of_machine? hm]
        exact run.unfinished_eq
  | devices words run ih | entry run htaken ih =>
      rcases List.mem_append.1 hmem with hmem | hmem
      · exact ih hmem
      · cases List.mem_singleton.1 hmem

theorem ordered {kernels : List (Kernel Board)} {values : List Int32} {mutexes : Nat}
    {console : Console} {hardware : Board}
    (hnew : ∀ kernel ∈ kernels, ∃ number config policy cpu,
      kernel = .new number config policy cpu)
    (run : ServedRun (.boot kernels (.new values mutexes console) hardware) past process) :
    process.Ordered := by
  induction run with
  | nil => exact .boot hardware hnew
  | move move _ hm allowed _ ih => exact ih.step hm allowed
  | devices words _ ih => exact ih.withHardware _
  | entry _ htaken ih => exact ih.serve htaken

end ServedRun

end Process

end TickKernel
