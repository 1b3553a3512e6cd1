import TickKernel.Board.Device
import TickKernel.Board.Processor
import Mathlib.Algebra.Group.Int.Defs
import Mathlib.Algebra.Group.Nat.Defs

/-!
# The tick timer of a board

A start of the timer reaches its registers only after everything that can refuse it, so a
refused start leaves a running timer alone.  A start that succeeds sets the interval, and from
then on the timer is programmed by that interval and no other, whatever is done to the board,
until a start succeeds again.  What the timer makes of an interval is another matter: it reads
it as a signed word.
-/

namespace TickKernel

def Access.isTimer : Access → Bool
  | .timerValue _ | .timerControl _ => true
  | .read .. | .write .. | .vectors => false

namespace Board

def timerAccesses (board : Board) : List Access :=
  board.trace.filter Access.isTimer

def programming (interval : UInt64) : List Access :=
  [.timerValue interval, .timerControl 1]

theorem timerAccesses_record_of_not_timer (board : Board) {access : Access}
    (h : access.isTimer = false) : (board.record access).timerAccesses = board.timerAccesses := by
  simp [timerAccesses, record, h]

theorem timerAccesses_rearm (board : Board) :
    board.rearm.timerAccesses = board.timerAccesses ++ programming board.interval := by
  simp [timerAccesses, rearm, record, programming, Access.isTimer]

/-! ## Accesses to the other devices -/

/-- What a board keeps while only devices other than its timer are accessed. -/
structure Keeps (board after : Board) : Prop where
  model : after.model = board.model
  frequency : after.frequency = board.frequency
  interval : after.interval = board.interval
  timer : after.timerAccesses = board.timerAccesses
  suspended : after.suspended = board.suspended

variable {board middle after : Board}

theorem Keeps.refl (board : Board) : board.Keeps board :=
  ⟨rfl, rfl, rfl, rfl, rfl⟩

theorem Keeps.trans (h : board.Keeps middle) (hafter : middle.Keeps after) :
    board.Keeps after where
  model := hafter.model.trans h.model
  frequency := hafter.frequency.trans h.frequency
  interval := hafter.interval.trans h.interval
  timer := hafter.timer.trans h.timer
  suspended := hafter.suspended.trans h.suspended

namespace Keeps

theorem record (h : board.Keeps after) {access : Access} (hother : access.isTimer = false) :
    board.Keeps (after.record access) where
  model := h.model
  frequency := h.frequency
  interval := h.interval
  timer := (after.timerAccesses_record_of_not_timer hother).trans h.timer
  suspended := h.suspended

theorem poke (h : board.Keeps after) (address : UInt64) (value : UInt32) :
    board.Keeps (after.poke address value) :=
  ⟨h.model, h.frequency, h.interval, h.timer, h.suspended⟩

theorem write (h : board.Keeps after) (address : UInt64) (value : UInt32) :
    board.Keeps (after.write address value) :=
  (h.poke address value).record rfl

theorem read (h : board.Keeps after) (address : UInt64) : board.Keeps (after.read address).2 :=
  h.record rfl

theorem foldl {α : Type} {access : Board → α → Board} (h : board.Keeps after)
    (hkeeps : ∀ board item, Keeps board (access board item)) (items : List α) :
    board.Keeps (items.foldl access after) := by
  induction items generalizing after with
  | nil => exact h
  | cons item items ih => exact ih (h.trans (hkeeps after item))

theorem clearBanks (h : board.Keeps after) (count : Nat) : board.Keeps (after.clearBanks count) :=
  h.foldl (fun board _ => ((refl board).write _ _).write _ _) _

theorem lowerPriorities (h : board.Keeps after) (count : Nat) :
    board.Keeps (after.lowerPriorities count) :=
  h.foldl (fun board _ => (refl board).write _ _) _

theorem enableInterrupt (h : board.Keeps after) (interrupt : UInt32) (priority : UInt8) :
    board.Keeps (after.enableInterrupt interrupt priority) :=
  ((h.read _).write _ _).write _ _

theorem resetController (h : board.Keeps after) : board.Keeps after.resetController.2 := by
  have hread := h.read (after.distributorAddress .kind 0)
  simp only [Board.resetController]
  split
  next => exact hread
  next =>
      have hclosed := hread.write
        ((after.read (after.distributorAddress .kind 0)).2.distributorAddress .control 0) 0
      exact (((((hclosed.clearBanks _).lowerPriorities _).write _ _).write _ _).write _ _).write _ _

theorem startController (h : board.Keeps after) : board.Keeps after.startController.2 := by
  have hreset := h.resetController
  unfold Board.startController
  split
  next heq =>
      rw [heq] at hreset
      exact hreset
  next heq =>
      rw [heq] at hreset
      exact hreset.enableInterrupt _ _

theorem acknowledge (h : board.Keeps after) : board.Keeps after.acknowledge.2 :=
  h.read _

theorem complete (h : board.Keeps after) (interrupt : UInt32) :
    board.Keeps (after.complete interrupt) :=
  h.write _ _

end Keeps

/-! ## What a start comes to -/

def kind (board : Board) : UInt32 :=
  board.words (board.distributorAddress .kind 0)

def Answers (board : Board) : Prop :=
  board.kind ≠ allOnes ∧ board.kind ≠ 0

instance (board : Board) : Decidable board.Answers :=
  inferInstanceAs (Decidable (_ ∧ _))

theorem resetController_eq_true (board : Board) :
    board.resetController.1 = true ↔ board.Answers := by
  by_cases hmissing : board.kind = allOnes ∨ board.kind = 0
  · have hreset : board.resetController = (false, _) := if_pos hmissing
    rw [hreset]
    exact ⟨Bool.noConfusion, fun hanswers => absurd hmissing (not_or.2 hanswers)⟩
  · have hreset : board.resetController = (true, _) := if_neg hmissing
    rw [hreset]
    exact ⟨fun _ => not_or.1 hmissing, fun _ => rfl⟩

theorem startController_eq_true (board : Board) :
    board.startController.1 = true ↔ board.Answers := by
  rw [← resetController_eq_true]
  unfold startController
  split
  next heq => simp [heq]
  next heq => simp [heq]

/-- The counts of a period are at least one, and fit the timer's field. -/
def Fits (frequency : UInt64) (period : UInt32) : Prop :=
  countsPerTick frequency period ≠ 0 ∧ countsPerTick frequency period ≤ 0xFFFFFFFF

theorem not_fits_iff (frequency : UInt64) (period : UInt32) :
    ¬Fits frequency period ↔
      countsPerTick frequency period = 0 ∨ 0xFFFFFFFF < countsPerTick frequency period := by
  rw [Fits, Classical.not_and_iff_not_or_not, Classical.not_not, UInt64.not_le]

/-- What a start of the timer comes to, with the board that it leaves. -/
inductive Starts (board : Board) (period : UInt32) : Except TimerFailure Unit × Board → Prop where
  /-- There is no controller, or the counter stands still. -/
  | missing (after : Board) (hmissing : ¬board.Answers ∨ board.frequency = 0)
      (hkeeps : board.Keeps after) : Starts board period (.error .notAvailable, after)
  | unfit (after : Board) (hanswers : board.Answers) (hrunning : board.frequency ≠ 0)
      (hunfit : ¬Fits board.frequency period) (hkeeps : board.Keeps after) :
      Starts board period (.error (.invalidPeriod period), after)
  /-- The timer is programmed last of all. -/
  | started (ready : Board) (hanswers : board.Answers) (hrunning : board.frequency ≠ 0)
      (hfits : Fits board.frequency period) (hkeeps : board.Keeps ready) :
      Starts board period
        (.ok (), { ready with interval := countsPerTick board.frequency period }.rearm)

theorem starts (board : Board) (period : UInt32) :
    board.Starts period (board.startTimer period) := by
  have hanswers : (board.record .vectors).startController.1 = true ↔ board.Answers :=
    startController_eq_true _
  have hkeeps : board.Keeps (board.record .vectors).startController.2 :=
    ((Keeps.refl board).record rfl).startController
  unfold startTimer
  split
  next heq =>
      rw [heq] at hanswers hkeeps
      exact .missing _ (.inl fun h => Bool.noConfusion (hanswers.2 h)) hkeeps
  next ready heq =>
      rw [heq] at hanswers hkeeps
      -- the controller is reset first, which leaves the frequency alone
      have hfrequency : ready.frequency = board.frequency := hkeeps.frequency
      have hcounts : countsPerTick ready.frequency period = countsPerTick board.frequency period :=
        congrArg (countsPerTick · period) hfrequency
      split
      next hstill => exact .missing _ (.inr (hfrequency ▸ hstill)) hkeeps
      next hrunning =>
          rw [hfrequency] at hrunning
          simp only [hcounts]
          have hunfit_iff := not_fits_iff board.frequency period
          split
          next hunfit => exact .unfit _ (hanswers.1 rfl) hrunning (hunfit_iff.2 hunfit) hkeeps
          next hfits =>
              have hfits : Fits board.frequency period :=
                Classical.not_not.1 (mt hunfit_iff.1 hfits)
              exact .started ready (hanswers.1 rfl) hrunning hfits hkeeps

theorem startTimer_eq_ok (board : Board) (period : UInt32) :
    (board.startTimer period).1 = .ok () ↔
      board.Answers ∧ board.frequency ≠ 0 ∧ Fits board.frequency period := by
  have hstarts := board.starts period
  generalize board.startTimer period = outcome at hstarts
  cases hstarts with
  | missing after hmissing hkeeps =>
      simp only [reduceCtorEq, false_iff]
      exact fun ⟨hanswers, hrunning, _⟩ => hmissing.elim (· hanswers) hrunning
  | unfit after hanswers hrunning hunfit hkeeps => simp [hunfit]
  | started ready hanswers hrunning hfits hkeeps => simp [hanswers, hrunning, hfits]

theorem startTimer_eq_notAvailable (board : Board) (period : UInt32) :
    (board.startTimer period).1 = .error .notAvailable ↔
      ¬board.Answers ∨ board.frequency = 0 := by
  have hstarts := board.starts period
  generalize board.startTimer period = outcome at hstarts
  cases hstarts with
  | missing after hmissing hkeeps => exact iff_of_true rfl hmissing
  | unfit after hanswers hrunning hunfit hkeeps => simp [hanswers, hrunning]
  | started ready hanswers hrunning hfits hkeeps => simp [hanswers, hrunning]

/-- A period is refused only if everything is there that a start needs. -/
theorem startTimer_eq_invalidPeriod (board : Board) (period : UInt32) :
    (board.startTimer period).1 = .error (.invalidPeriod period) ↔
      board.Answers ∧ board.frequency ≠ 0 ∧ ¬Fits board.frequency period := by
  have hstarts := board.starts period
  generalize board.startTimer period = outcome at hstarts
  cases hstarts with
  | missing after hmissing hkeeps =>
      simp only [Except.error.injEq, reduceCtorEq, false_iff]
      exact fun ⟨hanswers, hrunning, _⟩ => hmissing.elim (· hanswers) hrunning
  | unfit after hanswers hrunning hunfit hkeeps => simp [hanswers, hrunning, hunfit]
  | started ready hanswers hrunning hfits hkeeps => simp [hfits]

theorem same_startTimer (board : Board) (period : UInt32) :
    (board.startTimer period).2.model = board.model ∧
      (board.startTimer period).2.frequency = board.frequency ∧
      (board.startTimer period).2.suspended = board.suspended := by
  have hstarts := board.starts period
  generalize board.startTimer period = outcome at hstarts
  cases hstarts with
  | missing after hmissing hkeeps => exact ⟨hkeeps.model, hkeeps.frequency, hkeeps.suspended⟩
  | unfit after hanswers hrunning hunfit hkeeps =>
      exact ⟨hkeeps.model, hkeeps.frequency, hkeeps.suspended⟩
  | started ready hanswers hrunning hfits hkeeps =>
      exact ⟨hkeeps.model, hkeeps.frequency, hkeeps.suspended⟩

theorem keeps_startTimer (period : UInt32) (h : (board.startTimer period).1.isOk = false) :
    board.Keeps (board.startTimer period).2 := by
  have hstarts := board.starts period
  generalize board.startTimer period = outcome at h hstarts ⊢
  cases hstarts with
  | missing after hmissing hkeeps => exact hkeeps
  | unfit after hanswers hrunning hunfit hkeeps => exact hkeeps
  | started => cases h

/-- A start that succeeds sets the interval and programs the timer by it, once. -/
theorem timer_startTimer (period : UInt32) (h : (board.startTimer period).1 = .ok ()) :
    (board.startTimer period).2.interval = countsPerTick board.frequency period ∧
      (board.startTimer period).2.timerAccesses =
        board.timerAccesses ++ programming (countsPerTick board.frequency period) := by
  have hstarts := board.starts period
  generalize board.startTimer period = outcome at h hstarts ⊢
  cases hstarts with
  | missing => cases h
  | unfit => cases h
  | started ready hanswers hrunning hfits hkeeps =>
      refine ⟨rfl, ?_⟩
      rw [timerAccesses_rearm]
      exact congrArg (· ++ _) hkeeps.timer

/-! ## Programming by the interval in force -/

/-- The timer was programmed so often by the interval in force, and not in any other way. -/
structure Programs (board : Board) (times : Nat) (after : Board) : Prop where
  interval : after.interval = board.interval
  accesses : after.timerAccesses =
    board.timerAccesses ++ (List.replicate times (programming board.interval)).flatten

theorem Programs.none (hinterval : after.interval = board.interval)
    (haccesses : after.timerAccesses = board.timerAccesses) : board.Programs 0 after :=
  ⟨hinterval, by simp [haccesses]⟩

theorem Keeps.programs (h : board.Keeps after) : board.Programs 0 after :=
  .none h.interval h.timer

theorem programs_rearm (board : Board) : board.Programs 1 board.rearm where
  interval := rfl
  accesses := by simp [timerAccesses_rearm]

theorem Programs.trans {first second : Nat} (h : board.Programs first middle)
    (hafter : middle.Programs second after) : board.Programs (first + second) after where
  interval := hafter.interval.trans h.interval
  accesses := by
    rw [hafter.accesses, h.accesses, h.interval, List.append_assoc, ← List.flatten_append,
      List.replicate_append_replicate]

theorem programs_serveInterrupt (board : Board) :
    board.Programs board.serveInterrupt.1.toNat board.serveInterrupt.2 := by
  have hseen : board.Keeps board.acknowledge.2 := (Keeps.refl board).acknowledge
  unfold serveInterrupt
  simp only
  split
  next => exact hseen.programs
  next =>
      split
      next =>
          have hrearmed := hseen.programs.trans (programs_rearm _)
          exact hrearmed.trans ((Keeps.refl _).complete _).programs
      next => exact (hseen.complete _).programs

/-! ## Deeds done to a board -/

/-- One thing done to a board: by its drivers, by a switch, or by the hardware itself. -/
inductive Deed where
  | startTimer (period : UInt32)
  | rearm
  | serveInterrupt
  | startController
  | resetController
  | enableInterrupt (interrupt : UInt32) (priority : UInt8)
  | acknowledge
  | complete (interrupt : UInt32)
  | setInterrupts (enabled : Bool)
  | switch (next prev : ThreadId)
  /-- The devices change their words, and the counter goes at another frequency. -/
  | change (words : UInt64 → UInt32) (frequency : UInt32)

def undergo (board : Board) : Deed → Board
  | .startTimer period => (board.startTimer period).2
  | .rearm => board.rearm
  | .serveInterrupt => board.serveInterrupt.2
  | .startController => board.startController.2
  | .resetController => board.resetController.2
  | .enableInterrupt interrupt priority => board.enableInterrupt interrupt priority
  | .acknowledge => board.acknowledge.2
  | .complete interrupt => board.complete interrupt
  | .setInterrupts enabled => board.setInterrupts enabled
  | .switch next prev => (Backend.switch board next prev).2
  | .change words frequency => { board with words, frequency := frequency.toUInt64 }

def restarts (board : Board) : Deed → Bool
  | .startTimer period => (board.startTimer period).1.isOk
  | _ => false

def rearmings (board : Board) : Deed → Nat
  | .rearm => 1
  | .serveInterrupt => board.serveInterrupt.1.toNat
  | _ => 0

/-- No deed but a successful start programs the timer by another interval. -/
theorem programs_undergo {deed : Deed} (h : board.restarts deed = false) :
    board.Programs (board.rearmings deed) (board.undergo deed) := by
  cases deed with
  | startTimer period => exact (keeps_startTimer period h).programs
  | rearm => exact board.programs_rearm
  | serveInterrupt => exact board.programs_serveInterrupt
  | startController => exact (Keeps.refl board).startController.programs
  | resetController => exact (Keeps.refl board).resetController.programs
  | enableInterrupt interrupt priority =>
      exact ((Keeps.refl board).enableInterrupt interrupt priority).programs
  | acknowledge => exact (Keeps.refl board).acknowledge.programs
  | complete interrupt => exact ((Keeps.refl board).complete interrupt).programs
  | setInterrupts | switch | change => exact .none rfl rfl

def play (board : Board) : List Deed → Board
  | [] => board
  | deed :: deeds => (board.undergo deed).play deeds

/-- No start of the timer succeeds among deeds done in order. -/
def Undisturbed (board : Board) : List Deed → Prop
  | [] => True
  | deed :: deeds => board.restarts deed = false ∧ (board.undergo deed).Undisturbed deeds

/-- How often deeds done in order program the timer, no start among them. -/
def rearmingsIn (board : Board) : List Deed → Nat
  | [] => 0
  | deed :: deeds => board.rearmings deed + (board.undergo deed).rearmingsIn deeds

theorem programs_play {deeds : List Deed} (h : board.Undisturbed deeds) :
    board.Programs (board.rearmingsIn deeds) (board.play deeds) := by
  induction deeds generalizing board with
  | nil => exact (Keeps.refl board).programs
  | cons deed deeds ih => exact (programs_undergo h.1).trans (ih h.2)

/-! ## Exact counts -/

def exactCounts (frequency : UInt64) (period : UInt32) : Nat :=
  frequency.toNat * period.toNat / 1000000

theorem product_lt {frequency : UInt64} (h : frequency.toNat < 2 ^ 32) (period : UInt32) :
    frequency.toNat * period.toNat < 2 ^ 64 :=
  calc frequency.toNat * period.toNat
    _ < 2 ^ 32 * 2 ^ 32 := Nat.mul_lt_mul'' h period.toNat_lt
    _ = 2 ^ 64 := rfl

theorem toNat_countsPerTick {frequency : UInt64} (h : frequency.toNat < 2 ^ 32)
    (period : UInt32) : (countsPerTick frequency period).toNat = exactCounts frequency period := by
  have hproduct : (frequency * period.toUInt64).toNat = frequency.toNat * period.toNat := by
    rw [UInt64.toNat_mul, UInt32.toNat_toUInt64, Nat.mod_eq_of_lt (product_lt h period)]
  rw [countsPerTick, UInt64.toNat_div, hproduct]
  rfl

theorem bankWords_le (kind : UInt32) : bankWords kind ≤ 32 := by
  have h : (kind &&& 0x1F).toNat ≤ 31 := by
    rw [UInt32.toNat_and]
    exact Nat.and_le_right
  rw [bankWords]
  omega

theorem toNat_distributorAddress (board : Board) (register : DistributorRegister) {word : Nat}
    (hword : word < 256) :
    (board.distributorAddress register (4 * UInt64.ofNat word)).toNat =
      board.model.distributor.toNat + register.offset.toNat + 4 * word := by
  have hbase : board.model.distributor.toNat ≤ 0xFF841000 := by
    cases board.model <;> decide
  have hoffset : register.offset.toNat ≤ 0x400 := by
    cases register <;> decide
  simp only [distributorAddress, UInt64.toNat_add, UInt64.toNat_mul, UInt64.toNat_ofNat',
    UInt64.reduceToNat]
  omega

theorem toNat_interfaceAddress (board : Board) (register : InterfaceRegister) :
    (board.interfaceAddress register).toNat =
      board.model.processorInterface.toNat + register.offset.toNat := by
  cases hmodel : board.model <;> cases register <;>
    rw [interfaceAddress, hmodel] <;> rfl

/--
The sums and products that a start of the timer works out are those of natural numbers: none of
them is beyond its word.
-/
structure StartsExactly (board : Board) (period : UInt32) : Prop where
  banks : bankWords board.kind * 8 ≤ 256
  distributor : ∀ register word, word < bankWords board.kind * 8 →
    (board.distributorAddress register (4 * UInt64.ofNat word)).toNat =
      board.model.distributor.toNat + register.offset.toNat + 4 * word
  interface : ∀ register, (board.interfaceAddress register).toNat =
    board.model.processorInterface.toNat + register.offset.toNat
  product : board.frequency.toNat * period.toNat < 2 ^ 64
  counts : (countsPerTick board.frequency period).toNat = exactCounts board.frequency period

theorem startsExactly (h : board.frequency.toNat < 2 ^ 32) (period : UInt32) :
    board.StartsExactly period where
  banks := Nat.mul_le_mul_right 8 (bankWords_le board.kind)
  distributor register word hword := by
    have hwords := bankWords_le board.kind
    exact board.toNat_distributorAddress register (by omega)
  interface := board.toNat_interfaceAddress
  product := product_lt h period
  counts := toNat_countsPerTick h period

theorem fits_iff {frequency : UInt64} (h : frequency.toNat < 2 ^ 32) (period : UInt32) :
    Fits frequency period ↔
      1 ≤ exactCounts frequency period ∧ exactCounts frequency period ≤ 2 ^ 32 - 1 := by
  have hcounts := toNat_countsPerTick h period
  rw [Fits, Ne, ← UInt64.toNat_inj, UInt64.le_iff_toNat_le, hcounts, UInt64.toNat_zero,
    show (0xFFFFFFFF : UInt64).toNat = 2 ^ 32 - 1 from rfl]
  omega

/--
Starts of a board's tick timer.  Nothing that a start works out is beyond its word.  It succeeds
if and only if the controller answers, the counter goes, and the period comes to at least one
count and to no more than the timer's field holds; it says what is missing, or else that the
period is wrong.  A start that succeeds programs the timer once by exactly the counts of the
period, and whatever is done to the board up to the next one that succeeds, every rearming
programs those counts again.  A start that fails leaves the timer and its interval as they were.
-/
theorem timer_programming (board : Board) (hfrequency : board.frequency.toNat < 2 ^ 32)
    (period : UInt32) :
    board.StartsExactly period ∧
      ((board.startTimer period).1 = .ok () ↔
        board.Answers ∧ board.frequency ≠ 0 ∧ 1 ≤ exactCounts board.frequency period ∧
          exactCounts board.frequency period ≤ 2 ^ 32 - 1) ∧
      ((board.startTimer period).1 = .error .notAvailable ↔
        ¬board.Answers ∨ board.frequency = 0) ∧
      ((board.startTimer period).1 = .error (.invalidPeriod period) ↔
        board.Answers ∧ board.frequency ≠ 0 ∧ ¬(1 ≤ exactCounts board.frequency period ∧
          exactCounts board.frequency period ≤ 2 ^ 32 - 1)) ∧
      ((board.startTimer period).1 = .ok () →
        (board.startTimer period).2.interval.toNat = exactCounts board.frequency period ∧
          (board.startTimer period).2.timerAccesses =
            board.timerAccesses ++ programming (board.startTimer period).2.interval ∧
          ∀ deeds, (board.startTimer period).2.Undisturbed deeds →
            (board.startTimer period).2.Programs
              ((board.startTimer period).2.rearmingsIn deeds)
              ((board.startTimer period).2.play deeds)) ∧
      ∀ cause, (board.startTimer period).1 = .error cause →
        (board.startTimer period).2.interval = board.interval ∧
          (board.startTimer period).2.timerAccesses = board.timerAccesses := by
  have hfits := fits_iff hfrequency period
  refine ⟨startsExactly hfrequency period, ?_, board.startTimer_eq_notAvailable period, ?_, ?_, ?_⟩
  · rw [startTimer_eq_ok, hfits]
  · rw [startTimer_eq_invalidPeriod, hfits]
  · intro hok
    obtain ⟨hinterval, haccesses⟩ := timer_startTimer period hok
    rw [hinterval]
    exact ⟨toNat_countsPerTick hfrequency period, haccesses, fun deeds => programs_play⟩
  · intro cause herror
    have hkeeps : board.Keeps (board.startTimer period).2 :=
      keeps_startTimer period (by rw [herror]; rfl)
    exact ⟨hkeeps.interval, hkeeps.timer⟩

/-- A board with an interrupt controller, and with a counter of 19.2 megahertz. -/
def responsive : Board :=
  ({ model := .pi, frequency := 19200000 } : Board).poke 0xFF841004 32

/-- A start that is refused does not take the timer's period away. -/
theorem timer_programming_of_responsive :
    responsive.frequency.toNat < 2 ^ 32 ∧ (responsive.startTimer 10000).1 = .ok () ∧
      ((responsive.startTimer 10000).2.play [.startTimer 0, .rearm]).timerAccesses =
        programming 192000 ++ programming 192000 := by
  have hfrequency : responsive.frequency.toNat < 2 ^ 32 := by decide
  obtain ⟨-, hok, -, -, hstarted, -⟩ := timer_programming responsive hfrequency 10000
  have hstarts : (responsive.startTimer 10000).1 = .ok () := hok.2 (by decide)
  obtain ⟨hcounts, haccesses, hlater⟩ := hstarted hstarts
  have hinterval : (responsive.startTimer 10000).2.interval = 192000 := UInt64.toNat_inj.1 hcounts
  have hrefused : (responsive.startTimer 10000).2.Undisturbed [.startTimer 0, .rearm] :=
    ⟨by decide +kernel, by decide, trivial⟩
  refine ⟨hfrequency, hstarts, ?_⟩
  rw [(hlater _ hrefused).accesses, haccesses, hinterval]
  rfl

/-! ## What the timer makes of its value -/

/-- The timer takes the upper half of its values for counts gone by. -/
theorem countsAhead_eq {value : UInt64} (h : value.toNat < 2 ^ 32) :
    countsAhead value =
      if value.toNat < 2 ^ 31 then (value.toNat : Int) else value.toNat - 2 ^ 32 := by
  have hword : value.toUInt32.toNat = value.toNat := by
    rw [UInt64.toNat_toUInt32, Nat.mod_eq_of_lt h]
  rw [countsAhead, Int32.toInt, UInt32.toBitVec_toInt32, BitVec.toInt_eq_toNat_cond,
    UInt32.toNat_toBitVec, hword]
  split <;> split <;> omega

/--
When the first tick of a timer is due.  A start that succeeds writes exactly the counts of the
period, but the timer reads what is written as a signed word.  The tick is due in so many counts
if and only if there are less than 2 ^ 31 of them; a longer period is accepted all the same, and
its tick was due before it was programmed.
-/
theorem tick_ahead (board : Board) (hfrequency : board.frequency.toNat < 2 ^ 32) (period : UInt32)
    (hstarted : (board.startTimer period).1 = .ok ()) :
    ∃ value : UInt64, value.toNat = exactCounts board.frequency period ∧
      (board.startTimer period).2.timerAccesses =
        board.timerAccesses ++ [.timerValue value, .timerControl 1] ∧
      (exactCounts board.frequency period < 2 ^ 31 ↔
        0 < countsAhead value ∧ countsAhead value = exactCounts board.frequency period) ∧
      (2 ^ 31 ≤ exactCounts board.frequency period ↔ countsAhead value < 0) := by
  obtain ⟨-, -, hfits⟩ := (board.startTimer_eq_ok period).1 hstarted
  obtain ⟨hpositive, hbounded⟩ := (fits_iff hfrequency period).1 hfits
  have hcounts := toNat_countsPerTick hfrequency period
  have hword : (countsPerTick board.frequency period).toNat < 2 ^ 32 := by omega
  -- a start allows for 32 bits of counts, and the reading of the timer leaves 31 of them
  refine ⟨countsPerTick board.frequency period, hcounts, (timer_startTimer period hstarted).2, ?_⟩
  rw [countsAhead_eq hword, hcounts]
  split <;> omega

/-- A period of two minutes is accepted, and its first tick was due long ago. -/
theorem tick_ahead_of_twoMinutes :
    ∃ value : UInt64, (responsive.startTimer 120000000).1 = .ok () ∧
      (responsive.startTimer 120000000).2.timerAccesses = programming value ∧
        value.toNat = 2304000000 ∧ countsAhead value < 0 := by
  have hstarted : (responsive.startTimer 120000000).1 = .ok () :=
    (responsive.startTimer_eq_ok 120000000).2 ⟨by decide, by decide, by decide, by decide⟩
  obtain ⟨value, hvalue, haccesses, -, hbehind⟩ :=
    tick_ahead responsive (by decide) 120000000 hstarted
  exact ⟨value, hstarted, haccesses, hvalue, hbehind.1 (by decide)⟩

end Board

end TickKernel
