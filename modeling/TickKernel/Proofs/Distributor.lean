import TickKernel.Proofs.TickTimer

/-!
# The interrupt controller after a start

A start of the controller goes over two banks of one bit per interrupt and over one of a byte per
interrupt, and then lets the timer interrupt in by two more writes.  What the controller makes of
the first words of a bank is one record, by their number; so its state after a start is known
interrupt by interrupt, whatever it was before.
-/

namespace TickKernel.Board

variable {board after : Board}

/-! ## What the controller makes of a write -/

namespace ControllerState

variable {state : ControllerState} {value : UInt32} {word : Nat}

theorem wordInBank_eq_some {first bytes : Nat} (h : 4 * word < bytes) :
    wordInBank first bytes (first + 4 * word) = some word := by
  rw [wordInBank, if_pos ⟨Nat.le_add_right _ _, by omega⟩]
  congr 1
  omega

theorem wordInBank_eq_none {earlier bank : DistributorRegister}
    (h : earlier.offset.toNat + bitBankBytes ≤ bank.offset.toNat) :
    wordInBank earlier.offset.toNat bitBankBytes (bank.offset.toNat + 4 * word) = none := by
  rw [wordInBank, if_neg (by omega)]

theorem receiveDistributor_setEnable (h : word < 32) :
    state.receiveDistributor (DistributorRegister.setEnable.offset.toNat + 4 * word) value =
      { state with enabled := fun i => state.enabled i || actsOn word value i } := by
  have hbytes : 4 * word < bitBankBytes := Nat.mul_lt_mul_of_pos_left h (by decide)
  simp only [receiveDistributor, wordInBank_eq_some hbytes]
  rw [if_neg]
  simp [DistributorRegister.offset]

theorem receiveDistributor_clearEnable (h : word < 32) :
    state.receiveDistributor (DistributorRegister.clearEnable.offset.toNat + 4 * word) value =
      { state with enabled := fun i => state.enabled i && !actsOn word value i } := by
  have hbytes : 4 * word < bitBankBytes := Nat.mul_lt_mul_of_pos_left h (by decide)
  have hset := @wordInBank_eq_none word .setEnable .clearEnable (by decide)
  simp only [receiveDistributor, hset, wordInBank_eq_some hbytes]
  rw [if_neg]
  simp [DistributorRegister.offset]

theorem receiveDistributor_clearPending (h : word < 32) :
    state.receiveDistributor (DistributorRegister.clearPending.offset.toNat + 4 * word) value =
      { state with pending := fun i => state.pending i && !actsOn word value i } := by
  have hbytes : 4 * word < bitBankBytes := Nat.mul_lt_mul_of_pos_left h (by decide)
  have hset := @wordInBank_eq_none word .setEnable .clearPending (by decide)
  have hclear := @wordInBank_eq_none word .clearEnable .clearPending (by decide)
  simp only [receiveDistributor, hset, hclear, wordInBank_eq_some hbytes]
  rw [if_neg]
  simp [DistributorRegister.offset]

theorem receiveDistributor_priority (h : word < 256) :
    state.receiveDistributor (DistributorRegister.priority.offset.toNat + 4 * word) value =
      { state with
        priority := fun i => if i / 4 = word then priorityByte value i else state.priority i } := by
  have hbytes : 4 * word < priorityBankBytes := Nat.mul_lt_mul_of_pos_left h (by decide)
  have hset := @wordInBank_eq_none word .setEnable .priority (by decide)
  have hclear := @wordInBank_eq_none word .clearEnable .priority (by decide)
  have hpending := @wordInBank_eq_none word .clearPending .priority (by decide)
  simp only [receiveDistributor, hset, hclear, hpending, wordInBank_eq_some hbytes]
  rw [if_neg]
  simp [DistributorRegister.offset]

theorem receive_distributorAddress (board : Board) (register : DistributorRegister)
    (h : word < 256) :
    state.receive board.model
        (.write (board.distributorAddress register (4 * UInt64.ofNat word)) value) =
      state.receiveDistributor (register.offset.toNat + 4 * word) value := by
  have haddress := board.toNat_distributorAddress register h
  have hle : board.model.distributor ≤
      board.distributorAddress register (4 * UInt64.ofNat word) := by
    rw [UInt64.le_iff_toNat_le, haddress]
    omega
  have hoffset : (board.distributorAddress register (4 * UInt64.ofNat word) -
      board.model.distributor).toNat = register.offset.toNat + 4 * word := by
    rw [UInt64.toNat_sub_of_le _ _ hle, haddress]
    omega
  have hregister : register.offset.toNat ≤ 0x400 := by
    cases register <;> decide
  have hregion : board.distributorAddress register (4 * UInt64.ofNat word) -
      board.model.distributor < regionBytes := by
    rw [UInt64.lt_iff_toNat_lt, hoffset, regionBytes]
    show _ < 0x1000
    omega
  rw [receive, if_pos hregion, hoffset]

theorem receive_interfaceAddress (board : Board) (register : InterfaceRegister) :
    state.receive board.model (.write (board.interfaceAddress register) value) =
      state.receiveInterface register.offset value := by
  cases hmodel : board.model <;> cases register <;> rw [interfaceAddress, hmodel] <;> rfl

theorem receive_control (board : Board) :
    state.receive board.model (.write (board.distributorAddress .control 0) value) =
      { state with forwarding := value &&& 1 == 1 } := by
  have hreceive := @receive_distributorAddress state value 0 board .control (by decide)
  rw [show 4 * UInt64.ofNat 0 = 0 from rfl] at hreceive
  rw [hreceive]
  unfold receiveDistributor
  exact if_pos (Nat.add_zero _)

/-! ## What it makes of a bank -/

/-- The state after all bits of the first words of the clearing banks were written. -/
def cleared (state : ControllerState) (words : Nat) : ControllerState :=
  { state with
    enabled := fun i => state.enabled i && !decide (i / 32 < words)
    pending := fun i => state.pending i && !decide (i / 32 < words) }

def lowered (state : ControllerState) (words : Nat) : ControllerState :=
  { state with priority := fun i => if i / 4 < words then 0xFF else state.priority i }

theorem actsOn_allOnes (word i : Nat) : actsOn word allOnes i = (i / 32 == word) := by
  have hbit : allOnes.toNat.testBit (i % 32) = true := by
    rw [show allOnes.toNat = 2 ^ 32 - 1 from rfl, Nat.testBit_two_pow_sub_one]
    exact decide_eq_true (Nat.mod_lt i (by decide))
  rw [actsOn, hbit, Bool.and_true]

theorem priorityByte_allOnes (i : Nat) : priorityByte allOnes i = 0xFF := by
  have hlane : i % 4 = 0 ∨ i % 4 = 1 ∨ i % 4 = 2 ∨ i % 4 = 3 := by omega
  rcases hlane with h | h | h | h <;> rw [priorityByte, h] <;> rfl

end ControllerState

/-! ## The accesses of a start -/

theorem distributorAddress_eq (h : after.model = board.model) (register : DistributorRegister)
    (byte : UInt64) :
    after.distributorAddress register byte = board.distributorAddress register byte := by
  rw [distributorAddress, h]
  rfl

theorem interfaceAddress_eq (h : after.model = board.model) (register : InterfaceRegister) :
    after.interfaceAddress register = board.interfaceAddress register := by
  rw [interfaceAddress, h]
  rfl

theorem distributorAddress_ne_interfaceAddress (board : Board) (register : DistributorRegister)
    {word : Nat} (h : word < 256) (other : InterfaceRegister) :
    board.distributorAddress register (4 * UInt64.ofNat word) ≠ board.interfaceAddress other := by
  have hregister : register.offset.toNat ≤ 0x400 := by
    cases register <;> decide
  have hbefore : board.model.distributor.toNat + 0x1000 ≤ board.model.processorInterface.toNat := by
    cases board.model <;> decide
  intro heq
  have haddress := congrArg UInt64.toNat heq
  rw [toNat_distributorAddress board register h, toNat_interfaceAddress] at haddress
  omega

def fill (board : Board) (register : DistributorRegister) (word : Nat) : Access :=
  .write (board.distributorAddress register (4 * UInt64.ofNat word)) allOnes

theorem fill_eq (h : after.model = board.model) : after.fill = board.fill := by
  funext register word
  rw [fill, distributorAddress_eq h]
  rfl

def clearWrites (board : Board) (words : Nat) : List Access :=
  (List.range words).flatMap fun word =>
    [board.fill .clearEnable word, board.fill .clearPending word]

def priorityWrites (board : Board) (words : Nat) : List Access :=
  (List.range words).map (board.fill .priority)

theorem clearWrites_eq (h : after.model = board.model) : after.clearWrites = board.clearWrites := by
  funext words
  rw [clearWrites, fill_eq h]
  rfl

theorem priorityWrites_eq (h : after.model = board.model) :
    after.priorityWrites = board.priorityWrites := by
  funext words
  rw [priorityWrites, fill_eq h]
  rfl

theorem clearWrites_succ (board : Board) (words : Nat) :
    board.clearWrites (words + 1) = board.clearWrites words ++
      [board.fill .clearEnable words, board.fill .clearPending words] := by
  simp [clearWrites, List.range_succ]

theorem priorityWrites_succ (board : Board) (words : Nat) :
    board.priorityWrites (words + 1) =
      board.priorityWrites words ++ [board.fill .priority words] := by
  simp [priorityWrites, List.range_succ]

theorem clearBanks_succ (board : Board) (words : Nat) :
    board.clearBanks (words + 1) =
      ((board.clearBanks words).write
        ((board.clearBanks words).distributorAddress .clearEnable (4 * UInt64.ofNat words))
        allOnes).write
          ((board.clearBanks words).distributorAddress .clearPending (4 * UInt64.ofNat words))
          allOnes := by
  rw [clearBanks, List.range_succ, List.foldl_append]
  rfl

theorem lowerPriorities_succ (board : Board) (words : Nat) :
    board.lowerPriorities (words + 1) =
      (board.lowerPriorities words).write
        ((board.lowerPriorities words).distributorAddress .priority (4 * UInt64.ofNat words))
        allOnes := by
  rw [lowerPriorities, List.range_succ, List.foldl_append]
  rfl

theorem trace_clearBanks (board : Board) (words : Nat) :
    (board.clearBanks words).trace = board.trace ++ board.clearWrites words := by
  induction words with
  | zero => simp [clearBanks, clearWrites]
  | succ words ih =>
      have hmodel := ((Keeps.refl board).clearBanks words).model
      rw [clearBanks_succ, clearWrites_succ, trace_write, trace_write, ih,
        distributorAddress_eq hmodel, distributorAddress_eq hmodel]
      simp [fill]

theorem trace_lowerPriorities (board : Board) (words : Nat) :
    (board.lowerPriorities words).trace = board.trace ++ board.priorityWrites words := by
  induction words with
  | zero => simp [lowerPriorities, priorityWrites]
  | succ words ih =>
      have hmodel := ((Keeps.refl board).lowerPriorities words).model
      rw [lowerPriorities_succ, priorityWrites_succ, trace_write, ih, distributorAddress_eq hmodel]
      simp [fill]

theorem words_write (board : Board) (address : UInt64) (value : UInt32) (other : UInt64) :
    (board.write address value).words other =
      if other = address then value else board.words other :=
  rfl

theorem words_lowerPriorities (board : Board) {word words : Nat} (h : word < words) :
    (board.lowerPriorities words).words
      (board.distributorAddress .priority (4 * UInt64.ofNat word)) = allOnes := by
  induction words with
  | zero => omega
  | succ words ih =>
      have hmodel := ((Keeps.refl board).lowerPriorities words).model
      rw [lowerPriorities_succ, words_write, distributorAddress_eq hmodel]
      split
      next => rfl
      next hother =>
          refine ih (Nat.lt_of_le_of_ne (Nat.le_of_lt_succ h) ?_)
          rintro rfl
          exact hother rfl

namespace ControllerState

theorem receiveAll_cons (model : BoardModel) (state : ControllerState) (access : Access)
    (accesses : List Access) :
    state.receiveAll model (access :: accesses) =
      (state.receive model access).receiveAll model accesses :=
  rfl

section

variable {state : ControllerState} {word : Nat}

theorem receive_fill_clearEnable (board : Board) (h : word < 32) :
    state.receive board.model (board.fill .clearEnable word) =
      { state with enabled := fun i => state.enabled i && !(i / 32 == word) } := by
  rw [fill, receive_distributorAddress board _ (by omega), receiveDistributor_clearEnable h]
  simp only [actsOn_allOnes]

theorem receive_fill_clearPending (board : Board) (h : word < 32) :
    state.receive board.model (board.fill .clearPending word) =
      { state with pending := fun i => state.pending i && !(i / 32 == word) } := by
  rw [fill, receive_distributorAddress board _ (by omega), receiveDistributor_clearPending h]
  simp only [actsOn_allOnes]

theorem receive_fill_priority (board : Board) (h : word < 256) :
    state.receive board.model (board.fill .priority word) =
      { state with priority := fun i => if i / 4 = word then 0xFF else state.priority i } := by
  rw [fill, receive_distributorAddress board _ h, receiveDistributor_priority h]
  simp only [priorityByte_allOnes]

end

theorem and_not_lt_succ (flag : Bool) (word words : Nat) :
    (flag && !decide (word < words) && !(word == words)) =
      (flag && !decide (word < words + 1)) := by
  have hlt : word < words + 1 ↔ word < words ∨ word = words := Nat.lt_succ_iff_lt_or_eq
  simp only [hlt, Bool.decide_or, Bool.not_or, Bool.and_assoc]
  rfl

theorem receiveAll_clearWrites (board : Board) (state : ControllerState) {words : Nat}
    (h : words ≤ 32) :
    state.receiveAll board.model (board.clearWrites words) = state.cleared words := by
  induction words with
  | zero => simp [clearWrites, cleared]
  | succ words ih =>
      rw [clearWrites_succ, receiveAll_append, ih (by omega), receiveAll_cons, receiveAll_cons,
        receiveAll_nil, receive_fill_clearEnable board h, receive_fill_clearPending board h]
      simp only [cleared, and_not_lt_succ]

theorem receiveAll_priorityWrites (board : Board) (state : ControllerState) {words : Nat}
    (h : words ≤ 256) :
    state.receiveAll board.model (board.priorityWrites words) = state.lowered words := by
  induction words with
  | zero => simp [priorityWrites, lowered]
  | succ words ih =>
      rw [priorityWrites_succ, receiveAll_append, ih (by omega), receiveAll_cons, receiveAll_nil,
        receive_fill_priority board h, lowered, lowered]
      congr 1
      funext i
      by_cases hword : i / 4 = words
      · rw [if_pos hword, if_pos (by omega)]
      · have hlt : i / 4 < words + 1 ↔ i / 4 < words := by omega
        simp only [hword, hlt, if_false]

end ControllerState

/-! ## A start as a whole -/

/-- A controller that is not there is asked for its kind only. -/
theorem startController_of_missing (h : ¬board.Answers) :
    board.startController = (false, (board.read (board.distributorAddress .kind 0)).2) := by
  have hmissing : board.kind = allOnes ∨ board.kind = 0 := by
    rwa [Answers, Classical.not_and_iff_not_or_not, Classical.not_not, Classical.not_not] at h
  have hreset : board.resetController = (false, _) := if_pos hmissing
  rw [startController, hreset]
  rfl

/-- The board once its controller said of what kind it is and was closed. -/
def closed (board : Board) : Board :=
  (board.read (board.distributorAddress .kind 0)).2.write (board.distributorAddress .control 0) 0

def lowest (board : Board) : Board :=
  (board.closed.clearBanks (bankWords board.kind)).lowerPriorities (bankWords board.kind * 8)

def opened (board : Board) : Board :=
  (((board.write (board.distributorAddress .control 0) 1).write
    (board.interfaceAddress .priorityMask) 0xFF).write
      (board.interfaceAddress .binaryPoint) 0).write (board.interfaceAddress .control) 1

theorem resetController_of_answers (h : board.Answers) :
    board.resetController = (true, board.lowest.opened) := by
  have hreset : board.resetController = (true, _) := if_neg (not_or.2 h)
  rw [hreset]
  rfl

theorem startController_of_answers (h : board.Answers) :
    board.startController =
      (true, board.lowest.opened.enableInterrupt timerInterrupt timerPriority) := by
  rw [startController, resetController_of_answers h]

theorem model_clearBanks_closed (board : Board) (words : Nat) :
    (board.closed.clearBanks words).model = board.model :=
  ((((Keeps.refl board).read _).write _ _).clearBanks words).model

theorem model_lowest (board : Board) : board.lowest.model = board.model :=
  ((Keeps.refl _).lowerPriorities _).model.trans (board.model_clearBanks_closed _)

theorem model_opened (board : Board) : board.opened.model = board.model :=
  (((((Keeps.refl board).write _ _).write _ _).write _ _).write _ _).model

def lowestAccesses (board : Board) : List Access :=
  .read (board.distributorAddress .kind 0) board.kind ::
    .write (board.distributorAddress .control 0) 0 ::
      (board.clearWrites (bankWords board.kind) ++
        board.priorityWrites (bankWords board.kind * 8))

def openWrites (board : Board) : List Access :=
  [.write (board.distributorAddress .control 0) 1,
    .write (board.interfaceAddress .priorityMask) 0xFF,
    .write (board.interfaceAddress .binaryPoint) 0,
    .write (board.interfaceAddress .control) 1]

/-- What letting in the timer interrupt reads and writes, all priorities being the lowest. -/
def timerAdmission (board : Board) : List Access :=
  [.read (board.distributorAddress .priority 28) allOnes,
    .write (board.distributorAddress .priority 28) 0xFF80FFFF,
    .write (board.distributorAddress .setEnable 0) 0x40000000]

theorem trace_lowest (board : Board) :
    board.lowest.trace = board.trace ++ board.lowestAccesses := by
  have hmodel := board.model_clearBanks_closed (bankWords board.kind)
  have hclosed : board.closed.clearWrites = board.clearWrites := clearWrites_eq rfl
  rw [lowest, trace_lowerPriorities, trace_clearBanks, hclosed, priorityWrites_eq hmodel, closed,
    trace_write, trace_read, lowestAccesses]
  simp [kind]

theorem trace_opened (board : Board) : board.opened.trace = board.trace ++ board.openWrites := by
  rw [opened, trace_write, trace_write, trace_write, trace_write, openWrites]
  simp only [List.append_assoc, List.cons_append, List.nil_append]

theorem openWrites_eq (h : after.model = board.model) : after.openWrites = board.openWrites := by
  rw [openWrites, distributorAddress_eq h, interfaceAddress_eq h, interfaceAddress_eq h,
    interfaceAddress_eq h]
  rfl

theorem words_opened (board : Board) :
    board.opened.words (board.distributorAddress .priority 28) =
      board.words (board.distributorAddress .priority 28) := by
  have hcontrol : board.distributorAddress .priority 28 ≠ board.distributorAddress .control 0 := by
    cases hmodel : board.model <;> simp [distributorAddress, hmodel] <;> decide
  have hinterface (register : InterfaceRegister) :
      board.distributorAddress .priority 28 ≠ board.interfaceAddress register :=
    @distributorAddress_ne_interfaceAddress board .priority 7 (by decide) register
  rw [opened, words_write, if_neg (hinterface .control), words_write,
    if_neg (hinterface .binaryPoint), words_write, if_neg (hinterface .priorityMask), words_write,
    if_neg hcontrol]

theorem words_lowest (board : Board) :
    board.lowest.words (board.distributorAddress .priority 28) = allOnes := by
  have hmodel := board.model_clearBanks_closed (bankWords board.kind)
  have hword : 7 < bankWords board.kind * 8 := by
    rw [bankWords]
    omega
  have hlowest := (board.closed.clearBanks (bankWords board.kind)).words_lowerPriorities hword
  rwa [distributorAddress_eq hmodel] at hlowest

/-- The timer interrupt shares a word of priorities with three others. -/
theorem trace_enableInterrupt_timer (board : Board)
    (h : board.words (board.distributorAddress .priority 28) = allOnes) :
    (board.enableInterrupt timerInterrupt timerPriority).trace =
      board.trace ++ board.timerAdmission := by
  rw [enableInterrupt]
  simp only [trace_write, trace_read, List.append_assoc]
  rw [show timerInterrupt.toUInt64 &&& ~~~3 = 28 from rfl]
  simp only [read, h]
  rfl

def startAccesses (board : Board) : List Access :=
  board.lowestAccesses ++ board.openWrites ++ board.timerAdmission

theorem trace_startController (h : board.Answers) :
    board.startController.2.trace = board.trace ++ board.startAccesses := by
  have hmodel := board.lowest.model_opened.trans board.model_lowest
  have hadmission : board.lowest.opened.timerAdmission = board.timerAdmission := by
    rw [timerAdmission, distributorAddress_eq hmodel, distributorAddress_eq hmodel]
    rfl
  have hwords : board.lowest.opened.words
      (board.lowest.opened.distributorAddress .priority 28) = allOnes := by
    have hopened := board.lowest.words_opened
    rwa [distributorAddress_eq board.model_lowest, words_lowest,
      ← distributorAddress_eq hmodel] at hopened
  rw [startController_of_answers h]
  simp only
  rw [trace_enableInterrupt_timer _ hwords, trace_opened, trace_lowest,
    openWrites_eq board.model_lowest, hadmission, startAccesses]
  simp only [List.append_assoc]

namespace ControllerState

/-- What is written to open the controller leaves each single interrupt as it is. -/
theorem receiveAll_openWrites (board : Board) (state : ControllerState) :
    state.receiveAll board.model board.openWrites =
      { state with forwarding := true, passing := true, priorityMask := 0xFF } := by
  simp only [openWrites, receiveAll_cons, receiveAll_nil, receive_control, receive_interfaceAddress]
  rfl

theorem actsOn_timer (i : Nat) : actsOn 0 0x40000000 i = (i == 30) := by
  rw [actsOn, show (0x40000000 : UInt32).toNat = 2 ^ 30 from rfl, Nat.testBit_two_pow,
    Bool.eq_iff_iff]
  simp only [Bool.and_eq_true, beq_iff_eq, decide_eq_true_eq]
  omega

theorem priorityByte_timer {i : Nat} (h : i / 4 = 7) :
    priorityByte 0xFF80FFFF i = if i = 30 then 0x80 else 0xFF := by
  have hshared : i = 28 ∨ i = 29 ∨ i = 30 ∨ i = 31 := by omega
  rcases hshared with rfl | rfl | rfl | rfl <;> rfl

/-- Of the four interrupts of a word, the timer's gets a priority of its own and is enabled. -/
theorem receiveAll_timerAdmission (board : Board) (state : ControllerState) :
    state.receiveAll board.model board.timerAdmission =
      { state with
        enabled := fun i => state.enabled i || i == 30
        priority := fun i =>
          if i / 4 = 7 then if i = 30 then 0x80 else 0xFF else state.priority i } := by
  have hread : state.receive board.model
      (.read (board.distributorAddress .priority 28) allOnes) = state := rfl
  have hpriority := @receive_distributorAddress state 0xFF80FFFF 7 board .priority (by decide)
  rw [show 4 * UInt64.ofNat 7 = 28 from rfl, receiveDistributor_priority (by decide)] at hpriority
  have henable (lower : ControllerState) :=
    @receive_distributorAddress lower 0x40000000 0 board .setEnable (by decide)
  rw [show 4 * UInt64.ofNat 0 = 0 from rfl] at henable
  have hbyte (i : Nat) :
      (if i / 4 = 7 then priorityByte 0xFF80FFFF i else state.priority i) =
        if i / 4 = 7 then if i = 30 then 0x80 else 0xFF else state.priority i :=
    ite_congr rfl priorityByte_timer fun _ => rfl
  simp only [timerAdmission, receiveAll_cons, receiveAll_nil, hread, hpriority, henable,
    receiveDistributor_setEnable (show 0 < 32 by decide), actsOn_timer, hbyte]

theorem receiveAll_startAccesses (board : Board) (state : ControllerState) :
    state.receiveAll board.model board.startAccesses =
      { forwarding := true
        enabled := fun i => state.enabled i && !decide (i / 32 < bankWords board.kind) || i == 30
        pending := fun i => state.pending i && !decide (i / 32 < bankWords board.kind)
        priority := fun i =>
          if i / 4 = 7 then if i = 30 then 0x80 else 0xFF
          else if i / 4 < bankWords board.kind * 8 then 0xFF
          else state.priority i
        passing := true
        priorityMask := 0xFF } := by
  have hwords := bankWords_le board.kind
  have hread : state.receive board.model
      (.read (board.distributorAddress .kind 0) board.kind) = state := rfl
  simp only [startAccesses, lowestAccesses, receiveAll_append, receiveAll_cons, hread,
    receive_control, receiveAll_clearWrites board _ hwords,
    receiveAll_priorityWrites board _ (show bankWords board.kind * 8 ≤ 256 by omega),
    receiveAll_openWrites, receiveAll_timerAdmission]
  rfl

end ControllerState

def lines (board : Board) : Nat :=
  32 * bankWords board.kind

/-- The controller lets in the timer interrupt, and no other one of so many. -/
structure ControllerState.AdmitsTimer (state : ControllerState) (lines : Nat) : Prop where
  enabled : ∀ interrupt, interrupt < lines → (state.enabled interrupt = true ↔ interrupt = 30)
  pending : ∀ interrupt, interrupt < lines → state.pending interrupt = false
  priority : ∀ interrupt, interrupt < lines →
    state.priority interrupt = if interrupt = 30 then 0x80 else 0xFF
  forwarding : state.forwarding = true
  passing : state.passing = true
  priorityMask : state.priorityMask = 0xFF

theorem admitsTimer_start (board : Board) (state : ControllerState) :
    (state.receiveAll board.model board.startAccesses).AdmitsTimer board.lines := by
  rw [ControllerState.receiveAll_startAccesses]
  -- an interrupt lies in the banks by the same bound, however dense they are
  have hbit {interrupt : Nat} (h : interrupt < board.lines) :
      interrupt / 32 < bankWords board.kind := Nat.div_lt_of_lt_mul h
  constructor
  case enabled =>
    intro interrupt h
    simp [hbit h]
  case pending =>
    intro interrupt h
    simp [hbit h]
  case priority =>
    intro interrupt h
    have hbyte : interrupt / 4 < bankWords board.kind * 8 := by
      rw [lines] at h
      omega
    simp only [hbyte, if_true]
    split
    next => rfl
    next h => rw [if_neg (by omega)]
  all_goals rfl

/-- The registers that a start may write, in a controller with so many words in a bank. -/
inductive Writable (board : Board) : UInt64 → Prop where
  | distributorControl : Writable board (board.distributorAddress .control 0)
  | interfaceControl : Writable board (board.interfaceAddress .control)
  | priorityMask : Writable board (board.interfaceAddress .priorityMask)
  | binaryPoint : Writable board (board.interfaceAddress .binaryPoint)
  /-- A word of a bank of one bit per interrupt. -/
  | bit (register : DistributorRegister) (word : Nat)
      (hregister : register = .setEnable ∨ register = .clearEnable ∨ register = .clearPending)
      (hword : word < bankWords board.kind) :
      Writable board (board.distributorAddress register (4 * UInt64.ofNat word))
  /-- A word of the bank of one byte per interrupt. -/
  | byte (word : Nat) (hword : word < bankWords board.kind * 8) :
      Writable board (board.distributorAddress .priority (4 * UInt64.ofNat word))

theorem writable_of_mem_startAccesses {address : UInt64} {value : UInt32}
    (h : .write address value ∈ board.startAccesses) : board.Writable address := by
  have hpositive : 0 < bankWords board.kind := Nat.succ_pos _
  simp only [startAccesses, lowestAccesses, openWrites, timerAdmission, clearWrites,
    priorityWrites, fill, List.mem_append, List.mem_cons, List.mem_flatMap, List.mem_map,
    List.mem_range, List.not_mem_nil, Access.write.injEq, reduceCtorEq, false_or, or_false] at h
  rcases h with ((⟨rfl, -⟩ | ⟨word, hword, ⟨rfl, -⟩ | ⟨rfl, -⟩⟩ | ⟨word, hword, rfl, -⟩) |
    ⟨rfl, -⟩ | ⟨rfl, -⟩ | ⟨rfl, -⟩ | ⟨rfl, -⟩) | ⟨rfl, -⟩ | ⟨rfl, -⟩
  · exact .distributorControl
  · exact .bit .clearEnable word (.inr (.inl rfl)) hword
  · exact .bit .clearPending word (.inr (.inr rfl)) hword
  · exact .byte word hword
  · exact .distributorControl
  · exact .priorityMask
  · exact .binaryPoint
  · exact .interfaceControl
  · exact .byte 7 (by omega)
  · exact .bit .setEnable 0 (.inl rfl) hpositive

theorem eq_of_read_mem_startAccesses {address : UInt64} {value : UInt32}
    (h : .read address value ∈ board.startAccesses) :
    address = board.distributorAddress .kind 0 ∨
      address = board.distributorAddress .priority 28 := by
  simp only [startAccesses, lowestAccesses, openWrites, timerAdmission, clearWrites,
    priorityWrites, fill, List.mem_append, List.mem_cons, List.mem_flatMap, List.mem_map,
    List.not_mem_nil, Access.read.injEq, reduceCtorEq, and_false, exists_false, or_false] at h
  exact h.imp And.left And.left

/--
A start of the interrupt controller.  It fails if and only if the distributor's kind reads as no
bits or as all bits, and then the kind was read and nothing else done.  Otherwise, whatever state
the controller was in, it now lets in the timer interrupt, at a priority that no other one has,
and of all its other interrupts none is enabled or pending; and no register was written but the
controls, the priority mask, the binary point and the words of the banks that the controller has.
-/
theorem startController_admitsTimer (board : Board) (state : ControllerState) :
    (board.kind = 0xFFFFFFFF ∨ board.kind = 0 →
      board.startController.1 = false ∧ board.startController.2.words = board.words ∧
        board.startController.2.trace =
          board.trace ++ [.read (board.distributorAddress .kind 0) board.kind]) ∧
      (board.kind ≠ 0xFFFFFFFF → board.kind ≠ 0 →
        board.startController.1 = true ∧
          ∃ accesses, board.startController.2.trace = board.trace ++ accesses ∧
            (state.receiveAll board.model accesses).AdmitsTimer board.lines ∧
            ∀ address value, .write address value ∈ accesses → board.Writable address) := by
  constructor
  · intro hmissing
    have hanswers : ¬board.Answers := fun h => hmissing.elim h.1 h.2
    rw [startController_of_missing hanswers]
    exact ⟨rfl, rfl, rfl⟩
  · intro hones hzero
    have hanswers : board.Answers := ⟨hones, hzero⟩
    exact ⟨board.startController_eq_true.2 hanswers, board.startAccesses,
      trace_startController hanswers, admitsTimer_start board state,
      fun _ _ => writable_of_mem_startAccesses⟩

/-- A controller that lets in everything before it is started, and has everything pending. -/
def ControllerState.unruly : ControllerState where
  forwarding := false
  enabled _ := true
  pending _ := true
  priority _ := 0
  passing := false
  priorityMask := 0

/-- A controller with 32 interrupts keeps 31 of them out, and answers for no others. -/
theorem startController_admitsTimer_of_unruly :
    responsive.kind ≠ 0xFFFFFFFF ∧ responsive.kind ≠ 0 ∧ responsive.lines = 32 ∧
      ∃ accesses, responsive.startController.2.trace = accesses ∧
        (ControllerState.unruly.receiveAll .pi accesses).enabled 30 = true ∧
        (ControllerState.unruly.receiveAll .pi accesses).enabled 31 = false ∧
        (ControllerState.unruly.receiveAll .pi accesses).priority 31 = 0xFF := by
  have hones : responsive.kind ≠ 0xFFFFFFFF := by decide
  have hzero : responsive.kind ≠ 0 := by decide
  obtain ⟨-, accesses, htrace, hadmits, -⟩ :=
    (startController_admitsTimer responsive .unruly).2 hones hzero
  have hlines : responsive.lines = 32 := by decide
  rw [hlines] at hadmits
  rw [show responsive.trace = [] from rfl, List.nil_append] at htrace
  refine ⟨hones, hzero, hlines, accesses, htrace, ?_, ?_, ?_⟩
  · exact (hadmits.enabled 30 (by decide)).2 rfl
  · exact Bool.eq_false_iff.2 (mt (hadmits.enabled 31 (by decide)).1 (by decide))
  · exact hadmits.priority 31 (by decide)

end TickKernel.Board
