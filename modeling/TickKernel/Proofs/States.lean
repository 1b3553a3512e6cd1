import TickKernel.Proofs.Moves

/-!
# Scheduling states after a step

What every step makes of the state of every thread, and of the ticks that a thread
has left to sleep.  Few steps change a state at all, and all but a dispatch and the
countdown concern one thread only.
-/

namespace TickKernel

theorem ControlBlock.countDown_cases (block : ControlBlock) :
    block.state ≠ .sleeping ∧ block.countDown = block ∨
      block.state = .sleeping ∧ block.countDown.state = .ready ∨
        block.state = .sleeping ∧ block.countDown.state = .sleeping ∧
          block.countDown.sleepTicks ≠ 0 ∧
            block.sleepTicks.toNat = block.countDown.sleepTicks.toNat + 1 := by
  by_cases hsleeping : block.state = .sleeping
  · right
    by_cases hzero : block.sleepTicks = 0
    · simp [countDown, hsleeping, hzero]
    · by_cases hlast : block.sleepTicks - 1 = 0
      · simp [countDown, hsleeping, hzero, hlast]
      · have hpos : 0 < block.sleepTicks.toNat := by
          rw [Nat.pos_iff_ne_zero]
          intro hnone
          exact hzero (UInt32.toNat_inj.1 hnone)
        have hless : (block.sleepTicks - 1).toNat = block.sleepTicks.toNat - 1 :=
          UInt32.toNat_sub_of_le _ _ (UInt32.le_iff_toNat_le.2 hpos)
        have hleft : block.countDown.sleepTicks = block.sleepTicks - 1 := by
          simp [countDown, hsleeping, hzero]
        refine .inr ⟨hsleeping, by simp [countDown, hsleeping, hzero, hlast], hleft ▸ hlast, ?_⟩
        rw [hleft, hless]
        omega
  · exact .inl ⟨hsleeping, by simp [countDown, hsleeping]⟩

theorem ControlBlock.state_countDown {block : ControlBlock} (h : block.state = .sleeping) :
    block.countDown.state = if block.sleepTicks.toNat ≤ 1 then .ready else .sleeping := by
  rw [countDown, if_pos h]
  refine ite_congr (propext ?_) (fun _ => rfl) fun _ => rfl
  split
  next hzero => simp [hzero]
  next hpos =>
      have hone : (1 : UInt32).toNat = 1 := rfl
      have hleast : 1 ≤ block.sleepTicks.toNat := by
        rw [Nat.one_le_iff_ne_zero]
        exact fun hnone => hpos (UInt32.toNat_inj.1 hnone)
      have hless : (block.sleepTicks - 1).toNat = block.sleepTicks.toNat - 1 :=
        UInt32.toNat_sub_of_le _ _ (UInt32.le_iff_toNat_le.2 hleast)
      rw [← UInt32.toNat_inj, hless, UInt32.toNat_zero]
      omega

/-- A countdown too long for its field stands at the greatest. -/
theorem ControlBlock.toNat_sleepTicks_asleep (block : ControlBlock) (ticks : UInt64) :
    (block.asleep ticks).sleepTicks.toNat = min ticks.toNat (UInt32.size - 1) := by
  simp only [asleep]
  split
  next hsmall =>
      have hmod : ticks.toNat % UInt32.size = ticks.toNat := Nat.mod_eq_of_lt hsmall
      rw [UInt64.toNat_toUInt32, show 2 ^ 32 = UInt32.size from rfl, hmod,
        Nat.min_eq_left (by omega)]
  next hlarge =>
      rw [Nat.min_eq_right (by omega)]
      rfl

namespace ThreadTable

variable {table : ThreadTable} {id : ThreadId}

def sleep (table : ThreadTable) (id : ThreadId) : UInt32 :=
  (table.block id).sleepTicks

theorem state_initial (id : ThreadId) :
    initial.state id = if id = ThreadId.idle then .running else .waiting := by
  simp only [state, block, initial, Fin.getElem_fin, Vector.getElem_ofFn]
  split <;> rfl

theorem state_initial_idle : initial.state ThreadId.idle = .running := by
  rw [state_initial, if_pos rfl]

/-- The free slot that the next thread gets. -/
def isNext (table : ThreadTable) (id : ThreadId) : Bool :=
  id.val == table.count && !table.isFull

theorem isNext_eq_false (h : table.contains id = true) : table.isNext id = false := by
  have hbound := table.count_le
  simp only [contains, Bool.or_eq_true, beq_iff_eq, decide_eq_true_eq] at h
  rcases h with rfl | hlt
  · by_cases hfull : table.count = maxCreated
    · simp [isNext, isFull, hfull]
    · have hne : ThreadId.idle.val ≠ table.count := by
        rw [show ThreadId.idle.val = maxCreated from rfl]
        omega
      simp [isNext, hne]
  · have hne : id.val ≠ table.count := by omega
    simp [isNext, hne]

theorem block_insert (table : ThreadTable) (make : ThreadId → ControlBlock) (id : ThreadId) :
    (((table.insert make).map Prod.snd).getD table).block id =
      if table.isNext id then make id else table.block id := by
  unfold insert
  split
  next room =>
      have hroom : table.isFull = false := by
        simp only [isFull, beq_eq_false_iff_ne]
        omega
      by_cases hid : id.val = table.count
      · have hslot : (⟨table.count, Nat.lt_of_lt_of_le room (Nat.sub_le _ _)⟩ : ThreadId) = id :=
          Fin.ext hid.symm
        simp [isNext, hroom, hid, block, hslot]
      · simp [isNext, hid, block, Ne.symm hid]
  next full =>
      have hfull : table.isFull = true := by
        have hbound := table.count_le
        simp only [isFull, beq_iff_eq]
        omega
      simp [isNext, hfull]

theorem isNext_iff_of_insert {after : ThreadTable} {make : ThreadId → ControlBlock}
    {entered : ThreadId} (h : table.insert make = some (entered, after)) :
    table.isNext id = true ↔ entered = id := by
  obtain ⟨hentered, hcount⟩ := count_of_insert h
  have hbound := after.count_le
  have hroom : table.isFull = false := by
    simp only [isFull, beq_eq_false_iff_ne]
    omega
  simp only [isNext, hroom, Bool.not_false, Bool.and_true, beq_iff_eq, ← hentered]
  exact ⟨fun hval => Fin.ext hval.symm, fun heq => heq ▸ rfl⟩

theorem isNext_of_insert_eq_none {make : ThreadId → ControlBlock} (h : table.insert make = none) :
    table.isNext id = false := by
  unfold insert at h
  split at h
  next => cases h
  next hfull =>
      have hbound := table.count_le
      have hcount : table.count = maxCreated := by omega
      simp [isNext, isFull, hcount]

theorem contains_of_insert {make : ThreadId → ControlBlock}
    (h : (((table.insert make).map Prod.snd).getD table).contains id = true)
    (hnext : ¬ table.isNext id = true) : table.contains id = true := by
  unfold insert at h
  split at h
  next room =>
      have hroom : table.isFull = false := by
        simp only [isFull, beq_eq_false_iff_ne]
        omega
      simp only [isNext, hroom, Bool.not_false, Bool.and_true, beq_iff_eq] at hnext
      simp only [Option.map_some, Option.getD_some, contains, Bool.or_eq_true, beq_iff_eq,
        decide_eq_true_eq] at h ⊢
      exact h.imp_right fun hlt => by omega
  next => exact h

end ThreadTable

def Step.stateAfter (table : ThreadTable) (id : ThreadId) : Step → ThreadState
  | .dispatch target =>
      if table.handsBack target then table.state id
      else if id = target then .running
      else if id = table.current ∧ table.state id = .running then .ready
      else table.state id
  | .block => if id = table.current then .waiting else table.state id
  | .doze _ => if id = table.current then .sleeping else table.state id
  | .wake woken =>
      if id = woken ∧ table.contains id ∧ table.state id = .waiting then .ready
      else table.state id
  | .countDown =>
      if table.contains id then (table.block id).countDown.state else table.state id
  | .enroll _ _ => if table.isNext id then .ready else table.state id
  | _ => table.state id

def Step.sleepAfter (table : ThreadTable) (id : ThreadId) : Step → UInt32
  | .doze ticks =>
      if id = table.current then ((table.block id).asleep ticks).sleepTicks else table.sleep id
  | .countDown =>
      if table.contains id then (table.block id).countDown.sleepTicks else table.sleep id
  | .enroll _ _ => if table.isNext id then 0 else table.sleep id
  | _ => table.sleep id

namespace ThreadTable

theorem block_dispatch (table : ThreadTable) (target id : ThreadId) :
    (table.dispatch target).block id =
      if table.handsBack target then table.block id
      else if id = target then
        (if id = table.current then (table.block id).preempted else table.block id).dispatched
      else if id = table.current then (table.block id).preempted
      else table.block id := by
  unfold dispatch
  split
  · rfl
  · show ((table.modifyCurrent ControlBlock.preempted).modify target
      ControlBlock.dispatched).block id = _
    by_cases htarget : id = target
    · subst htarget
      rw [block_modify_self, if_pos rfl]
      by_cases hcurrent : id = table.current
      · rw [if_pos hcurrent, hcurrent, modifyCurrent, block_modify_self]
      · rw [if_neg hcurrent, modifyCurrent, block_modify_of_ne _ _ hcurrent]
    · rw [block_modify_of_ne _ _ htarget, if_neg htarget]
      by_cases hcurrent : id = table.current
      · rw [if_pos hcurrent, hcurrent, modifyCurrent, block_modify_self]
      · rw [if_neg hcurrent, modifyCurrent, block_modify_of_ne _ _ hcurrent]

theorem block_modifyCurrent (table : ThreadTable) (change : ControlBlock → ControlBlock)
    (id : ThreadId) : (table.modifyCurrent change).block id =
      if id = table.current then change (table.block id) else table.block id := by
  by_cases hcurrent : id = table.current
  · rw [if_pos hcurrent, hcurrent, modifyCurrent, block_modify_self]
  · rw [if_neg hcurrent, modifyCurrent, block_modify_of_ne _ _ hcurrent]

theorem block_wake (table : ThreadTable) (woken id : ThreadId) :
    (table.wake woken).block id =
      if id = woken ∧ table.contains id then (table.block id).woken else table.block id := by
  by_cases hid : id = woken
  · subst hid
    unfold wake
    by_cases hcontains : table.contains id = true
    · simp [hcontains]
    · simp [hcontains]
  · rw [block_wake_of_ne table hid]
    simp [hid]

end ThreadTable

theorem Step.state_tableAfter (step : Step) (table : ThreadTable) (id : ThreadId) :
    (step.tableAfter table).state id = step.stateAfter table id := by
  cases step <;> try rfl
  case dispatch target =>
      simp only [tableAfter, stateAfter, ThreadTable.state, ThreadTable.block_dispatch]
      split
      · rfl
      · split
        · rfl
        · by_cases hcurrent : id = table.current
          · simp only [hcurrent, if_true, ControlBlock.preempted, true_and]
            split <;> rfl
          · simp [hcurrent]
  case block =>
      simp only [tableAfter, stateAfter, ThreadTable.state, ThreadTable.block_modifyCurrent]
      split <;> rfl
  case doze ticks =>
      simp only [tableAfter, stateAfter, ThreadTable.state, ThreadTable.block_modifyCurrent]
      split <;> rfl
  case wake woken =>
      show ((table.wake woken).block id).state = _
      rw [ThreadTable.block_wake, stateAfter]
      by_cases hid : id = woken ∧ table.contains id = true
      · rw [if_pos hid, ControlBlock.woken]
        by_cases hwaiting : (table.block id).state = .waiting
        · have hwakes : id = woken ∧ table.contains id = true ∧ table.state id = .waiting :=
            ⟨hid.1, hid.2, hwaiting⟩
          rw [if_pos hwaiting, if_pos hwakes]
        · have hawake : ¬ table.state id = .waiting := hwaiting
          rw [if_neg hwaiting, if_neg fun h => hawake h.2.2]
          rfl
      · rw [if_neg hid, if_neg fun h => hid ⟨h.1, h.2.1⟩]
        rfl
  case closeInterval => simp [tableAfter, stateAfter, ThreadTable.state, ControlBlock.closeInterval]
  case countDown =>
      simp only [tableAfter, stateAfter, ThreadTable.state, ThreadTable.block_countDown]
      split <;> rfl
  case enroll creation stack =>
      simp only [tableAfter, stateAfter, ThreadTable.state, ThreadTable.block_insert]
      split <;> rfl

theorem Step.sleep_tableAfter (step : Step) (table : ThreadTable) (id : ThreadId) :
    (step.tableAfter table).sleep id = step.sleepAfter table id := by
  cases step <;> try rfl
  case dispatch target =>
      simp only [tableAfter, sleepAfter, ThreadTable.sleep, ThreadTable.block_dispatch,
        ControlBlock.dispatched, ControlBlock.preempted]
      repeat' split
      all_goals rfl
  case block =>
      simp only [tableAfter, sleepAfter, ThreadTable.sleep, ThreadTable.block_modifyCurrent]
      split <;> rfl
  case doze ticks =>
      simp only [tableAfter, sleepAfter, ThreadTable.sleep, ThreadTable.block_modifyCurrent]
      split <;> rfl
  case wake woken =>
      simp only [tableAfter, sleepAfter, ThreadTable.sleep, ThreadTable.block_wake,
        ControlBlock.woken]
      repeat' split
      all_goals rfl
  case closeInterval => simp [tableAfter, sleepAfter, ThreadTable.sleep, ControlBlock.closeInterval]
  case countDown =>
      simp only [tableAfter, sleepAfter, ThreadTable.sleep, ThreadTable.block_countDown]
      split <;> rfl
  case enroll creation stack =>
      simp only [tableAfter, sleepAfter, ThreadTable.sleep, ThreadTable.block_insert]
      split <;> rfl

/-! ## Getting into a state and out of it -/

namespace Step

variable {table : ThreadTable} {id : ThreadId} {step : Step}

/-- Only a doze and a countdown change how long a thread that exists still sleeps. -/
theorem sleepAfter_eq (hcontains : table.contains id = true) (hcount : step ≠ .countDown)
    (hdoze : ∀ ticks, step = .doze ticks → id ≠ table.current) :
    step.sleepAfter table id = table.sleep id := by
  cases step <;> try rfl
  case doze ticks => rw [sleepAfter, if_neg (hdoze ticks rfl)]
  case countDown => exact absurd rfl hcount
  case enroll creation stack => simp [sleepAfter, ThreadTable.isNext_eq_false hcontains]

/-- How a step changes the state of a thread that exists, and to what. -/
inductive Changes (table : ThreadTable) (id : ThreadId) : Step → ThreadState → Prop where
  | dispatch : Changes table id (.dispatch id) .running
  | preempt {target : ThreadId} : target ≠ id → id = table.current → table.state id = .running →
      Changes table id (.dispatch target) .ready
  | block : id = table.current → Changes table id .block .waiting
  | doze (ticks : UInt64) : id = table.current → Changes table id (.doze ticks) .sleeping
  | wake : table.state id = .waiting → Changes table id (.wake id) .ready
  | countDown : table.state id = .sleeping → (table.sleep id).toNat ≤ 1 →
      Changes table id .countDown .ready

/-- A thread stays in its state, or a step changes it in one of these ways, or enters the thread. -/
theorem stateAfter_cases (step : Step) (table : ThreadTable) (id : ThreadId) :
    (step.stateAfter table id = table.state id ∧
        (step = .dispatch id → table.handsBack id = true)) ∨
      step.Changes table id (step.stateAfter table id) ∨
        table.isNext id = true ∧ step.stateAfter table id = .ready := by
  cases step
  case dispatch target =>
      rw [stateAfter]
      split
      next hback => exact .inl ⟨rfl, fun heq => Step.dispatch.inj heq ▸ hback⟩
      next =>
          split
          next htarget => exact .inr (.inl (htarget ▸ .dispatch))
          next hne =>
              split
              next hleaves => exact .inr (.inl (.preempt (Ne.symm hne) hleaves.1 hleaves.2))
              next => exact .inl ⟨rfl, fun heq => absurd (Step.dispatch.inj heq).symm hne⟩
  case block =>
      rw [stateAfter]
      split
      next hcurrent => exact .inr (.inl (.block hcurrent))
      next => exact .inl ⟨rfl, by simp⟩
  case doze ticks =>
      rw [stateAfter]
      split
      next hcurrent => exact .inr (.inl (.doze ticks hcurrent))
      next => exact .inl ⟨rfl, by simp⟩
  case wake woken =>
      rw [stateAfter]
      split
      next hwakes => exact .inr (.inl (hwakes.1 ▸ .wake hwakes.2.2))
      next => exact .inl ⟨rfl, by simp⟩
  case countDown =>
      rw [stateAfter]
      split
      · by_cases hsleeping : table.state id = .sleeping
        · rw [ControlBlock.state_countDown hsleeping]
          split
          next hlast => exact .inr (.inl (.countDown hsleeping hlast))
          next => exact .inl ⟨hsleeping.symm, by simp⟩
        · have hawake : ¬ (table.block id).state = .sleeping := hsleeping
          have hsame : (table.block id).countDown = table.block id := by
            rw [ControlBlock.countDown, if_neg hawake]
          exact .inl ⟨congrArg ControlBlock.state hsame, by simp⟩
      · exact .inl ⟨rfl, by simp⟩
  case enroll creation stack =>
      rw [stateAfter]
      split
      next hnext => exact .inr (.inr ⟨hnext, rfl⟩)
      next => exact .inl ⟨rfl, by simp⟩
  all_goals exact .inl ⟨rfl, by simp⟩

theorem changes_of_ne {new : ThreadState} (hcontains : table.contains id = true)
    (hnew : step.stateAfter table id = new) (hchange : new ≠ table.state id) :
    step.Changes table id new := by
  subst hnew
  rcases step.stateAfter_cases table id with ⟨hsame, -⟩ | hchanges | ⟨hnext, -⟩
  · exact absurd hsame hchange
  · exact hchanges
  · rw [ThreadTable.isNext_eq_false hcontains] at hnext
    cases hnext

theorem running_before (hdispatch : ∀ target, step ≠ .dispatch target)
    (h : step.stateAfter table id = .running) : table.state id = .running := by
  rcases step.stateAfter_cases table id with ⟨hsame, -⟩ | hchanges | ⟨-, hready⟩
  · exact hsame.symm.trans h
  · rw [h] at hchanges
    cases hchanges
    exact absurd rfl (hdispatch id)
  · rw [h] at hready
    cases hready

theorem waiting_before (h : step.stateAfter table id = .waiting) :
    (table.state id = .waiting ∧ (step = .dispatch id → table.handsBack id = true)) ∨
      step = .block ∧ id = table.current := by
  rcases step.stateAfter_cases table id with ⟨hsame, hback⟩ | hchanges | ⟨-, hready⟩
  · exact .inl ⟨hsame.symm.trans h, hback⟩
  · rw [h] at hchanges
    cases hchanges with
    | block hcurrent => exact .inr ⟨rfl, hcurrent⟩
  · rw [h] at hready
    cases hready

theorem sleeping_before (h : step.stateAfter table id = .sleeping) :
    (table.state id = .sleeping ∧ (step = .dispatch id → table.handsBack id = true)) ∨
      ∃ ticks, step = .doze ticks ∧ id = table.current := by
  rcases step.stateAfter_cases table id with ⟨hsame, hback⟩ | hchanges | ⟨-, hready⟩
  · exact .inl ⟨hsame.symm.trans h, hback⟩
  · rw [h] at hchanges
    cases hchanges with
    | doze ticks hcurrent => exact .inr ⟨ticks, rfl, hcurrent⟩
  · rw [h] at hready
    cases hready

/-- A thread becomes ready when it is preempted, woken, counted down or created. -/
theorem ready_before (h : step.stateAfter table id = .ready) :
    table.state id = .ready ∨
      (∃ target, step = .dispatch target ∧ id = table.current) ∨
        (step = .wake id ∧ table.state id = .waiting) ∨
          (step = .countDown ∧ table.state id = .sleeping) ∨ table.isNext id = true := by
  rcases step.stateAfter_cases table id with ⟨hsame, -⟩ | hchanges | ⟨hnext, -⟩
  · exact .inl (hsame.symm.trans h)
  · rw [h] at hchanges
    cases hchanges with
    | preempt _ hcurrent => exact .inr (.inl ⟨_, rfl, hcurrent⟩)
    | wake hwaiting => exact .inr (.inr (.inl ⟨rfl, hwaiting⟩))
    | countDown hsleeping => exact .inr (.inr (.inr (.inl ⟨rfl, hsleeping⟩)))
  · exact .inr (.inr (.inr (.inr hnext)))

theorem running_after (h : table.state id = .running) (hcontains : table.contains id = true)
    (hdispatch : ∀ target, step ≠ .dispatch target) (hblock : step ≠ .block)
    (hdoze : ∀ ticks, step ≠ .doze ticks) : step.stateAfter table id = .running := by
  cases step <;> simp only [stateAfter] <;> try exact h
  case dispatch target => exact absurd rfl (hdispatch target)
  case block => exact absurd rfl hblock
  case doze ticks => exact absurd rfl (hdoze ticks)
  case wake woken => rw [h, if_neg (by simp)]
  case enroll creation stack => simpa [ThreadTable.isNext_eq_false hcontains] using h
  case countDown =>
      have hstate : (table.block id).state = .running := h
      rw [if_pos hcontains, ControlBlock.countDown, if_neg (by simp [hstate]), hstate]

theorem waiting_after (h : table.state id = .waiting) (hcontains : table.contains id = true)
    (hdispatch : step ≠ .dispatch id) (hwake : step ≠ .wake id)
    (hdoze : ∀ ticks, step = .doze ticks → id ≠ table.current) :
    step.stateAfter table id = .waiting := by
  cases step <;> simp only [stateAfter] <;> try exact h
  case dispatch target =>
      have hne : id ≠ target := fun heq => hdispatch (by rw [heq])
      simp [h, hne]
  case block => split <;> first | rfl | exact h
  case doze ticks => rwa [if_neg (hdoze ticks rfl)]
  case wake woken =>
      have hne : id ≠ woken := fun heq => hwake (by rw [heq])
      rwa [if_neg fun hwoken => hne hwoken.1]
  case enroll creation stack => simpa [ThreadTable.isNext_eq_false hcontains] using h
  case countDown =>
      have hstate : (table.block id).state = .waiting := h
      rw [if_pos hcontains, ControlBlock.countDown, if_neg (by simp [hstate]), hstate]

theorem sleeping_after (h : table.state id = .sleeping) (hcontains : table.contains id = true)
    (hdispatch : step ≠ .dispatch id) (hblock : step = .block → id ≠ table.current)
    (hcount : step = .countDown → 1 < (table.sleep id).toNat) :
    step.stateAfter table id = .sleeping := by
  cases step <;> simp only [stateAfter] <;> try exact h
  case dispatch target =>
      have hne : id ≠ target := fun heq => hdispatch (by rw [heq])
      simp [h, hne]
  case block => rwa [if_neg (hblock rfl)]
  case doze ticks => split <;> first | rfl | exact h
  case wake woken => rw [h, if_neg (by simp)]
  case enroll creation stack => simpa [ThreadTable.isNext_eq_false hcontains] using h
  case countDown =>
      have hmore : ¬ (table.block id).sleepTicks.toNat ≤ 1 := Nat.not_le.2 (hcount rfl)
      rw [if_pos hcontains, ControlBlock.state_countDown h, if_neg hmore]

theorem blocked_after (h : (table.state id).isBlocked = true)
    (hcontains : table.contains id = true) (hdispatch : ∀ target, step ≠ .dispatch target)
    (hwake : step ≠ .wake id) (hcount : step ≠ .countDown) :
    (step.stateAfter table id).isBlocked = true := by
  cases step <;> simp only [stateAfter] <;> try exact h
  case dispatch target => exact absurd rfl (hdispatch target)
  case block => split <;> first | rfl | exact h
  case doze ticks => split <;> first | rfl | exact h
  case countDown => exact absurd rfl hcount
  case enroll creation stack => simpa [ThreadTable.isNext_eq_false hcontains] using h
  case wake woken =>
      have hne : id ≠ woken := fun heq => hwake (by rw [heq])
      rwa [if_neg fun hwoken => hne hwoken.1]

theorem contains_before (h : (step.tableAfter table).contains id = true) :
    table.contains id = true ∨
      table.isNext id = true ∧ ∃ creation stack, step = .enroll creation stack := by
  cases step
  case dispatch target =>
      rw [tableAfter, ThreadTable.contains, ThreadTable.count_dispatch] at h
      exact .inl h
  case wake woken =>
      simp only [tableAfter, ThreadTable.wake] at h
      split at h
      all_goals exact .inl h
  case enroll creation stack =>
      by_cases hnext : table.isNext id = true
      · exact .inr ⟨hnext, creation, stack, rfl⟩
      · exact .inl (ThreadTable.contains_of_insert h hnext)
  all_goals exact .inl h

end Step

end TickKernel
