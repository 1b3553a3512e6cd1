import TickKernel.Proofs.Handoff
import TickKernel.Proofs.LeftAlone
import TickKernel.Proofs.Slumber

/-!
# Sleeping until the deadline

A call of `sleep` returns no sooner than its deadline.  Until then the table counts
its thread down in step with the clock, however often the thread is dispatched in
between; and a created thread that nobody switches to is not dispatched at all.
-/

namespace TickKernel

variable {P : Type}

namespace Machine

/-- A thread that has gone to sleep sleeps until its deadline. -/
def Undisturbed (past : List (Transition P)) (id : ThreadId) (m : Machine P) : Prop :=
  ∀ s, slumber past id = some s → s.Fits → s.dozed = true → s.elapsed < s.ticks.toNat →
    m.kernel.table.state id = .sleeping

namespace At

variable {m : Machine P} {rest : List Step}

/-- A tick has but its own guard, unless it came where its thread held a lock. -/
theorem of_countTick {struck : Prop} (horderly : m.Orderly struck) (hobjects : m.shared.Sound)
    (hseated : m.Seated) (hcode : m.context.code = .countTick :: rest) :
    struck ∨ m.At (.countTick :: rest) ⟨1, []⟩ := by
  have hown := horderly.own
  rw [hcode] at hown
  obtain ⟨-, -, ⟨hstruck, -⟩ | ⟨hstands, -⟩⟩ := hown
  · exact .inl hstruck
  · exact .inr ⟨horderly.mono fun _ => trivial, hobjects, hseated, hcode,
      (Option.some.inj hstands).symm⟩

/-- A tick that is counted counts the sleeping threads down before anything else happens. -/
theorem counts_down [Backend P] (h : m.At (.countTick :: rest) ⟨1, []⟩) :
    ∃ after, m.Alone 3 after ∧ after.kernel.ticks = m.kernel.ticks.increment ∧
      after.kernel.table = Step.tableAfter .countDown m.kernel.table := by
  obtain ⟨pushed, hticks, hticked⟩ := h.exec_step (by simp [Step.IsDead]) rfl
  have hfirst := Alone.one hticks.effect.executing (hticked.masked (by simp))
  obtain ⟨others, rfl⟩ : ∃ others, pushed = .take .table :: .countDown :: others := by
    cases hticks.expands with
    | nothing hplain => cases hplain
    | answer _ hasks => cases hasks
    | tick => exact ⟨_, rfl⟩
  obtain ⟨pushed, htakes, htaken⟩ := hticked.exec_step (by simp [Step.IsDead]) rfl
  rw [htakes.expands.eq_nil rfl] at htaken
  have hsecond := Alone.one htakes.effect.executing (htaken.masked (by simp))
  obtain ⟨pushed, hcounts, hcounted⟩ := htaken.exec_step (by simp [Step.IsDead]) rfl
  have hthird := Alone.one hcounts.effect.executing (hcounted.masked (by simp))
  refine ⟨m.exec.exec.exec, (hfirst.trans hsecond).trans hthird, ?_, ?_⟩
  · rw [hcounts.effect.ticks, htakes.effect.ticks, hticks.effect.ticks]
    rfl
  · rw [hcounts.effect.table, htakes.effect.table, hticks.effect.table]
    rfl

end At

variable [Backend P] [LawfulBackend P] {past : List (Transition P)} {m after : Machine P}
  {step : Step} {rest pushed : List Step} {id : ThreadId} {move : Move} {s : Slumber}

namespace Undisturbed

theorem of_step (h : m.Undisturbed past id) (hreposes : m.Reposes past id)
    (hsummons : m.Summons id) (hgoverned : m.Governed past) (hwaiters : m.Waiters)
    (hstepped : m.Stepped step rest pushed after) :
    after.Undisturbed (past ++ [⟨m, .exec⟩]) id := by
  intro s hslumber hfits hdozed hearly
  have hregular := hgoverned.regular
  rw [slumber_exec past m id hstepped.step?_eq, Option.elim_some] at hslumber
  rw [hstepped.effect.table, Step.state_tableAfter]
  rcases Step.slumbers_cases hslumber with ⟨ticks, -, -, rfl⟩ | ⟨before, hlast, hgoes, hdozes⟩
  · cases hdozed
  · have hsooner : before.elapsed < before.ticks.toNat := by
      rw [hgoes.ticks, hgoes.elapsed] at hearly
      omega
    rcases hdozes hdozed with hdozed | ⟨hown, left, rfl⟩
    · have hsleeping := h before hlast (hgoes.fits hfits) hdozed hsooner
      have hcontains := hgoverned.asked id _ (hreposes.asked_eq hlast)
      refine Step.sleeping_after hsleeping hcontains ?_ ?_ ?_
      · rintro rfl
        have hblocked : (m.kernel.table.state id).isBlocked = true := by
          rw [hsleeping]
          rfl
        have hwaiting := (hsummons (hstepped.code ▸ List.mem_cons_self) hblocked).1
        cases hsleeping.symm.trans hwaiting
      · -- a thread that blocks seeks something else than its deadline
        rintro rfl hcurrent
        have hseat := hregular.seated.executing_eq hstepped.code (by simp) hstepped.stays
        obtain ⟨call, hseeking, hstuck⟩ :=
          hgoverned.posture.stuck (.inr (hstepped.code ▸ List.mem_cons_self))
        obtain ⟨wakeAt, huntil⟩ := hwaiters.sleeping id hcontains hsleeping
        rw [contextOf_executing (hseat.trans hcurrent.symm), hseeking] at huntil
        cases huntil
        exact hstuck
      · rintro rfl
        have hcounts := Slumber.counts_of_early (hgoes.fits hfits) hsooner
        have hleft := (hreposes.asleep before hlast (hgoes.fits hfits) hcounts hsleeping).2
        have howed : Code.owed m.context.code = 1 := if_pos (hstepped.code ▸ List.mem_cons_self)
        omega
    · have hseat := hregular.seated.executing_eq hstepped.code (by simp) hstepped.stays
      rw [Step.stateAfter, if_pos ((beq_iff_eq.1 hown).symm.trans hseat)]

theorem goes (h : m.Undisturbed past id) (hreposes : m.Reposes past id)
    (hsummons : m.Summons id) (hgoverned : m.Governed past) (hwaiters : m.Waiters)
    (hgoes : m.Goes move after) : after.Undisturbed (past ++ [⟨m, move⟩]) id := by
  cases hgoes with
  | spin hnone =>
      rw [Undisturbed, slumber_exec past m id hnone]
      exact h
  | step hstepped => exact h.of_step hreposes hsummons hgoverned hwaiters hstepped
  | switch hcode hswitched =>
      rw [Undisturbed, slumber_exec past m id (step?_of_switch hcode), hswitched.kernel]
      exact h
  | call request =>
      rw [Undisturbed, slumber_call]
      split
      next => nofun
      next => exact h
  | interrupt =>
      rw [Undisturbed, slumber_interrupt]
      exact h

end Undisturbed

namespace Reposes

/-- Whoever returns from `sleep` has slept as long as it asked to. -/
theorem due_of_returns (h : m.Reposes past id) (hregular : m.Regular past) {ticks : UInt32}
    (hticks : ticks ≠ 0) (hreturns : Transition.Returns ⟨m, .exec⟩ past id (.sleep ticks)) :
    ∃ s, slumber past id = some s ∧ s.ticks = ticks ∧ s.Due := by
  obtain ⟨reply, hcode⟩ := hregular.code_of_returns hreturns
  have hstage := h.stage ticks hreturns.asked
  rw [hcode] at hstage
  generalize hlast : [Step.finish reply].getLast? = last at hstage
  obtain rfl : some (Step.finish reply) = last := hlast
  generalize slumber past id = before at hstage ⊢
  cases hstage with
  | seeking _ hseeks => cases hseeks
  | ended hasked _ hdue => exact ⟨_, rfl, hasked, hdue⟩
  | idle hzero => exact absurd hzero hticks

theorem left_of_enabled (h : m.Reposes past id) (hregular : m.Regular past)
    (henabled : m.interruptsEnabled = true) (hslumber : slumber past id = some s)
    (hfits : s.Fits) (hcounts : s.Counts) (hsleeping : m.kernel.table.state id = .sleeping) :
    1 ≤ (m.kernel.table.sleep id).toNat ∧
      (m.kernel.table.sleep id).toNat + m.kernel.ticks.ticks.toNat =
        s.since.toNat + s.ticks.toNat := by
  have hcalm := Seated.calm_of_enabled hregular.orderly henabled
  obtain ⟨hpos, hleft⟩ := h.asleep s hslumber hfits hcounts hsleeping
  rw [Code.owed_of_calm hcalm] at hleft
  rw [h.now_eq hslumber hcounts]
  omega

/-- The tick that completes a sleep wakes its thread, and no tick before it does. -/
theorem counted_down (h : m.Reposes past id) (hgoverned : m.Governed past)
    (hnext : m.nextStep? = some .countTick) (hslumber : slumber past id = some s)
    (hfits : s.Fits) (hcounts : s.Counts) (hsleeping : m.kernel.table.state id = .sleeping) :
    Struck past ∨ ∃ after, m.Alone 3 after ∧
      after.kernel.ticks = m.kernel.ticks.increment ∧
      after.kernel.table.state id =
        if s.elapsed + 1 = s.ticks.toNat then .ready else .sleeping := by
  have hregular := hgoverned.regular
  obtain ⟨rest, hcode⟩ := List.head?_eq_some_iff.1 hnext
  refine (At.of_countTick hregular.orderly hregular.objects hregular.seated hcode).imp_right
    fun hat => ?_
  obtain ⟨after, halone, hticks, htable⟩ := hat.counts_down
  refine ⟨after, halone, hticks, ?_⟩
  have hcalm : Calm rest := hregular.orderly.fits_of_code hcode
  obtain ⟨hpos, hleft⟩ := h.asleep s hslumber hfits hcounts hsleeping
  rw [hcode, Code.owed_cons (by simp), Code.owed_of_calm hcalm] at hleft
  have hcontains := hgoverned.asked id _ (h.asked_eq hslumber)
  rw [htable, Step.state_tableAfter, Step.stateAfter, if_pos hcontains,
    ControlBlock.state_countDown hsleeping]
  have hsleep : (m.kernel.table.block id).sleepTicks.toNat =
      (m.kernel.table.sleep id).toNat := rfl
  exact if_congr (by omega) rfl rfl

end Reposes

end Machine

variable [Backend P] [LawfulBackend P] {config : Config} {policy : Policy} {cpu : P}
  {values : List Int32} {mutexes : Nat} {console : Console} {past : List (Transition P)}
  {m : Machine P} {id : ThreadId}

theorem Run.undisturbed (hpolicy : policy.Sound)
    (run : Run (.fresh config policy cpu values mutexes console) past m)
    (hid : id ≠ ThreadId.idle) (huntargeted : Untargeted past id) : m.Undisturbed past id := by
  refine run.invariant
    (fun past m => Untargeted past id → m.Undisturbed past id) (fun _ => nofun) ?_ huntargeted
  intro past m move run h hgoes hlater
  have hbefore : Untargeted past id := fun t ht => hlater t (List.mem_append_left _ ht)
  exact (h hbefore).goes (run.reposes hpolicy id) (run.leftAlone hpolicy hid hbefore).2
    (run.governed hpolicy) (run.waiters hpolicy) hgoes

/--
A thread that calls `sleep` sleeps until its deadline, whatever the policy chooses and
whoever is switched to.  The call returns no sooner than the ticks that it asked for
were counted.  As long as the counter has not come round, the ticks that the table has
left for the sleeping thread lead from the tick count to the deadline wherever
interrupts come in, and always fit their field; every tick takes one off, and the one
that completes the sleep makes the thread ready in the same masked steps, unless the
kernel was stopped by a tick that came under the table lock.  A created thread that
nobody switches to sleeps all the time from its going to sleep to the deadline.
-/
theorem Run.sleep_deadline (hpolicy : policy.Sound)
    (run : Run (.fresh config policy cpu values mutexes console) past m) (id : ThreadId) :
    (∀ ticks, ticks ≠ 0 → asked past id = some (.sleep ticks) →
      m.kernel.table.state id = .sleeping ∨
          Transition.Returns ⟨m, .exec⟩ past id (.sleep ticks) →
        ∃ s, slumber past id = some s ∧ s.ticks = ticks) ∧
    ∀ s, slumber past id = some s → s.Fits →
      asked past id = some (.sleep s.ticks) ∧
      m.kernel.ticks.ticks.toNat = (s.since.toNat + s.elapsed) % UInt64.size ∧
      (Transition.Returns ⟨m, .exec⟩ past id (.sleep s.ticks) → s.ticks.toNat ≤ s.elapsed) ∧
      (s.Counts → m.interruptsEnabled = true → m.kernel.table.state id = .sleeping →
        1 ≤ (m.kernel.table.sleep id).toNat ∧
          (m.kernel.table.sleep id).toNat + m.kernel.ticks.ticks.toNat =
            s.since.toNat + s.ticks.toNat) ∧
      (s.Counts → m.nextStep? = some .countTick → m.kernel.table.state id = .sleeping →
        Struck past ∨ ∃ after, m.Alone 3 after ∧
          after.kernel.ticks = m.kernel.ticks.increment ∧
          after.kernel.table.state id =
            if s.elapsed + 1 = s.ticks.toNat then .ready else .sleeping) ∧
      (s.Counts → ∀ left, m.executing = id → m.nextStep? = some (.doze left) →
        left.toNat < UInt32.size ∧
          left.toNat + m.kernel.ticks.ticks.toNat = s.since.toNat + s.ticks.toNat) ∧
      (id ≠ ThreadId.idle → Untargeted past id → s.dozed = true →
        s.elapsed < s.ticks.toNat → m.kernel.table.state id = .sleeping) := by
  have hgoverned := run.governed hpolicy
  have hregular := hgoverned.regular
  have hreposes := run.reposes hpolicy id
  refine ⟨?_, fun s hslumber hfits => ⟨hreposes.asked_eq hslumber, hreposes.counter s hslumber,
    ?_, ?_, ?_, ?_, ?_⟩⟩
  · rintro ticks hticks hasked (hsleeping | hreturns)
    · have hcontains := hgoverned.asked id _ hasked
      obtain ⟨wakeAt, hseeking⟩ := (run.waiters hpolicy).sleeping id hcontains hsleeping
      obtain ⟨s, hslumber, -⟩ := hreposes.exists_slumber hregular hseeking
      have hsame := hreposes.asked_eq hslumber
      rw [hasked] at hsame
      exact ⟨s, hslumber, by cases hsame; rfl⟩
    · obtain ⟨s, hslumber, hsame, -⟩ := hreposes.due_of_returns hregular hticks hreturns
      exact ⟨s, hslumber, hsame⟩
  · intro hreturns
    by_cases hzero : s.ticks = 0
    · rw [hzero]
      exact Nat.zero_le _
    · obtain ⟨other, hother, -, hdue⟩ := hreposes.due_of_returns hregular hzero hreturns
      obtain rfl : other = s := Option.some.inj (hother.symm.trans hslumber)
      exact hdue hfits
  · exact fun hcounts henabled hsleeping =>
      hreposes.left_of_enabled hregular henabled hslumber hfits hcounts hsleeping
  · exact fun hcounts hnext hsleeping =>
      hreposes.counted_down hgoverned hnext hslumber hfits hcounts hsleeping
  · intro hcounts left hid hnext
    have hdoze : .doze left ∈ m.context.code := List.mem_of_mem_head? hnext
    have hleft := hreposes.left_of_doze hregular hgoverned.posture hdoze hid hslumber hfits hcounts
    have hticks := s.ticks.toNat_lt
    have hsize : UInt32.size = 2 ^ 32 := rfl
    rw [hreposes.now_eq hslumber hcounts]
    omega
  · exact fun hid huntargeted hdozed hearly =>
      run.undisturbed hpolicy hid huntargeted s hslumber hfits hdozed hearly

/-- A new thread sleeps for two ticks; the idle thread takes one and begins to take the other. -/
def nap : List Move :=
  .call (.create "sleeper" ⟨0x1000, 0⟩ 4096 (some 0x10000)) :: List.replicate 20 .exec
    ++ .call .yield :: List.replicate 13 .exec
    ++ .call (.sleep 2) :: List.replicate 20 .exec
    ++ .call .tick :: List.replicate 17 .exec
    ++ [.interrupt, .exec]

/-- The second tick makes a thread ready that went to sleep for two. -/
theorem Run.sleep_deadline_of_nap :
    ∃ (past : List (Transition Host)) (m after : Machine Host),
      Run (.fresh {} .roundRobin {} [] 0 { sinks := [], installed := none }) past m ∧
        slumber past 0 = some ⟨0, 2, 1, true⟩ ∧ m.kernel.table.state 0 = .sleeping ∧
          m.Alone 3 after ∧ after.kernel.table.state 0 = .ready := by
  let start : Machine Host := .fresh {} .roundRobin {} [] 0 { sinks := [], installed := none }
  let past := start.transitions nap
  let m := nap.foldl Machine.after start
  have run : Run start past m := .of_plays (by decide +kernel)
  have hslumber : slumber past 0 = some ⟨0, 2, 1, true⟩ := by decide +kernel
  have hsleeping : m.kernel.table.state 0 = .sleeping := by decide +kernel
  have hnever : ¬ ∃ t ∈ past, t.move = .interrupt ∧ t.before.context.held ≠ [] := by
    decide +kernel
  obtain ⟨-, -, -, -, hticks, -⟩ :=
    (Run.sleep_deadline Policy.sound_roundRobin run 0).2 _ hslumber
      (show 0 + 2 < UInt64.size by decide)
  obtain ⟨after, halone, -, hready⟩ :=
    (hticks (show 0 + 1 < UInt64.size by decide) (by decide +kernel) hsleeping).resolve_left hnever
  exact ⟨past, m, after, run, hslumber, hsleeping, halone, hready⟩

end TickKernel
