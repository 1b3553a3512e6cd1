import TickKernel.Proofs.Waiters

/-!
# Who has the processor

One thread at most is running in the table, the current one, and it is the thread
that executes but for the two steps from a dispatch to the switch that completes it.
An operation returns to a thread that is current and running.  A thread that is
current and blocked while interrupts are enabled is the idle thread in a blocking
call of its own.
-/

namespace TickKernel

variable {P : Type}

namespace Machine

variable [Backend P]

/-- How far a thread has come that dispatched another one and has not switched to it. -/
inductive Departing (m : Machine P) : List (Transition P) → Prop where
  | dispatched {before : List (Transition P)} {t : Transition P} {rest : List Step} :
      t.step? = some (.dispatch m.kernel.table.current) →
        m.context.code =
          .free .table :: .switch m.kernel.table.current m.executing :: .unmask :: rest →
          Departing m (before ++ [t])
  | freed {before : List (Transition P)} {t u : Transition P} {rest : List Step} :
      t.step? = some (.dispatch m.kernel.table.current) → u.step? = some (.free .table) →
        m.context.code = .switch m.kernel.table.current m.executing :: .unmask :: rest →
          Departing m (before ++ [t, u])

/-- The idle thread is in a blocking call of its own that has not returned. -/
structure IdleBlocks (past : List (Transition P)) (m : Machine P) : Prop where
  current : m.kernel.table.current = ThreadId.idle
  executing : m.executing = ThreadId.idle
  inside : ∃ call, Code.seeking m.context.code = some call ∧
    call.Serves (asked past ThreadId.idle)
  unanswered : m.context.answer = none

variable [LawfulBackend P] {past : List (Transition P)} {m after : Machine P} {step : Step}
  {rest pushed : List Step}

/-- A dispatch of another thread and the release of the table lock lead to the switch. -/
theorem Departing.of_step (h : m.executing ≠ m.kernel.table.current → m.Departing past)
    (hregular : m.Regular past) (hstepped : m.Stepped step rest pushed after)
    (haway : after.executing ≠ after.kernel.table.current) :
    after.Departing (past ++ [⟨m, .exec⟩]) := by
  rw [hstepped.effect.executing] at haway
  by_cases hseat : m.executing = m.kernel.table.current
  · have hleaves : ¬ ∀ target, step = .dispatch target → m.kernel.table.current = target := by
      intro hstays
      rw [hstepped.effect.table, Step.current_tableAfter hstays] at haway
      exact haway hseat
    push Not at hleaves
    obtain ⟨target, rfl, htarget⟩ := hleaves
    have hcurrent : after.kernel.table.current = target := by
      rw [hstepped.effect.table, Step.tableAfter, ThreadTable.current_dispatch]
    have hpushed : pushed = [.free .table, .switch target m.kernel.table.current, .unmask] := by
      cases hstepped.expands with
      | nothing hplain => cases hplain
      | answer _ hasks => cases hasks
      | stay => exact absurd rfl htarget
      | leave _ => rfl
    have hcode : after.context.code =
        .free .table :: .switch after.kernel.table.current after.executing :: .unmask :: rest := by
      rw [hstepped.code_after, hpushed, hcurrent, hstepped.effect.executing, hseat]
      rfl
    exact .dispatched (hcurrent.symm ▸ hstepped.step?_eq) hcode
  · cases h hseat with
    | @dispatched before t others hdispatch hcode =>
        rw [hstepped.code] at hcode
        obtain ⟨rfl, rfl⟩ := List.cons.inj hcode
        have hcurrent : after.kernel.table.current = m.kernel.table.current := by
          rw [hstepped.effect.table]
          rfl
        have hleft : after.context.code =
            .switch after.kernel.table.current after.executing :: .unmask :: others := by
          rw [hstepped.code_after, hstepped.expands.eq_nil rfl, hcurrent,
            hstepped.effect.executing]
          rfl
        rw [List.append_assoc]
        exact .freed (hcurrent ▸ hdispatch) hstepped.step?_eq hleft
    | freed _ _ hcode =>
        rw [hstepped.code] at hcode
        obtain ⟨rfl, -⟩ := List.cons.inj hcode
        cases hstepped.stays

theorem Departing.of_goes {move : Move}
    (h : m.executing ≠ m.kernel.table.current → m.Departing past) (hregular : m.Regular past)
    (hgoes : m.Goes move after) (haway : after.executing ≠ after.kernel.table.current) :
    after.Departing (past ++ [⟨m, move⟩]) := by
  cases hgoes with
  | spin hnone =>
      -- neither of the steps on the way out spins
      cases h haway with
      | dispatched _ hcode =>
          have hfree := (hregular.orderly.spins_eq_false_iff (.free .table)).2 (by simp)
          simp [Transition.step?, nextStep?, hcode, hfree] at hnone
      | freed _ _ hcode => simp [Transition.step?, nextStep?, hcode, spins] at hnone
  | step hstepped => exact .of_step h hregular hstepped haway
  | switch hcode hswitched =>
      refine absurd ?_ haway
      rw [hswitched.executing, hswitched.kernel]
      exact (hregular.seated.switch_eq hcode).1
  | call request hcode =>
      exact absurd (hregular.seated.executing_eq_of_calm (hcode ▸ calm_nil)) haway
  | interrupt henabled =>
      refine absurd (hregular.seated.executing_eq_of_calm ?_) haway
      exact Seated.calm_of_enabled hregular.orderly henabled

omit [Backend P] [LawfulBackend P] in
theorem Orderly.guards_eq_nil_of_nextStep {struck : Prop} (h : m.Orderly struck)
    (hnext : m.nextStep? = some step)
    (hreturns : step = .resume ∨ ∃ reply, step = .finish reply) :
    m.context.masking.guards = [] := by
  obtain ⟨rest, hcode⟩ := List.head?_eq_some_iff.1 hnext
  rcases hreturns with rfl | ⟨reply, rfl⟩
  all_goals exact guards_eq_nil (Option.some.inj (h.stands_of_code hcode id)).symm

/-- Without guards a thread is current, and runs unless it is the idle thread in a call. -/
theorem Governed.home_of_unguarded (h : m.Governed past)
    (hguards : m.context.masking.guards = []) :
    m.executing = m.kernel.table.current ∧
      (m.kernel.table.state m.executing = .running ∨
        (m.kernel.table.state m.executing).isBlocked = true ∧ m.IdleBlocks past) := by
  have hown := h.regular.orderly.own
  rw [Orderly.cover_of_unguarded hguards] at hown
  have hseat := h.regular.seated.executing_eq_of_calm hown.unguarded.1
  refine ⟨hseat, ?_⟩
  rcases h.posture.home hseat with hrunning | hleaves | ⟨hidle, hblocked⟩
  · exact .inl hrunning
  · exact absurd (hleaves.guards_pos hown) (Nat.lt_irrefl 0)
  · obtain ⟨call, hseeking⟩ :=
      Option.ne_none_iff_exists'.1 (h.posture.seeking_ne_none hseat hblocked)
    have hserves : call.Serves (TickKernel.asked past m.executing) :=
      h.regular.serves_of_seeking hseeking
    exact .inr ⟨hblocked, hseat ▸ hidle, hidle, ⟨call, hseeking, hidle ▸ hserves⟩,
      h.regular.employed.unanswered m.executing (Code.isOperation_of_seeking hseeking)⟩

theorem Governed.running_of_unguarded (h : m.Governed past)
    (hguards : m.context.masking.guards = [])
    (hseeking : Code.seeking m.context.code = none) :
    m.executing = m.kernel.table.current ∧ m.kernel.table.state m.executing = .running := by
  obtain ⟨hseat, hrunning | ⟨-, hblocks⟩⟩ := h.home_of_unguarded hguards
  · exact ⟨hseat, hrunning⟩
  · obtain ⟨call, hcall, -⟩ := hblocks.inside
    rw [hseeking] at hcall
    cases hcall

/-- A thread in its own code, or about to return to it, is current and running. -/
theorem Governed.running_of_returns (h : m.Governed past)
    (hreturns : m.atUserLevel = true ∨ ∃ reply, m.nextStep? = some (.finish reply)) :
    m.executing = m.kernel.table.current ∧ m.kernel.table.state m.executing = .running := by
  have horderly := h.regular.orderly
  rcases hreturns with huser | ⟨reply, hnext⟩
  · have hcode : m.context.code = [] := List.isEmpty_iff.1 huser
    have hown := horderly.own
    rw [hcode] at hown
    exact h.running_of_unguarded (guards_eq_nil hown) (by rw [hcode]; rfl)
  · have hcode := horderly.code_of_finish hnext
    exact h.running_of_unguarded
      (horderly.guards_eq_nil_of_nextStep hnext (.inr ⟨reply, rfl⟩)) (by rw [hcode]; rfl)

end Machine

variable [Backend P] [LawfulBackend P]

theorem Run.departing {config : Config} {policy : Policy} {cpu : P} {values : List Int32}
    {mutexes : Nat} {console : Console} {past : List (Transition P)} {m : Machine P}
    (run : Run (.fresh config policy cpu values mutexes console) past m)
    (haway : m.executing ≠ m.kernel.table.current) : m.Departing past := by
  refine run.invariant
    (fun past m => m.executing ≠ m.kernel.table.current → m.Departing past) ?_ ?_ haway
  · exact fun haway => absurd rfl haway
  · exact fun past m move run h hgoes => .of_goes h run.regular hgoes

/--
Only the current thread is running in the table, so one thread at most.  The executing
thread is the current one, except that it has interrupts masked for the two steps from
its dispatch of another thread to the switch.  Whoever is back from an operation, or
about to return from one, is current and running.  At every instant at which interrupts
are enabled, and when a tick returns to the thread that it interrupted, the current
thread executes and is running, unless it is the idle thread in a blocking call of its
own that has not returned.
-/
theorem Run.unique_running {config : Config} {policy : Policy} {cpu : P} {values : List Int32}
    {mutexes : Nat} {console : Console} {past : List (Transition P)} {m : Machine P}
    (hpolicy : policy.Sound)
    (run : Run (.fresh config policy cpu values mutexes console) past m) :
    (∀ id, m.kernel.table.state id = .running → id = m.kernel.table.current) ∧
      (m.executing = m.kernel.table.current ∨
        m.interruptsEnabled = false ∧ m.Departing past) ∧
      (m.atUserLevel = true ∨ (∃ reply, m.nextStep? = some (.finish reply)) →
        m.executing = m.kernel.table.current ∧
          m.kernel.table.state m.executing = .running) ∧
      (m.interruptsEnabled = true ∨ m.nextStep? = some .resume →
        m.executing = m.kernel.table.current ∧
          (m.kernel.table.state m.executing = .running ∨
            (m.kernel.table.state m.executing).isBlocked = true ∧ m.IdleBlocks past)) := by
  have hgoverned := run.governed hpolicy
  have horderly := hgoverned.regular.orderly
  refine ⟨fun id hrunning => ?_, ?_, hgoverned.running_of_returns, ?_⟩
  · by_contra hid
    exact hgoverned.posture.others id hid hrunning
  · by_cases hseat : m.executing = m.kernel.table.current
    · exact .inl hseat
    · refine .inr ⟨?_, run.departing hseat⟩
      rw [← Bool.not_eq_true]
      intro henabled
      refine hseat (hgoverned.regular.seated.executing_eq_of_calm ?_)
      exact Machine.Seated.calm_of_enabled horderly henabled
  · rintro (henabled | hresume)
    · exact hgoverned.home_of_unguarded
        (Machine.Orderly.guards_eq_nil_of_enabled (horderly.nested m.executing) henabled)
    · exact hgoverned.home_of_unguarded
        (horderly.guards_eq_nil_of_nextStep hresume (.inl rfl))

/-- The idle thread, alone, waits for a unit that there is not, up to its second attempt. -/
def vigil : List Move :=
  .call (.wait 0) :: List.replicate 26 .exec

/-- The idle thread is current and waiting between two rounds of its own call. -/
theorem Run.unique_running_of_vigil :
    ∃ (past : List (Transition Host)) (m : Machine Host),
      Run (.fresh {} .roundRobin {} [0] 0 { sinks := [], installed := none }) past m ∧
        m.interruptsEnabled = true ∧
          m.kernel.table.state m.kernel.table.current = .waiting ∧ m.IdleBlocks past := by
  let start : Machine Host := .fresh {} .roundRobin {} [0] 0 { sinks := [], installed := none }
  let m := vigil.foldl Machine.after start
  have run : Run start (start.transitions vigil) m := .of_plays (by decide +kernel)
  have henabled : m.interruptsEnabled = true := by decide +kernel
  have hwaiting : m.kernel.table.state m.kernel.table.current = .waiting := by decide +kernel
  obtain ⟨-, -, -, hhome⟩ := Run.unique_running Policy.sound_roundRobin run
  obtain ⟨hseat, hrunning | ⟨-, hblocks⟩⟩ := hhome (.inl henabled)
  · rw [hseat, hwaiting] at hrunning
    cases hrunning
  · exact ⟨_, m, run, henabled, hwaiting, hblocks⟩

end TickKernel
