import TickKernel.Proofs.LeftAlone
import TickKernel.Proofs.Prompting

/-!
# From one scheduling state to another

A created thread that nobody switches to is dispatched only when it is ready, and
gives the processor up running or by its own blocking call.  A sleep ends in the tick
that takes its last one, and a wait when an unlock or a signal takes the thread off
the queue of what it waits for; a parked thread waits for good.
-/

namespace TickKernel

variable {P : Type} [Backend P]

inductive Transition.Unqueues (t : Transition P) (id : ThreadId) : Request → Blocking → Prop where
  | mutex {index : Nat} {line : List ThreadId} :
      t.step? = some (.tryRelease index t.before.executing) →
        t.before.shared.mutexLine index = id :: line → t.after.shared.mutexLine index = line →
          Unqueues t id (.unlock index) (.ownership index)
  | semaphore {index : Nat} {andSwitch : Bool} {line : List ThreadId} :
      t.step? = some (.giveBack index andSwitch) →
        t.before.shared.semaphoreLine index = id :: line →
          t.after.shared.semaphoreLine index = line →
            Unqueues t id (if andSwitch then .signalHandoff index else .signal index) (.unit index)

/-- The steps that change a thread's scheduling state, with what has led to them. -/
inductive Machine.Passage (past : List (Transition P)) (m : Machine P) (id : ThreadId) :
    Step → ThreadState → ThreadState → Prop where
  | dispatched : Passage past m id (.dispatch id) .ready .running
  | preempted {target : ThreadId} : target ≠ id → m.executing = id →
      Passage past m id (.dispatch target) .running .ready
  | sleeps {ticks : UInt32} {left : UInt64} : m.executing = id →
      asked past id = some (.sleep ticks) → Passage past m id (.doze left) .running .sleeping
  | waits {call : Blocking} : m.executing = id → call.Serves (asked past id) →
      call.Stuck m.shared id → Passage past m id .block .running .waiting
  | expires {t : Transition P} : latest past = some t → t.step? = some .countTick →
      m.kernel.table.sleep id = 1 → Passage past m id .countDown .sleeping .ready
  | woken {t : Transition P} {request : Request} {call : Blocking} : latest past = some t →
      t.Unqueues id request call → asked past m.executing = some request →
        call.Serves (asked past id) → Passage past m id (.wake id) .waiting .ready

namespace Machine

variable [LawfulBackend P] {past : List (Transition P)} {m after : Machine P} {step : Step}
  {rest pushed : List Step} {id : ThreadId}

/-- Whoever is taken off a queue and woken is so by what its waker asked for. -/
theorem Stepped.unqueues (hstepped : m.Stepped step rest pushed after) (h : m.Regular past)
    (hasks : step.asksMutex = true ∨ step.asksSemaphore = true) (hmem : .wake id ∈ pushed) :
    ∃ request call, Transition.Unqueues ⟨m, .exec⟩ id request call ∧
      asked past m.executing = some request := by
  have hserved := h.served hstepped
  have hstep := hstepped.step?_eq
  have hafter := hstepped.after_eq
  rcases hasks with hasks | hasks
  · obtain ⟨hclaims, -⟩ := hstepped.claims h.objects hasks
    cases hclaims
    case passed index me heir line howner hline hafterOwner hafterLine =>
        obtain rfl : id = heir := by simpa using hmem
        obtain ⟨hrequest, rfl⟩ := hserved
        refine ⟨_, _, .mutex hstep hline ?_, hrequest⟩
        rw [hafter, hafterLine, Function.update_self]
    all_goals simp at hmem
  · obtain ⟨hdeals, -⟩ := hstepped.deals h.objects hasks
    cases hdeals
    case woken index andSwitch value other line hstock hline hafterStock hafterLine =>
        obtain rfl : id = other := by
          cases andSwitch <;> simpa using hmem
        refine ⟨_, _, .semaphore hstep hline ?_, hserved⟩
        rw [hafter, hafterLine, Function.update_self]
    all_goals simp at hmem

def Drowsy (m : Machine P) : Prop :=
  ∀ id, m.kernel.table.contains id = true → m.kernel.table.state id = .sleeping →
    m.kernel.table.sleep id ≠ 0

omit [Backend P] [LawfulBackend P] in
theorem drowsy_fresh (config : Config) (policy : Policy) (cpu : P) (values : List Int32)
    (mutexes : Nat) (console : Console) :
    (fresh config policy cpu values mutexes console).Drowsy := by
  intro id _ hsleeping
  have hstate := ThreadTable.state_initial id
  rw [show (fresh config policy cpu values mutexes console).kernel.table.state id =
    ThreadTable.initial.state id from rfl, hstate] at hsleeping
  split at hsleeping <;> cases hsleeping

theorem Drowsy.perform (h : m.Drowsy) (hgoverned : m.Governed past)
    (hstepped : m.Stepped step rest pushed after) : after.Drowsy := by
  intro id hcontains hsleeping
  have hready : after.kernel.table.state id ≠ .ready := by
    rw [hsleeping]
    nofun
  have hbefore := hstepped.contains_before hcontains hready
  have hsleeps := hsleeping
  rw [hstepped.effect.table, Step.state_tableAfter] at hsleeps
  by_cases hdoze : ∃ ticks, step = .doze ticks ∧ id = m.kernel.table.current
  · obtain ⟨ticks, rfl, rfl⟩ := hdoze
    have hseat := hgoverned.regular.seated.executing_eq hstepped.code (by simp) hstepped.stays
    obtain ⟨-, -, hsleep, -⟩ := hgoverned.posture.asleep_of_doze hgoverned.regular hstepped
    rwa [hseat] at hsleep
  · have hslept : m.kernel.table.state id = .sleeping := by
      rcases Step.sleeping_before hsleeps with ⟨hslept, -⟩ | hdozes
      · exact hslept
      · exact absurd hdozes hdoze
    rw [hstepped.effect.table, Step.sleep_tableAfter]
    by_cases hcount : step = .countDown
    · subst hcount
      rw [Step.stateAfter, if_pos hbefore] at hsleeps
      rw [Step.sleepAfter, if_pos hbefore]
      rcases (m.kernel.table.block id).countDown_cases with
        ⟨hawake, -⟩ | ⟨-, hready⟩ | ⟨-, -, hleft, -⟩
      · exact absurd hslept hawake
      · rw [hready] at hsleeps
        cases hsleeps
      · exact hleft
    · rw [Step.sleepAfter_eq hbefore hcount fun ticks hstep hcurrent =>
        hdoze ⟨ticks, hstep, hcurrent⟩]
      exact h id hbefore hslept

theorem Drowsy.goes {move : Move} (h : m.Drowsy) (hgoverned : m.Governed past)
    (hgoes : m.Goes move after) : after.Drowsy := by
  cases hgoes with
  | spin => exact h
  | step hstepped => exact h.perform hgoverned hstepped
  | switch hcode hswitched =>
      intro id
      rw [hswitched.kernel]
      exact h id
  | call request => exact h
  | interrupt => exact h

theorem Summons.isBlocked_eq_false (h : m.Summons id) (hregular : m.Regular past)
    (hnext : m.nextStep? = some (.dispatch id)) :
    (m.kernel.table.state id).isBlocked = false := by
  obtain ⟨rest, hcode⟩ := List.head?_eq_some_iff.1 hnext
  rw [← Bool.not_eq_true]
  intro hblocked
  have hmem : .dispatch id ∈ m.context.code := hcode ▸ List.mem_cons_self
  obtain ⟨-, hwake⟩ := h hmem hblocked
  rw [hcode] at hwake
  have hrest : .wake id ∈ rest := (List.mem_cons.1 hwake).resolve_left nofun
  have hcalm : Calm rest := hregular.orderly.fits_of_code hcode
  exact Bool.noConfusion (hcalm.1 _ hrest)

/-- A step that changes the state of a created thread is one of its passages. -/
theorem Stepped.passage (hstepped : m.Stepped step rest pushed after)
    (hgoverned : m.Governed past) (hprompted : m.Prompted past) (hsummons : m.Summons id)
    (hdrowsy : m.Drowsy) (hid : id ≠ ThreadId.idle)
    (hcontains : m.kernel.table.contains id = true)
    (hunqueued : step = .wake id → ∃ t request call, latest past = some t ∧
      t.Unqueues id request call ∧ asked past m.executing = some request ∧
        call.Serves (asked past id))
    (hchange : after.kernel.table.state id ≠ m.kernel.table.state id) :
    m.Passage past id step (m.kernel.table.state id) (after.kernel.table.state id) := by
  have hregular := hgoverned.regular
  have hnext : m.nextStep? = some step := by simp [nextStep?, hstepped.code]
  have hserved := hregular.served hstepped
  have hseat : step ≠ .free .table → m.executing = m.kernel.table.current :=
    fun hfree => hregular.seated.executing_eq hstepped.code hfree hstepped.stays
  generalize hnew : after.kernel.table.state id = new at hchange ⊢
  rw [hstepped.effect.table, Step.state_tableAfter] at hnew
  cases Step.changes_of_ne hcontains hnew hchange with
  | dispatch =>
      have hfree := hsummons.isBlocked_eq_false hregular hnext
      cases hstate : m.kernel.table.state id with
      | ready => exact .dispatched
      | running => exact absurd hstate.symm hchange
      | sleeping | waiting =>
          rw [hstate] at hfree
          cases hfree
  | preempt htarget hcurrent hrunning =>
      rw [hrunning]
      exact .preempted htarget ((hseat (by simp)).trans hcurrent.symm)
  | block hcurrent =>
      obtain rfl : id = m.executing := hcurrent.trans (hseat (by simp)).symm
      obtain ⟨call, hseeking, hstuck⟩ :=
        hgoverned.posture.stuck (.inr (hstepped.code ▸ List.mem_cons_self))
      rw [hgoverned.running_of_urgent hid hcurrent hnext (.inr rfl) (by simp)]
      exact .waits rfl (hregular.serves_of_seeking hseeking) hstuck
  | doze left hcurrent =>
      obtain rfl : id = m.executing := hcurrent.trans (hseat (by simp)).symm
      obtain ⟨ticks, hasked⟩ := hserved
      rw [hgoverned.running_of_urgent hid hcurrent hnext (.inl rfl) (by simp)]
      exact .sleeps rfl hasked
  | wake hwaiting =>
      obtain ⟨t, request, call, hlatest, hunqueues, hasked, hserves⟩ := hunqueued rfl
      rw [hwaiting]
      exact .woken hlatest hunqueues hasked hserves
  | countDown hsleeping hlast =>
      obtain ⟨t, hlatest, -, step, hstep, hurges⟩ := hprompted.of_nextStep? hnext rfl
      cases hurges with
      | countDown =>
          have hsleep := hdrowsy id hcontains hsleeping
          have hpos : (m.kernel.table.sleep id).toNat ≠ 0 :=
            fun hzero => hsleep (UInt32.toNat_inj.1 hzero)
          have hone : m.kernel.table.sleep id = 1 :=
            UInt32.toNat_inj.1 (show (m.kernel.table.sleep id).toNat = 1 by omega)
          rw [hsleeping]
          exact .expires hlatest hstep hone

omit [LawfulBackend P] in
theorem asked_of_seeking {move : Move} (hgoes : m.Goes move after) {call : Blocking}
    (hseeking : Code.seeking (m.contextOf id).code = some call) :
    asked (past ++ [⟨m, move⟩]) id = asked past id := by
  cases hgoes with
  | spin | step | switch => exact asked_exec past m id
  | interrupt => exact asked_interrupt past m id
  | call request hempty =>
      rw [asked_call, if_neg]
      rintro rfl
      rw [contextOf_executing rfl, hempty] at hseeking
      cases hseeking

/-- A thread waits for good once it has blocked after asking to park. -/
def Parks (id : ThreadId) (before : List (Transition P)) (t : Transition P) : Prop :=
  t.before.executing = id ∧ t.step? = some .block ∧
    (asked before id = some .park ∨ asked before id = some .leave)

theorem parked_of_parks {move : Move} (hgoverned : m.Governed past) (hgoes : m.Goes move after)
    (hparks : Parks id past ⟨m, move⟩) :
    after.kernel.table.state id = .waiting ∧ (asked (past ++ [⟨m, move⟩]) id = some .park ∨
      asked (past ++ [⟨m, move⟩]) id = some .leave) := by
  obtain ⟨hexecuting, hblock, hasked⟩ := hparks
  cases hgoes with
  | spin hnone =>
      rw [hnone] at hblock
      cases hblock
  | step hstepped =>
      obtain rfl := Option.some.inj (hstepped.step?_eq.symm.trans hblock)
      have hseat := hgoverned.regular.seated.executing_eq hstepped.code (by simp) hstepped.stays
      rw [asked_exec, hstepped.effect.table, Step.state_tableAfter, Step.stateAfter,
        if_pos (hexecuting.symm.trans hseat)]
      exact ⟨rfl, hasked⟩
  | switch hcode hswitched =>
      rw [step?_of_switch hcode] at hblock
      cases hblock
  | call | interrupt => cases hblock

end Machine

variable [LawfulBackend P] {config : Config} {policy : Policy} {cpu : P} {values : List Int32}
  {mutexes : Nat} {console : Console} {past : List (Transition P)} {m : Machine P} {id : ThreadId}

theorem Run.drowsy (hpolicy : policy.Sound)
    (run : Run (.fresh config policy cpu values mutexes console) past m) : m.Drowsy := by
  apply run.invariant fun _ m => m.Drowsy
  · exact Machine.drowsy_fresh config policy cpu values mutexes console
  · exact fun past m move run h hgoes => h.goes (run.governed hpolicy) hgoes

/-- A created thread that is woken was taken off the queue of what it asked for just before. -/
theorem Run.unqueued (hpolicy : policy.Sound)
    (run : Run (.fresh config policy cpu values mutexes console) past m)
    (hid : id ≠ ThreadId.idle) (huntargeted : Untargeted past id)
    (hnext : m.nextStep? = some (.wake id)) :
    ∃ t request call, latest past = some t ∧ t.Unqueues id request call ∧
      asked past m.executing = some request ∧ call.Serves (asked past id) := by
  obtain ⟨t, hlatest, hprompts, step, hstep, hurges⟩ := run.prompted.of_nextStep? hnext rfl
  obtain ⟨before, later, rfl, hlater⟩ := split_of_latest hlatest
  obtain ⟨hbefore, -⟩ := run.before
  have hasked : ∀ other, asked (before ++ t :: later) other = asked before other := by
    intro other
    apply asked_append_of_exec
    intro u hmem
    rcases List.mem_cons.1 hmem with rfl | hmem
    · exact hprompts.move
    · exact Transition.move_of_isIdle (hlater u hmem)
  obtain ⟨earlier, move⟩ := t
  obtain ⟨rfl, ⟨_, rest, pushed, hstepped, hpushed⟩, huntouched⟩ := hprompts
  obtain rfl := Option.some.inj (hstepped.step?_eq.symm.trans hstep)
  have hmem : .wake id ∈ pushed := by
    rcases hpushed with hahead | ⟨other, -, hwake⟩
    · exact Code.mem_of_ahead hahead
    · cases hwake
  have hexecuting : m.executing = earlier.executing :=
    huntouched.executing.trans hstepped.effect.executing
  cases hurges with
  | release _ hasks =>
      obtain ⟨request, call, hunqueues, hrequest⟩ :=
        hstepped.unqueues hbefore.regular hasks hmem
      refine ⟨_, request, call, hlatest, hunqueues, ?_, ?_⟩
      · rw [hasked, hexecuting]
        exact hrequest
      · rw [hasked]
        apply hbefore.regular.serves_of_seeking
        cases hunqueues with
        | mutex _ hline =>
            apply (hbefore.waiters hpolicy).queued
            rw [hline]
            exact List.mem_cons_self
        | semaphore _ hline =>
            have hleft := (hbefore.leftAlone hpolicy hid fun t hmem =>
              huntargeted t (List.mem_append_left _ hmem)).1
            apply hleft.seeking
            rw [hline]
            exact List.mem_cons_self

theorem Run.passage (hpolicy : policy.Sound)
    (run : Run (.fresh config policy cpu values mutexes console) past m)
    (hid : id ≠ ThreadId.idle) (huntargeted : Untargeted past id)
    (hcontains : m.kernel.table.contains id = true) {move : Move} {after : Machine P}
    (hgoes : m.Goes move after) (hchange : after.kernel.table.state id ≠ m.kernel.table.state id) :
    ∃ step, Transition.step? ⟨m, move⟩ = some step ∧
      m.Passage past id step (m.kernel.table.state id) (after.kernel.table.state id) := by
  cases hgoes with
  | spin => exact absurd rfl hchange
  | @step step rest pushed _ hstepped =>
      refine ⟨step, hstepped.step?_eq, ?_⟩
      apply hstepped.passage (run.governed hpolicy) run.prompted
        (run.leftAlone hpolicy hid huntargeted).2 (run.drowsy hpolicy) hid hcontains _ hchange
      rintro rfl
      apply run.unqueued hpolicy hid huntargeted
      simp [Machine.nextStep?, hstepped.code]
  | switch hcode hswitched =>
      rw [hswitched.kernel] at hchange
      exact absurd rfl hchange
  | call | interrupt => exact absurd rfl hchange

/-- A parked thread goes on waiting, in the call that parked it. -/
theorem Run.parked (hpolicy : policy.Sound)
    (run : Run (.fresh config policy cpu values mutexes console) past m)
    (hid : id ≠ ThreadId.idle) (huntargeted : Untargeted past id)
    (hparks : Since (Machine.Parks id) (fun _ => False) past) :
    m.kernel.table.state id = .waiting ∧
      (asked past id = some .park ∨ asked past id = some .leave) := by
  revert huntargeted hparks
  apply run.invariant fun past m => Untargeted past id →
    Since (Machine.Parks id) (fun _ => False) past → m.kernel.table.state id = .waiting ∧
      (asked past id = some .park ∨ asked past id = some .leave)
  · rintro - ⟨before, t, later, hnil, -⟩
    simp at hnil
  · intro past m move run ih hgoes huntargeted hparks
    have hgoverned := run.governed hpolicy
    rcases since_append.1 hparks with hblocks | ⟨hparked, -⟩
    · exact Machine.parked_of_parks hgoverned hgoes hblocks
    · have hbefore : Untargeted past id :=
        fun t hmem => huntargeted t (List.mem_append_left _ hmem)
      obtain ⟨hwaiting, hasked⟩ := ih hbefore hparked
      have hcontains : m.kernel.table.contains id = true := by
        rcases hasked with hasked | hasked
        · exact hgoverned.asked id _ hasked
        · exact hgoverned.asked id _ hasked
      constructor
      · by_contra hchange
        rw [← hwaiting] at hchange
        obtain ⟨step, -, hpassage⟩ :=
          run.passage hpolicy hid hbefore hcontains hgoes hchange
        rw [hwaiting] at hpassage
        generalize (m.after move).kernel.table.state id = new at hpassage
        cases hpassage with
        | woken _ hunqueues _ hserves =>
            cases hunqueues <;> rcases hasked with hasked | hasked <;> rw [hasked] at hserves <;>
              cases hserves
      · obtain ⟨call, hseeking, -⟩ := (run.waiters hpolicy).waiting id hcontains hwaiting
        rw [Machine.asked_of_seeking hgoes hseeking]
        exact hasked

/--
The state of a created thread that nobody switches to changes in six ways only.  It is
dispatched when it is ready, gives the processor up while it still runs, goes to sleep
or begins to wait in a call of its own, is ready again in the tick that takes its last
one, or is woken by the unlock or the signal that has just taken it off the queue of
what it asked for.  So it is not dispatched, nor handed the processor back, while it is
blocked, and once it has parked it waits for good.
-/
theorem Run.legal_transitions (hpolicy : policy.Sound)
    (run : Run (.fresh config policy cpu values mutexes console) past m)
    (hid : id ≠ ThreadId.idle) (huntargeted : Untargeted past id)
    (hcontains : m.kernel.table.contains id = true) :
    (∀ move, m.Allows move →
      (m.after move).kernel.table.state id ≠ m.kernel.table.state id →
        ∃ step, Transition.step? ⟨m, move⟩ = some step ∧
          m.Passage past id step (m.kernel.table.state id)
            ((m.after move).kernel.table.state id)) ∧
      (m.nextStep? = some (.dispatch id) → (m.kernel.table.state id).isBlocked = false) ∧
      ∀ before t later, past = before ++ t :: later → t.before.executing = id →
        t.step? = some .block → asked before id = some .park ∨ asked before id = some .leave →
          m.kernel.table.state id = .waiting := by
  refine ⟨?_, ?_, ?_⟩
  · intro move hallowed hchange
    exact run.passage hpolicy hid huntargeted hcontains (m.goes_after hallowed) hchange
  · exact (run.leftAlone hpolicy hid huntargeted).2.isBlocked_eq_false run.regular
  · intro before t later hpast hexecuting hblock hasked
    apply (run.parked hpolicy hid huntargeted _).1
    exact ⟨before, t, later, hpast, ⟨hexecuting, hblock, hasked⟩, fun _ _ h => h⟩

/-- A new thread waits for a unit, and the idle thread comes to waking it with one. -/
def relief : List Move :=
  .call (.create "waiter" ⟨0x1000, 0⟩ 4096 (some 0x10000)) :: List.replicate 20 .exec
    ++ .call .yield :: List.replicate 13 .exec
    ++ .call (.wait 0) :: List.replicate 28 .exec
    ++ .call (.signal 0) :: List.replicate 8 .exec

/-- The thread that a signal has taken off the queue gets from waiting to ready. -/
theorem Run.legal_transitions_of_relief :
    ∃ (past : List (Transition Host)) (m : Machine Host),
      Run (.fresh {} .roundRobin {} [0] 0 { sinks := [], installed := none }) past m ∧
        m.Passage past 0 (.wake 0) .waiting .ready := by
  let start : Machine Host := .fresh {} .roundRobin {} [0] 0 { sinks := [], installed := none }
  let past := start.transitions relief
  let m := relief.foldl Machine.after start
  have run : Run start past m := .of_plays (by decide +kernel)
  have huntargeted : Untargeted past 0 := by
    have hmoves : ∀ move ∈ relief, move ≠ .call (.switchTo 0) := by decide +kernel
    rw [← start.map_move_transitions relief] at hmoves
    exact fun t ht => hmoves t.move (List.mem_map_of_mem ht)
  have hwaiting : m.kernel.table.state 0 = .waiting := by decide +kernel
  have hready : (m.after .exec).kernel.table.state 0 = .ready := by decide +kernel
  have hwake : Transition.step? ⟨m, .exec⟩ = some (.wake 0) := by decide +kernel
  obtain ⟨step, hstep, hpassage⟩ :=
    (Run.legal_transitions Policy.sound_roundRobin run (by decide) huntargeted
      (by decide +kernel)).1 .exec (by decide +kernel) (by rw [hready, hwaiting]; nofun)
  obtain rfl := Option.some.inj (hwake.symm.trans hstep)
  rw [hready, hwaiting] at hpassage
  exact ⟨past, m, run, hpassage⟩

end TickKernel
