import TickKernel.Proofs.Processor
import TickKernel.Proofs.Punctuality

/-!
# The timer and the kernel that it ticks

The first kernel on a processor whose start gets past the timer is the one that is ticked ever
after.  But every later start that gets so far sets the timer's interval anew, so that the
interval in force is always that of the kernel whose start came last.
-/

namespace TickKernel

variable {P : Type}

/-! ## Starts that get past the timer -/

structure Arming where
  number : Nat
  period : UInt32
  deriving DecidableEq, Repr

def Machine.arming (m : Machine P) : Arming :=
  ⟨m.kernel.number, m.kernel.config.tickPeriod⟩

section

variable [Backend P]

def Transition.arms? (t : Transition P) : Option Arming :=
  match t.step? with
  | some .armTimer =>
      match (Backend.startTimer t.before.kernel.cpu t.before.kernel.config.tickPeriod).1 with
      | .ok () => some t.before.arming
      | .error _ => none
  | _ => none

def armings (past : List (Transition P)) : List Arming :=
  past.filterMap Transition.arms?

theorem armings_snoc (past : List (Transition P)) (t : Transition P) :
    armings (past ++ [t]) = armings past ++ t.arms?.toList :=
  filterMap_snoc _ past t

theorem arms?_eq_none {t : Transition P} (h : t.step? ≠ some .armTimer) : t.arms? = none := by
  unfold Transition.arms?
  split
  next hstep => exact absurd hstep h
  next => rfl

end

/-! ## The routing behind the timer step -/

theorem Kernel.Expands.routeTicks_not_mem {kernel : Kernel P} {step : Step} {pushed : List Step}
    (h : kernel.Expands step pushed) (hstep : step ≠ .armTimer) : .routeTicks ∉ pushed :=
  fun hmem => hstep (eq_of_beq (h.leadsTo hmem))

theorem routeTicks_not_mem_request (request : Request) : .routeTicks ∉ request.code :=
  fun hmem => Bool.noConfusion (request.isAskedFor_code hmem)

theorem routeTicks_not_mem_launchCode (call : Option EntryCall) :
    .routeTicks ∉ (call.map launchCode).getD [] := by
  cases call <;> simp [launchCode]

namespace Machine

def Unrouted (m : Machine P) : Prop :=
  ∀ id : ThreadId, .routeTicks ∉ (m.contextOf id).code

/-- The executing thread routes the ticks next, and nobody else has any to route. -/
structure Routing (m : Machine P) : Prop where
  next : m.nextStep? = some .routeTicks
  rest : .routeTicks ∉ m.context.code.tail
  others : ∀ id, id ≠ m.executing → .routeTicks ∉ (m.contextOf id).code

variable [Backend P] {m after : Machine P} {step : Step} {rest pushed : List Step} {move : Move}

theorem Goes.arming_eq (hgoes : m.Goes move after) : after.arming = m.arming := by
  rw [arming, arming, hgoes.settings_eq.1, hgoes.settings_eq.2]

theorem Stepped.armTimer_cases (hstepped : m.Stepped .armTimer rest pushed after) :
    Transition.arms? ⟨m, .exec⟩ = some m.arming ∧
        pushed = .routeTicks :: Code.countThreads .banner ∨
      Transition.arms? ⟨m, .exec⟩ = none ∧ .routeTicks ∉ pushed := by
  have harms : Transition.arms? ⟨m, .exec⟩ =
      match (Backend.startTimer m.kernel.cpu m.kernel.config.tickPeriod).1 with
      | .ok () => some m.arming
      | .error _ => none := by
    rw [Transition.arms?, hstepped.step?_eq]
  rw [harms]
  cases houtcome : (Backend.startTimer m.kernel.cpu m.kernel.config.tickPeriod).1 with
  | ok =>
      refine .inl ⟨rfl, hstepped.pushed_eq _ ?_⟩
      simp [perform, armTimer, houtcome]
  | error cause =>
      refine .inr ⟨rfl, ?_⟩
      rw [hstepped.pushed_eq [.withdrawStart, .unmask, .finish (.failed (.timer cause))]
        (by simp [perform, armTimer, houtcome])]
      simp

/-- Only a step that gets past the timer leads to ticks to route. -/
theorem Stepped.routeTicks_not_mem (hstepped : m.Stepped step rest pushed after)
    (hnone : Transition.arms? ⟨m, .exec⟩ = none) : .routeTicks ∉ pushed := by
  by_cases harms : step = .armTimer
  · subst harms
    rcases hstepped.armTimer_cases with ⟨hpassed, -⟩ | ⟨-, hpushed⟩
    · cases hnone.symm.trans hpassed
    · exact hpushed
  · exact hstepped.expands.routeTicks_not_mem harms

theorem Unrouted.of_arms?_eq_none (h : m.Unrouted) (hgoes : m.Goes move after)
    (hnone : Transition.arms? ⟨m, move⟩ = none) : after.Unrouted := by
  intro id hmem
  refine hgoes.forall_steps (fun _ step => step ≠ .routeTicks)
    (fun id _ step hmem heq => h id (heq ▸ hmem)) ?_ ?_ ?_ ?_ id _ hmem rfl
  · rintro step rest pushed hstepped rfl other hmem rfl
    exact hstepped.routeTicks_not_mem hnone hmem
  · rintro request - step hmem rfl
    exact routeTicks_not_mem_request request hmem
  · simp [interruptCode, Code.tick]
  · rintro id call step hmem rfl
    exact routeTicks_not_mem_launchCode call hmem

/-- Whoever gets past the timer routes the ticks next. -/
theorem Unrouted.routing (h : m.Unrouted) (hstepped : m.Stepped .armTimer rest pushed after)
    (hpushed : pushed = .routeTicks :: Code.countThreads .banner) : after.Routing := by
  have hown : .routeTicks ∉ rest := by
    intro hmem
    refine h m.executing ?_
    rw [contextOf_executing rfl, hstepped.code]
    exact List.mem_cons_of_mem _ hmem
  refine ⟨?_, ?_, fun id hid => ?_⟩
  · rw [nextStep?, hstepped.code_after, hpushed]
    rfl
  · rw [hstepped.code_after, hpushed]
    intro hmem
    rcases List.mem_append.1 hmem with hbanner | hmem
    · simp at hbanner
    · exact hown hmem
  · rw [hstepped.effect.executing] at hid
    rw [hstepped.effect.others id hid]
    exact h id

theorem Unrouted.goes (h : m.Unrouted) (hgoes : m.Goes move after) :
    Transition.arms? ⟨m, move⟩ = some m.arming ∧ after.Routing ∨
      Transition.arms? ⟨m, move⟩ = none ∧ after.Unrouted := by
  by_cases harms : Transition.step? ⟨m, move⟩ = some .armTimer
  · cases hgoes with
    | spin hnone => simp [hnone] at harms
    | switch hcode => simp [step?_of_switch hcode] at harms
    | call | interrupt => simp [Transition.step?] at harms
    | step hstepped =>
        rw [hstepped.step?_eq, Option.some.injEq] at harms
        subst harms
        rcases hstepped.armTimer_cases with ⟨hpassed, hpushed⟩ | ⟨hfailed, -⟩
        · exact .inl ⟨hpassed, h.routing hstepped hpushed⟩
        · exact .inr ⟨hfailed, h.of_arms?_eq_none (.step hstepped) hfailed⟩
  · have hnone := arms?_eq_none harms
    exact .inr ⟨hnone, h.of_arms?_eq_none hgoes hnone⟩

theorem Unrouted.tickTarget_eq (h : m.Unrouted) (hgoes : m.Goes move after) :
    after.shared.tickTarget = m.shared.tickTarget := by
  cases hgoes with
  | spin | call | interrupt => rfl
  | switch _ hswitched => exact congrArg Shared.tickTarget hswitched.shared
  | @step step rest pushed _ hstepped =>
      rw [hstepped.aftermath.tickTarget]
      cases step
      case routeTicks =>
          refine absurd ?_ (h m.executing)
          rw [contextOf_executing rfl, hstepped.code]
          exact List.mem_cons_self
      all_goals rfl

/-- Whoever has ticks to route does so next. -/
theorem Routing.goes (h : m.Routing) (hmasked : m.interruptsEnabled = false)
    (hgoes : m.Goes move after) :
    Transition.step? ⟨m, move⟩ = some .routeTicks ∧ after.Unrouted ∧
      after.shared.tickTarget = some (m.shared.tickTarget.getD m.kernel.number) := by
  obtain ⟨rest, hrouting⟩ := List.head?_eq_some_iff.1 h.next
  cases hgoes with
  | spin hnone => simp [Transition.step?, h.next, spins] at hnone
  | switch hcode => cases hrouting.symm.trans hcode
  | call request hcode => cases hrouting.symm.trans hcode
  | interrupt henabled =>
      rw [hmasked] at henabled
      cases henabled
  | @step step rest pushed _ hstepped =>
      obtain ⟨rfl, -⟩ := List.cons.inj (hrouting.symm.trans hstepped.code)
      have hrest := h.rest
      rw [hstepped.code, List.tail_cons] at hrest
      refine ⟨hstepped.step?_eq, ?_, hstepped.aftermath.tickTarget⟩
      refine forall_contexts (fun _ context => .routeTicks ∉ context.code)
        hstepped.effect.executing hstepped.effect.others h.others ?_
      rw [hstepped.code_after, hstepped.expands.eq_nil rfl]
      exact hrest

/-- A tick cannot come between the timer step and the routing. -/
theorem Regular.masked_of_routing [LawfulBackend P] {past : List (Transition P)}
    (h : m.secluded.Regular past) (hnext : m.nextStep? = some .routeTicks) :
    m.interruptsEnabled = false := by
  obtain ⟨rest, hcode⟩ := List.head?_eq_some_iff.1 hnext
  have hcover := Option.some.inj (h.orderly.stands_of_code hcode fun hdead => hdead)
  refine (h.orderly.nested m.executing).masking.masked ?_
  intro hguards
  rw [Context.cover, show m.secluded.context.masking.guards = [] from hguards] at hcover
  cases hcover

/-- The interval of a board's timer is set by a start that gets past the timer, and by that only. -/
theorem Goes.interval_eq {m after : Machine Board} (hgoes : m.Goes move after) :
    after.kernel.cpu.frequency = m.kernel.cpu.frequency ∧
      after.kernel.cpu.interval = ((Transition.arms? ⟨m, move⟩).map fun arming =>
        Board.countsPerTick m.kernel.cpu.frequency arming.period).getD m.kernel.cpu.interval := by
  cases hgoes with
  | spin hnone => exact ⟨rfl, by rw [arms?_eq_none (by simp [hnone])]; rfl⟩
  | call | interrupt => exact ⟨rfl, by rw [arms?_eq_none (by simp [Transition.step?])]; rfl⟩
  | switch hcode hswitched =>
      rw [hswitched.kernel, arms?_eq_none (by simp [step?_of_switch hcode])]
      exact ⟨rfl, rfl⟩
  | @step step rest pushed _ hstepped =>
      rw [hstepped.aftermath.cpu]
      by_cases harms : step = .armTimer
      · subst harms
        rw [Transition.arms?, hstepped.step?_eq]
        refine ⟨(m.kernel.cpu.same_startTimer _).2.1, ?_⟩
        cases houtcome : (Backend.startTimer m.kernel.cpu m.kernel.config.tickPeriod).1 with
        | error cause =>
            have herror : (m.kernel.cpu.startTimer m.kernel.config.tickPeriod).1 = .error cause :=
              houtcome
            exact (Board.keeps_startTimer _ (by rw [herror]; rfl)).interval
        | ok => exact (Board.timer_startTimer _ houtcome).1
      · have hcpu : step.cpuAfter m.kernel = m.kernel.cpu := by
          cases step <;> first | rfl | exact absurd rfl harms
        rw [hcpu, arms?_eq_none fun heq => ?_]
        · exact ⟨rfl, rfl⟩
        · rw [hstepped.step?_eq] at heq
          exact harms (Option.some.inj heq)

end Machine

theorem Board.timerValue_mem_of_due (board : Board) (h : board.serveInterrupt.1 = true) :
    .timerValue board.interval ∈ board.serveInterrupt.2.trace := by
  have hprograms := board.programs_serveInterrupt
  rw [h] at hprograms
  have hmem : .timerValue board.interval ∈ board.serveInterrupt.2.timerAccesses := by
    rw [hprograms.accesses]
    simp [programming]
  exact (List.mem_filter.1 hmem).1

/-! ## Kernels on one board -/

namespace Process

def armings (process : Process P) : List Arming :=
  process.machines.map Machine.arming

/-- The ticks go to the kernel that was the first, unless it is just about to route them. -/
inductive Phase (armed : List Arming) (process : Process Board) : Prop where
  | settled : (∀ index m, process.machine? index = some m → m.Unrouted) →
      process.shared.tickTarget = armed.head?.map Arming.number → Phase armed process
  | routing (index : Nat) (m : Machine Board) (earlier : List Arming) :
      process.machine? index = some m → m.Routing →
        (∀ other mine, other ≠ index → process.machine? other = some mine → mine.Unrouted) →
          armed = earlier ++ [m.arming] →
            process.shared.tickTarget = earlier.head?.map Arming.number → Phase armed process

/-- The timer and the routing of its ticks, as the starts so far have left them. -/
structure Timed (there : List Arming) (hardware : Board) (past : List (Transition Board))
    (process : Process Board) : Prop where
  kernels : process.armings = there
  armed : ∀ arming ∈ TickKernel.armings past, arming ∈ there
  frequency : process.hardware.frequency = hardware.frequency
  interval : process.hardware.interval = ((TickKernel.armings past).getLast?.map fun last =>
    Board.countsPerTick hardware.frequency last.period).getD hardware.interval
  phase : process.Phase (TickKernel.armings past)

section

variable {process : Process Board} {index : Nat} {m after : Machine Board} {move : Move}
  {there : List Arming} {hardware : Board} {past : List (Transition Board)}

theorem machine?_update_self (hm : process.machine? index = some m) (after : Machine Board) :
    (process.update index after).machine? index =
      some ((after.withShared after.shared).withHardware after.kernel.cpu) := by
  obtain ⟨stored, hstored, -⟩ := Option.map_eq_some_iff.1 hm
  have hlt := (List.getElem?_eq_some_iff.1 hstored).1
  rw [machine?, update, List.getElem?_set_self hlt, Option.map_some]

theorem unrouted_update
    (hothers : ∀ other mine, other ≠ index → process.machine? other = some mine → mine.Unrouted)
    {other : Nat} {mine : Machine Board} (hother : other ≠ index)
    (hmine : (process.update index after).machine? other = some mine) : mine.Unrouted := by
  rcases machine?_update hmine with ⟨rfl, -⟩ | ⟨-, stored, hstored, rfl⟩
  · exact absurd rfl hother
  · exact hothers other ((stored.withShared process.shared).withHardware process.hardware) hother
      (by rw [machine?, hstored, Option.map_some])

theorem arming_mem (hm : process.machine? index = some m) : m.arming ∈ process.armings := by
  obtain ⟨stored, hstored, rfl⟩ := Option.map_eq_some_iff.1 hm
  exact List.mem_map.2 ⟨stored, List.mem_of_getElem? hstored, rfl⟩

theorem armings_update (hm : process.machine? index = some m) (hsame : after.arming = m.arming) :
    (process.update index after).armings = process.armings := by
  obtain ⟨stored, hstored, rfl⟩ := Option.map_eq_some_iff.1 hm
  refine List.ext_getElem? fun other => ?_
  rw [armings, armings, update, List.getElem?_map, List.getElem?_map, List.getElem?_set]
  split
  next hother =>
      subst hother
      rw [if_pos (List.getElem?_eq_some_iff.1 hstored).1, hstored]
      exact congrArg some hsame
  next => rfl

theorem arms?_mem (hm : process.machine? index = some m) {arming : Arming}
    (harms : arming ∈ Transition.arms? ⟨m, move⟩) : arming ∈ process.armings := by
  have hown : arming = m.arming := by
    unfold Transition.arms? at harms
    split at harms
    next =>
        split at harms
        next => exact (Option.some.inj harms).symm
        next => cases harms
    next => cases harms
  exact hown ▸ arming_mem hm

namespace Phase

variable {armed : List Arming}

theorem step (h : process.Phase armed) (hordered : process.Ordered)
    (hm : process.machine? index = some m) (allowed : m.Allows move)
    (hkept : ∀ other mine, process.machine? other = some mine →
      mine.nextStep? = some .routeTicks → other = index) :
    (process.update index (m.after move)).Phase
      (armed ++ (Transition.arms? ⟨m, move⟩).toList) := by
  have hgoes := m.goes_after allowed
  have hown := machine?_update_self hm (m.after move)
  have hshared := shared_of_machine? hm
  cases h with
  | settled hquiet htarget =>
      have hothers : ∀ other mine, other ≠ index →
          (process.update index (m.after move)).machine? other = some mine → mine.Unrouted :=
        fun other mine hother => unrouted_update (fun other mine _ => hquiet other mine) hother
      have hsame : (m.after move).shared.tickTarget = armed.head?.map Arming.number := by
        rw [(hquiet index m hm).tickTarget_eq hgoes, hshared, htarget]
      rcases (hquiet index m hm).goes hgoes with ⟨harms, hrouting⟩ | ⟨hnone, hunrouted⟩
      · rw [harms]
        refine .routing index _ armed hown ⟨hrouting.next, hrouting.rest, hrouting.others⟩ hothers
          ?_ hsame
        exact congrArg (armed ++ [·]) hgoes.arming_eq.symm
      · rw [hnone, Option.toList_none, List.append_nil]
        refine .settled (fun other mine hmine => ?_) hsame
        by_cases hother : other = index
        · subst hother
          obtain rfl := Option.some.inj (hown.symm.trans hmine)
          exact hunrouted
        · exact hothers other mine hother hmine
  | routing other mine earlier hmine hrouting hothers harmed htarget =>
      obtain rfl := hkept other mine hmine hrouting.next
      obtain rfl := Option.some.inj (hmine.symm.trans hm)
      obtain ⟨past, hregular⟩ := hordered.apart other mine hmine
      obtain ⟨hstep, hunrouted, hrouted⟩ :=
        hrouting.goes (hregular.masked_of_routing hrouting.next) hgoes
      rw [arms?_eq_none (by simp [hstep]), Option.toList_none, List.append_nil]
      refine .settled (fun another its hits => ?_) ?_
      · by_cases hanother : another = other
        · subst hanother
          obtain rfl := Option.some.inj (hown.symm.trans hits)
          exact hunrouted
        · exact unrouted_update hothers hanother hits
      · show (mine.after move).shared.tickTarget = _
        rw [hrouted, hshared, htarget, harmed]
        cases earlier <;> rfl

end Phase

namespace Timed

theorem step (h : process.Timed there hardware past) (hordered : process.Ordered)
    (hm : process.machine? index = some m) (allowed : m.Allows move)
    (hkept : ∀ other mine, process.machine? other = some mine →
      mine.nextStep? = some .routeTicks → other = index) :
    (process.update index (m.after move)).Timed there hardware (past ++ [⟨m, move⟩]) := by
  have hgoes := m.goes_after allowed
  obtain ⟨hfrequency, hinterval⟩ := hgoes.interval_eq
  have hseen : m.kernel.cpu.frequency = process.hardware.frequency ∧
      m.kernel.cpu.interval = process.hardware.interval := by
    obtain ⟨stored, -, rfl⟩ := Option.map_eq_some_iff.1 hm
    exact ⟨rfl, rfl⟩
  have harmings := armings_snoc past ⟨m, move⟩
  constructor
  · rw [armings_update hm hgoes.arming_eq, h.kernels]
  · rw [harmings]
    intro arming hmem
    rcases List.mem_append.1 hmem with hmem | hmem
    · exact h.armed arming hmem
    · rw [← h.kernels]
      exact arms?_mem hm (Option.mem_toList.1 hmem)
  · exact hfrequency.trans (hseen.1.trans h.frequency)
  · show (m.after move).kernel.cpu.interval = _
    rw [hinterval, harmings, hseen.1, h.frequency, hseen.2, h.interval]
    cases Transition.arms? ⟨m, move⟩ <;> simp
  · rw [harmings]
    exact h.phase.step hordered hm allowed hkept

end Timed

/-- Nobody is between starting the timer and routing its ticks. -/
def Settled [Backend P] (process : Process P) : Prop :=
  ∀ index m, process.machine? index = some m → m.nextStep? ≠ some .routeTicks

theorem settled_of_all {process : Process Board}
    (h : process.machines.all (fun m => m.nextStep? != some .routeTicks) = true) :
    process.Settled := by
  intro index m hm
  obtain ⟨stored, hstored, rfl⟩ := Option.map_eq_some_iff.1 hm
  exact bne_iff_ne.1 (List.all_eq_true.1 h stored (List.mem_of_getElem? hstored))

theorem Phase.tickTarget_eq {armed : List Arming} (h : process.Phase armed)
    (hsettled : process.Settled ∨ armed = []) :
    process.shared.tickTarget = armed.head?.map Arming.number := by
  cases h with
  | settled _ htarget => exact htarget
  | routing index m earlier hm hrouting _ harmed =>
      rcases hsettled with hsettled | hnone
      · exact absurd hrouting.next (hsettled index m hm)
      · rw [hnone] at harmed
        simp at harmed

/-- The ticks go to the kernel that they are routed to. -/
theorem exists_ticked {first : Arming} (hdistinct : (process.armings.map Arming.number).Nodup)
    (hmem : first ∈ process.armings) (htarget : process.shared.tickTarget = some first.number) :
    ∃ index m, process.tickIndex? = some index ∧ process.machine? index = some m ∧
      m.arming = first := by
  obtain ⟨stored, hstored, hown⟩ := List.mem_map.1 hmem
  have hexists : (process.machines.findIdx? (·.kernel.number == first.number)).isSome = true := by
    rw [List.findIdx?_isSome, List.any_eq_true]
    exact ⟨stored, hstored, by simp [← hown, Machine.arming]⟩
  obtain ⟨index, hindex⟩ := Option.isSome_iff_exists.1 hexists
  obtain ⟨hlt, hnumber, -⟩ := List.findIdx?_eq_some_iff_getElem.1 hindex
  let m := ((process.machines[index].withShared process.shared).withHardware process.hardware)
  have hm : process.machine? index = some m := by
    rw [machine?, List.getElem?_eq_getElem hlt, Option.map_some]
  refine ⟨index, m, ?_, hm, ?_⟩
  · rw [tickIndex?, htarget, Option.bind_some, hindex]
  · exact List.inj_on_of_nodup_map hdistinct (arming_mem hm) hmem (beq_iff_eq.1 hnumber)

end

/-! ## Runs on one board -/

namespace CoreRun

variable {kernels : List (Kernel Board)} {values : List Int32} {mutexes : Nat} {console : Console}
  {hardware : Board} {process : Process Board} {past : List (Transition Board)}

theorem timed
    (hnew : ∀ kernel ∈ kernels, ∃ number config policy cpu,
      kernel = .new number config policy cpu)
    (run : CoreRun (.boot kernels (.new values mutexes console) hardware) past process) :
    process.Timed (Process.boot kernels (.new values mutexes console) hardware).armings hardware
      past := by
  induction run with
  | nil =>
      refine ⟨rfl, nofun, rfl, rfl, .settled (fun index m hm id => ?_) rfl⟩
      rw [contextOf_machine?_boot hm id]
      exact List.not_mem_nil
  | snoc move run hm allowed hkept ih => exact ih.step (run.ordered hnew) hm allowed hkept

/--
The ticks of a board and the interval of its timer, for kernels that are started in any order
with any periods.  No tick is delivered before the first start that gets past the timer, and ever
after the kernel of that start is the one that is ticked.  But the interval in force is the one
of the last such start, at which every due tick programs the next one: it is the ticked kernel's
own if and only if both periods come to the same counts.
-/
theorem tick_routing
    (hnew : ∀ kernel ∈ kernels, ∃ number config policy cpu,
      kernel = .new number config policy cpu)
    (hdistinct : (kernels.map Kernel.number).Nodup)
    (run : CoreRun (.boot kernels (.new values mutexes console) hardware) past process) :
    (∀ index m, process.machine? index = some m → m.nextStep? = some .routeTicks →
        m.interruptsEnabled = false) ∧
      (TickKernel.armings past = [] → process.tickIndex? = none) ∧
      (∀ before later first, past = before ++ later →
        (TickKernel.armings before).head? = some first → process.Settled →
          ∃ index m, process.tickIndex? = some index ∧ process.machine? index = some m ∧
            m.arming = first) ∧
      (process.hardware.interval = ((TickKernel.armings past).getLast?.map fun last =>
        Board.countsPerTick hardware.frequency last.period).getD hardware.interval) ∧
      (process.hardware.serveInterrupt.1 = true →
        .timerValue process.hardware.interval ∈ process.hardware.serveInterrupt.2.trace) ∧
      ∀ index m last, process.tickIndex? = some index → process.machine? index = some m →
        (TickKernel.armings past).getLast? = some last →
          (process.hardware.interval =
              Board.countsPerTick hardware.frequency m.kernel.config.tickPeriod ↔
            Board.countsPerTick hardware.frequency last.period =
              Board.countsPerTick hardware.frequency m.kernel.config.tickPeriod) := by
  have htimed := run.timed hnew
  have hnumbers : (process.armings.map Arming.number).Nodup := by
    have hsame : process.armings.map Arming.number = kernels.map Kernel.number := by
      rw [htimed.kernels]
      simp [Process.armings, Process.boot, Function.comp_def, Machine.arming, Machine.boot]
    rw [hsame]
    exact hdistinct
  refine ⟨?_, ?_, ?_, htimed.interval, ?_, ?_⟩
  · intro index m hm hnext
    obtain ⟨earlier, hregular⟩ := (run.ordered hnew).apart index m hm
    exact hregular.masked_of_routing hnext
  · intro hnone
    rw [tickIndex?, htimed.phase.tickTarget_eq (.inr hnone), hnone]
    rfl
  · rintro before later first rfl hfirst hsettled
    have harmed : (TickKernel.armings (before ++ later)).head? = some first := by
      rw [TickKernel.armings, List.filterMap_append, List.head?_append, ← TickKernel.armings,
        hfirst]
      rfl
    refine exists_ticked hnumbers ?_ ?_
    · rw [htimed.kernels]
      exact htimed.armed first (List.mem_of_mem_head? harmed)
    · rw [htimed.phase.tickTarget_eq (.inl hsettled), harmed]
      rfl
  · exact process.hardware.timerValue_mem_of_due
  · intro index m last _ _ hlast
    rw [htimed.interval, hlast]
    exact Iff.rfl

/-- A board with an interrupt controller and a counter of one megahertz. -/
def bench : Board :=
  ({ model := .pi, frequency := 1000000 } : Board).poke 0xFF841004 32

/-- Two kernels start one after the other, up to the routing of the ticks. -/
def rivals : List (Nat × Move) :=
  (0, .call .start) :: List.replicate 4 (0, .exec)
    ++ (1, .call .start) :: List.replicate 4 (1, .exec)

/-- The first of the two kernels has the default period, the second one asks for another. -/
def rivalKernels : List (Kernel Board) :=
  [.new 1 {} .roundRobin bench, .new 2 (Config.standard.withTickPeriod 20000) .roundRobin bench]

theorem exists_rivals :
    ∃ (past : List (Transition Board)) (process : Process Board),
      CoreRun (.boot rivalKernels (.new [] 0 { sinks := [], installed := none }) bench) past
          process ∧
        TickKernel.armings past = [⟨1, 10000⟩, ⟨2, 20000⟩] ∧ process.tickIndex? = some 0 ∧
          process.Settled ∧ process.hardware.frequency = 1000000 := by
  let start : Process Board :=
    .boot rivalKernels (.new [] 0 { sinks := [], installed := none }) bench
  exact ⟨start.transitions rivals, start.play rivals, .of_plays (by decide +kernel),
    by decide +kernel, by decide +kernel, settled_of_all (by decide +kernel),
    by decide +kernel⟩

/-- The first kernel is ticked at the second one's interval, which is not its own. -/
theorem tick_routing_of_rivals :
    ∃ (past : List (Transition Board)) (process : Process Board) (m : Machine Board),
      CoreRun (.boot rivalKernels (.new [] 0 { sinks := [], installed := none }) bench) past
          process ∧
        process.tickIndex? = some 0 ∧ process.machine? 0 = some m ∧
          m.kernel.config.tickPeriod = 10000 ∧ process.hardware.interval = 20000 ∧
            process.hardware.interval ≠
              Board.countsPerTick process.hardware.frequency m.kernel.config.tickPeriod := by
  obtain ⟨past, process, run, harmings, hticked, hsettled, hfrequency⟩ := exists_rivals
  have hnew : ∀ kernel ∈ rivalKernels, ∃ number config policy cpu,
      kernel = .new number config policy cpu := by
    intro kernel hmem
    simp only [rivalKernels, List.mem_cons, List.not_mem_nil, or_false] at hmem
    rcases hmem with rfl | rfl <;> exact ⟨_, _, _, _, rfl⟩
  obtain ⟨-, -, hfirst, hinterval, -, hagree⟩ := tick_routing hnew (by decide) run
  obtain ⟨index, m, hindex, hm, hown⟩ :=
    hfirst past [] ⟨1, 10000⟩ (List.append_nil _).symm (by rw [harmings]; rfl) hsettled
  obtain rfl : index = 0 := Option.some.inj (hindex.symm.trans hticked)
  have hperiod : m.kernel.config.tickPeriod = 10000 := congrArg Arming.period hown
  have hlast : (TickKernel.armings past).getLast? = some ⟨2, 20000⟩ := by rw [harmings]; rfl
  have hbench : bench.frequency = process.hardware.frequency := hfrequency.symm
  refine ⟨past, process, m, run, hticked, hm, hperiod, ?_, ?_⟩
  · rw [hinterval, hlast]
    decide
  · rw [← hbench, Ne, hagree 0 m ⟨2, 20000⟩ hticked hm hlast, hperiod]
    decide

end CoreRun

end Process

end TickKernel
