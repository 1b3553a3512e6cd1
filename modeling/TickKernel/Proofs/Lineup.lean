import TickKernel.Proofs.LeftAlone
import TickKernel.Proofs.RoundRobin
import TickKernel.Proofs.Standing

/-!
# Threads in line for units

A created thread in line is blocked, and round robin passes it over.  The idle thread
runs even while it is in line, but only when no created thread is ready.  Then nobody
was woken for a unit, so there is none: a thread in line never finds a unit, and the
queue holds nobody who has gone on.
-/

namespace TickKernel

variable {P : Type}

/-- Nobody asked to switch to a thread of its own choice. -/
def Unforced (past : List (Transition P)) : Prop :=
  ∀ t ∈ past, ∀ target, t.move ≠ .call (.switchTo target)

theorem Unforced.untargeted {past : List (Transition P)} (h : Unforced past) (id : ThreadId) :
    Untargeted past id :=
  fun t ht => h t ht id

namespace Machine

/-- The idle thread runs, or will as soon as the dispatch on its way is done. -/
def Lulled (m : Machine P) : Prop :=
  m.executing = ThreadId.idle ∨ m.kernel.table.current = ThreadId.idle ∨
    .dispatch ThreadId.idle ∈ m.context.code

/-- What the threads that stand in line for units are doing. -/
structure Lineup (past : List (Transition P)) (m : Machine P) : Prop where
  policy : m.kernel.policy = .roundRobin
  supply : ∀ index : Nat,
    Supply (m.shared.stock index) (m.shared.semaphoreLine index) (standing past index)
  inside : ∀ (index : Nat) (id : ThreadId), standing past index id ≠ .out →
    Code.seeking (m.contextOf id).code = some (.unit index)
  steady : m.Steady
  blocked : ∀ (index : Nat) (id : ThreadId), id ≠ ThreadId.idle →
    id ∈ m.shared.semaphoreLine index →
      m.kernel.table.state id = .waiting ∨ id = m.executing ∧ .block ∈ m.context.code
  unnamed : ∀ (index : Nat) (id : ThreadId), id ≠ ThreadId.idle →
    id ∈ Code.names m.context.code → id ∉ m.shared.semaphoreLine index
  lull : m.Lulled → ∀ (index : Nat) (value : Int32), m.shared.stock index = some value →
    ThreadId.idle ∈ m.shared.semaphoreLine index → ¬ 0 < value

variable [Backend P] [LawfulBackend P] {past : List (Transition P)} {m after : Machine P}
  {step : Step} {rest pushed : List Step} {index : Nat} {id : ThreadId}

omit [LawfulBackend P] in
theorem Stepped.standing_eq (hstepped : m.Stepped step rest pushed after) (index : Nat) :
    standing (past ++ [⟨m, .exec⟩]) index =
      (step.restands m.shared index).elim (standing past index) fun turn =>
        Function.update (standing past index) turn.1 turn.2 :=
  standing_exec_of_step? past m index hstepped.step?_eq

omit [LawfulBackend P] in
theorem Stepped.pushed_of_short {me : ThreadId} {value : Int32}
    (hstepped : m.Stepped (.tryTake index me) rest pushed after) (hobjects : m.shared.Sound)
    (hstock : m.shared.stock index = some value) (hnot : ¬ 0 < value) :
    pushed = [.free (.semaphore index), .unmask] ++ Code.blockAndRetry (.unit index) := by
  have hdeals := (hstepped.deals hobjects rfl).1
  cases hdeals with
  | absent hnone _ _ =>
      rw [hnone] at hstock
      cases hstock
  | taken hsome hpos _ _ =>
      rw [hsome] at hstock
      exact absurd (Option.some.inj hstock ▸ hpos) hnot
  | short => rfl

namespace Lineup

omit [Backend P] [LawfulBackend P] in
theorem seeking_of_mem (h : m.Lineup past) (hmem : id ∈ m.shared.semaphoreLine index) :
    Code.seeking (m.contextOf id).code = some (.unit index) := by
  refine h.inside index id ?_
  rw [((h.supply index).mem_iff id).1 hmem]
  nofun

omit [Backend P] [LawfulBackend P] in
theorem leftAlone (h : m.Lineup past) (hid : id ≠ ThreadId.idle) : m.LeftAlone id where
  seeking _ := h.seeking_of_mem
  blocked index := h.blocked index id hid
  unnamed hmem index := h.unnamed index id hid hmem

theorem executing_not_mem_of_giveBack {andSwitch : Bool} (h : m.Lineup past)
    (hregular : m.Regular past) (hstepped : m.Stepped (.giveBack index andSwitch) rest pushed after)
    (other : Nat) : m.executing ∉ m.shared.semaphoreLine other := by
  intro hmem
  have hseeking := h.seeking_of_mem hmem
  obtain rfl : rest = .unmask :: Code.done := hregular.orderly.fits hstepped
  rw [contextOf_executing rfl, hstepped.code] at hseeking
  cases hseeking

/-- A woken thread can run, or is woken in the same masked steps. -/
theorem awake (h : m.Lineup past) (hgoverned : m.Governed past) (hwaiters : m.Waiters)
    (hwoken : standing past index id = .woken) :
    m.kernel.table.state id = .ready ∨ m.kernel.table.state id = .running ∨
      .wake id ∈ m.context.code := by
  have hseeking := h.inside index id (by rw [hwoken]; nofun)
  have hasked : asked past id = some (.wait index) :=
    hgoverned.regular.serves_of_seeking hseeking
  have hcontains := hgoverned.asked id _ hasked
  cases hstate : m.kernel.table.state id with
  | ready => exact .inl rfl
  | running => exact .inr (.inl rfl)
  | sleeping =>
      obtain ⟨wakeAt, huntil⟩ := hwaiters.sleeping id hcontains hstate
      rw [hseeking] at huntil
      cases huntil
  | waiting =>
      obtain ⟨call, hcall, hlisted⟩ := hwaiters.waiting id hcontains hstate
      obtain rfl : Blocking.unit index = call := by
        rw [hseeking] at hcall
        exact Option.some.inj hcall
      refine .inr (.inr (hlisted.resolve_left fun hmem => ?_))
      have hqueued := ((h.supply index).mem_iff id).1 hmem
      rw [hwoken] at hqueued
      cases hqueued

/-- Whoever finds a unit is not in the queue any more. -/
theorem not_mem_of_taken (h : m.Lineup past) (hgoverned : m.Governed past) {me : ThreadId}
    {value : Int32} (hstepped : m.Stepped (.tryTake index me) rest pushed after)
    (hstock : m.shared.stock index = some value) (hpos : 0 < value) :
    me ∉ m.shared.semaphoreLine index := by
  intro hmem
  have hregular := hgoverned.regular
  obtain rfl : me = m.executing := (hregular.served hstepped).2
  by_cases hidle : m.executing = ThreadId.idle
  · exact h.lull (.inl hidle) index value hstock (hidle ▸ hmem) hpos
  · exact (h.leftAlone hidle).not_mem_of_taken hgoverned hstepped hstock hpos hmem

theorem supply_of_perform (h : m.Lineup past) (hgoverned : m.Governed past)
    (hstepped : m.Stepped step rest pushed after) (index : Nat) :
    Supply (after.shared.stock index) (after.shared.semaphoreLine index)
      (standing (past ++ [⟨m, .exec⟩]) index) := by
  have hobjects := hgoverned.regular.objects
  have hturns := hstepped.turns hobjects index
  have hsupply := h.supply index
  rw [hstepped.standing_eq index]
  generalize step.restands m.shared index = turn at hturns ⊢
  cases hturns with
  | kept hstock hline =>
      rw [hstock, hline]
      exact hsupply
  | absent hstock hempty hline =>
      rw [hempty] at hsupply
      rw [hstock, hline]
      exact hsupply.absent _
  | taken hsome hpos hstock hline =>
      have hmem := h.not_mem_of_taken hgoverned hstepped hsome hpos
      rw [hsome] at hsupply
      rw [hstock, hline]
      exact hsupply.take hpos hmem
  | short hsome hnot hstock hline =>
      rw [hsome] at hsupply
      rw [hstock, hline]
      exact hsupply.queue hnot
  | given hempty hline =>
      rw [hempty] at hsupply
      rw [hline]
      exact { hsupply with covered := fun _ _ hline => absurd rfl hline }
  | woken hsome hold hstock hline =>
      have hnodup := hobjects.semaphoreLine_nodup index
      rw [hold] at hnodup
      rw [hsome, hold] at hsupply
      rw [hstock, hline]
      exact hsupply.wake hnodup

omit [LawfulBackend P] in
theorem standing_before (h : m.Lineup past) (hobjects : m.shared.Sound)
    (hstepped : m.Stepped step rest pushed after)
    (hin : standing (past ++ [⟨m, .exec⟩]) index id ≠ .out) :
    standing past index id ≠ .out ∨
      step = .tryTake index id ∧ ∃ value, m.shared.stock index = some value ∧ ¬ 0 < value := by
  have hturns := hstepped.turns hobjects index
  rw [hstepped.standing_eq index] at hin
  generalize step.restands m.shared index = turn at hturns hin
  cases hturns with
  | kept => exact .inl hin
  | given => exact .inl hin
  | @absent me =>
      by_cases hid : id = me
      · subst hid
        exact absurd (Function.update_self ..) hin
      · exact .inl (by rwa [Option.elim_some, Function.update_of_ne hid] at hin)
  | @taken me =>
      by_cases hid : id = me
      · subst hid
        exact absurd (Function.update_self ..) hin
      · exact .inl (by rwa [Option.elim_some, Function.update_of_ne hid] at hin)
  | @short me value hsome hnot =>
      by_cases hid : id = me
      · subst hid
        exact .inr ⟨rfl, value, hsome, hnot⟩
      · exact .inl (by rwa [Option.elim_some, Function.update_of_ne hid] at hin)
  | @woken andSwitch value heir line hsome hold =>
      left
      by_cases hid : id = heir
      · subst hid
        rw [((h.supply index).mem_iff id).1 (hold ▸ List.mem_cons_self)]
        nofun
      · rwa [Option.elim_some, Function.update_of_ne hid] at hin

omit [LawfulBackend P] in
theorem standing_of_taken {me : ThreadId} (hobjects : m.shared.Sound)
    (hstepped : m.Stepped (.tryTake index me) rest pushed after)
    (hpushed : pushed = [.free (.semaphore index), .unmask, .unmask] ++ Code.done) :
    standing (past ++ [⟨m, .exec⟩]) index me = .out := by
  have hturns := hstepped.turns hobjects index
  rw [hstepped.standing_eq index]
  simp only [Step.restands, if_true] at hturns ⊢
  generalize (if m.shared.isShort index then Standing.queued else Standing.out) = now at hturns ⊢
  cases hturns with
  | absent | taken => exact Function.update_self ..
  | short hsome hnot =>
      rw [hstepped.pushed_of_short hobjects hsome hnot] at hpushed
      cases hpushed

theorem inside_of_perform (h : m.Lineup past) (hgoverned : m.Governed past)
    (hstepped : m.Stepped step rest pushed after) (index : Nat) (id : ThreadId)
    (hin : standing (past ++ [⟨m, .exec⟩]) index id ≠ .out) :
    Code.seeking (after.contextOf id).code = some (.unit index) := by
  have hregular := hgoverned.regular
  rcases h.standing_before hregular.objects hstepped hin with
    hbefore | ⟨rfl, value, hsome, hnot⟩
  · have hkept := hstepped.seeking_unit hregular (h.inside index id hbefore)
    refine hkept.resolve_right ?_
    rintro ⟨rfl, hpushed⟩
    exact hin (standing_of_taken hregular.objects hstepped hpushed)
  · obtain rfl : id = m.executing := (hregular.served hstepped).2
    obtain rfl : rest = [] := hregular.orderly.fits hstepped
    rw [contextOf_executing hstepped.effect.executing, hstepped.code_after,
      hstepped.pushed_of_short hregular.objects hsome hnot]
    rfl

/-- When round robin falls back to the idle thread, nobody could take a unit. -/
theorem short_of_choose_idle (h : m.Lineup past) (hgoverned : m.Governed past)
    (hwaiters : m.Waiters) (hstepped : m.Stepped (.choose .dispatch) rest pushed after)
    (hchoice : m.kernel.choice = ThreadId.idle) {value : Int32}
    (hstock : m.shared.stock index = some value)
    (hmem : ThreadId.idle ∈ m.shared.semaphoreLine index) : ¬ 0 < value := by
  have hregular := hgoverned.regular
  by_cases hcurrent : m.kernel.table.current = ThreadId.idle
  · exact h.lull (.inr (.inl hcurrent)) index value hstock hmem
  have hchoose : Policy.roundRobin.choose m.kernel.table = ThreadId.idle := by
    rw [← hchoice, Kernel.choice_of_roundRobin h.policy]
  have hcalm : Calm rest := hregular.orderly.fits hstepped
  have hnobody : woken (standing past index) = ∅ := by
    rw [Finset.eq_empty_iff_forall_notMem]
    intro id hin
    have hwoken : standing past index id = .woken := (Finset.mem_filter.1 hin).2
    have hidle : id ≠ ThreadId.idle := by
      rintro rfl
      have hqueued := ((h.supply index).mem_iff ThreadId.idle).1 hmem
      rw [hwoken] at hqueued
      cases hqueued
    have hseeking := h.inside index id (by rw [hwoken]; decide)
    have hcontains := hgoverned.asked id (.wait index) (hregular.serves_of_seeking hseeking)
    have hcreated := ThreadTable.mem_createdIds_of_contains hcontains hidle
    rcases h.awake hgoverned hwaiters hwoken with hready | hrunning | hwake
    · by_cases hid : id = m.kernel.table.current
      · exact h.steady hcurrent (hid ▸ hready)
      · exact Policy.not_ready_of_choose_idle hchoose hcreated hid hready
    · by_cases hid : id = m.kernel.table.current
      · exact Policy.not_running_of_choose_idle hchoose hcurrent (hid ▸ hrunning)
      · exact hgoverned.posture.others id hid hrunning
    · rw [hstepped.code] at hwake
      have hwake := (List.mem_cons.1 hwake).resolve_left (by simp)
      exact Bool.noConfusion (hcalm.1 _ hwake)
  have hcovered := (h.supply index).covered value hstock (List.ne_nil_of_mem hmem)
  rw [hnobody, Finset.card_empty] at hcovered
  exact Int32.not_lt.2 (Int32.le_iff_toInt_le.2 hcovered)

omit [LawfulBackend P] in
theorem lulled_before (hstepped : m.Stepped step rest pushed after) (hlulled : after.Lulled) :
    m.Lulled ∨ ThreadId.idle ∈ Code.names pushed := by
  rcases hlulled with hexecuting | hcurrent | hdispatch
  · rw [hstepped.effect.executing] at hexecuting
    exact .inl (.inl hexecuting)
  · rw [hstepped.effect.table] at hcurrent
    by_cases hstays : ∀ target, step = .dispatch target → m.kernel.table.current = target
    · rw [Step.current_tableAfter hstays] at hcurrent
      exact .inl (.inr (.inl hcurrent))
    · push Not at hstays
      obtain ⟨target, rfl, -⟩ := hstays
      rw [Step.tableAfter, ThreadTable.current_dispatch] at hcurrent
      exact .inl (.inr (.inr (hcurrent ▸ hstepped.code ▸ List.mem_cons_self)))
  · rw [hstepped.code_after, List.mem_append] at hdispatch
    rcases hdispatch with hdispatch | hdispatch
    · exact .inr (Code.mem_names.2 (.inr hdispatch))
    · exact .inl (.inr (.inr (hstepped.code ▸ .tail _ hdispatch)))

/-- While the idle thread runs, it takes no unit and nobody gives one back. -/
theorem lull_of_perform (h : m.Lineup past) (hgoverned : m.Governed past) (hwaiters : m.Waiters)
    (hunforced : Unforced past) (hstepped : m.Stepped step rest pushed after)
    (hlulled : after.Lulled) (index : Nat) (value : Int32)
    (hstock : after.shared.stock index = some value)
    (hmem : ThreadId.idle ∈ after.shared.semaphoreLine index) : ¬ 0 < value := by
  have hregular := hgoverned.regular
  rcases lulled_before hstepped hlulled with hbefore | hnamed
  · have hturns := hstepped.turns hregular.objects index
    generalize step.restands m.shared index = turn at hturns
    cases hturns with
    | kept hkept hline =>
        rw [hkept] at hstock
        rw [hline] at hmem
        exact h.lull hbefore index value hstock hmem
    | absent _ _ hline =>
        rw [hline] at hmem
        cases hmem
    | taken hsome hpos _ hline =>
        rw [hline] at hmem
        exact absurd hpos (h.lull hbefore index _ hsome hmem)
    | short hsome hnot hkept _ =>
        rw [hkept] at hstock
        exact Option.some.inj hstock ▸ hnot
    | given _ hline =>
        rw [hline] at hmem
        cases hmem
    | @woken andSwitch less heir line hsome hold hafter hline =>
        -- the idle thread is in line, so it is not the one that gives a unit back
        have hin : ThreadId.idle ∈ m.shared.semaphoreLine index := by
          rw [hold]
          exact .tail heir (hline ▸ hmem)
        have hnot := h.executing_not_mem_of_giveBack hregular hstepped index
        have hseat := hregular.seated.executing_eq hstepped.code (by simp) rfl
        rcases hbefore with hidle | hcurrent | hdispatch
        · exact absurd (hidle ▸ hin) hnot
        · exact absurd (hcurrent ▸ hin) (hseat ▸ hnot)
        · obtain rfl : rest = .unmask :: Code.done := hregular.orderly.fits hstepped
          simp [hstepped.code, Code.done] at hdispatch
  · rcases hstepped.choice_or_not_mem hregular hwaiters (hunforced.untargeted _)
      (fun _ => h.seeking_of_mem) hnamed with ⟨rfl, hchoice⟩ | hnot
    · rw [hstepped.semaphoreLine_eq rfl] at hmem
      rw [hstepped.stock_eq rfl] at hstock
      exact h.short_of_choose_idle hgoverned hwaiters hstepped hchoice.symm hstock hmem
    · exact absurd hmem (hnot index)

theorem perform (h : m.Lineup past) (hgoverned : m.Governed past) (hwaiters : m.Waiters)
    (hunforced : Unforced past) (hstepped : m.Stepped step rest pushed after) :
    after.Lineup (past ++ [⟨m, .exec⟩]) where
  policy := hstepped.effect.policy.trans h.policy
  supply := h.supply_of_perform hgoverned hstepped
  inside := h.inside_of_perform hgoverned hstepped
  steady := h.steady.perform hgoverned hstepped
  blocked index _ hid := (h.leftAlone hid).blocked_of_perform hgoverned hstepped index
  unnamed index id hid hmem := (h.leftAlone hid).unnamed_of_perform hid hgoverned hwaiters
    (hunforced.untargeted id) hstepped hmem index
  lull := h.lull_of_perform hgoverned hwaiters hunforced hstepped

theorem switch {next prev : ThreadId} (h : m.Lineup past) (hregular : m.Regular past)
    (hcode : m.context.code = .switch next prev :: rest)
    (hswitched : (m.setCode rest).Switched next prev after) :
    after.Lineup (past ++ [⟨m, .exec⟩]) := by
  have htable : after.kernel.table = m.kernel.table := by
    rw [hswitched.kernel]
    rfl
  have hshared : after.shared = m.shared := hswitched.shared
  have hnext := (hregular.seated.switch_eq hcode).1
  have hleft : ∀ {id : ThreadId}, id ≠ ThreadId.idle → after.LeftAlone id :=
    fun hid => (h.leftAlone hid).switch hregular hcode hswitched
  have hnames := (hregular.orderly.calm_of_switched hcode hswitched).names_eq_nil
  have hstanding : ∀ index,
      standing (past ++ [⟨m, .exec⟩]) index = standing past index := by
    intro index
    have hstep : Transition.step? ⟨m, .exec⟩ = some (.switch next prev) := by
      simp [Transition.step?, nextStep?, hcode, spins]
    rw [standing_exec_of_step? past m index hstep]
    rfl
  constructor
  · rw [hswitched.kernel]
    exact h.policy
  · intro index
    rw [hshared, hstanding]
    exact h.supply index
  · intro index id hin
    rw [hstanding] at hin
    exact hregular.seeking_of_switched hcode hswitched (h.inside index id hin)
  · exact h.steady.switch hswitched
  · exact fun index id hid => (hleft hid).blocked index
  · exact fun index id hid hmem => (hleft hid).unnamed hmem index
  · intro hlulled index value hstock hmem
    rw [hshared] at hstock hmem
    refine h.lull ?_ index value hstock hmem
    rcases hlulled with hexecuting | hcurrent | hdispatch
    · rw [hswitched.executing, hnext] at hexecuting
      exact .inr (.inl hexecuting)
    · rw [htable] at hcurrent
      exact .inr (.inl hcurrent)
    · have hnamed := Code.mem_names.2 (.inr hdispatch)
      rw [hnames] at hnamed
      cases hnamed

omit [Backend P] [LawfulBackend P] in
theorem call (h : m.Lineup past) (hcode : m.context.code = []) (request : Request) :
    (m.call request).Lineup (past ++ [⟨m, .call request⟩]) := by
  have hnames : Code.names (m.call request).context.code = [] := by
    rw [context_call]
    exact request.calm_code.names_eq_nil
  -- a thread in its own code stands in no line
  have hout : ∀ index, standing past index m.executing = .out := by
    intro index
    by_contra hin
    have hseeking := h.inside index m.executing hin
    rw [contextOf_executing rfl, hcode] at hseeking
    cases hseeking
  have hstanding : ∀ index,
      standing (past ++ [⟨m, .call request⟩]) index = standing past index := by
    intro index
    rw [standing_call, ← hout index, Function.update_eq_self]
  constructor
  · exact h.policy
  · intro index
    rw [hstanding]
    exact h.supply index
  · intro index id hin
    rw [hstanding] at hin
    have hid : id ≠ m.executing := by
      rintro rfl
      exact hin (hout index)
    rw [contextOf_call_of_ne m request hid]
    exact h.inside index id hin
  · exact h.steady
  · exact fun index id hid => ((h.leftAlone hid).call hcode request).blocked index
  · exact fun index id hid hmem => ((h.leftAlone hid).call hcode request).unnamed hmem index
  · intro hlulled
    refine h.lull ?_
    rcases hlulled with hexecuting | hcurrent | hdispatch
    · exact .inl hexecuting
    · exact .inr (.inl hcurrent)
    · have hnamed := Code.mem_names.2 (.inr hdispatch)
      rw [hnames] at hnamed
      cases hnamed

omit [Backend P] [LawfulBackend P] in
theorem interrupt (h : m.Lineup past) : m.interrupt.Lineup (past ++ [⟨m, .interrupt⟩]) := by
  have hcode : m.interrupt.context.code = interruptCode ++ m.context.code := by
    rw [context_interrupt]
  constructor
  · exact h.policy
  · intro index
    rw [standing_interrupt]
    exact h.supply index
  · intro index id hin
    rw [standing_interrupt] at hin
    exact seeking_interrupt (h.inside index id hin)
  · exact h.steady
  · exact fun index id hid => (h.leftAlone hid).interrupt.blocked index
  · exact fun index id hid hmem => (h.leftAlone hid).interrupt.unnamed hmem index
  · intro hlulled
    refine h.lull ?_
    rcases hlulled with hexecuting | hcurrent | hdispatch
    · exact .inl hexecuting
    · exact .inr (.inl hcurrent)
    · rw [hcode] at hdispatch
      exact .inr (.inr (by simpa [interruptCode] using hdispatch))

omit [Backend P] [LawfulBackend P] in
theorem fresh (config : Config) (cpu : P) (values : List Int32) (mutexes : Nat)
    (console : Console) : (fresh config .roundRobin cpu values mutexes console).Lineup [] := by
  have hline : ∀ index, (Machine.fresh config .roundRobin cpu values mutexes
      console).shared.semaphoreLine index = [] := Shared.semaphoreLine_new values mutexes console
  constructor
  · rfl
  · intro index
    rw [hline]
    exact .nil _
  · exact fun index id hin => absurd rfl hin
  · exact fun hcurrent => absurd rfl hcurrent
  · intro index id _ hmem
    rw [hline] at hmem
    cases hmem
  · intro index id _ _
    rw [hline]
    exact List.not_mem_nil
  · intro _ index value _ hmem
    rw [hline] at hmem
    cases hmem

theorem goes {move : Move} (h : m.Lineup past) (hgoverned : m.Governed past)
    (hwaiters : m.Waiters) (hunforced : Unforced past) (hgoes : m.Goes move after) :
    after.Lineup (past ++ [⟨m, move⟩]) := by
  cases hgoes with
  | spin hnone =>
      have hstanding : ∀ index,
          standing (past ++ [⟨m, .exec⟩]) index = standing past index :=
        fun index => standing_exec_of_step? past m index hnone
      refine { h with supply := fun index => ?_, inside := fun index id hin => ?_ }
      · rw [hstanding]
        exact h.supply index
      · rw [hstanding] at hin
        exact h.inside index id hin
  | step hstepped => exact h.perform hgoverned hwaiters hunforced hstepped
  | switch hcode hswitched => exact h.switch hgoverned.regular hcode hswitched
  | call request hcode => exact h.call hcode request
  | interrupt => exact h.interrupt

end Lineup

end Machine

variable [Backend P] [LawfulBackend P]

theorem Run.lineup {config : Config} {cpu : P} {values : List Int32} {mutexes : Nat}
    {console : Console} {past : List (Transition P)} {m : Machine P}
    (run : Run (.fresh config .roundRobin cpu values mutexes console) past m)
    (hunforced : Unforced past) : m.Lineup past := by
  refine run.invariant (fun past m => Unforced past → m.Lineup past) ?_ ?_ hunforced
  · exact fun _ => .fresh config cpu values mutexes console
  · intro past m move run h hgoes hlater
    have hbefore : Unforced past := fun t ht => hlater t (List.mem_append_left _ ht)
    exact (h hbefore).goes (run.governed Policy.sound_roundRobin)
      (run.waiters Policy.sound_roundRobin) hbefore hgoes

end TickKernel
