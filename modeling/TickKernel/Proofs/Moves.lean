import TickKernel.Proofs.Expansion

/-!
# What a move leads to

`Machine.Goes` sorts the moves of a run: a step of the executing thread, a switch to
another one, a request, an interrupt, or a round of spinning on a taken lock.  An
invariant is carried through a run by one case for each of them, with
`Run.invariant` doing the induction.
-/

namespace TickKernel

variable {P : Type}

theorem Kernel.Expands.eq_nil {kernel : Kernel P} {step : Step} {pushed : List Step}
    (h : kernel.Expands step pushed) (hplain : step.isPlain = true) : pushed = [] := by
  cases h
  case nothing => rfl
  case answer reply hasks =>
      unfold Step.asksUnder at hasks
      split at hasks <;> first | cases hplain | cases hasks
  all_goals cases hplain

namespace Machine

theorem contextOf_executing {m : Machine P} {id : ThreadId} (h : m.executing = id) :
    m.contextOf id = m.context := by
  subst h
  rfl

theorem contextOf_setCode_of_ne (m : Machine P) (code : List Step) {id : ThreadId}
    (h : id ≠ m.executing) : (m.setCode code).contextOf id = m.contextOf id :=
  contextOf_modifyContext_of_ne m _ h

theorem forall_contexts {m after : Machine P} (Good : ThreadId → Context → Prop)
    (hexecuting : after.executing = m.executing)
    (hstill : ∀ id, id ≠ m.executing → after.contextOf id = m.contextOf id)
    (others : ∀ id, id ≠ m.executing → Good id (m.contextOf id))
    (own : Good m.executing after.context) (id : ThreadId) : Good id (after.contextOf id) := by
  by_cases hid : id = m.executing
  · rw [contextOf_executing (hexecuting.trans hid.symm), hid]
    exact own
  · rw [hstill id hid]
    exact others id hid

@[simp]
theorem executing_setCode (m : Machine P) (code : List Step) :
    (m.setCode code).executing = m.executing :=
  rfl

@[simp]
theorem executing_call (m : Machine P) (request : Request) :
    (m.call request).executing = m.executing :=
  rfl

@[simp]
theorem executing_interrupt (m : Machine P) : m.interrupt.executing = m.executing :=
  rfl

theorem context_call (m : Machine P) (request : Request) :
    (m.call request).context = { m.context with code := request.code, answer := none } :=
  context_modifyContext m _

theorem contextOf_call_of_ne (m : Machine P) (request : Request) {id : ThreadId}
    (h : id ≠ m.executing) : (m.call request).contextOf id = m.contextOf id :=
  contextOf_modifyContext_of_ne m _ h

theorem context_interrupt (m : Machine P) :
    m.interrupt.context =
      { m.context with
        masking := m.context.masking.set false, code := interruptCode ++ m.context.code } := by
  simp [interrupt]

theorem contextOf_interrupt_of_ne (m : Machine P) {id : ThreadId} (h : id ≠ m.executing) :
    m.interrupt.contextOf id = m.contextOf id := by
  have hpush : (m.push interruptCode).contextOf id = m.contextOf id :=
    contextOf_modifyContext_of_ne m _ h
  exact (contextOf_modifyContext_of_ne (m.push interruptCode) _ h).trans hpush

variable [Backend P]

/-- What passing the processor from one slot to another leaves behind. -/
structure Switched (m : Machine P) (next prev : ThreadId) (after : Machine P) : Prop where
  executing : after.executing = next
  kernel : after.kernel = { m.kernel with cpu := (Backend.switch m.kernel.cpu next prev).2 }
  shared : after.shared = m.shared
  others : ∀ id, id ≠ next → after.contextOf id = m.contextOf id
  /-- A thread that was suspended before goes on where it stood. -/
  resumed : (Backend.switch m.kernel.cpu next prev).1 = true →
    after.contextOf next = m.contextOf next
  /-- Any other starts from its first frame. -/
  launched : (Backend.switch m.kernel.cpu next prev).1 = false →
    ∃ call : Option EntryCall, after.contextOf next = { code := (call.map launchCode).getD [] }

theorem switched_switch (m : Machine P) (next prev : ThreadId) :
    m.Switched next prev (m.switch next prev) := by
  cases known : (Backend.switch m.kernel.cpu next prev).1 with
  | true =>
      simp only [switch, known, if_true]
      exact
        { executing := rfl, kernel := rfl, shared := rfl, others := fun _ _ => rfl
          resumed := fun _ => rfl, launched := fun h => by simp [known] at h }
  | false =>
      simp only [switch, known, Bool.false_eq_true, if_false]
      exact
        { executing := rfl, kernel := rfl, shared := rfl
          others := fun id hid => contextOf_modifyContext_of_ne _ _ hid
          resumed := fun h => by simp [known] at h
          launched := fun _ => ⟨m.savedCall next, context_modifyContext _ _⟩ }

structure Stepped (m : Machine P) (step : Step) (rest pushed : List Step) (after : Machine P) :
    Prop where
  code : m.context.code = step :: rest
  free : m.spins step = false
  stays : step.isSwitch = false
  eq : after = (m.setCode rest).perform step
  expands : m.kernel.Expands step pushed
  effect : m.Effect step after
  code_after : after.context.code = pushed ++ rest

theorem Stepped.step?_eq {m after : Machine P} {step : Step} {rest pushed : List Step}
    (hstepped : m.Stepped step rest pushed after) :
    Transition.step? ⟨m, .exec⟩ = some step := by
  simp [Transition.step?, nextStep?, hstepped.code, hstepped.free]

theorem Stepped.after_eq {m after : Machine P} {step : Step} {rest pushed : List Step}
    (hstepped : m.Stepped step rest pushed after) : Transition.after ⟨m, .exec⟩ = after := by
  rw [hstepped.eq]
  exact exec_of_code m hstepped.code hstepped.free

theorem Stepped.pushed_eq {m after : Machine P} {step : Step} {rest pushed : List Step}
    (hstepped : m.Stepped step rest pushed after) (code : List Step)
    (hcode : ((m.setCode rest).perform step).context.code = code ++ rest) : pushed = code := by
  apply List.append_cancel_right
  rw [← hstepped.code_after, hstepped.eq, hcode]

/-- The ways in which a machine goes on, by what is done in them. -/
inductive Goes (m : Machine P) : Move → Machine P → Prop where
  /-- The executing thread spins, or has no step to do. -/
  | spin : Transition.step? ⟨m, .exec⟩ = none → Goes m .exec m
  | step {step : Step} {rest pushed : List Step} {after : Machine P} :
      m.Stepped step rest pushed after → Goes m .exec after
  | switch {next prev : ThreadId} {rest : List Step} {after : Machine P} :
      m.context.code = .switch next prev :: rest →
        (m.setCode rest).Switched next prev after → Goes m .exec after
  | call (request : Request) : m.context.code = [] → Goes m (.call request) (m.call request)
  | interrupt : m.interruptsEnabled = true → Goes m .interrupt m.interrupt

omit [Backend P] in
theorem nextStep?_of_step? {t : Transition P} {step : Step} (h : t.step? = some step) :
    t.before.nextStep? = some step := by
  obtain ⟨m, move⟩ := t
  cases move with
  | call | interrupt => cases h
  | exec => exact (Option.filter_eq_some_iff.1 h).1

omit [Backend P] in
theorem step?_of_switch {m : Machine P} {next prev : ThreadId} {rest : List Step}
    (hcode : m.context.code = .switch next prev :: rest) :
    Transition.step? ⟨m, .exec⟩ = some (.switch next prev) := by
  simp [Transition.step?, nextStep?, hcode, spins]

/-- A move other than a step of the executing thread leaves all objects alone. -/
theorem Goes.steps_or_still {m after : Machine P} {move : Move} (h : m.Goes move after) :
    (∃ step rest pushed, move = .exec ∧ m.Stepped step rest pushed after) ∨
      after.shared = m.shared ∧
        ∀ step, Transition.step? ⟨m, move⟩ = some step → step.isSwitch = true := by
  cases h with
  | spin hnone =>
      refine .inr ⟨rfl, fun step hstep => ?_⟩
      rw [hnone] at hstep
      cases hstep
  | step hstepped => exact .inl ⟨_, _, _, rfl, hstepped⟩
  | switch hcode hswitched =>
      refine .inr ⟨hswitched.shared, fun step hstep => ?_⟩
      rw [step?_of_switch hcode] at hstep
      exact Option.some.inj hstep ▸ rfl
  | call | interrupt => exact .inr ⟨rfl, nofun⟩

/-- The effect of a step is the same whether or not it was taken off first. -/
theorem Effect.of_setCode {m after : Machine P} {step : Step} {rest : List Step}
    (h : (m.setCode rest).Effect step after) : m.Effect step after :=
  { h with
    others := fun id hid => (h.others id hid).trans (contextOf_setCode_of_ne m rest hid)
    masking := by rw [h.masking, context_setCode]
    held := by rw [h.held, context_setCode]
    answer := by rw [h.answer, context_setCode] }

theorem Switched.forall_contexts {m after : Machine P} {next prev : ThreadId} {rest : List Step}
    (hswitched : (m.setCode rest).Switched next prev after) (Good : ThreadId → Context → Prop)
    (others : ∀ id, id ≠ m.executing → Good id (m.contextOf id))
    (own : Good m.executing { m.context with code := rest })
    (launched : ∀ id (call : Option EntryCall), Good id { code := (call.map launchCode).getD [] })
    (id : ThreadId) : Good id (after.contextOf id) := by
  have hset : Good id ((m.setCode rest).contextOf id) :=
    Machine.forall_contexts Good (executing_setCode m rest)
      (fun id => contextOf_setCode_of_ne m rest) others (context_setCode m rest ▸ own) id
  by_cases hid : id = next
  · subst hid
    cases known : (Backend.switch (m.setCode rest).kernel.cpu id prev).1 with
    | true =>
        rw [hswitched.resumed known]
        exact hset
    | false =>
        obtain ⟨call, hlaunch⟩ := hswitched.launched known
        rw [hlaunch]
        exact launched id call
  · rw [hswitched.others id hid]
    exact hset

theorem Switched.forall_steps {m after : Machine P} {next prev : ThreadId} {rest : List Step}
    (hswitched : (m.setCode rest).Switched next prev after)
    (hcode : m.context.code = .switch next prev :: rest) (Good : ThreadId → Step → Prop)
    (h : ∀ id, ∀ step ∈ (m.contextOf id).code, Good id step)
    (hlaunched : ∀ id (call : Option EntryCall), ∀ step ∈ (call.map launchCode).getD [],
      Good id step) : ∀ id, ∀ step ∈ (after.contextOf id).code, Good id step := by
  refine hswitched.forall_contexts (fun id context => ∀ step ∈ context.code, Good id step)
    (fun id _ => h id) ?_ hlaunched
  have hown := h m.executing
  rw [contextOf_executing rfl, hcode, List.forall_mem_cons] at hown
  exact hown.2

/--
What holds of all steps that threads have left holds of them after a move, if it holds of
those that the move adds: by a step, for an operation, for a tick, or to start a thread.
-/
theorem Goes.forall_steps {m after : Machine P} {move : Move} (hgoes : m.Goes move after)
    (Good : ThreadId → Step → Prop)
    (hkept : ∀ id, (∀ request, move = .call request → id ≠ m.executing) →
      ∀ step ∈ (m.contextOf id).code, Good id step)
    (hpushed : ∀ {step : Step} {rest pushed : List Step}, m.Stepped step rest pushed after →
      move = .exec → ∀ other ∈ pushed, Good m.executing other)
    (hasked : ∀ request, move = .call request → ∀ step ∈ request.code, Good m.executing step)
    (hgiven : move = .interrupt → ∀ step ∈ interruptCode, Good m.executing step)
    (hlaunched : ∀ id (call : Option EntryCall), ∀ step ∈ (call.map launchCode).getD [],
      Good id step) (id : ThreadId) : ∀ step ∈ (after.contextOf id).code, Good id step := by
  have hquiet : (∀ request, move ≠ .call request) → ∀ id, ∀ step ∈ (m.contextOf id).code,
      Good id step :=
    fun hmove id => hkept id fun request heq => absurd heq (hmove request)
  cases hgoes with
  | spin => exact hquiet nofun id
  | @step step rest pushed _ hstepped =>
      refine forall_contexts (fun id context => ∀ step ∈ context.code, Good id step)
        hstepped.effect.executing hstepped.effect.others (fun id _ => hquiet nofun id) ?_ id
      have hown := hquiet nofun m.executing
      rw [contextOf_executing rfl, hstepped.code, List.forall_mem_cons] at hown
      rw [hstepped.code_after]
      exact List.forall_mem_append.2 ⟨hpushed hstepped rfl, hown.2⟩
  | switch hcode hswitched => exact hswitched.forall_steps hcode Good (hquiet nofun) hlaunched id
  | call request =>
      refine forall_contexts (fun id context => ∀ step ∈ context.code, Good id step)
        (executing_call m request) (fun id => contextOf_call_of_ne m request)
        (fun id hid => hkept id fun _ _ => hid) ?_ id
      rw [context_call]
      exact hasked request rfl
  | interrupt =>
      refine forall_contexts (fun id context => ∀ step ∈ context.code, Good id step)
        (executing_interrupt m) (fun id => contextOf_interrupt_of_ne m)
        (fun id _ => hquiet nofun id) ?_ id
      rw [context_interrupt]
      exact List.forall_mem_append.2 ⟨hgiven rfl, hquiet nofun m.executing⟩

/-- A step other than a switch is done at once unless its lock is taken. -/
theorem stepped_exec {m : Machine P} {step : Step} {rest : List Step}
    (hcode : m.context.code = step :: rest) (hfree : m.spins step = false)
    (hswitch : step.isSwitch = false) : ∃ pushed, m.Stepped step rest pushed m.exec := by
  obtain ⟨pushed, hexpands, hpushed⟩ := (m.setCode rest).expands_perform hswitch
  rw [context_setCode] at hpushed
  rw [exec_of_code m hcode hfree]
  exact ⟨pushed,
    { code := hcode, free := hfree, stays := hswitch, eq := rfl
      expands := hexpands
      effect := ((m.setCode rest).effect_perform hswitch).of_setCode
      code_after := hpushed }⟩

theorem switched_exec {m : Machine P} {next prev : ThreadId} {rest : List Step}
    (hcode : m.context.code = .switch next prev :: rest) :
    (m.setCode rest).Switched next prev m.exec := by
  rw [exec_of_code m hcode rfl]
  exact (m.setCode rest).switched_switch next prev

theorem goes_after (m : Machine P) {move : Move} (allowed : m.Allows move) :
    m.Goes move (m.after move) := by
  cases move with
  | call request => exact .call request (List.isEmpty_iff.1 allowed)
  | interrupt => exact .interrupt allowed
  | exec =>
      cases hcode : m.context.code with
      | nil => simp [Allows, atUserLevel, hcode] at allowed
      | cons step rest =>
          cases hspins : m.spins step with
          | true =>
              rw [after, exec_of_spins m hcode hspins]
              exact .spin (by simp [Transition.step?, nextStep?, hcode, hspins])
          | false =>
              cases hswitch : step.isSwitch with
              | false =>
                  obtain ⟨pushed, hstepped⟩ := stepped_exec hcode hspins hswitch
                  exact .step hstepped
              | true =>
                  obtain ⟨next, prev, rfl⟩ := Step.eq_switch hswitch
                  exact .switch hcode (switched_exec hcode)

end Machine

variable [Backend P]

/-- What holds at the start and is kept by every move holds all along a run. -/
theorem Run.invariant {start m : Machine P} {past : List (Transition P)}
    (Good : List (Transition P) → Machine P → Prop) (run : Run start past m)
    (base : Good [] start)
    (step : ∀ past m move, Run start past m → Good past m → m.Goes move (m.after move) →
      Good (past ++ [⟨m, move⟩]) (m.after move)) : Good past m := by
  induction run with
  | nil => exact base
  | snoc move run allowed ih => exact step _ _ move run ih (Machine.goes_after _ allowed)

theorem divided_snoc {α : Type} {front back past : List α} {entry last : α}
    (h : front ++ entry :: back = past ++ [last]) :
    (back = [] ∧ front = past ∧ entry = last) ∨
      ∃ others, back = others ++ [last] ∧ front ++ entry :: others = past := by
  rcases List.eq_nil_or_concat back with rfl | ⟨others, final, rfl⟩
  · obtain ⟨hfront, hlast⟩ := List.append_inj' h rfl
    exact .inl ⟨rfl, hfront, List.singleton_inj.1 hlast⟩
  · rw [List.concat_eq_append, ← List.cons_append, ← List.append_assoc] at h
    obtain ⟨hothers, hlast⟩ := List.append_inj' h rfl
    rw [List.concat_eq_append, List.singleton_inj.1 hlast]
    exact .inr ⟨others, rfl, hothers⟩

/-- The first moves of a run are a run, after which the next move was possible. -/
theorem Run.before {start m : Machine P} {before later : List (Transition P)} {t : Transition P}
    (run : Run start (before ++ t :: later) m) :
    Run start before t.before ∧ t.before.Allows t.move := by
  generalize hpast : before ++ t :: later = past at run
  induction run generalizing later with
  | nil => simp at hpast
  | @snoc earlier last move run allowed ih =>
      rcases divided_snoc hpast with ⟨-, rfl, rfl⟩ | ⟨others, -, hearlier⟩
      · exact ⟨run, allowed⟩
      · exact ih hearlier

omit [Backend P] in
/-- What is read off the transitions of a run grows by what is read off its last one. -/
theorem filterMap_snoc {α : Type} (read : Transition P → Option α) (past : List (Transition P))
    (t : Transition P) :
    (past ++ [t]).filterMap read = past.filterMap read ++ (read t).toList := by
  rw [List.filterMap_append]
  cases h : read t <;> simp [h]

/-- Something happened in a run, and something else has not happened since. -/
def Since {P : Type} (starts : List (Transition P) → Transition P → Prop)
    (ends : Transition P → Prop) (past : List (Transition P)) : Prop :=
  ∃ before t later, past = before ++ t :: later ∧ starts before t ∧ ∀ other ∈ later, ¬ ends other

omit [Backend P] in
theorem since_append {starts : List (Transition P) → Transition P → Prop}
    {ends : Transition P → Prop} {past : List (Transition P)} {t : Transition P} :
    Since starts ends (past ++ [t]) ↔ starts past t ∨ Since starts ends past ∧ ¬ ends t := by
  constructor
  · rintro ⟨before, other, later, heq, hstarts, hkeeps⟩
    rcases divided_snoc heq.symm with ⟨-, rfl, rfl⟩ | ⟨front, rfl, rfl⟩
    · exact .inl hstarts
    · refine .inr ⟨⟨before, other, front, rfl, hstarts, fun t hmem => hkeeps t ?_⟩, hkeeps t ?_⟩
      · simp [hmem]
      · simp
  · rintro (hstarts | ⟨⟨before, other, later, rfl, hstarts, hkeeps⟩, hends⟩)
    · exact ⟨past, t, [], rfl, hstarts, List.forall_mem_nil _⟩
    · refine ⟨before, other, later ++ [t], by simp, hstarts, fun last hmem => ?_⟩
      rcases List.mem_append.1 hmem with hmem | hmem
      · exact hkeeps last hmem
      · exact List.mem_singleton.1 hmem ▸ hends

/-! ## Given moves -/

def Machine.Plays (m : Machine P) : List Move → Prop
  | [] => True
  | move :: moves => m.Allows move ∧ (m.after move).Plays moves

instance Machine.decidablePlays (m : Machine P) (moves : List Move) : Decidable (m.Plays moves) :=
  match moves with
  | [] => inferInstanceAs (Decidable True)
  | move :: moves =>
      have := decidablePlays (m.after move) moves
      inferInstanceAs (Decidable (m.Allows move ∧ (m.after move).Plays moves))

def Machine.transitions (m : Machine P) : List Move → List (Transition P)
  | [] => []
  | move :: moves => ⟨m, move⟩ :: (m.after move).transitions moves

theorem Machine.map_move_transitions (m : Machine P) (moves : List Move) :
    (m.transitions moves).map Transition.move = moves := by
  induction moves generalizing m with
  | nil => rfl
  | cons move moves ih => rw [transitions, List.map_cons, ih]

/-- Moves that are possible one after the other make a run. -/
theorem Run.of_plays {m : Machine P} {moves : List Move} (h : m.Plays moves) :
    Run m (m.transitions moves) (moves.foldl Machine.after m) := by
  induction moves generalizing m with
  | nil => exact .nil
  | cons move moves ih =>
      have hfirst : Run m [⟨m, move⟩] (m.after move) := .snoc move .nil h.1
      exact hfirst.trans (ih h.2)

theorem Run.of_plays_at {start : Machine P} {first second : List Move} {move : Move}
    (hfirst : start.Plays first)
    (hsecond : (first.foldl Machine.after start).Plays (move :: second)) :
    Run start
      (start.transitions first ++ ⟨first.foldl Machine.after start, move⟩ ::
        ((first.foldl Machine.after start).after move).transitions second)
      (second.foldl Machine.after ((first.foldl Machine.after start).after move)) :=
  (Run.of_plays hfirst).trans (Run.of_plays hsecond)

end TickKernel
