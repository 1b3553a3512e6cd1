import Mathlib.Logic.Function.Iterate
import TickKernel.Proofs.Requests

/-!
# Where a lock is held with interrupts enabled

A thread that takes interrupts holds no spin lock, except at one step: when it has
asked for its identity or for the number of threads, its guard goes before the table
lock.  A tick just there waits for ever for the lock of the thread that it interrupted.
Nothing else ever makes a thread spin.
-/

namespace TickKernel

variable {P : Type}

/-- Steps that end with the release of the table lock and the return. -/
def Code.EndsBare (code : List Step) : Prop :=
  ∃ reply, [.finish reply, .free .table] <+: code.reverse

namespace Code

variable {front rest : List Step} {step : Step}

theorem EndsBare.append (h : EndsBare rest) (front : List Step) : EndsBare (front ++ rest) := by
  obtain ⟨reply, hleads⟩ := h
  refine ⟨reply, ?_⟩
  rw [List.reverse_append]
  exact hleads.trans (List.prefix_append _ _)

theorem EndsBare.cases_append (h : EndsBare (front ++ rest)) :
    EndsBare rest ∨ (rest = [] ∧ EndsBare front) ∨
      (∃ reply, rest = [.finish reply]) ∧ front.getLast? = some (.free .table) := by
  obtain ⟨reply, hleads⟩ := h
  rw [List.reverse_append] at hleads
  rcases hreverse : rest.reverse with _ | ⟨last, _ | ⟨before, others⟩⟩
  · rw [List.reverse_eq_nil_iff] at hreverse
    subst hreverse
    exact .inr (.inl ⟨rfl, reply, hleads⟩)
  · rw [hreverse, List.singleton_append, List.cons_prefix_cons] at hleads
    obtain ⟨rfl, hfront⟩ := hleads
    have hrest : rest = [.finish reply] := by
      rw [← List.reverse_reverse rest, hreverse]
      rfl
    obtain ⟨others, hothers⟩ := hfront
    refine .inr (.inr ⟨⟨reply, hrest⟩, ?_⟩)
    rw [← List.head?_reverse, ← hothers]
    rfl
  · left
    rw [hreverse] at hleads
    refine ⟨reply, ?_⟩
    rw [hreverse]
    simp only [List.cons_append, List.cons_prefix_cons] at hleads ⊢
    exact ⟨hleads.1, hleads.2.1, List.nil_prefix⟩

end Code

/-- Only telling the identity or the number of threads leaves the lock's release for last. -/
theorem Kernel.Expands.endsBare {kernel : Kernel P} {step : Step} {rest pushed : List Step}
    (h : kernel.Expands step pushed) (hfits : step.Fits rest)
    (hends : Code.EndsBare (pushed ++ rest)) :
    Code.EndsBare (step :: rest) ∨ step = .identify .answer ∨ step = .countThreads .answer := by
  rcases hends.cases_append with hends | ⟨rfl, hends⟩ | ⟨⟨reply, rfl⟩, hlast⟩
  · exact .inl (hends.append [step])
  · obtain ⟨reply, hleads⟩ := hends
    cases h
    case identity => exact .inr (.inl rfl)
    case count => exact .inr (.inr rfl)
    case tick due hdue => rcases hdue with rfl | rfl <;> simp at hleads
    case retry call => cases call <;> simp [Code.attempt] at hleads
    case noRoom creation _ _ | noStack creation _ | noSlot creation _ _ =>
        cases hpacket : creation.packet <;> simp [Code.refuse, hpacket] at hleads
    all_goals simp at hleads
  · cases h
    case woken =>
        have hrest : [.finish reply] = Step.unmask :: Code.done := hfits
        cases hrest
    case tick due hdue => rcases hdue with rfl | rfl <;> simp at hlast
    case retry call => cases call <;> simp [Code.attempt] at hlast
    case noRoom creation _ _ | noStack creation _ | noSlot creation _ _ =>
        cases hpacket : creation.packet <;> simp [Code.refuse, hpacket] at hlast
    all_goals simp at hlast

theorem Request.not_endsBare (request : Request) : ¬ Code.EndsBare request.code := by
  rintro ⟨reply, hleads⟩
  cases request
  case sleep ticks =>
      simp only [Request.code] at hleads
      split at hleads <;> simp at hleads
  all_goals simp [Request.code] at hleads

namespace Machine

/-- Threads whose last steps release the table lock asked for their identity or a number. -/
def Candid (past : List (Transition P)) (m : Machine P) : Prop :=
  ∀ id : ThreadId, Code.EndsBare (m.contextOf id).code →
    asked past id = some .currentId ∨ asked past id = some .threadCount

variable [Backend P] [LawfulBackend P] {past : List (Transition P)} {m after : Machine P}

namespace Candid

theorem perform {step : Step} {rest pushed : List Step} (h : m.Candid past)
    (hregular : m.Regular past) (hstepped : m.Stepped step rest pushed after) :
    after.Candid (past ++ [⟨m, .exec⟩]) := by
  intro id
  rw [asked_exec]
  refine forall_contexts
    (fun id context => Code.EndsBare context.code →
      asked past id = some .currentId ∨ asked past id = some .threadCount)
    hstepped.effect.executing hstepped.effect.others (fun id _ => h id) ?_ id
  intro hends
  rw [hstepped.code_after] at hends
  have hserved := hregular.served hstepped
  rcases hstepped.expands.endsBare (hregular.orderly.fits hstepped) hends with
    hbefore | rfl | rfl
  · refine h m.executing ?_
    rw [contextOf_executing rfl, hstepped.code]
    exact hbefore
  · exact .inl hserved
  · exact .inr hserved

omit [LawfulBackend P] in
theorem switch {next prev : ThreadId} {rest : List Step} (h : m.Candid past)
    (hcode : m.context.code = .switch next prev :: rest)
    (hswitched : (m.setCode rest).Switched next prev after) :
    after.Candid (past ++ [⟨m, .exec⟩]) := by
  intro id
  rw [asked_exec]
  refine hswitched.forall_contexts
    (fun id context => Code.EndsBare context.code →
      asked past id = some .currentId ∨ asked past id = some .threadCount)
    (fun id _ => h id) (fun hends => ?_) (fun id call hends => ?_) id
  · refine h m.executing ?_
    rw [contextOf_executing rfl, hcode]
    exact hends.append [_]
  · obtain ⟨reply, hleads⟩ := hends
    cases call <;> simp [launchCode] at hleads

theorem goes {move : Move} (h : m.Candid past) (hregular : m.Regular past)
    (hgoes : m.Goes move after) : after.Candid (past ++ [⟨m, move⟩]) := by
  cases hgoes with
  | spin =>
      intro id hends
      rw [asked_exec]
      exact h id hends
  | step hstepped => exact h.perform hregular hstepped
  | switch hcode hswitched => exact h.switch hcode hswitched
  | call request hcode =>
      intro id hends
      by_cases hid : id = m.executing
      · rw [contextOf_executing ((executing_call m request).trans hid.symm), context_call] at hends
        exact absurd hends request.not_endsBare
      · rw [contextOf_call_of_ne m request hid] at hends
        rw [asked_call, if_neg (Ne.symm hid)]
        exact h id hends
  | interrupt =>
      intro id hends
      rw [asked_interrupt]
      refine h id ?_
      by_cases hid : id = m.executing
      · rw [contextOf_executing ((executing_interrupt m).trans hid.symm),
          context_interrupt] at hends
        rw [contextOf_executing hid.symm]
        rcases hends.cases_append with hends | ⟨-, reply, hleads⟩ | ⟨-, hlast⟩
        · exact hends
        · simp [interruptCode] at hleads
        · simp [interruptCode] at hlast
      · rw [contextOf_interrupt_of_ne m hid] at hends
        exact hends

end Candid

omit [Backend P] [LawfulBackend P] in
/-- A thread that takes interrupts holds no lock, or only the one that it releases next. -/
theorem Orderly.held_of_enabled {struck : Prop} (h : m.Orderly struck)
    (henabled : m.interruptsEnabled = true) :
    m.context.held = [] ∨
      m.context.held = [.table] ∧ ∃ reply, m.context.code = [.free .table, .finish reply] := by
  have hown := h.own
  have hnested := h.nested m.executing
  rw [h.cover_of_enabled henabled] at hown
  refine hown.unguarded.2.imp_right fun ⟨hheld, hwindow⟩ => ⟨hheld, hwindow.resolve_right ?_⟩
  rintro ⟨-, rest, hcode⟩
  -- a thread that serves an interrupt has them masked
  have hserving : .resume ∈ (m.contextOf m.executing).code := by
    rw [contextOf_executing rfl, hcode]
    simp
  have hmasked := (hnested.serving hserving).masked
  rw [contextOf_executing rfl] at hmasked
  rw [interruptsEnabled, hmasked] at henabled
  cases henabled

omit [Backend P] [LawfulBackend P] in
theorem Orderly.mem_held_of_free {struck : Prop} {lock : SpinLock} {rest : List Step}
    (h : m.Orderly struck) (hcode : m.context.code = .free lock :: rest) :
    lock ∈ m.context.held :=
  List.mem_of_head? (h.stands_of_code hcode id)

omit [LawfulBackend P] in
/-- A tick that interrupts a thread with the table lock waits for that lock for ever. -/
theorem Orderly.stuck_of_interrupt {struck : Prop} (h : m.Orderly struck)
    (henabled : m.interruptsEnabled = true) (hheld : m.context.held = [.table]) :
    ∃ stuck : Machine P, (∀ count, exec^[count + 2] m.interrupt = stuck) ∧
      stuck.nextStep? = some (.take .table) ∧ stuck.spins (.take .table) = true ∧
        stuck.interruptsEnabled = false := by
  have hcode : m.interrupt.context.code = .mask :: .countTick :: .resume :: m.context.code := by
    rw [context_interrupt]
    rfl
  obtain ⟨none, hmasks⟩ := stepped_exec hcode rfl rfl
  have hnext := hmasks.code_after
  rw [hmasks.expands.eq_nil rfl, List.nil_append] at hnext
  obtain ⟨pushed, hcounts⟩ := stepped_exec hnext rfl rfl
  have horderly := ((h.interrupt henabled).perform hmasks).perform hcounts
  obtain ⟨rest, hstops⟩ : ∃ rest, m.interrupt.exec.exec.context.code = .take .table :: rest := by
    rw [hcounts.code_after]
    cases hcounts.expands with
    | nothing hplain => cases hplain
    | answer _ hasks => cases hasks
    | tick => exact ⟨_, rfl⟩
  have htaken : m.interrupt.exec.exec.spins (.take .table) = true := by
    show m.interrupt.exec.exec.kernel.tableTaken = true
    rw [hcounts.effect.tableTaken, hmasks.effect.tableTaken]
    show m.kernel.tableTaken = true
    rw [h.words.table, hheld]
    rfl
  have hstays : m.interrupt.exec.exec.exec = m.interrupt.exec.exec :=
    exec_of_spins _ hstops htaken
  refine ⟨m.interrupt.exec.exec, fun count => ?_, by rw [nextStep?, hstops]; rfl, htaken, ?_⟩
  · rw [Function.iterate_add_apply]
    exact Function.iterate_fixed hstays count
  · refine (horderly.nested _).masking.masked fun hnil => ?_
    have hcover := hcounts.effect.cover
    rw [hmasks.effect.cover] at hcover
    have hguards := congrArg Cover.guards hcover
    have hnone : m.interrupt.exec.exec.context.masking.guards = [] := hnil
    simp [Context.cover, hnone] at hguards

end Machine

variable [Backend P] [LawfulBackend P]

theorem Run.candid {config : Config} {policy : Policy} {cpu : P} {values : List Int32}
    {mutexes : Nat} {console : Console} {past : List (Transition P)} {m : Machine P}
    (run : Run (.fresh config policy cpu values mutexes console) past m) : m.Candid past := by
  refine run.invariant (fun past m => m.Candid past) ?_ ?_
  · rintro id ⟨reply, hleads⟩
    simp at hleads
  · intro past m move run h hgoes
    exact h.goes run.regular hgoes

/--
A thread that takes interrupts holds no spin lock, but for the table lock at the last
step but one of telling its identity or the number of threads.  A tick just there
stops its kernel for ever; as long as none comes there, nobody ever spins.
-/
theorem Run.lock_discipline {config : Config} {policy : Policy} {cpu : P} {values : List Int32}
    {mutexes : Nat} {console : Console} {past : List (Transition P)} {m : Machine P}
    (run : Run (.fresh config policy cpu values mutexes console) past m) :
    (m.interruptsEnabled = true →
      (m.context.held = [] ↔ ∀ reply, m.context.code ≠ [.free .table, .finish reply]) ∧
        (m.context.held ≠ [] →
          m.context.held = [.table] ∧
            (asked past m.executing = some .currentId ∨
              asked past m.executing = some .threadCount) ∧
            ∃ stuck : Machine P, (∀ count, Machine.exec^[count + 2] m.interrupt = stuck) ∧
              stuck.nextStep? = some (.take .table) ∧ stuck.spins (.take .table) = true ∧
                stuck.interruptsEnabled = false)) ∧
      (¬ Struck past → ∀ step, m.nextStep? = some step → m.spins step = false) := by
  have horderly := run.orderly
  refine ⟨fun henabled => ⟨⟨?_, fun hnowhere => ?_⟩, fun hheld => ?_⟩, fun hnever step hstep => ?_⟩
  · intro hheld reply hcode
    have hmem := horderly.mem_held_of_free hcode
    rw [hheld] at hmem
    cases hmem
  · refine (horderly.held_of_enabled henabled).resolve_right ?_
    rintro ⟨-, reply, hcode⟩
    exact hnowhere reply hcode
  · obtain ⟨htable, reply, hcode⟩ := (horderly.held_of_enabled henabled).resolve_left hheld
    refine ⟨htable, run.candid m.executing ?_, horderly.stuck_of_interrupt henabled htable⟩
    rw [Machine.contextOf_executing rfl, hcode]
    exact ⟨reply, List.prefix_rfl⟩
  · obtain ⟨rest, hcode⟩ := List.head?_eq_some_iff.1 hstep
    have hown := horderly.own
    rw [hcode] at hown
    obtain ⟨-, -, ⟨hstruck, -⟩ | ⟨hstands, -⟩⟩ := hown
    · exact absurd hstruck hnever
    · rw [horderly.spins_eq_false_iff]
      rintro lock hmem rfl
      exact hstands.2 hmem

/-- The idle thread asks who it is, and a tick comes before it has released the table lock. -/
theorem Run.lock_discipline_of_current_id :
    ∃ (past : List (Transition Host)) (m stuck : Machine Host),
      Run (.fresh {} .roundRobin {} [] 0 { sinks := [], installed := none }) past m ∧
        m.interruptsEnabled = true ∧ m.context.held = [.table] ∧
          (∀ count, Machine.exec^[count + 2] m.interrupt = stuck) ∧
            stuck.spins (.take .table) = true ∧ ¬ Struck past ∧ m.spins (.free .table) = false := by
  let start : Machine Host := .fresh {} .roundRobin {} [] 0 { sinks := [], installed := none }
  let moves : List Move := .call .currentId :: List.replicate 4 .exec
  have run : Run start (start.transitions moves) (moves.foldl Machine.after start) :=
    .of_plays (by decide +kernel)
  have henabled : (moves.foldl Machine.after start).interruptsEnabled = true := by decide +kernel
  have hheld : (moves.foldl Machine.after start).context.held ≠ [] := by decide +kernel
  have hnext : (moves.foldl Machine.after start).nextStep? = some (.free .table) := by
    decide +kernel
  have hnever : ¬ Struck (start.transitions moves) := by
    rintro ⟨t, hmem, hmove, -⟩
    have hmoves : t.move ∈ moves := by
      rw [← Machine.map_move_transitions start moves]
      exact List.mem_map_of_mem hmem
    rw [hmove] at hmoves
    simp [moves] at hmoves
  obtain ⟨hdiscipline, hstays⟩ := Run.lock_discipline run
  obtain ⟨htable, -, stuck, hstuck, -, hspins, -⟩ := (hdiscipline henabled).2 hheld
  exact ⟨_, _, stuck, run, henabled, htable, hstuck, hspins, hnever, hstays hnever _ hnext⟩

end TickKernel
