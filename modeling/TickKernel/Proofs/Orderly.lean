import TickKernel.Proofs.Discipline

/-!
# Locks and guards in a run

In every machine that a run can reach, the threads are disciplined, the spin locks
taken are those that the executing thread holds, and a thread that is not executing
holds none.  So no thread ever spins for another one.
-/

namespace TickKernel

variable {P : Type}

/-- The words of the spin locks tell which locks are held, each of them once. -/
structure LockWords (held : List SpinLock) (tableTaken : Bool) (taken : List SpinLock) : Prop where
  nodup : held.Nodup
  table : tableTaken = held.contains .table
  others : taken = held.filter (· != .table)

theorem LockWords.take {held taken : List SpinLock} {tableTaken : Bool} {lock : SpinLock}
    (h : LockWords held tableTaken taken) (hfree : lock ∉ held) :
    LockWords (lock :: held) (Step.tableTakenAfter (.take lock) tableTaken)
      (Step.takenAfter (.take lock) taken) := by
  refine ⟨List.nodup_cons.2 ⟨hfree, h.nodup⟩, ?_, ?_⟩
  · cases lock <;> simp [Step.tableTakenAfter, h.table]
  · cases lock <;> simp [Step.takenAfter, h.others]

theorem LockWords.free {held taken : List SpinLock} {tableTaken : Bool} {lock : SpinLock}
    (h : LockWords (lock :: held) tableTaken taken) :
    LockWords held (Step.tableTakenAfter (.free lock) tableTaken)
      (Step.takenAfter (.free lock) taken) := by
  obtain ⟨hfree, hnodup⟩ := List.nodup_cons.1 h.nodup
  refine ⟨hnodup, ?_, ?_⟩
  · cases lock <;> simp [Step.tableTakenAfter, h.table]
    exact hfree
  · cases lock <;> simp [Step.takenAfter, h.others]

def Struck (past : List (Transition P)) : Prop :=
  ∃ t ∈ past, t.move = .interrupt ∧ t.before.context.held ≠ []

theorem struck_append {past : List (Transition P)} {t : Transition P} :
    Struck (past ++ [t]) ↔ Struck past ∨ t.move = .interrupt ∧ t.before.context.held ≠ [] := by
  simp [Struck, or_and_right, exists_or]

namespace Machine

/-- All threads are disciplined, and the lock words tell what the executing thread holds. -/
structure Orderly (struck : Prop) (m : Machine P) : Prop where
  disciplined : ∀ id : ThreadId, Disciplined struck (m.contextOf id).cover (m.contextOf id).code
  nested : ∀ id : ThreadId, (m.contextOf id).Nested
  calm : ∀ id : ThreadId, id ≠ m.executing → Calm (m.contextOf id).code
  bare : ∀ id : ThreadId, id ≠ m.executing → (m.contextOf id).held = []
  words : LockWords m.context.held m.kernel.tableTaken m.shared.taken

namespace Orderly

variable {struck later : Prop} {m after : Machine P}

theorem mono (himp : struck → later) (h : m.Orderly struck) : m.Orderly later :=
  { h with disciplined := fun id => (h.disciplined id).mono himp }

theorem isTaken_iff (h : m.Orderly struck) (lock : SpinLock) :
    m.isTaken lock = true ↔ lock ∈ m.context.held := by
  cases lock <;> simp [isTaken, h.words.table, h.words.others]

theorem spins_eq_false_iff (h : m.Orderly struck) (step : Step) :
    m.spins step = false ↔ ∀ lock ∈ m.context.held, step ≠ .take lock := by
  cases step
  case take lock =>
      rw [spins, ← Bool.not_eq_true, h.isTaken_iff]
      constructor
      · rintro hnot other hmem ⟨⟩
        exact hnot hmem
      · intro hall hmem
        exact hall lock hmem rfl
  all_goals simp [spins]

theorem own (h : m.Orderly struck) : Disciplined struck m.context.cover m.context.code :=
  h.disciplined m.executing

theorem fits_of_code {step : Step} {rest : List Step} (h : m.Orderly struck)
    (hcode : m.context.code = step :: rest) : step.Fits rest := by
  have hown := h.own
  rw [hcode] at hown
  exact hown.2.1

theorem stands_of_code {step : Step} {rest : List Step} (h : m.Orderly struck)
    (hcode : m.context.code = step :: rest) (halive : ¬ step.IsDead m.context.cover) :
    step.Stands m.context.cover := by
  have hown := h.own
  rw [hcode] at hown
  exact (hown.2.2.resolve_left fun hdead => halive hdead.2).1

theorem code_of_finish {reply : Reply} (h : m.Orderly struck)
    (hnext : m.context.code.head? = some (.finish reply)) : m.context.code = [.finish reply] := by
  obtain ⟨rest, hcode⟩ := List.head?_eq_some_iff.1 hnext
  obtain rfl : rest = [] := h.fits_of_code hcode
  exact hcode

theorem fresh (config : Config) (policy : Policy) (cpu : P) (values : List Int32) (mutexes : Nat)
    (console : Console) : (fresh config policy cpu values mutexes console).Orderly struck := by
  constructor
  · intro id
    rw [contextOf_fresh]
    rfl
  · intro id
    rw [contextOf_fresh]
    exact ⟨Masking.nested_of_unguarded rfl, nofun⟩
  · intro id _
    rw [contextOf_fresh]
    exact calm_nil
  · intro id _
    rw [contextOf_fresh]
  · rw [context_fresh]
    exact ⟨List.nodup_nil, rfl, rfl⟩

theorem call (h : m.Orderly struck) (hcode : m.context.code = []) (request : Request) :
    (m.call request).Orderly struck := by
  have hcover : m.context.cover = ⟨0, []⟩ := by
    have hown := h.own
    rwa [hcode] at hown
  have hcontext := context_call m request
  constructor
  · refine forall_contexts (fun _ context => Disciplined struck context.cover context.code)
      (executing_call m request) (fun id hid => contextOf_call_of_ne m request hid)
      (fun id _ => h.disciplined id) ?_
    rw [hcontext]
    exact hcover ▸ disciplined_request request
  · refine forall_contexts (fun _ context => context.Nested)
      (executing_call m request) (fun id hid => contextOf_call_of_ne m request hid)
      (fun id _ => h.nested id) ?_
    rw [hcontext]
    exact ⟨(h.nested m.executing).masking, fun hmem => absurd hmem request.resume_not_mem⟩
  · intro id hid
    rw [contextOf_call_of_ne m request hid]
    exact h.calm id hid
  · intro id hid
    rw [contextOf_call_of_ne m request hid]
    exact h.bare id hid
  · rw [hcontext]
    exact h.words

theorem guards_eq_nil_of_enabled {context : Context} (hnested : context.Nested)
    (henabled : context.masking.enabled = true) : context.masking.guards = [] := by
  cases hguards : context.masking.guards with
  | nil => rfl
  | cons saved older =>
      have hmasked := hnested.masking.masked (by simp [hguards])
      simp [hmasked] at henabled

theorem cover_of_unguarded {context : Context} (hguards : context.masking.guards = []) :
    context.cover = ⟨0, context.held⟩ := by
  rw [Context.cover, hguards]
  rfl

theorem cover_of_enabled (h : m.Orderly struck) (henabled : m.interruptsEnabled = true) :
    m.context.cover = ⟨0, m.context.held⟩ :=
  cover_of_unguarded (guards_eq_nil_of_enabled (h.nested m.executing) henabled)

/-- A tick strikes a thread that holds the table lock, or leaves nothing out of order. -/
theorem disciplined_interrupted {context : Context}
    (h : Disciplined struck context.cover context.code) (hnested : context.Nested)
    (henabled : context.masking.enabled = true) :
    Disciplined (struck ∨ context.held ≠ []) context.cover (interruptCode ++ context.code) := by
  have hresume : .resume ∉ context.code := by
    intro hmem
    simp [(hnested.serving hmem).masked] at henabled
  have hcover : context.cover = ⟨0, context.held⟩ := by
    simp [Context.cover, guards_eq_nil_of_enabled hnested henabled]
  rw [hcover] at h ⊢
  obtain ⟨hcalm, hheld | ⟨hheld, hwindow | ⟨-, rest, hcode⟩⟩⟩ := h.unguarded
  · rw [hheld] at h ⊢
    simp [interruptCode, Disciplined, Step.Fits, Step.IsDead, Step.coverBehind, Bare, hcalm,
      hresume, h]
  · obtain ⟨reply, hcode⟩ := hwindow
    rw [hheld, hcode]
    simp [interruptCode, Disciplined, Step.Fits, Step.IsDead, Step.coverBehind, Bare]
  · simp [hcode] at hresume

theorem interrupt (h : m.Orderly struck) (henabled : m.interruptsEnabled = true) :
    m.interrupt.Orderly (struck ∨ m.context.held ≠ []) := by
  have hcontext := context_interrupt m
  constructor
  · refine forall_contexts
      (fun _ context => Disciplined (struck ∨ m.context.held ≠ []) context.cover context.code)
      (executing_interrupt m) (fun id hid => contextOf_interrupt_of_ne m hid)
      (fun id _ => (h.disciplined id).mono .inl) ?_
    rw [hcontext]
    exact disciplined_interrupted h.own (h.nested m.executing) henabled
  · refine forall_contexts (fun _ context => context.Nested)
      (executing_interrupt m) (fun id hid => contextOf_interrupt_of_ne m hid)
      (fun id _ => h.nested id) ?_
    have hguards : m.context.masking.guards = [] :=
      guards_eq_nil_of_enabled (h.nested m.executing) henabled
    rw [hcontext]
    exact ⟨Masking.nested_of_unguarded hguards, fun _ => ⟨rfl, by simp [Masking.set, hguards]⟩⟩
  · intro id hid
    rw [contextOf_interrupt_of_ne m hid]
    exact h.calm id hid
  · intro id hid
    rw [contextOf_interrupt_of_ne m hid]
    exact h.bare id hid
  · rw [hcontext]
    exact h.words

variable [Backend P]

theorem perform {step : Step} {rest pushed : List Step} (h : m.Orderly struck)
    (hstepped : m.Stepped step rest pushed after) : after.Orderly struck := by
  have heffect := hstepped.effect
  have hfree := (h.spins_eq_false_iff step).1 hstepped.free
  have hdisciplined := h.own
  rw [hstepped.code] at hdisciplined
  have hexpand := hdisciplined.expand hfree hstepped.expands
  rw [← heffect.cover, ← hstepped.code_after] at hexpand
  constructor
  · exact forall_contexts (fun _ context => Disciplined struck context.cover context.code)
      heffect.executing heffect.others (fun id _ => h.disciplined id) hexpand
  · exact forall_contexts (fun _ context => context.Nested) heffect.executing heffect.others
      (fun id _ => h.nested id)
      (heffect.nested (h.nested m.executing) hstepped.code hstepped.code_after
        hstepped.expands.resume_not_mem h.own)
  · intro id hid
    rw [heffect.executing] at hid
    rw [heffect.others id hid]
    exact h.calm id hid
  · intro id hid
    rw [heffect.executing] at hid
    rw [heffect.others id hid]
    exact h.bare id hid
  · have hwords := h.words
    rw [heffect.held, heffect.tableTaken, heffect.taken]
    cases step
    case take lock => exact hwords.take fun hmem => hfree lock hmem rfl
    case free lock =>
        have hstands := h.stands_of_code hstepped.code id
        obtain ⟨held, hheld⟩ := List.head?_eq_some_iff.1 hstands
        simp only [Context.cover] at hheld
        rw [hheld] at hwords ⊢
        rw [Step.heldAfter, List.erase_cons_head]
        exact hwords.free
    all_goals exact hwords

theorem fits {step : Step} {rest pushed : List Step} (h : m.Orderly struck)
    (hstepped : m.Stepped step rest pushed after) : step.Fits rest :=
  h.fits_of_code hstepped.code

/-- A switch stands under two guards and no lock, and leads to nothing that is urgent. -/
theorem contexts_of_switched {next prev : ThreadId} {rest : List Step} (h : m.Orderly struck)
    (hcode : m.context.code = .switch next prev :: rest)
    (hswitched : (m.setCode rest).Switched next prev after) :
    m.context.held = [] ∧ ∀ id, (Disciplined struck (after.contextOf id).cover
      (after.contextOf id).code ∧ (after.contextOf id).Nested) ∧
        Calm (after.contextOf id).code ∧ (after.contextOf id).held = [] := by
  have hdisciplined := h.own
  rw [hcode] at hdisciplined
  obtain ⟨-, hcalm, ⟨-, hdead⟩ | ⟨hstands, hrest⟩⟩ := hdisciplined
  · cases hdead
  have hcover : m.context.cover = ⟨2, []⟩ := (Option.some.inj hstands).symm
  have hheld : m.context.held = [] := congrArg Cover.held hcover
  refine ⟨hheld, hswitched.forall_contexts
    (fun _ context => (Disciplined struck context.cover context.code ∧ context.Nested) ∧
      Calm context.code ∧ context.held = [])
    (fun id hid => ⟨⟨h.disciplined id, h.nested id⟩, h.calm id hid, h.bare id hid⟩) ?_ ?_⟩
  · have hnested := h.nested m.executing
    refine ⟨⟨hrest, hnested.masking, fun hmem => hnested.serving ?_⟩, hcalm, hheld⟩
    exact hcode ▸ .tail _ hmem
  · refine fun _ call => ⟨⟨?_, Masking.nested_of_unguarded rfl, fun hmem => ?_⟩,
      calm_launchCode call, rfl⟩
    · cases call with
      | none => rfl
      | some call => exact disciplined_launchCode call
    · cases call <;> simp [launchCode] at hmem

theorem calm_of_switched {next prev : ThreadId} {rest : List Step} (h : m.Orderly struck)
    (hcode : m.context.code = .switch next prev :: rest)
    (hswitched : (m.setCode rest).Switched next prev after) : Calm after.context.code :=
  ((h.contexts_of_switched hcode hswitched).2 after.executing).2.1

theorem switch {next prev : ThreadId} {rest : List Step} (h : m.Orderly struck)
    (hcode : m.context.code = .switch next prev :: rest)
    (hswitched : (m.setCode rest).Switched next prev after) : after.Orderly struck := by
  obtain ⟨hheld, hcontexts⟩ := h.contexts_of_switched hcode hswitched
  constructor
  · exact fun id => (hcontexts id).1.1
  · exact fun id => (hcontexts id).1.2
  · exact fun id _ => (hcontexts id).2.1
  · exact fun id _ => (hcontexts id).2.2
  · have hwords := h.words
    rw [hswitched.kernel, hswitched.shared]
    rw [hheld] at hwords
    rw [context, (hcontexts after.executing).2.2]
    exact hwords

theorem goes {past : List (Transition P)} {move : Move} (h : m.Orderly (Struck past))
    (hgoes : m.Goes move after) : after.Orderly (Struck (past ++ [⟨m, move⟩])) := by
  cases hgoes with
  | spin => exact h.mono fun hstruck => struck_append.2 (.inl hstruck)
  | step hstepped => exact (h.perform hstepped).mono fun hstruck => struck_append.2 (.inl hstruck)
  | switch hcode hswitched =>
      exact (h.switch hcode hswitched).mono fun hstruck => struck_append.2 (.inl hstruck)
  | call request hcode =>
      exact (h.call hcode request).mono fun hstruck => struck_append.2 (.inl hstruck)
  | interrupt henabled =>
      exact (h.interrupt henabled).mono fun hstruck =>
        struck_append.2 (hstruck.imp_right fun hheld => ⟨rfl, hheld⟩)

end Orderly

end Machine

theorem Run.orderly [Backend P] {config : Config} {policy : Policy} {cpu : P}
    {values : List Int32} {mutexes : Nat} {console : Console} {past : List (Transition P)}
    {m : Machine P} (run : Run (.fresh config policy cpu values mutexes console) past m) :
    m.Orderly (Struck past) :=
  run.invariant (fun past m => m.Orderly (Struck past))
    (.fresh config policy cpu values mutexes console)
    fun _ _ _ _ horderly hgoes => horderly.goes hgoes

end TickKernel
