import TickKernel.Proofs.Entries
import TickKernel.Proofs.Posture
import TickKernel.Proofs.Prompting

/-!
# Where a switch goes

Whoever is switched to was switched away from before and not resumed since, or is a
created thread that no switch has named yet and that has the stack pointer of its own
first frame.  The switch completes the dispatch before it, with interrupts masked and
all spin locks free.
-/

namespace TickKernel

variable {P : Type}

/-! ## Suspended and created threads -/

def Transition.Suspends (t : Transition P) (id : ThreadId) : Prop :=
  ∃ next, t.step? = some (.switch next id)

def Transition.Resumes (t : Transition P) (id : ThreadId) : Prop :=
  ∃ prev, t.step? = some (.switch id prev)

def Suspended (past : List (Transition P)) (id : ThreadId) : Prop :=
  Since (fun _ t => t.Suspends id) (·.Resumes id) past

/--
A thread was created: its first frame was written, with this stack pointer, and in the
step after that it was entered in the table.
-/
def Created [Backend P] (past : List (Transition P)) (id : ThreadId) (pointer : UInt64) : Prop :=
  ∃ (before later : List (Transition P)) (first second : Machine P) (creation : Creation)
      (stack : Stack), past = before ++ ⟨first, .exec⟩ :: ⟨second, .exec⟩ :: later ∧
    Transition.step? ⟨first, .exec⟩ = some (.writeFrame creation stack) ∧
      first.exec = second ∧ Transition.step? ⟨second, .exec⟩ = some (.enroll creation stack) ∧
        second.kernel.table.isNext id = true ∧
          pointer = Backend.firstPointer first.kernel.cpu stack

theorem Created.append [Backend P] {past : List (Transition P)} {id : ThreadId} {pointer : UInt64}
    (h : Created past id pointer) (later : List (Transition P)) :
    Created (past ++ later) id pointer := by
  obtain ⟨before, between, first, second, creation, stack, rfl, hcreated⟩ := h
  exact ⟨before, between ++ later, first, second, creation, stack, by simp, hcreated⟩

theorem Created.ne_idle [Backend P] {past : List (Transition P)} {id : ThreadId} {pointer : UInt64}
    (h : Created past id pointer) : id ≠ ThreadId.idle := by
  obtain ⟨-, -, -, second, -, -, -, -, -, -, hnext, -⟩ := h
  rintro rfl
  rw [ThreadTable.isNext_eq_false second.kernel.table.contains_idle] at hnext
  cases hnext

namespace Machine

variable [Backend P]

/-! ## Threads that do not execute -/

/-- A created thread that no switch has named, and that is at most just being dispatched. -/
structure Unstarted (past : List (Transition P)) (m : Machine P) (id : ThreadId) : Prop where
  undispatched : id ≠ m.kernel.table.current → ∀ t ∈ past, t.target? ≠ some id
  unswitched : ∀ t ∈ past, ¬ t.Suspends id ∧ ¬ t.Resumes id
  created : Created past id (m.pointerOf id)

/-- Whoever exists and does not execute was suspended or is still to be started. -/
structure Berthed (past : List (Transition P)) (m : Machine P) : Prop where
  known : ∀ t ∈ past, ∀ id, t.target? = some id ∨ t.Suspends id ∨ t.Resumes id →
    m.kernel.table.contains id = true
  aside : ∀ id, m.kernel.table.contains id = true → id ≠ m.executing →
    Suspended past id ∨ m.Unstarted past id

variable {past : List (Transition P)} {m after : Machine P} {move : Move} {id : ThreadId}

theorem Goes.switched_of_step? {next prev : ThreadId} (hgoes : m.Goes move after)
    (hstep : Transition.step? ⟨m, move⟩ = some (.switch next prev)) :
    ∃ rest, move = .exec ∧ m.context.code = .switch next prev :: rest ∧
      (m.setCode rest).Switched next prev after := by
  cases hgoes with
  | spin hnone =>
      rw [hnone] at hstep
      cases hstep
  | step hstepped =>
      rw [hstepped.step?_eq] at hstep
      cases hstep
      exact Bool.noConfusion hstepped.stays
  | switch hcode hswitched =>
      rw [step?_of_switch hcode] at hstep
      cases hstep
      exact ⟨_, rfl, hcode, hswitched⟩
  | call | interrupt => cases hstep

theorem Goes.eq_of_switch {next prev : ThreadId} (hgoes : m.Goes move after)
    (hseated : m.Seated) (hstep : Transition.step? ⟨m, move⟩ = some (.switch next prev)) :
    next = after.executing ∧ prev = m.executing := by
  obtain ⟨rest, -, hcode, hswitched⟩ := hgoes.switched_of_step? hstep
  exact ⟨hswitched.executing.symm, (hseated.switch_eq hcode).2.1⟩

theorem Goes.suspends (hgoes : m.Goes move after) (hseated : m.Seated)
    (hexecuting : after.executing ≠ m.executing) :
    Transition.Suspends ⟨m, move⟩ m.executing := by
  cases hgoes with
  | spin | call | interrupt => exact absurd rfl hexecuting
  | step hstepped => exact absurd hstepped.effect.executing hexecuting
  | switch hcode =>
      rw [← (hseated.switch_eq hcode).2.1]
      exact ⟨_, step?_of_switch hcode⟩

omit [Backend P] in
theorem Seated.executing_of_target? (h : m.Seated) {target : ThreadId}
    (htarget : Transition.target? ⟨m, move⟩ = some target) :
    m.executing = m.kernel.table.current := by
  have hstep := Transition.step?_of_target? htarget
  obtain ⟨rest, hcode⟩ := List.head?_eq_some_iff.1 (nextStep?_of_step? hstep)
  exact h.executing_eq hcode nofun rfl

omit [Backend P] in
/-- Whoever is dispatched, or takes part in a switch, exists. -/
theorem Populated.contains_of_named (h : m.Populated) (hseated : m.Seated)
    (hnamed : Transition.target? ⟨m, move⟩ = some id ∨ Transition.Suspends ⟨m, move⟩ id ∨
      Transition.Resumes ⟨m, move⟩ id) : m.kernel.table.contains id = true := by
  rcases hnamed with htarget | ⟨next, hswitch⟩ | ⟨prev, hswitch⟩
  · have hnext := nextStep?_of_step? (Transition.step?_of_target? htarget)
    exact h.named id (Code.mem_names.2 (.inr (List.mem_of_mem_head? hnext)))
  · obtain ⟨rest, hcode⟩ := List.head?_eq_some_iff.1 (nextStep?_of_step? hswitch)
    rw [(hseated.switch_eq hcode).2.1]
    exact h.executing
  · obtain ⟨rest, hcode⟩ := List.head?_eq_some_iff.1 (nextStep?_of_step? hswitch)
    rw [(hseated.switch_eq hcode).1]
    exact h.current

theorem Goes.suspended (hgoes : m.Goes move after) (hseated : m.Seated)
    (h : Suspended past id) (hid : id ≠ after.executing) :
    Suspended (past ++ [⟨m, move⟩]) id := by
  refine since_append.2 (.inr ⟨h, ?_⟩)
  rintro ⟨prev, hswitch⟩
  exact hid (hgoes.eq_of_switch hseated hswitch).1

variable [LawfulBackend P]

/-- A thread stays unstarted until it executes. -/
theorem Unstarted.goes (h : m.Unstarted past id) (hregular : m.Regular past)
    (hentering : m.Entering past) (hgoes : m.Goes move after)
    (hcontains : m.kernel.table.contains id = true) (hid : id ≠ m.executing)
    (hafter : id ≠ after.executing) : after.Unstarted (past ++ [⟨m, move⟩]) id := by
  constructor
  · intro hcurrent t hmem
    rw [hgoes.current_eq] at hcurrent
    rcases List.mem_append.1 hmem with hmem | hmem
    · apply h.undispatched _ t hmem
      cases htarget : Transition.target? ⟨m, move⟩ with
      | none => simpa [htarget] using hcurrent
      | some target => rwa [← hregular.seated.executing_of_target? htarget]
    · obtain rfl := List.mem_singleton.1 hmem
      intro htarget
      rw [htarget] at hcurrent
      exact hcurrent rfl
  · intro t hmem
    rcases List.mem_append.1 hmem with hmem | hmem
    · exact h.unswitched t hmem
    · obtain rfl := List.mem_singleton.1 hmem
      constructor
      · rintro ⟨next, hswitch⟩
        exact hid (hgoes.eq_of_switch hregular.seated hswitch).2
      · rintro ⟨prev, hswitch⟩
        exact hafter (hgoes.eq_of_switch hregular.seated hswitch).1
  · rw [hentering.pointerOf_goes hregular hgoes hcontains]
    exact h.created.append _

namespace Berthed

omit [LawfulBackend P] in
theorem fresh (config : Config) (policy : Policy) (cpu : P) (values : List Int32) (mutexes : Nat)
    (console : Console) : (fresh config policy cpu values mutexes console).Berthed [] where
  known t hmem := absurd hmem List.not_mem_nil
  aside id hcontains hid := by
    simp only [ThreadTable.contains, Bool.or_eq_true, beq_iff_eq, decide_eq_true_eq] at hcontains
    rcases hcontains with hidle | hcreated
    · exact absurd hidle hid
    · exact absurd hcreated (Nat.not_lt_zero _)

omit [LawfulBackend P] in
theorem unstarted_of_enroll (h : m.Berthed past) (hentering : m.Entering past)
    {creation : Creation} {stack : Stack} {rest pushed : List Step}
    (hstepped : m.Stepped (.enroll creation stack) rest pushed after)
    (hunknown : ¬ m.kernel.table.contains id = true) (hnext : m.kernel.table.isNext id = true) :
    after.Unstarted (past ++ [⟨m, .exec⟩]) id := by
  have hstep := hstepped.step?_eq
  have hunnamed : ∀ t ∈ past ++ [⟨m, .exec⟩],
      ¬ (t.target? = some id ∨ t.Suspends id ∨ t.Resumes id) := by
    intro t hmem hnamed
    rcases List.mem_append.1 hmem with hmem | hmem
    · exact hunknown (h.known t hmem id hnamed)
    · obtain rfl := List.mem_singleton.1 hmem
      rcases hnamed with htarget | ⟨next, hswitch⟩ | ⟨prev, hswitch⟩
      · cases hstep.symm.trans (Transition.step?_of_target? htarget)
      · cases hstep.symm.trans hswitch
      · cases hstep.symm.trans hswitch
  constructor
  · exact fun _ t hmem htarget => hunnamed t hmem (.inl htarget)
  · exact fun t hmem => not_or.1 fun hnamed => hunnamed t hmem (.inr hnamed)
  · obtain ⟨before, earlier, rfl, hwrites, hentered, hcpu⟩ :=
      hentering.framed creation stack (by rw [hstepped.code]; rfl)
    refine ⟨before, [], earlier, m, creation, stack, by simp, hwrites, hentered, hstep, hnext, ?_⟩
    rw [hstepped.pointerOf_enroll (hentering.settled_rest hstepped.code), if_pos hnext, hcpu]

theorem goes (h : m.Berthed past) (hgoverned : m.Governed past)
    (hentering : m.Entering past) (hgoes : m.Goes move after) :
    after.Berthed (past ++ [⟨m, move⟩]) := by
  have hregular := hgoverned.regular
  have hpopulated := hgoverned.populated
  constructor
  · intro t hmem id hnamed
    apply contains_of_goes hgoes
    rcases List.mem_append.1 hmem with hmem | hmem
    · exact h.known t hmem id hnamed
    · obtain rfl := List.mem_singleton.1 hmem
      exact hpopulated.contains_of_named hregular.seated hnamed
  · intro id hcontains hid
    by_cases hexecuting : id = m.executing
    · subst hexecuting
      exact .inl (since_append.2 (.inl (hgoes.suspends hregular.seated hid.symm)))
    · by_cases hknown : m.kernel.table.contains id = true
      · rcases h.aside id hknown hexecuting with hsuspended | hunstarted
        · exact .inl (hgoes.suspended hregular.seated hsuspended hid)
        · exact .inr (hunstarted.goes hregular hentering hgoes hknown hexecuting hid)
      · refine .inr ?_
        cases hgoes with
        | spin | call | interrupt => exact absurd hcontains hknown
        | switch hcode hswitched =>
            rw [hswitched.kernel] at hcontains
            exact absurd hcontains hknown
        | step hstepped =>
            rw [hstepped.effect.table] at hcontains
            rcases Step.contains_before hcontains with hbefore | ⟨hnext, creation, stack, rfl⟩
            · exact absurd hbefore hknown
            · exact h.unstarted_of_enroll hentering hstepped hknown hnext

end Berthed

end Machine

/-! ## The contract -/

/-- A created thread that goes to its first switch, which completes its first dispatch. -/
structure FirstSwitch [Backend P] (past : List (Transition P)) (id : ThreadId) (pointer : UInt64) :
    Prop where
  created : Created past id pointer
  unswitched : ∀ t ∈ past, ¬ t.Suspends id ∧ ¬ t.Resumes id
  dispatched : ∃ before t later, past = before ++ t :: later ∧ t.target? = some id ∧
    (∀ other ∈ later, other.isIdle = true) ∧ ∀ other ∈ before, other.target? ≠ some id

/-- What a processor relies on when it is to switch from one slot to another. -/
structure SwitchContract [Backend P] (past : List (Transition P)) (m : Machine P)
    (next prev : ThreadId) : Prop where
  masked : m.interruptsEnabled = false
  unlocked : m.kernel.tableTaken = false
  bare : m.context.held = []
  ne : next ≠ prev
  executing : prev = m.executing
  contains_next : m.kernel.table.contains next = true
  contains_prev : m.kernel.table.contains prev = true
  entitled : Suspended past next ∨ FirstSwitch past next (m.kernel.pointers.get next)
  idle : next = ThreadId.idle → Suspended past next

section

variable [Backend P] [LawfulBackend P] {config : Config} {policy : Policy} {cpu : P}
  {values : List Int32} {mutexes : Nat} {console : Console} {past : List (Transition P)}
  {m : Machine P} {next prev : ThreadId}

theorem Run.berthed (hpolicy : policy.Sound)
    (run : Run (.fresh config policy cpu values mutexes console) past m) : m.Berthed past := by
  apply run.invariant fun past m => m.Berthed past
  · exact .fresh config policy cpu values mutexes console
  · exact fun past m move run h hgoes => h.goes (run.governed hpolicy) run.entering hgoes

omit [Backend P] [LawfulBackend P] in
/-- A switch is done with interrupts masked and without a lock. -/
theorem Machine.Orderly.cover_of_switch {struck : Prop} (h : m.Orderly struck)
    (hnext : m.nextStep? = some (.switch next prev)) :
    m.interruptsEnabled = false ∧ m.kernel.tableTaken = false ∧ m.context.held = [] := by
  obtain ⟨rest, hcode⟩ := List.head?_eq_some_iff.1 hnext
  have hcover : m.context.cover = ⟨2, []⟩ :=
    (Option.some.inj (h.stands_of_code hcode id)).symm
  have hheld : m.context.held = [] := congrArg Cover.held hcover
  refine ⟨?_, ?_, hheld⟩
  · rw [← Bool.not_eq_true]
    intro henabled
    cases hcover.symm.trans (h.cover_of_enabled henabled)
  · rw [h.words.table, hheld]
    rfl

/-- A switch comes right after the dispatch that it completes. -/
theorem Run.dispatch_before_switch
    (run : Run (.fresh config policy cpu values mutexes console) past m)
    (hnext : m.nextStep? = some (.switch next prev)) :
    ∃ before t later, past = before ++ t :: later ∧ t.target? = some next ∧
      t.before.kernel.table.current ≠ next ∧ ∀ other ∈ later, other.isIdle = true := by
  obtain ⟨t, hlatest, -, step, hstep, hurges⟩ := run.prompted.of_nextStep? hnext rfl
  obtain ⟨before, later, hpast, hlater⟩ := split_of_latest hlatest
  cases hurges with
  | leave hne => exact ⟨before, t, later, hpast, by rw [Transition.target?, hstep], hne, hlater⟩

/-- Every switch of the kernel meets its processor's contract. -/
theorem Run.switch_contract (hpolicy : policy.Sound)
    (run : Run (.fresh config policy cpu values mutexes console) past m)
    (hnext : m.nextStep? = some (.switch next prev)) : SwitchContract past m next prev := by
  have hgoverned := run.governed hpolicy
  have hseated := hgoverned.regular.seated
  obtain ⟨rest, hcode⟩ := List.head?_eq_some_iff.1 hnext
  obtain ⟨hcurrent, hexecuting, hne⟩ := hseated.switch_eq hcode
  obtain ⟨hmasked, hunlocked, hbare⟩ := hgoverned.regular.orderly.cover_of_switch hnext
  have hcontains : m.kernel.table.contains next = true := hcurrent ▸ hgoverned.populated.current
  have hother : next ≠ m.executing := hcurrent ▸ hne.symm
  have hentitled : Suspended past next ∨ FirstSwitch past next (m.kernel.pointers.get next) := by
    rcases (run.berthed hpolicy).aside next hcontains hother with hsuspended | hunstarted
    · exact .inl hsuspended
    · refine .inr ?_
      have hpointer : m.pointerOf next = m.kernel.pointers.get next := by
        apply Machine.pointerOf_eq
        rw [hcode]
        exact nofun
      refine ⟨hpointer ▸ hunstarted.created, hunstarted.unswitched, ?_⟩
      obtain ⟨before, t, later, rfl, htarget, haway, hlater⟩ := run.dispatch_before_switch hnext
      refine ⟨before, t, later, rfl, htarget, hlater, ?_⟩
      -- Before that dispatch it was unstarted too, and not current.
      obtain ⟨hbefore, -⟩ := run.before
      have hthen := hbefore.governed hpolicy
      have hseat := hthen.regular.seated.executing_of_target? htarget
      rcases (hbefore.berthed hpolicy).aside next
        (hthen.populated.contains_of_named hthen.regular.seated (.inl htarget))
        (fun heq => haway (hseat.symm.trans heq.symm)) with hsuspended | hbefore
      · obtain ⟨earlier, u, between, rfl, hsuspends, -⟩ := hsuspended
        exact absurd hsuspends (hunstarted.unswitched u (by simp)).1
      · exact hbefore.undispatched haway.symm
  exact {
    masked := hmasked
    unlocked := hunlocked
    bare := hbare
    ne := by rw [hexecuting]; exact hother
    executing := hexecuting
    contains_next := hcontains
    contains_prev := hexecuting ▸ hgoverned.populated.executing
    entitled := hentitled
    idle := by
      rintro rfl
      exact hentitled.resolve_right fun hfirst => hfirst.created.ne_idle rfl }

end

/-- The idle thread creates a thread and yields, up to the switch to the new one. -/
def launching : List Move :=
  .call (.create "first" ⟨0x1000, 0⟩ 4096 (some 0x10000)) :: List.replicate 20 .exec
    ++ .call .yield :: List.replicate 10 .exec

theorem Run.switch_contract_of_launching :
    ∃ (past : List (Transition Host)) (m : Machine Host),
      Run (.fresh {} .roundRobin {} [] 0 { sinks := [], installed := none }) past m ∧
        m.nextStep? = some (.switch 0 ThreadId.idle) ∧
          SwitchContract past m 0 ThreadId.idle := by
  let start : Machine Host := .fresh {} .roundRobin {} [] 0 { sinks := [], installed := none }
  let m := launching.foldl Machine.after start
  have run : Run start (start.transitions launching) m := .of_plays (by decide +kernel)
  have hnext : m.nextStep? = some (.switch 0 ThreadId.idle) := by decide +kernel
  exact ⟨_, m, run, hnext, Run.switch_contract Policy.sound_roundRobin run hnext⟩

end TickKernel
