import TickKernel.Proofs.Posture

/-!
# Who waits for what

A thread queued for a mutex is in the call that waits for it.  A thread that the
table calls waiting is in a blocking call, and in the queue of what it waits for
unless it has been taken off and is about to be woken.
-/

namespace TickKernel

variable {P : Type}

def Blocking.Listed (shared : Shared) (id : ThreadId) : Blocking → Prop
  | .ownership index => id ∈ shared.mutexLine index
  | .unit index => id ∈ shared.semaphoreLine index
  | .until _ | .forever => True

theorem Blocking.Stuck.listed {shared : Shared} {id : ThreadId} {call : Blocking}
    (h : call.Stuck shared id) : call.Listed shared id := by
  cases call with
  | «until» => trivial
  | ownership => exact h
  | unit => exact h.1
  | forever => trivial

theorem Blocking.eq_ownership {call : Blocking} {index : Nat}
    (h : call.Serves (some (.lock index))) : call = .ownership index := by
  cases call with
  | «until» =>
      obtain ⟨ticks, hsleep⟩ := h
      cases hsleep
  | ownership =>
      cases h
      rfl
  | unit => cases h
  | forever => rcases h with heq | heq <;> cases heq

theorem Blocking.eq_unit {call : Blocking} {index : Nat}
    (h : call.Serves (some (.wait index))) : call = .unit index := by
  cases call with
  | «until» =>
      obtain ⟨ticks, hsleep⟩ := h
      cases hsleep
  | ownership => cases h
  | unit =>
      cases h
      rfl
  | forever => rcases h with heq | heq <;> cases heq

namespace Machine

/-- What queued and waiting threads are doing. -/
structure Waiters (m : Machine P) : Prop where
  /-- A thread queued for a mutex seeks to own it. -/
  queued : ∀ (index : Nat) (id : ThreadId), id ∈ m.shared.mutexLine index →
    Code.seeking (m.contextOf id).code = some (.ownership index)
  waiting : ∀ id : ThreadId, m.kernel.table.contains id = true →
    m.kernel.table.state id = .waiting →
      ∃ call, Code.seeking (m.contextOf id).code = some call ∧
        (call.Listed m.shared id ∨ .wake id ∈ m.context.code)
  sleeping : ∀ id : ThreadId, m.kernel.table.contains id = true →
    m.kernel.table.state id = .sleeping →
      ∃ wakeAt, Code.seeking (m.contextOf id).code = some (.until wakeAt)

variable [Backend P] [LawfulBackend P] {past : List (Transition P)} {m after : Machine P}
  {step : Step} {rest pushed : List Step}

omit [LawfulBackend P] in
theorem Stepped.contains_before (hstepped : m.Stepped step rest pushed after) {id : ThreadId}
    (hcontains : after.kernel.table.contains id = true)
    (hready : after.kernel.table.state id ≠ .ready) : m.kernel.table.contains id = true := by
  rw [hstepped.effect.table] at hcontains hready
  rcases Step.contains_before hcontains with hbefore | ⟨hnext, creation, stack, rfl⟩
  · exact hbefore
  · rw [Step.state_tableAfter, Step.stateAfter, if_pos hnext] at hready
    exact absurd rfl hready

theorem Regular.serves_of_seeking (h : m.Regular past) {id : ThreadId} {call : Blocking}
    (hseeking : Code.seeking (m.contextOf id).code = some call) : call.Serves (asked past id) := by
  obtain ⟨last, hlast, hseeks⟩ := Option.bind_eq_some_iff.1 hseeking
  exact (h.employed.serves id last (List.mem_of_getLast? hlast)).of_seeks hseeks

/-- The executing thread is about to wake another one, with interrupts masked until then. -/
def Wakes (m : Machine P) (id : ThreadId) : Prop :=
  .wake id ∈ m.context.code ∧ m.interruptsEnabled = false

theorem Regular.wakes (h : m.Regular past) {id : ThreadId} (hwake : .wake id ∈ m.context.code) :
    m.Wakes id := by
  refine ⟨hwake, ?_⟩
  rw [← Bool.not_eq_true]
  intro henabled
  exact Bool.noConfusion ((Seated.calm_of_enabled h.orderly henabled).1 _ hwake)

/-- A switch takes nothing off the steps that a thread has left but itself. -/
theorem Regular.seeking_of_switched {next prev : ThreadId} (h : m.Regular past)
    (hcode : m.context.code = .switch next prev :: rest)
    (hswitched : (m.setCode rest).Switched next prev after) {id : ThreadId} {call : Blocking}
    (hseeking : Code.seeking (m.contextOf id).code = some call) :
    Code.seeking (after.contextOf id).code = some call := by
  rcases h.employed.contextOf_switched h.seated hcode hswitched id with
    ⟨rfl, hafter⟩ | ⟨-, hafter | ⟨-, hnil, -⟩⟩
  · rw [contextOf_executing rfl, hcode] at hseeking
    rw [hafter]
    rw [← hseeking, Code.seeking_cons]
    rintro rfl
    cases hseeking
  · rw [hafter]
    exact hseeking
  · rw [hnil] at hseeking
    cases hseeking

omit [Backend P] [LawfulBackend P] in
theorem seeking_interrupt {id : ThreadId} {call : Blocking}
    (hseeking : Code.seeking (m.contextOf id).code = some call) :
    Code.seeking (m.interrupt.contextOf id).code = some call := by
  by_cases hid : id = m.executing
  · rw [contextOf_executing hid.symm] at hseeking
    rw [contextOf_executing ((executing_interrupt m).trans hid.symm), context_interrupt,
      seeking_append interruptCode, hseeking]
    intro hnil
    rw [hnil] at hseeking
    cases hseeking
  · rw [contextOf_interrupt_of_ne m hid]
    exact hseeking

omit [LawfulBackend P] in
/-- A listed thread stays listed until it is about to be woken. -/
theorem Stepped.listed (hstepped : m.Stepped step rest pushed after) (h : m.shared.Sound)
    {id : ThreadId} {call : Blocking} (hlisted : call.Listed m.shared id) :
    call.Listed after.shared id ∨ .wake id ∈ pushed := by
  cases call with
  | «until» wakeAt => exact .inl trivial
  | forever => exact .inl trivial
  | ownership index => exact (hstepped.mutexLine_moves h index).mem_after hlisted
  | unit index => exact (hstepped.semaphoreLine_moves h index).mem_after hlisted

namespace Waiters

theorem seeking_away (hregular : m.Regular past) (hstepped : m.Stepped step rest pushed after)
    (haway : m.executing ≠ m.kernel.table.current) {call : Blocking}
    (hseeking : Code.seeking m.context.code = some call) :
    Code.seeking after.context.code = some call := by
  obtain ⟨others, -, hcode | hcode⟩ := hregular.seated.away haway
  · rw [hstepped.code] at hcode
    obtain ⟨rfl, rfl⟩ := List.cons.inj hcode
    rw [hstepped.code, Code.seeking_cons (List.cons_ne_nil _ _)] at hseeking
    rw [hstepped.code_after, hstepped.expands.eq_nil rfl]
    exact hseeking
  · rw [hstepped.code] at hcode
    obtain ⟨rfl, -⟩ := List.cons.inj hcode
    cases hstepped.stays

theorem queued_of_perform (h : m.Waiters) (hregular : m.Regular past)
    (hstepped : m.Stepped step rest pushed after) (index : Nat) (id : ThreadId)
    (hmem : id ∈ after.shared.mutexLine index) :
    Code.seeking (after.contextOf id).code = some (.ownership index) := by
  by_cases hbefore : id ∈ m.shared.mutexLine index
  · have hseeking := h.queued index id hbefore
    by_cases hid : id = m.executing
    · subst hid
      rw [contextOf_executing hstepped.effect.executing]
      exact (hstepped.stuck hregular hseeking hbefore).1
    · rw [hstepped.effect.others id hid]
      exact hseeking
  · obtain rfl : step = .tryAcquire index id :=
      ((hstepped.mutexLine_moves hregular.objects index).mem_before hmem).resolve_left hbefore
    obtain rfl : id = m.executing := (hregular.served hstepped).2
    obtain rfl : rest = [] := hregular.orderly.fits hstepped
    rw [contextOf_executing hstepped.effect.executing, hstepped.code_after]
    cases (hstepped.claims hregular.objects rfl).1 with
    | absent hnone hafter hline => exact absurd (hline ▸ hmem) hbefore
    | entered hfree hline hafter hlineAfter => exact absurd (hlineAfter ▸ hmem) hbefore
    | again hme hafter hline => exact absurd (hline ▸ hmem) hbefore
    | barred howner hother hafter hline => rfl

theorem waiting_of_perform (h : m.Waiters) (hgoverned : m.Governed past)
    (hstepped : m.Stepped step rest pushed after) (id : ThreadId)
    (hcontains : after.kernel.table.contains id = true)
    (hwaits : after.kernel.table.state id = .waiting) :
    ∃ call, Code.seeking (after.contextOf id).code = some call ∧
      (call.Listed after.shared id ∨ .wake id ∈ after.context.code) := by
  obtain ⟨hregular, hpopulated, hposture, -⟩ := hgoverned
  have hexists := hstepped.contains_before hcontains (by rw [hwaits]; nofun)
  have hbefore := hwaits
  rw [hstepped.effect.table, Step.state_tableAfter] at hbefore
  -- the executing thread has found nothing, or is about to block since it did
  have hown : (m.executing = m.kernel.table.current ∧
      m.kernel.table.state m.executing = .waiting ∨ .block ∈ m.context.code) →
        ∃ call, Code.seeking (after.contextOf m.executing).code = some call ∧
          (call.Listed after.shared m.executing ∨ .wake m.executing ∈ after.context.code) := by
    intro hstuck
    obtain ⟨call, hseeking, hfound⟩ := hposture.stuck hstuck
    obtain ⟨hseeks, hfinds⟩ := hstepped.stuck hregular hseeking hfound
    rw [contextOf_executing hstepped.effect.executing]
    rw [hstepped.effect.executing] at hfinds
    exact ⟨call, hseeks, .inl hfinds.listed⟩
  rcases Step.waiting_before hbefore with ⟨hwaiting, -⟩ | ⟨rfl, hid⟩
  · by_cases hseated : id = m.executing ∧ m.executing = m.kernel.table.current
    · obtain ⟨rfl, hseat⟩ := hseated
      exact hown (.inl ⟨hseat, hwaiting⟩)
    · obtain ⟨call, hseeking, hlisted⟩ := h.waiting id hexists hwaiting
      refine ⟨call, ?_, ?_⟩
      · by_cases hid : id = m.executing
        · subst hid
          rw [contextOf_executing hstepped.effect.executing]
          exact seeking_away hregular hstepped (fun hseat => hseated ⟨rfl, hseat⟩) hseeking
        · rw [hstepped.effect.others id hid]
          exact hseeking
      · rw [hstepped.code_after]
        rcases hlisted with hlisted | hwake
        · exact (hstepped.listed hregular.objects hlisted).imp_right (List.mem_append_left rest)
        · rw [hstepped.code] at hwake
          rcases List.mem_cons.1 hwake with rfl | hwake
          · rw [Step.stateAfter, if_pos ⟨rfl, hexists, hwaiting⟩] at hbefore
            cases hbefore
          · exact .inr (List.mem_append_right pushed hwake)
  · have hseat := hregular.seated.executing_eq hstepped.code (by simp) hstepped.stays
    obtain rfl := hid.trans hseat.symm
    exact hown (.inr (hstepped.code ▸ List.mem_cons_self))

theorem sleeping_of_perform (h : m.Waiters) (hgoverned : m.Governed past)
    (hstepped : m.Stepped step rest pushed after) (id : ThreadId)
    (hcontains : after.kernel.table.contains id = true)
    (hsleeps : after.kernel.table.state id = .sleeping) :
    ∃ wakeAt, Code.seeking (after.contextOf id).code = some (.until wakeAt) := by
  obtain ⟨hregular, hpopulated, hposture, -⟩ := hgoverned
  have hexists := hstepped.contains_before hcontains (by rw [hsleeps]; nofun)
  rw [hstepped.effect.table, Step.state_tableAfter] at hsleeps
  rcases Step.sleeping_before hsleeps with ⟨hsleeping, -⟩ | ⟨ticks, rfl, hid⟩
  · obtain ⟨wakeAt, hseeking⟩ := h.sleeping id hexists hsleeping
    refine ⟨wakeAt, ?_⟩
    by_cases hid : id = m.executing
    · subst hid
      rw [contextOf_executing rfl] at hseeking
      rw [contextOf_executing hstepped.effect.executing]
      by_cases hseat : m.executing = m.kernel.table.current
      · exact Posture.until_of_perform hregular hstepped hseeking
          (hposture.early_of_asleep hregular hstepped hseat hsleeping hseeking)
      · exact seeking_away hregular hstepped hseat hseeking
    · rw [hstepped.effect.others id hid]
      exact hseeking
  · have hseat := hregular.seated.executing_eq hstepped.code (by simp) hstepped.stays
    obtain rfl := hid.trans hseat.symm
    obtain ⟨wakeAt, hseeking, -⟩ := hposture.asleep_of_doze hregular hstepped
    rw [contextOf_executing hstepped.effect.executing]
    exact ⟨wakeAt, hseeking⟩

theorem perform (h : m.Waiters) (hgoverned : m.Governed past)
    (hstepped : m.Stepped step rest pushed after) : after.Waiters where
  queued := h.queued_of_perform hgoverned.regular hstepped
  waiting := h.waiting_of_perform hgoverned hstepped
  sleeping := h.sleeping_of_perform hgoverned hstepped

theorem switch {next prev : ThreadId} (h : m.Waiters) (hregular : m.Regular past)
    (hcode : m.context.code = .switch next prev :: rest)
    (hswitched : (m.setCode rest).Switched next prev after) : after.Waiters := by
  have htable : after.kernel.table = m.kernel.table := by
    rw [hswitched.kernel]
    rfl
  have hshared : after.shared = m.shared := hswitched.shared
  have hcalm : Calm rest := hregular.orderly.fits_of_code hcode
  constructor
  · intro index id hmem
    rw [hshared] at hmem
    exact hregular.seeking_of_switched hcode hswitched (h.queued index id hmem)
  · intro id hcontains hwaiting
    rw [htable] at hcontains hwaiting
    obtain ⟨call, hseeking, hlisted⟩ := h.waiting id hcontains hwaiting
    refine ⟨call, hregular.seeking_of_switched hcode hswitched hseeking, .inl ?_⟩
    rw [hshared]
    refine hlisted.resolve_right fun hwake => ?_
    rw [hcode] at hwake
    rcases List.mem_cons.1 hwake with heq | hwake
    · cases heq
    · exact Bool.noConfusion (hcalm.1 _ hwake)
  · intro id hcontains hsleeping
    rw [htable] at hcontains hsleeping
    obtain ⟨wakeAt, hseeking⟩ := h.sleeping id hcontains hsleeping
    exact ⟨wakeAt, hregular.seeking_of_switched hcode hswitched hseeking⟩

omit [Backend P] [LawfulBackend P] in
theorem call (h : m.Waiters) (hcode : m.context.code = []) (request : Request) :
    (m.call request).Waiters := by
  -- a thread in its own code seeks nothing, so it is neither queued nor blocked
  have hothers : ∀ {id : ThreadId} {call : Blocking},
      Code.seeking (m.contextOf id).code = some call →
        Code.seeking ((m.call request).contextOf id).code = some call := by
    intro id call hseeking
    by_cases hid : id = m.executing
    · rw [contextOf_executing hid.symm, hcode] at hseeking
      cases hseeking
    · rw [contextOf_call_of_ne m request hid]
      exact hseeking
  constructor
  · exact fun index id hmem => hothers (h.queued index id hmem)
  · intro id hcontains hwaiting
    obtain ⟨call, hseeking, hlisted⟩ := h.waiting id hcontains hwaiting
    refine ⟨call, hothers hseeking, .inl (hlisted.resolve_right fun hwake => ?_)⟩
    rw [hcode] at hwake
    cases hwake
  · intro id hcontains hsleeping
    obtain ⟨wakeAt, hseeking⟩ := h.sleeping id hcontains hsleeping
    exact ⟨wakeAt, hothers hseeking⟩

omit [Backend P] [LawfulBackend P] in
theorem interrupt (h : m.Waiters) : m.interrupt.Waiters := by
  constructor
  · exact fun index id hmem => seeking_interrupt (h.queued index id hmem)
  · intro id hcontains hwaiting
    obtain ⟨call, hseeking, hlisted⟩ := h.waiting id hcontains hwaiting
    refine ⟨call, seeking_interrupt hseeking, hlisted.imp_right fun hwake => ?_⟩
    rw [context_interrupt]
    exact List.mem_append_right interruptCode hwake
  · intro id hcontains hsleeping
    obtain ⟨wakeAt, hseeking⟩ := h.sleeping id hcontains hsleeping
    exact ⟨wakeAt, seeking_interrupt hseeking⟩

omit [Backend P] [LawfulBackend P] in
theorem fresh (config : Config) (policy : Policy) (cpu : P) (values : List Int32) (mutexes : Nat)
    (console : Console) : (fresh config policy cpu values mutexes console).Waiters := by
  have hidle : ∀ id, ThreadTable.initial.contains id = true →
      ThreadTable.initial.state id = .running := by
    intro id hcontains
    obtain rfl : id = ThreadId.idle := by
      simpa [ThreadTable.contains, ThreadTable.initial] using hcontains
    exact ThreadTable.state_initial_idle
  constructor
  · intro index id hmem
    have hnil : id ∈ (Shared.new values mutexes console).mutexLine index := hmem
    rw [Shared.mutexLine_new] at hnil
    cases hnil
  · intro id hcontains hwaiting
    cases (hidle id hcontains).symm.trans hwaiting
  · intro id hcontains hsleeping
    cases (hidle id hcontains).symm.trans hsleeping

theorem goes {move : Move} (h : m.Waiters) (hgoverned : m.Governed past)
    (hgoes : m.Goes move after) : after.Waiters := by
  cases hgoes with
  | spin => exact h
  | step hstepped => exact h.perform hgoverned hstepped
  | switch hcode hswitched => exact h.switch hgoverned.regular hcode hswitched
  | call request hcode => exact h.call hcode request
  | interrupt => exact h.interrupt

/-- Whoever waits in an operation is in the queue of what it waits for, or is being woken. -/
theorem listed_or_wakes (h : m.Waiters) (hgoverned : m.Governed past) {id : ThreadId}
    {request : Request} (hasked : asked past id = some request)
    (hwaiting : m.kernel.table.state id = .waiting) :
    ∃ call : Blocking, call.Serves (some request) ∧
      (call.Listed m.shared id ∨ m.Wakes id) := by
  obtain ⟨call, hseeking, hlisted⟩ := h.waiting id (hgoverned.asked id _ hasked) hwaiting
  have hserves := hgoverned.regular.serves_of_seeking hseeking
  rw [hasked] at hserves
  exact ⟨call, hserves, hlisted.imp_right hgoverned.regular.wakes⟩

end Waiters

end Machine

theorem Run.waiters [Backend P] [LawfulBackend P] {config : Config} {policy : Policy} {cpu : P}
    {values : List Int32} {mutexes : Nat} {console : Console} {past : List (Transition P)}
    {m : Machine P} (hpolicy : policy.Sound)
    (run : Run (.fresh config policy cpu values mutexes console) past m) : m.Waiters := by
  have start : Run (.fresh config policy cpu values mutexes console) [] _ := .nil
  refine (run.invariant (fun past m => m.Governed past ∧ m.Waiters) ?_ ?_).2
  · exact ⟨start.governed hpolicy, .fresh config policy cpu values mutexes console⟩
  · rintro past m move - ⟨hgoverned, hwaiters⟩ hgoes
    exact ⟨hgoverned.goes hgoes, hwaiters.goes hgoverned hgoes⟩

end TickKernel
