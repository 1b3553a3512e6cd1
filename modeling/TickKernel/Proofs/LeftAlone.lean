import TickKernel.Proofs.Waiters

/-!
# Threads that nobody switches to

A created thread that is never the target of a switch is dispatched only when the
policy finds it ready, or when another thread passes it the processor together with
what it waits for.  So it stays blocked until it is woken or its sleep is over, and a
unit that it finds is never one that it is still in line for.
-/

namespace TickKernel

variable {P : Type}

/-- Nobody asked to switch to a thread. -/
def Untargeted (past : List (Transition P)) (id : ThreadId) : Prop :=
  ∀ t ∈ past, t.move ≠ .call (.switchTo id)

namespace Machine

/-- What a thread that nobody switches to does while it is in line for a unit. -/
structure LeftAlone (m : Machine P) (id : ThreadId) : Prop where
  seeking : ∀ index : Nat, id ∈ m.shared.semaphoreLine index →
    Code.seeking (m.contextOf id).code = some (.unit index)
  blocked : ∀ index : Nat, id ∈ m.shared.semaphoreLine index →
    m.kernel.table.state id = .waiting ∨ id = m.executing ∧ .block ∈ m.context.code
  unnamed : id ∈ Code.names m.context.code → ∀ index : Nat, id ∉ m.shared.semaphoreLine index

def Summons (m : Machine P) (id : ThreadId) : Prop :=
  .dispatch id ∈ m.context.code → (m.kernel.table.state id).isBlocked = true →
    m.kernel.table.state id = .waiting ∧ .wake id ∈ m.context.code

variable [Backend P] [LawfulBackend P] {past : List (Transition P)} {m after : Machine P}
  {step : Step} {rest pushed : List Step} {index : Nat} {id : ThreadId}

omit [Backend P] [LawfulBackend P] in
/-- A thread that queues for one semaphore only is in no queue when it has got its unit. -/
theorem not_mem_of_deals {after : Shared} (hdeals : m.shared.Deals after step pushed)
    (hobjects : m.shared.Sound)
    (hseeks : ∀ index : Nat, id ∈ m.shared.semaphoreLine index →
      Code.seeking (m.contextOf id).code = some (.unit index))
    (hmem : id ∈ Code.names pushed) : ∀ index, id ∉ after.semaphoreLine index := by
  intro index hin
  cases hdeals with
  | @woken semaphore andSwitch value heir line hsome hold hafter hline =>
      obtain rfl : id = heir := by
        have hheir : id ∈ heir :: if andSwitch then [heir] else [] := by
          cases andSwitch <;> exact hmem
        cases andSwitch <;> simpa using hheir
      rw [hline] at hin
      by_cases hindex : index = semaphore
      · subst hindex
        have hnodup := hobjects.semaphoreLine_nodup index
        rw [hold] at hnodup
        rw [Function.update_self] at hin
        exact (List.nodup_cons.1 hnodup).1 hin
      · rw [Function.update_of_ne hindex] at hin
        have hseeking := hseeks index hin
        rw [hseeks semaphore (hold ▸ List.mem_cons_self)] at hseeking
        cases hseeking
        exact hindex rfl
  | _ => exact absurd (show id ∈ [] from hmem) List.not_mem_nil

/-- Nobody in line is about to be woken or dispatched, unless the policy chose so. -/
theorem Stepped.choice_or_not_mem (hstepped : m.Stepped step rest pushed after)
    (hregular : m.Regular past) (hwaiters : m.Waiters) (huntargeted : Untargeted past id)
    (hseeks : ∀ index : Nat, id ∈ m.shared.semaphoreLine index →
      Code.seeking (m.contextOf id).code = some (.unit index))
    (hmem : id ∈ Code.names pushed) :
    (step = .choose .dispatch ∧ id = m.kernel.choice) ∨
      ∀ index, id ∉ after.shared.semaphoreLine index := by
  cases hmutex : step.asksMutex with
  | true =>
      right
      obtain ⟨mutex, hline⟩ := (hstepped.claims hregular.objects hmutex).1.mem_names hmem
      have hsemaphore : step.asksSemaphore = false := by
        cases step <;> first | rfl | cases hmutex
      intro index hin
      rw [hstepped.semaphoreLine_eq hsemaphore] at hin
      have hseeking := hwaiters.queued mutex id hline
      rw [hseeks index hin] at hseeking
      cases hseeking
  | false =>
      cases hsemaphore : step.asksSemaphore with
      | true =>
          have hdeals := (hstepped.deals hregular.objects hsemaphore).1
          exact .inr (not_mem_of_deals hdeals hregular.objects hseeks hmem)
      | false =>
          rcases hstepped.expands.mem_names hmutex hsemaphore hmem with hchoice | ⟨rfl, -⟩
          · exact .inl hchoice
          · obtain ⟨t, ht, hmove⟩ := mem_of_asked past _ (hregular.served hstepped)
            exact absurd hmove (huntargeted t ht)

/-- Whoever seeks a unit goes on seeking it until an attempt of its own finds one. -/
theorem Stepped.seeking_unit (hstepped : m.Stepped step rest pushed after)
    (hregular : m.Regular past)
    (hseeking : Code.seeking (m.contextOf id).code = some (.unit index)) :
    Code.seeking (after.contextOf id).code = some (.unit index) ∨
      step = .tryTake index id ∧
        pushed = [.free (.semaphore index), .unmask, .unmask] ++ Code.done := by
  by_cases hid : id = m.executing
  · subst hid
    have hfits := hregular.orderly.fits hstepped
    rw [contextOf_executing rfl, hstepped.code] at hseeking
    rw [contextOf_executing hstepped.effect.executing, hstepped.code_after, or_iff_not_imp_right]
    intro hnot
    refine hstepped.expands.seeking_kept hfits hseeking fun hrest hseeks hsettles => ?_
    cases hsettles with
    | acquired | awake => cases hseeks
    | taken =>
        cases hseeks
        exact hnot ⟨by rw [(hregular.served hstepped).2], rfl⟩
  · rw [hstepped.effect.others id hid]
    exact .inl hseeking

namespace LeftAlone

theorem not_mem_of_taken (h : m.LeftAlone m.executing) (hgoverned : m.Governed past)
    {me : ThreadId} {value : Int32} (hstepped : m.Stepped (.tryTake index me) rest pushed after)
    (hstock : m.shared.stock index = some value) (hpos : 0 < value) :
    m.executing ∉ m.shared.semaphoreLine index := by
  intro hmem
  have hregular := hgoverned.regular
  obtain rfl : rest = [] := hregular.orderly.fits hstepped
  rcases h.blocked index hmem with hwaiting | ⟨-, hblock⟩
  · have hseat := hregular.seated.executing_eq hstepped.code (by simp) rfl
    obtain ⟨call, hseeking, hstuck⟩ := hgoverned.posture.stuck (.inl ⟨hseat, hwaiting⟩)
    rw [hstepped.code] at hseeking
    cases hseeking
    obtain ⟨-, less, hless, hnot⟩ := hstuck
    rw [hstock] at hless
    exact hnot (Option.some.inj hless ▸ hpos)
  · rw [hstepped.code, List.mem_singleton] at hblock
    cases hblock

/-- An attempt that leaves its thread in line found no unit. -/
theorem pushed_of_mem (h : m.LeftAlone m.executing) (hgoverned : m.Governed past) {me : ThreadId}
    (hstepped : m.Stepped (.tryTake index me) rest pushed after)
    (hmem : m.executing ∈ after.shared.semaphoreLine index) :
    pushed = [.free (.semaphore index), .unmask] ++ Code.blockAndRetry (.unit index) := by
  cases (hstepped.deals hgoverned.regular.objects rfl).1 with
  | absent hnone hafter hline =>
      rw [hline, Shared.semaphoreLine_eq_nil hnone] at hmem
      cases hmem
  | taken hsome hpos hafter hline =>
      rw [hline] at hmem
      exact absurd hmem (h.not_mem_of_taken hgoverned hstepped hsome hpos)
  | short => rfl

theorem seeking_of_perform (h : m.LeftAlone id) (hgoverned : m.Governed past)
    (hstepped : m.Stepped step rest pushed after) (index : Nat)
    (hmem : id ∈ after.shared.semaphoreLine index) :
    Code.seeking (after.contextOf id).code = some (.unit index) := by
  have hregular := hgoverned.regular
  by_cases hstep : step = .tryTake index id
  · subst hstep
    obtain rfl : id = m.executing := (hregular.served hstepped).2
    obtain rfl : rest = [] := hregular.orderly.fits hstepped
    rw [contextOf_executing hstepped.effect.executing, hstepped.code_after,
      h.pushed_of_mem hgoverned hstepped hmem]
    rfl
  · have hmoves := hstepped.semaphoreLine_moves hregular.objects index
    have hbefore := (hmoves.mem_before hmem).resolve_right hstep
    have hkept := hstepped.seeking_unit hregular (h.seeking index hbefore)
    exact hkept.resolve_right fun hfound => hstep hfound.1

theorem blocked_of_perform (h : m.LeftAlone id) (hgoverned : m.Governed past)
    (hstepped : m.Stepped step rest pushed after) (index : Nat)
    (hmem : id ∈ after.shared.semaphoreLine index) :
    after.kernel.table.state id = .waiting ∨
      id = after.executing ∧ .block ∈ after.context.code := by
  have hregular := hgoverned.regular
  have hpopulated := hgoverned.populated
  rw [hstepped.effect.executing, hstepped.code_after, hstepped.effect.table,
    Step.state_tableAfter]
  by_cases hstep : step = .tryTake index id
  · subst hstep
    obtain rfl : id = m.executing := (hregular.served hstepped).2
    rw [h.pushed_of_mem hgoverned hstepped hmem]
    simp [Code.blockAndRetry, Code.block]
  · have hmoves := hstepped.semaphoreLine_moves hregular.objects index
    have hbefore := (hmoves.mem_before hmem).resolve_right hstep
    have hasked : asked past id = some (.wait index) :=
      hregular.serves_of_seeking (h.seeking index hbefore)
    have hunnamed := fun hnamed => h.unnamed (Code.mem_names.2 hnamed) index hbefore
    rw [hstepped.code] at hunnamed
    rcases h.blocked index hbefore with hwaiting | ⟨rfl, hblock⟩
    · left
      refine Step.waiting_after hwaiting (hpopulated.semaphoreLine index id hbefore) ?_ ?_ ?_
      · rintro rfl
        exact hunnamed (.inr List.mem_cons_self)
      · rintro rfl
        exact hunnamed (.inl List.mem_cons_self)
      · rintro ticks rfl hcurrent
        have hseat := hregular.seated.executing_eq hstepped.code (by simp) rfl
        obtain ⟨count, hsleep⟩ := hregular.served hstepped
        rw [hseat, ← hcurrent, hasked] at hsleep
        cases hsleep
    · rw [hstepped.code] at hblock
      rcases List.mem_cons.1 hblock with rfl | hblock
      · have hseat := hregular.seated.executing_eq hstepped.code (by simp) rfl
        exact .inl (by rw [Step.stateAfter, if_pos hseat])
      · exact .inr ⟨rfl, List.mem_append_right pushed hblock⟩

theorem choice_not_mem (h : m.LeftAlone m.kernel.choice) (hgoverned : m.Governed past)
    (hstepped : m.Stepped (.choose .dispatch) rest pushed after)
    (hidle : m.kernel.choice ≠ ThreadId.idle) :
    m.kernel.choice ∉ m.shared.semaphoreLine index := by
  intro hmem
  have hcalm : Calm rest := hgoverned.regular.orderly.fits hstepped
  rcases h.blocked index hmem with hwaiting | ⟨hme, hblock⟩
  · exact hidle (hgoverned.populated.sound.choice_eq_idle (by rw [hwaiting]; rfl))
  · -- a block that is still to be done here is that of a thread that parks
    rw [hstepped.code] at hblock
    have hblock := (List.mem_cons.1 hblock).resolve_left (by simp)
    have hseeking := h.seeking index hmem
    rw [contextOf_executing hme.symm, hstepped.code,
      Code.seeking_cons (List.ne_nil_of_mem hblock), Code.seeking, hcalm.2 hblock] at hseeking
    cases hseeking

theorem unnamed_of_perform (h : m.LeftAlone id) (hid : id ≠ ThreadId.idle)
    (hgoverned : m.Governed past) (hwaiters : m.Waiters) (huntargeted : Untargeted past id)
    (hstepped : m.Stepped step rest pushed after) (hmem : id ∈ Code.names after.context.code)
    (index : Nat) : id ∉ after.shared.semaphoreLine index := by
  have hregular := hgoverned.regular
  rw [hstepped.code_after, Code.names, List.filterMap_append, List.mem_append] at hmem
  rcases hmem with hmem | hmem
  · rcases hstepped.choice_or_not_mem hregular hwaiters huntargeted h.seeking hmem with
      ⟨rfl, rfl⟩ | hnot
    · rw [hstepped.semaphoreLine_eq rfl]
      exact h.choice_not_mem hgoverned hstepped hid
    · exact hnot index
  · intro hin
    rcases (hstepped.semaphoreLine_moves hregular.objects index).mem_before hin with hin | rfl
    · refine h.unnamed (Code.mem_names.2 ?_) index hin
      rw [hstepped.code]
      exact (Code.mem_names.1 hmem).imp (.tail _) (.tail _)
    · obtain rfl : rest = [] := hregular.orderly.fits hstepped
      cases hmem

theorem perform (h : m.LeftAlone id) (hid : id ≠ ThreadId.idle) (hgoverned : m.Governed past)
    (hwaiters : m.Waiters) (huntargeted : Untargeted past id)
    (hstepped : m.Stepped step rest pushed after) : after.LeftAlone id where
  seeking := h.seeking_of_perform hgoverned hstepped
  blocked := h.blocked_of_perform hgoverned hstepped
  unnamed := h.unnamed_of_perform hid hgoverned hwaiters huntargeted hstepped

theorem switch {next prev : ThreadId} (h : m.LeftAlone id) (hregular : m.Regular past)
    (hcode : m.context.code = .switch next prev :: rest)
    (hswitched : (m.setCode rest).Switched next prev after) : after.LeftAlone id := by
  have hshared : after.shared = m.shared := hswitched.shared
  have hcalm : Calm rest := hregular.orderly.fits_of_code hcode
  constructor
  · intro index hmem
    rw [hshared] at hmem
    exact hregular.seeking_of_switched hcode hswitched (h.seeking index hmem)
  · intro index hmem
    rw [hshared] at hmem
    rw [hswitched.kernel]
    rcases h.blocked index hmem with hwaiting | ⟨rfl, hblock⟩
    · exact .inl hwaiting
    · rw [hcode] at hblock
      have hblock := (List.mem_cons.1 hblock).resolve_left (by simp)
      have hseeking := h.seeking index hmem
      rw [contextOf_executing rfl, hcode, Code.seeking_cons (List.ne_nil_of_mem hblock),
        Code.seeking, hcalm.2 hblock] at hseeking
      cases hseeking
  · rw [(hregular.orderly.calm_of_switched hcode hswitched).names_eq_nil]
    exact fun hmem => absurd hmem List.not_mem_nil

omit [Backend P] [LawfulBackend P] in
theorem call (h : m.LeftAlone id) (hcode : m.context.code = []) (request : Request) :
    (m.call request).LeftAlone id := by
  have hother : ∀ {index : Nat}, id ∈ m.shared.semaphoreLine index → id ≠ m.executing := by
    rintro index hmem rfl
    have hseeking := h.seeking index hmem
    rw [contextOf_executing rfl, hcode] at hseeking
    cases hseeking
  constructor
  · intro index hmem
    rw [contextOf_call_of_ne m request (hother hmem)]
    exact h.seeking index hmem
  · intro index hmem
    exact .inl ((h.blocked index hmem).resolve_right fun hblock => hother hmem hblock.1)
  · rw [context_call, request.calm_code.names_eq_nil]
    nofun

omit [Backend P] [LawfulBackend P] in
theorem interrupt (h : m.LeftAlone id) : m.interrupt.LeftAlone id := by
  have hcode : m.interrupt.context.code = interruptCode ++ m.context.code := by
    rw [context_interrupt]
  constructor
  · exact fun index hmem => seeking_interrupt (h.seeking index hmem)
  · intro index hmem
    refine (h.blocked index hmem).imp_right fun ⟨hme, hblock⟩ => ⟨hme, ?_⟩
    rw [hcode]
    exact List.mem_append_right interruptCode hblock
  · intro hmem
    rw [hcode, Code.names, List.filterMap_append] at hmem
    exact h.unnamed hmem

omit [Backend P] [LawfulBackend P] in
theorem fresh (config : Config) (policy : Policy) (cpu : P) (values : List Int32) (mutexes : Nat)
    (console : Console) (id : ThreadId) :
    (fresh config policy cpu values mutexes console).LeftAlone id := by
  have hnone : ∀ index, id ∉ (Machine.fresh config policy cpu values mutexes
      console).shared.semaphoreLine index := by
    intro index hmem
    rw [show (Machine.fresh config policy cpu values mutexes console).shared =
      Shared.new values mutexes console from rfl, Shared.semaphoreLine_new] at hmem
    cases hmem
  exact ⟨fun index hmem => absurd hmem (hnone index),
    fun index hmem => absurd hmem (hnone index), fun _ => hnone⟩

theorem goes {move : Move} (h : m.LeftAlone id) (hid : id ≠ ThreadId.idle)
    (hgoverned : m.Governed past) (hwaiters : m.Waiters) (huntargeted : Untargeted past id)
    (hgoes : m.Goes move after) : after.LeftAlone id := by
  cases hgoes with
  | spin => exact h
  | step hstepped => exact h.perform hid hgoverned hwaiters huntargeted hstepped
  | switch hcode hswitched => exact h.switch hgoverned.regular hcode hswitched
  | call request hcode => exact h.call hcode request
  | interrupt => exact h.interrupt

end LeftAlone

namespace Summons

omit [LawfulBackend P] in
theorem wake_of_names (hstepped : m.Stepped step rest pushed after) (h : m.shared.Sound)
    (hasks : step.asksMutex = true ∨ step.asksSemaphore = true)
    (hmem : id ∈ Code.names pushed) :
    .wake id ∈ pushed ∧
      ((∃ index, id ∈ m.shared.mutexLine index) ∨ ∃ index, id ∈ m.shared.semaphoreLine index) := by
  rcases hasks with hasks | hasks
  · have hclaims := (hstepped.claims h hasks).1
    refine ⟨?_, .inl (hclaims.mem_names hmem)⟩
    cases hclaims with
    | @passed mutex me heir line _ _ _ _ =>
        have hheir : id ∈ [heir, heir] := hmem
        obtain rfl : id = heir := by simpa using hheir
        simp
    | _ => exact absurd (show id ∈ [] from hmem) List.not_mem_nil
  · have hdeals := (hstepped.deals h hasks).1
    refine ⟨?_, .inr (hdeals.mem_names hmem)⟩
    cases hdeals with
    | @woken semaphore andSwitch value heir line _ _ _ _ =>
        have hheir : id ∈ heir :: if andSwitch then [heir] else [] := by
          cases andSwitch <;> exact hmem
        obtain rfl : id = heir := by
          cases andSwitch <;> simpa using hheir
        simp
    | _ => exact absurd (show id ∈ [] from hmem) List.not_mem_nil

theorem of_pushed (hleft : m.LeftAlone id) (hid : id ≠ ThreadId.idle)
    (hgoverned : m.Governed past) (hwaiters : m.Waiters) (huntargeted : Untargeted past id)
    (hstepped : m.Stepped step rest pushed after) (hdispatch : .dispatch id ∈ pushed)
    (hblocked : (after.kernel.table.state id).isBlocked = true) :
    after.kernel.table.state id = .waiting ∧ .wake id ∈ pushed := by
  have hregular := hgoverned.regular
  have hnamed : id ∈ Code.names pushed := Code.mem_names.2 (.inr hdispatch)
  rw [hstepped.effect.table, Step.state_tableAfter] at hblocked ⊢
  by_cases hasks : step.asksMutex = true ∨ step.asksSemaphore = true
  · obtain ⟨hwake, hlined⟩ := wake_of_names hstepped hregular.objects hasks hnamed
    have hsame : step.stateAfter m.kernel.table id = m.kernel.table.state id := by
      cases step <;> first | rfl | (rcases hasks with hasks | hasks <;> cases hasks)
    rw [hsame] at hblocked ⊢
    refine ⟨((ThreadState.isBlocked_iff _).1 hblocked).resolve_left fun hsleeping => ?_, hwake⟩
    -- a thread in line for something does not sleep
    rcases hlined with ⟨index, hline⟩ | ⟨index, hline⟩
    · obtain ⟨wakeAt, huntil⟩ :=
        hwaiters.sleeping id (hgoverned.populated.mutexLine index id hline) hsleeping
      rw [hwaiters.queued index id hline] at huntil
      cases huntil
    · obtain ⟨wakeAt, huntil⟩ :=
        hwaiters.sleeping id (hgoverned.populated.semaphoreLine index id hline) hsleeping
      rw [hleft.seeking index hline] at huntil
      cases huntil
  · push Not at hasks
    rcases hstepped.expands.mem_names (Bool.not_eq_true _ ▸ hasks.1) (Bool.not_eq_true _ ▸ hasks.2)
      hnamed with ⟨rfl, rfl⟩ | ⟨rfl, -⟩
    · exact absurd (hgoverned.populated.sound.choice_eq_idle hblocked) hid
    · obtain ⟨t, ht, hmove⟩ := mem_of_asked past _ (hregular.served hstepped)
      exact absurd hmove (huntargeted t ht)

theorem of_rest (h : m.Summons id) (hgoverned : m.Governed past)
    (hstepped : m.Stepped step rest pushed after) (hdispatch : .dispatch id ∈ rest)
    (hblocked : (after.kernel.table.state id).isBlocked = true) :
    after.kernel.table.state id = .waiting ∧ .wake id ∈ rest := by
  have hfits := hgoverned.regular.orderly.fits hstepped
  have hcode : .dispatch id ∈ m.context.code := hstepped.code ▸ .tail _ hdispatch
  have hcontains := hgoverned.populated.named id (Code.mem_names.2 (.inr hcode))
  have hurgent : ¬ Calm rest := fun hcalm => Bool.noConfusion (hcalm.1 _ hdispatch)
  have hdoze : ∀ ticks, step ≠ .doze ticks := by
    rintro ticks rfl
    exact hurgent hfits.1
  rw [hstepped.effect.table, Step.state_tableAfter] at hblocked ⊢
  have hbefore : (m.kernel.table.state id).isBlocked = true := by
    rcases (ThreadState.isBlocked_iff _).1 hblocked with hsleeping | hwaiting
    · rcases Step.sleeping_before hsleeping with ⟨hsleeping, -⟩ | ⟨ticks, rfl, -⟩
      · rw [hsleeping]
        rfl
      · exact absurd rfl (hdoze ticks)
    · rcases Step.waiting_before hwaiting with ⟨hwaiting, -⟩ | ⟨rfl, -⟩
      · rw [hwaiting]
        rfl
      · exact absurd hfits.1 hurgent
  obtain ⟨hwaiting, hwake⟩ := h hcode hbefore
  have hother : step ≠ .wake id := by
    rintro rfl
    rw [Step.stateAfter, if_pos ⟨rfl, hcontains, hwaiting⟩] at hblocked
    cases hblocked
  refine ⟨Step.waiting_after hwaiting hcontains ?_ hother fun ticks heq => absurd heq (hdoze ticks),
    ?_⟩
  · rintro rfl
    exact hurgent hfits
  · rw [hstepped.code] at hwake
    exact (List.mem_cons.1 hwake).resolve_left fun heq => hother heq.symm

theorem goes {move : Move} (h : m.Summons id) (hleft : m.LeftAlone id)
    (hid : id ≠ ThreadId.idle) (hgoverned : m.Governed past) (hwaiters : m.Waiters)
    (huntargeted : Untargeted past id) (hgoes : m.Goes move after) : after.Summons id := by
  have hregular := hgoverned.regular
  cases hgoes with
  | spin => exact h
  | step hstepped =>
      intro hdispatch hblocked
      rw [hstepped.code_after] at hdispatch ⊢
      rcases List.mem_append.1 hdispatch with hdispatch | hdispatch
      · obtain ⟨hwaiting, hwake⟩ :=
          of_pushed hleft hid hgoverned hwaiters huntargeted hstepped hdispatch hblocked
        exact ⟨hwaiting, List.mem_append_left _ hwake⟩
      · obtain ⟨hwaiting, hwake⟩ := h.of_rest hgoverned hstepped hdispatch hblocked
        exact ⟨hwaiting, List.mem_append_right _ hwake⟩
  | switch hcode hswitched =>
      intro hdispatch
      have hcalm := hregular.orderly.calm_of_switched hcode hswitched
      exact Bool.noConfusion (hcalm.1 _ hdispatch)
  | call request =>
      intro hdispatch
      rw [context_call] at hdispatch
      exact Bool.noConfusion (request.calm_code.1 _ hdispatch)
  | interrupt henabled =>
      intro hdispatch
      rw [context_interrupt] at hdispatch
      have hbefore : .dispatch id ∈ m.context.code := by simpa [interruptCode] using hdispatch
      exact Bool.noConfusion ((Seated.calm_of_enabled hregular.orderly henabled).1 _ hbefore)

end Summons

end Machine

variable [Backend P] [LawfulBackend P]

theorem Run.leftAlone {config : Config} {policy : Policy} {cpu : P} {values : List Int32}
    {mutexes : Nat} {console : Console} {past : List (Transition P)} {m : Machine P}
    {id : ThreadId} (hpolicy : policy.Sound)
    (run : Run (.fresh config policy cpu values mutexes console) past m)
    (hid : id ≠ ThreadId.idle) (huntargeted : Untargeted past id) :
    m.LeftAlone id ∧ m.Summons id := by
  refine run.invariant
    (fun past m => Untargeted past id → m.LeftAlone id ∧ m.Summons id) ?_ ?_ huntargeted
  · refine fun _ => ⟨.fresh config policy cpu values mutexes console id, fun hdispatch => ?_⟩
    simp at hdispatch
  · intro past m move run h hgoes hlater
    have hbefore : Untargeted past id := fun t ht => hlater t (List.mem_append_left _ ht)
    obtain ⟨hleft, hsummons⟩ := h hbefore
    have hgoverned := run.governed hpolicy
    have hwaiters := run.waiters hpolicy
    exact ⟨hleft.goes hid hgoverned hwaiters hbefore hgoes,
      hsummons.goes hleft hid hgoverned hwaiters hbefore hgoes⟩

end TickKernel
