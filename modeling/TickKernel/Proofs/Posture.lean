import TickKernel.Proofs.Population
import TickKernel.Proofs.States

/-!
# Who runs

The executing thread is the only one that the table calls running, but for the
steps between its blocking and the dispatch that follows.  The idle thread can come
out of that dispatch still blocked, when nothing else was found to run; it is then
in a blocking call and does not find what it waits for before another thread has run.
-/

namespace TickKernel

variable {P : Type}

def Blocking.Stuck (shared : Shared) (id : ThreadId) : Blocking → Prop
  | .until _ => False
  | .ownership index => id ∈ shared.mutexLine index
  | .unit index =>
      id ∈ shared.semaphoreLine index ∧
        ∃ value, shared.stock index = some value ∧ ¬ 0 < value
  | .forever => True

def Code.Leaves (table : ThreadTable) (code : List Step) : Prop :=
  (∃ front rest, front <:+ [.closeInterval, .free .table, .mask, .take .table] ∧
    code = front ++ .choose .dispatch :: rest) ∨
  ∃ front target rest, front <:+ [.free .table, .unmask, .mask, .take .table] ∧
    code = front ++ .dispatch target :: rest ∧
      (target = table.current → (table.state target).isBlocked = true → target = ThreadId.idle)

/-- A countdown that is still to be done for the last tick counted. -/
def Code.owed (code : List Step) : Nat :=
  if .countDown ∈ code then 1 else 0

def Step.counted : Step → Nat
  | .countTick => 1
  | _ => 0

theorem Step.counted_eq_zero {step : Step} (h : step ≠ .countTick) : step.counted = 0 := by
  cases step <;> first | rfl | exact absurd rfl h

theorem Step.ticksAfter_eq {step : Step} (h : step ≠ .countTick) (ticks : TickCounter) :
    step.ticksAfter ticks = ticks := by
  cases step <;> first | rfl | exact absurd rfl h

theorem Code.owed_of_calm {code : List Step} (h : Calm code) : Code.owed code = 0 :=
  if_neg fun hmem => Bool.noConfusion (h.1 _ hmem)

theorem Code.owed_cons {step : Step} (h : step ≠ .countDown) (rest : List Step) :
    Code.owed (step :: rest) = Code.owed rest := by
  simp [Code.owed, Ne.symm h]

theorem Kernel.Expands.owed_eq {kernel : Kernel P} {step : Step} {rest pushed : List Step}
    (h : kernel.Expands step pushed) (hfits : step.Fits rest) (hcount : step ≠ .countDown) :
    Code.owed (pushed ++ rest) = Code.owed (step :: rest) + step.counted := by
  rw [Code.owed_cons hcount]
  by_cases htick : step = .countTick
  · subst htick
    have hcalm : Calm rest := hfits
    rw [Code.owed_of_calm hcalm]
    refine if_pos (List.mem_append_left rest ?_)
    cases h with
    | nothing hplain => cases hplain
    | answer _ hasks => cases hasks
    | tick => simp
  · have hpushed : .countDown ∉ pushed := fun hmem => htick (eq_of_beq (h.leadsTo hmem))
    simp [Code.owed, hpushed, Step.counted_eq_zero htick]

namespace Code.Leaves

variable {kernel : Kernel P} {step : Step} {rest pushed : List Step}

theorem of_yieldUp {table : ThreadTable} {code : List Step} (h : Code.yieldUp <+: code) :
    Code.Leaves table code := by
  obtain ⟨rest, rfl⟩ := h
  exact .inl ⟨[.free .table, .mask, .take .table], rest, List.suffix_cons _ _, rfl⟩

theorem of_closeInterval {table : ThreadTable} {code : List Step}
    (h : .closeInterval :: Code.yieldUp <+: code) : Code.Leaves table code := by
  obtain ⟨rest, rfl⟩ := h
  exact .inl ⟨[.closeInterval, .free .table, .mask, .take .table], rest, List.suffix_rfl, rfl⟩

/-- On the way to a dispatch every step leads on to it. -/
theorem expand (h : Code.Leaves kernel.table (step :: rest)) (hexpands : kernel.Expands step pushed)
    (hsound : kernel.policy.Sound) (hdispatch : ∀ target, step ≠ .dispatch target) :
    Code.Leaves (step.tableAfter kernel.table) (pushed ++ rest) := by
  rcases h with ⟨front, others, hfront, hcode⟩ | ⟨front, target, others, hfront, hcode, htarget⟩
  · cases front with
    | nil =>
        obtain ⟨rfl, rfl⟩ := List.cons.inj hcode
        have hpushed : pushed =
            [.free .table, .unmask] ++ Code.switchTo kernel.choice := by
          cases hexpands with
          | nothing hplain => cases hplain
          | answer _ hasks => cases hasks
          | choice => rfl
        subst hpushed
        refine .inr ⟨[.free .table, .unmask, .mask, .take .table], kernel.choice, rest,
          List.suffix_rfl, rfl, fun _ hblocked => ?_⟩
        exact hsound.choice_eq_idle hblocked
    | cons first front =>
        obtain ⟨rfl, rfl⟩ := List.cons.inj hcode
        have hmem := hfront.subset List.mem_cons_self
        have hpushed : pushed = [] := by
          refine hexpands.eq_nil ?_
          simp only [List.mem_cons, List.not_mem_nil, or_false] at hmem
          rcases hmem with rfl | rfl | rfl | rfl <;> rfl
        subst hpushed
        exact .inl ⟨front, others, (List.suffix_cons step front).trans hfront, rfl⟩
  · cases front with
    | nil =>
        obtain ⟨rfl, rfl⟩ := List.cons.inj hcode
        exact absurd rfl (hdispatch target)
    | cons first front =>
        obtain ⟨rfl, rfl⟩ := List.cons.inj hcode
        have hmem := hfront.subset List.mem_cons_self
        simp only [List.mem_cons, List.not_mem_nil, or_false] at hmem
        have hquiet : step.isPlain = true ∧ step.tableAfter kernel.table = kernel.table := by
          rcases hmem with rfl | rfl | rfl | rfl <;> exact ⟨rfl, rfl⟩
        rw [hexpands.eq_nil hquiet.1, hquiet.2]
        exact .inr ⟨front, target, others, (List.suffix_cons step front).trans hfront, rfl, htarget⟩

theorem of_dispatch {table : ThreadTable} {target : ThreadId}
    (h : Code.Leaves table (.dispatch target :: rest)) (hcurrent : target = table.current)
    (hblocked : (table.state target).isBlocked = true) : target = ThreadId.idle := by
  rcases h with ⟨front, others, hfront, hcode⟩ | ⟨front, other, others, hfront, hcode, htarget⟩
  all_goals
    cases front with
    | nil =>
        cases hcode
        try exact htarget hcurrent hblocked
    | cons first front =>
        obtain ⟨rfl, -⟩ := List.cons.inj hcode
        have hmem := hfront.subset List.mem_cons_self
        simp at hmem

/-- On the way to a dispatch there is nothing else that is urgent, and nobody blocks. -/
theorem head?_cases {table : ThreadTable} {code : List Step} {step : Step}
    (h : Code.Leaves table code) (hhead : code.head? = some step) :
    (∃ target, step = .dispatch target) ∨ step.isUrgent = false ∧ step ≠ .block := by
  rcases h with ⟨front, others, hfront, rfl⟩ | ⟨front, target, others, hfront, rfl, -⟩
  all_goals
    simp only [List.suffix_cons_iff, List.suffix_nil] at hfront
    rcases hfront with rfl | rfl | rfl | rfl | rfl <;> cases hhead <;> simp

theorem guards_pos {struck : Prop} {table : ThreadTable} {code : List Step} {cover : Cover}
    (h : Code.Leaves table code) (hdisciplined : Disciplined struck cover code) :
    0 < cover.guards := by
  obtain ⟨guards, held⟩ := cover
  rw [Nat.pos_iff_ne_zero]
  rintro rfl
  rcases h with ⟨front, others, hfront, rfl⟩ | ⟨front, target, others, hfront, rfl, -⟩
  all_goals
    simp only [List.suffix_cons_iff, List.suffix_nil] at hfront
    rcases hfront with rfl | rfl | rfl | rfl | rfl
    all_goals
      simp [Disciplined, Step.Fits, Step.IsDead, Step.coverBehind, Bare] at hdisciplined
  -- what is left stands under the table lock but has no guard
  all_goals
    obtain ⟨⟨-, rfl⟩, hstands⟩ := hdisciplined
    simp at hstands

end Code.Leaves

/-- A blocking call is served by its last step. -/
theorem Step.Serves.of_seeks {step : Step} {call : Blocking} {id : ThreadId}
    {request : Option Request} (h : step.Serves id request) (hseeks : step.seeks = some call) :
    call.Serves request := by
  unfold Step.seeks at hseeks
  split at hseeks <;> cases hseeks
  · exact h
  · exact h
  · exact h.1
  · exact h
  · exact h.1
  · exact h

theorem seeking_eq_none_of_wake {code : List Step} {id : ThreadId} {request : Option Request}
    (woken : ThreadId) (h : ∀ step ∈ code, step.Serves id request)
    (hwake : .wake woken ∈ code) : Code.seeking code = none := by
  cases hseeking : Code.seeking code with
  | none => rfl
  | some call =>
      obtain ⟨last, hlast, hseeks⟩ := Option.bind_eq_some_iff.1 hseeking
      have hcall := (h last (List.mem_of_getLast? hlast)).of_seeks hseeks
      obtain ⟨index, hrequest⟩ := h _ hwake
      cases call
      case «until» =>
          obtain ⟨ticks, rfl⟩ := hcall
          rcases hrequest with heq | heq | heq <;> cases heq
      case ownership | unit =>
          obtain rfl := hcall
          rcases hrequest with heq | heq | heq <;> cases heq
      case forever =>
          rcases hcall with rfl | rfl
          all_goals rcases hrequest with heq | heq | heq <;> cases heq

theorem Request.block_not_mem (request : Request) : .block ∉ request.code :=
  fun hmem => Bool.noConfusion (request.isAskedFor_code hmem)

namespace Machine

/-- The table's states fit what the executing thread is doing. -/
structure Posture (m : Machine P) : Prop where
  others : ∀ id, id ≠ m.kernel.table.current → m.kernel.table.state id ≠ .running
  arriving : m.executing ≠ m.kernel.table.current →
    m.kernel.table.state m.kernel.table.current = .running
  home : m.executing = m.kernel.table.current →
    m.kernel.table.state m.executing = .running ∨ Code.Leaves m.kernel.table m.context.code ∨
      m.executing = ThreadId.idle ∧ (m.kernel.table.state m.executing).isBlocked = true
  stuck : m.executing = m.kernel.table.current ∧ m.kernel.table.state m.executing = .waiting ∨
      .block ∈ m.context.code →
    ∃ call, Code.seeking m.context.code = some call ∧ call.Stuck m.shared m.executing
  asleep : m.executing = m.kernel.table.current →
    m.kernel.table.state m.executing = .sleeping →
      ∃ wakeAt, Code.seeking m.context.code = some (.until wakeAt) ∧
        m.kernel.table.sleep m.executing ≠ 0 ∧
          m.kernel.ticks.ticks.toNat + (m.kernel.table.sleep m.executing).toNat ≤
            wakeAt.toNat + Code.owed m.context.code
  dozes : ∀ ticks, .doze ticks ∈ m.context.code →
    ∃ wakeAt, Code.seeking m.context.code = some (.until wakeAt) ∧
      m.kernel.ticks.ticks < wakeAt ∧ ticks = wakeAt - m.kernel.ticks.ticks

variable [Backend P] [LawfulBackend P] {past : List (Transition P)} {m after : Machine P}
  {step : Step} {rest pushed : List Step}

/-- Whoever is queued for a taken mutex stays so when it tries again. -/
theorem Stepped.stuck_of_asksMutex (hstepped : m.Stepped step rest pushed after)
    (hregular : m.Regular past) (hmutex : step.asksMutex = true) {call : Blocking}
    (hseeking : Code.seeking (step :: rest) = some call)
    (hstuck : call.Stuck m.shared m.executing) :
    Code.seeking (pushed ++ rest) = some call ∧ call.Stuck after.shared m.executing := by
  have hobjects := hregular.objects
  have hfits := hregular.orderly.fits hstepped
  have hserved := hregular.served hstepped
  obtain ⟨hclaims, -⟩ := hstepped.claims hobjects hmutex
  cases step <;> try cases hmutex
  case tryRelease.refl =>
      obtain rfl : rest = [] := hfits
      cases hseeking
  case tryAcquire.refl index me =>
      obtain rfl : rest = [] := hfits
      obtain rfl : me = m.executing := hserved.2
      cases hseeking
      cases hclaims with
      | absent hnone hafter hline => simp [Blocking.Stuck, Shared.mutexLine, hnone] at hstuck
      | entered hfree hline hafter hlineAfter => simp [Blocking.Stuck, hline] at hstuck
      | again hme hafter hline => exact absurd hstuck (hobjects.owner_not_mem hme)
      | barred howner hother hafter hline =>
          have hmem : m.executing ∈ m.shared.mutexLine index := hstuck
          refine ⟨rfl, ?_⟩
          rw [Blocking.Stuck, hline, Function.update_self, if_pos hmem]
          exact hmem

theorem Stepped.stuck_of_asksSemaphore (hstepped : m.Stepped step rest pushed after)
    (hregular : m.Regular past) (hsemaphore : step.asksSemaphore = true) {call : Blocking}
    (hseeking : Code.seeking (step :: rest) = some call)
    (hstuck : call.Stuck m.shared m.executing) :
    Code.seeking (pushed ++ rest) = some call ∧ call.Stuck after.shared m.executing := by
  have hfits := hregular.orderly.fits hstepped
  have hserved := hregular.served hstepped
  obtain ⟨hdeals, -⟩ := hstepped.deals hregular.objects hsemaphore
  cases step <;> try cases hsemaphore
  case giveBack.refl =>
      obtain rfl : rest = .unmask :: Code.done := hfits
      cases hseeking
  case tryTake.refl index me =>
      obtain rfl : rest = [] := hfits
      obtain rfl : me = m.executing := hserved.2
      cases hseeking
      obtain ⟨hmem, value, hstock, hvalue⟩ := hstuck
      cases hdeals with
      | absent hnone hafter hline =>
          rw [hnone] at hstock
          cases hstock
      | taken hsome hpos hafter hline =>
          rw [hsome] at hstock
          cases hstock
          exact absurd hpos hvalue
      | short hsome hnot hafter hline =>
          refine ⟨rfl, ?_, value, ?_, hvalue⟩
          · rw [hline, Function.update_self, if_pos hmem]
            exact hmem
          · rw [hafter, hstock]

omit [LawfulBackend P] in
theorem Stepped.stuck_of_asksNothing (hstepped : m.Stepped step rest pushed after)
    (hmutex : step.asksMutex = false) (hsemaphore : step.asksSemaphore = false) {call : Blocking}
    (hstuck : call.Stuck m.shared m.executing) : call.Stuck after.shared m.executing := by
  cases call with
  | «until» wakeAt => exact hstuck
  | forever => trivial
  | ownership index =>
      rw [Blocking.Stuck, hstepped.mutexLine_eq hmutex]
      exact hstuck
  | unit index =>
      rw [Blocking.Stuck, hstepped.semaphoreLine_eq hsemaphore, hstepped.stock_eq hsemaphore]
      exact hstuck

/-- Whoever finds nothing when it looks goes on seeking. -/
theorem Stepped.stuck (hstepped : m.Stepped step rest pushed after) (hregular : m.Regular past)
    {call : Blocking} (hseeking : Code.seeking m.context.code = some call)
    (hstuck : call.Stuck m.shared m.executing) :
    Code.seeking after.context.code = some call ∧ call.Stuck after.shared after.executing := by
  have hfits := hregular.orderly.fits hstepped
  rw [hstepped.code] at hseeking
  rw [hstepped.code_after, hstepped.effect.executing]
  cases hmutex : step.asksMutex with
  | true => exact hstepped.stuck_of_asksMutex hregular hmutex hseeking hstuck
  | false =>
      cases hsemaphore : step.asksSemaphore with
      | true => exact hstepped.stuck_of_asksSemaphore hregular hsemaphore hseeking hstuck
      | false =>
          refine ⟨?_, hstepped.stuck_of_asksNothing hmutex hsemaphore hstuck⟩
          refine hstepped.expands.seeking_kept hfits hseeking fun hrest hseeks hsettles => ?_
          cases hsettles with
          | acquired => cases hmutex
          | taken => cases hsemaphore
          | awake hlate =>
              cases hseeks
              exact hstuck

namespace Posture

omit [LawfulBackend P] in
theorem others_of_perform (h : m.Posture) (hstepped : m.Stepped step rest pushed after)
    (id : ThreadId) (hid : id ≠ after.kernel.table.current) :
    after.kernel.table.state id ≠ .running := by
  intro hrunning
  rw [hstepped.effect.table, Step.state_tableAfter] at hrunning
  rw [hstepped.effect.table] at hid
  by_cases hdispatch : ∀ target, step ≠ .dispatch target
  · rw [Step.current_tableAfter fun target heq => absurd heq (hdispatch target)] at hid
    exact h.others id hid (Step.running_before hdispatch hrunning)
  · push Not at hdispatch
    obtain ⟨target, rfl⟩ := hdispatch
    rw [Step.tableAfter, ThreadTable.current_dispatch] at hid
    simp only [Step.stateAfter, if_neg hid] at hrunning
    split at hrunning
    next hback =>
        rw [← ((m.kernel.table.handsBack_iff target).1 hback).1] at hid
        exact h.others id hid hrunning
    next =>
        split at hrunning
        · cases hrunning
        next hcurrent =>
            exact h.others id (fun heq => hcurrent ⟨heq, hrunning⟩) hrunning

theorem arriving_of_perform (h : m.Posture) (hregular : m.Regular past)
    (hstepped : m.Stepped step rest pushed after)
    (hleaves : after.executing ≠ after.kernel.table.current) :
    after.kernel.table.state after.kernel.table.current = .running := by
  rw [hstepped.effect.executing] at hleaves
  by_cases hdispatch : ∀ target, step ≠ .dispatch target
  · have hcurrent : after.kernel.table.current = m.kernel.table.current := by
      rw [hstepped.effect.table]
      exact Step.current_tableAfter fun target heq => absurd heq (hdispatch target)
    rw [hcurrent] at hleaves ⊢
    by_cases hfree : step = .free .table
    · subst hfree
      rw [hstepped.effect.table]
      exact h.arriving hleaves
    · exact absurd (hregular.seated.executing_eq hstepped.code hfree hstepped.stays) hleaves
  · push Not at hdispatch
    obtain ⟨target, rfl⟩ := hdispatch
    have hme := hregular.seated.executing_eq hstepped.code (by simp) hstepped.stays
    rw [hstepped.effect.table, Step.tableAfter, ThreadTable.current_dispatch] at hleaves ⊢
    refine ThreadTable.state_dispatch_self (Bool.eq_false_iff.2 fun hback => hleaves ?_)
    rw [hme]
    exact ((m.kernel.table.handsBack_iff target).1 hback).1

omit [Backend P] [LawfulBackend P] in
theorem seeking_ne_none (h : m.Posture) (hseat : m.executing = m.kernel.table.current)
    (hblocked : (m.kernel.table.state m.executing).isBlocked = true) :
    Code.seeking m.context.code ≠ none := by
  rcases (ThreadState.isBlocked_iff _).1 hblocked with hsleeping | hwaiting
  · obtain ⟨wakeAt, hseeking, -⟩ := h.asleep hseat hsleeping
    rw [hseeking]
    nofun
  · obtain ⟨call, hseeking, -⟩ := h.stuck (.inl ⟨hseat, hwaiting⟩)
    rw [hseeking]
    nofun

/-- A thread that keeps the processor runs on, or is about to leave, or is the blocked idle one. -/
theorem home_of_stay (h : m.Posture) (hregular : m.Regular past) (hpopulated : m.Populated)
    (hstepped : m.Stepped step rest pushed after) (hdispatch : ∀ target, step ≠ .dispatch target)
    (hseat : m.executing = m.kernel.table.current) :
    step.stateAfter m.kernel.table m.executing = .running ∨
      Code.Leaves (step.tableAfter m.kernel.table) (pushed ++ rest) ∨
        m.executing = ThreadId.idle ∧
          (step.stateAfter m.kernel.table m.executing).isBlocked = true := by
  have hexpands := hstepped.expands
  have hfits := hregular.orderly.fits hstepped
  rcases h.home hseat with hrunning | hleaves | ⟨hidle, hblocked⟩
  · by_cases hblock : step = .block
    · subst hblock
      rw [hexpands.eq_nil rfl]
      exact .inr (.inl (.of_yieldUp hfits.2))
    · by_cases hdoze : ∀ ticks, step ≠ .doze ticks
      · exact .inl (Step.running_after hrunning hpopulated.executing hdispatch hblock hdoze)
      · push Not at hdoze
        obtain ⟨ticks, rfl⟩ := hdoze
        rw [hexpands.eq_nil rfl]
        exact .inr (.inl (.of_yieldUp hfits.2))
  · rw [hstepped.code] at hleaves
    exact .inr (.inl (hleaves.expand hexpands hpopulated.sound hdispatch))
  · by_cases hcount : step = .countDown
    · subst hcount
      rw [hexpands.eq_nil rfl]
      exact .inr (.inl (hfits.2.elim .of_yieldUp .of_closeInterval))
    · refine .inr (.inr ⟨hidle, ?_⟩)
      refine Step.blocked_after hblocked hpopulated.executing hdispatch ?_ hcount
      rintro rfl
      refine h.seeking_ne_none hseat hblocked ?_
      have hserves := hregular.employed.serves m.executing
      rw [contextOf_executing rfl, hstepped.code] at hserves
      rw [hstepped.code]
      exact seeking_eq_none_of_wake m.executing hserves List.mem_cons_self

omit [LawfulBackend P] in
theorem home_of_dispatch (h : m.Posture)
    (hstepped : m.Stepped (.dispatch m.executing) rest pushed after)
    (hme : m.executing = m.kernel.table.current) :
    (Step.dispatch m.executing).stateAfter m.kernel.table m.executing = .running ∨
      m.executing = ThreadId.idle ∧
        ((Step.dispatch m.executing).stateAfter m.kernel.table m.executing).isBlocked = true := by
  cases hback : m.kernel.table.handsBack m.executing with
  | false => exact .inl (by simp [Step.stateAfter, hback])
  | true =>
      obtain ⟨-, hblocked⟩ := (m.kernel.table.handsBack_iff _).1 hback
      refine .inr ⟨?_, by simpa [Step.stateAfter, hback] using hblocked⟩
      rcases h.home hme with hrunning | hleaves | ⟨hidle, -⟩
      · rw [hrunning] at hblocked
        cases hblocked
      · rw [hstepped.code] at hleaves
        exact hleaves.of_dispatch hme hblocked
      · exact hidle

theorem home_of_perform (h : m.Posture) (hregular : m.Regular past) (hpopulated : m.Populated)
    (hstepped : m.Stepped step rest pushed after)
    (hseat : after.executing = after.kernel.table.current) :
    after.kernel.table.state after.executing = .running ∨
      Code.Leaves after.kernel.table after.context.code ∨
        after.executing = ThreadId.idle ∧
          (after.kernel.table.state after.executing).isBlocked = true := by
  rw [hstepped.effect.executing] at hseat ⊢
  rw [hstepped.effect.table, hstepped.code_after, Step.state_tableAfter]
  rw [hstepped.effect.table] at hseat
  by_cases hdispatch : ∀ target, step ≠ .dispatch target
  · have hcurrent : (step.tableAfter m.kernel.table).current = m.kernel.table.current :=
      Step.current_tableAfter fun target heq => absurd heq (hdispatch target)
    exact h.home_of_stay hregular hpopulated hstepped hdispatch (hseat.trans hcurrent)
  · push Not at hdispatch
    obtain ⟨target, rfl⟩ := hdispatch
    have hme := hregular.seated.executing_eq hstepped.code (by simp) hstepped.stays
    rw [Step.tableAfter, ThreadTable.current_dispatch] at hseat
    subst hseat
    exact (h.home_of_dispatch hstepped hme).imp_right .inr

omit [LawfulBackend P] in
theorem seated_before (hstepped : m.Stepped step rest pushed after)
    (hseat : m.executing = after.kernel.table.current)
    (hback : step = .dispatch m.executing → m.kernel.table.handsBack m.executing = true) :
    m.executing = m.kernel.table.current := by
  by_cases hdispatch : step = .dispatch m.executing
  · exact (((m.kernel.table.handsBack_iff _).1 (hback hdispatch)).1).symm
  · rw [hstepped.effect.table, Step.current_tableAfter] at hseat
    · exact hseat
    · rintro target rfl
      rw [Step.tableAfter, ThreadTable.current_dispatch] at hseat
      exact absurd (by rw [hseat]) hdispatch

/-- A thread is about to block only where it has just found nothing. -/
theorem stuck_of_block_mem (hregular : m.Regular past)
    (hstepped : m.Stepped step rest pushed after) (hmem : .block ∈ pushed) :
    ∃ call, Code.seeking after.context.code = some call ∧
      call.Stuck after.shared after.executing := by
  have hserved := hregular.served hstepped
  have hfits := hregular.orderly.fits hstepped
  rw [hstepped.code_after, hstepped.effect.executing]
  have hexpands := hstepped.expands
  cases hexpands
  case barred mutex me =>
      obtain rfl : rest = [] := hfits
      obtain rfl : me = m.executing := hserved.2
      have hclaims := (hstepped.claims hregular.objects rfl).1
      refine ⟨.ownership mutex, rfl, ?_⟩
      cases hclaims with
      | barred howner hother hafter hline =>
          rw [Blocking.Stuck, hline, Function.update_self]
          split
          next hmem => exact hmem
          next => simp
  case short semaphore me =>
      obtain rfl : rest = [] := hfits
      obtain rfl : me = m.executing := hserved.2
      have hdeals := (hstepped.deals hregular.objects rfl).1
      refine ⟨.unit semaphore, rfl, ?_⟩
      cases hdeals with
      | @short _ _ value hstock hvalue hafter hline =>
          rw [Blocking.Stuck, hline, Function.update_self, hafter]
          refine ⟨?_, value, hstock, hvalue⟩
          split
          next hmem => exact hmem
          next => simp
  case retry call =>
      obtain rfl : rest = [] := hfits
      cases call
      case forever => exact ⟨.forever, rfl, trivial⟩
      all_goals simp [Code.attempt] at hmem
  case tick due hdue => rcases hdue with rfl | rfl <;> simp at hmem
  case noRoom creation _ _ | noStack creation _ | noSlot creation _ _ =>
      cases hpacket : creation.packet <;> simp [Code.refuse, hpacket] at hmem
  all_goals simp at hmem

theorem stuck_of_perform (h : m.Posture) (hregular : m.Regular past)
    (hstepped : m.Stepped step rest pushed after)
    (hwaits : after.executing = after.kernel.table.current ∧
        after.kernel.table.state after.executing = .waiting ∨ .block ∈ after.context.code) :
    ∃ call, Code.seeking after.context.code = some call ∧
      call.Stuck after.shared after.executing := by
  have hbefore : (m.executing = m.kernel.table.current ∧
      m.kernel.table.state m.executing = .waiting ∨ .block ∈ m.context.code) →
        ∃ call, Code.seeking after.context.code = some call ∧
          call.Stuck after.shared after.executing := by
    intro hwaits
    obtain ⟨call, hseeking, hstuck⟩ := h.stuck hwaits
    exact ⟨call, hstepped.stuck hregular hseeking hstuck⟩
  rw [hstepped.effect.executing, hstepped.code_after] at hwaits
  rcases hwaits with ⟨hseat, hwaiting⟩ | hblock
  · rw [hstepped.effect.table, Step.state_tableAfter] at hwaiting
    rcases Step.waiting_before hwaiting with ⟨hwaiting, hback⟩ | ⟨rfl, -⟩
    · exact hbefore (.inl ⟨seated_before hstepped hseat hback, hwaiting⟩)
    · refine hbefore (.inr ?_)
      rw [hstepped.code]
      exact List.mem_cons_self
  · rcases List.mem_append.1 hblock with hmem | hmem
    · exact stuck_of_block_mem hregular hstepped hmem
    · refine hbefore (.inr ?_)
      rw [hstepped.code]
      exact .tail _ hmem

theorem until_of_perform (hregular : m.Regular past) (hstepped : m.Stepped step rest pushed after)
    {wakeAt : UInt64} (hseeking : Code.seeking m.context.code = some (.until wakeAt))
    (hearly : rest = [] → m.kernel.ticks.ticks < wakeAt) :
    Code.seeking after.context.code = some (.until wakeAt) := by
  have hfits := hregular.orderly.fits hstepped
  rw [hstepped.code] at hseeking
  rw [hstepped.code_after]
  refine hstepped.expands.seeking_kept hfits hseeking fun hrest hseeks hsettles => ?_
  cases hsettles with
  | acquired | taken => cases hseeks
  | awake hlate =>
      cases hseeks
      exact absurd (hearly hrest) (UInt64.not_lt.2 hlate)

theorem dozes_of_perform (h : m.Posture) (hregular : m.Regular past)
    (hstepped : m.Stepped step rest pushed after) (ticks : UInt64)
    (hmem : .doze ticks ∈ after.context.code) :
    ∃ wakeAt, Code.seeking after.context.code = some (.until wakeAt) ∧
      after.kernel.ticks.ticks < wakeAt ∧ ticks = wakeAt - after.kernel.ticks.ticks := by
  have hfits := hregular.orderly.fits hstepped
  have hcode := hstepped.code_after
  rw [hcode] at hmem
  rcases List.mem_append.1 hmem with hpushed | hrest
  · have hexpands := hstepped.expands
    rw [hcode, hstepped.effect.ticks]
    have hleads := hexpands.leadsTo hpushed
    cases hexpands
    case asleep wakeAt hearly =>
        obtain rfl : rest = [] := hfits
        obtain rfl : ticks = wakeAt - m.kernel.ticks.ticks := by simpa using hpushed
        exact ⟨wakeAt, rfl, UInt64.not_le.1 hearly, rfl⟩
    case nothing | answer | awake => simp at hpushed
    all_goals cases hleads
  · obtain ⟨wakeAt, hseeking, hearly, hticks⟩ := h.dozes ticks (hstepped.code ▸ .tail _ hrest)
    have hnow : after.kernel.ticks = m.kernel.ticks := by
      rw [hstepped.effect.ticks]
      cases step <;> try rfl
      exact Bool.noConfusion (hfits.1 _ hrest)
    rw [hnow]
    exact ⟨wakeAt, until_of_perform hregular hstepped hseeking fun _ => hearly, hearly, hticks⟩

theorem asleep_of_doze (h : m.Posture) (hregular : m.Regular past) {ticks : UInt64}
    (hstepped : m.Stepped (.doze ticks) rest pushed after) :
    ∃ wakeAt, Code.seeking after.context.code = some (.until wakeAt) ∧
      after.kernel.table.sleep m.executing ≠ 0 ∧
        after.kernel.ticks.ticks.toNat + (after.kernel.table.sleep m.executing).toNat ≤
          wakeAt.toNat := by
  obtain ⟨wakeAt, hseeking, hearly, rfl⟩ :=
    h.dozes ticks (hstepped.code ▸ List.mem_cons_self)
  have hseat := hregular.seated.executing_eq hstepped.code (by simp) hstepped.stays
  have hless := UInt64.lt_iff_toNat_lt.1 hearly
  have hgap := UInt64.toNat_sub_of_le _ _ (UInt64.le_of_lt hearly)
  refine ⟨wakeAt, until_of_perform hregular hstepped hseeking fun _ => hearly, ?_⟩
  rw [hstepped.effect.ticks, hstepped.effect.table, Step.sleep_tableAfter, Step.sleepAfter,
    if_pos hseat]
  have hsleep := (m.kernel.table.block m.executing).toNat_sleepTicks_asleep
    (wakeAt - m.kernel.ticks.ticks)
  have hsize : UInt32.size = 4294967296 := rfl
  rw [hgap] at hsleep
  refine ⟨fun hzero => ?_, ?_⟩
  · rw [hzero, UInt32.toNat_zero] at hsleep
    omega
  · rw [hsleep]
    show m.kernel.ticks.ticks.toNat + _ ≤ _
    omega

theorem early_of_asleep (h : m.Posture) (hregular : m.Regular past)
    (hstepped : m.Stepped step rest pushed after) (hseat : m.executing = m.kernel.table.current)
    (hsleeping : m.kernel.table.state m.executing = .sleeping) {wakeAt : UInt64}
    (hseeking : Code.seeking m.context.code = some (.until wakeAt)) (hlast : rest = []) :
    m.kernel.ticks.ticks < wakeAt := by
  have hfits := hregular.orderly.fits hstepped
  obtain ⟨deadline, hdeadline, hleft, hbound⟩ := h.asleep hseat hsleeping
  obtain rfl : deadline = wakeAt := by
    rw [hseeking] at hdeadline
    cases hdeadline
    rfl
  have hpos : 0 < (m.kernel.table.sleep m.executing).toNat := by
    rw [Nat.pos_iff_ne_zero]
    exact fun hzero => hleft (UInt32.toNat_inj.1 hzero)
  have howed : Code.owed m.context.code = 0 := by
    rw [Code.owed, if_neg]
    rw [hstepped.code, hlast, List.mem_singleton]
    rintro rfl
    subst hlast
    exact absurd hfits.2 (by simp [Code.yieldUp])
  rw [howed] at hbound
  exact UInt64.lt_iff_toNat_lt.2 (by omega)

/-- A sleeping thread that did not go to sleep just now sleeps on. -/
theorem asleep_of_asleep (h : m.Posture) (hregular : m.Regular past) (hpopulated : m.Populated)
    (hstepped : m.Stepped step rest pushed after) (hdoze : ∀ ticks, step ≠ .doze ticks)
    (hseat : m.executing = m.kernel.table.current)
    (hsleeping : m.kernel.table.state m.executing = .sleeping)
    (hsleeps : after.kernel.table.state m.executing = .sleeping) :
    ∃ wakeAt, Code.seeking after.context.code = some (.until wakeAt) ∧
      after.kernel.table.sleep m.executing ≠ 0 ∧
        after.kernel.ticks.ticks.toNat + (after.kernel.table.sleep m.executing).toNat ≤
          wakeAt.toNat + Code.owed after.context.code := by
  have hfits := hregular.orderly.fits hstepped
  obtain ⟨wakeAt, hseeking, hleft, hbound⟩ := h.asleep hseat hsleeping
  have hpos : 0 < (m.kernel.table.sleep m.executing).toNat := by
    rw [Nat.pos_iff_ne_zero]
    exact fun hzero => hleft (UInt32.toNat_inj.1 hzero)
  rw [hstepped.code] at hbound
  rw [hstepped.effect.table, Step.state_tableAfter] at hsleeps
  refine ⟨wakeAt, until_of_perform hregular hstepped hseeking
    (h.early_of_asleep hregular hstepped hseat hsleeping hseeking), ?_⟩
  rw [hstepped.effect.ticks, hstepped.effect.table, Step.sleep_tableAfter, hstepped.code_after]
  by_cases hcount : step = .countDown
  · subst hcount
    have howed : Code.owed (.countDown :: rest) = 1 := if_pos List.mem_cons_self
    simp only [Step.stateAfter, if_pos hpopulated.executing] at hsleeps
    simp only [Step.sleepAfter, if_pos hpopulated.executing, Step.ticksAfter]
    rcases (m.kernel.table.block m.executing).countDown_cases with
      ⟨hawake, -⟩ | ⟨-, hready⟩ | ⟨-, -, hmore, hless⟩
    · exact absurd hsleeping hawake
    · rw [hready] at hsleeps
      cases hsleeps
    · refine ⟨hmore, ?_⟩
      have hsleep : (m.kernel.table.sleep m.executing).toNat =
          (m.kernel.table.block m.executing).countDown.sleepTicks.toNat + 1 := hless
      omega
  · rw [Step.sleepAfter_eq hpopulated.executing hcount fun ticks heq => absurd heq (hdoze ticks),
      hstepped.expands.owed_eq hfits hcount]
    refine ⟨hleft, ?_⟩
    by_cases htick : step = .countTick
    · subst htick
      have hword := wakeAt.toNat_lt
      have hone : (1 : UInt64).toNat = 1 := rfl
      have howed : Code.owed (.countTick :: rest) = 0 := by
        rw [Code.owed_cons hcount]
        exact Code.owed_of_calm hfits
      rw [Step.ticksAfter, TickCounter.ticks_increment, UInt64.toNat_add, howed, Step.counted]
      rw [howed] at hbound
      omega
    · rw [Step.ticksAfter_eq htick, Step.counted_eq_zero htick]
      omega

theorem asleep_of_perform (h : m.Posture) (hregular : m.Regular past) (hpopulated : m.Populated)
    (hstepped : m.Stepped step rest pushed after)
    (hseat : after.executing = after.kernel.table.current)
    (hsleeps : after.kernel.table.state after.executing = .sleeping) :
    ∃ wakeAt, Code.seeking after.context.code = some (.until wakeAt) ∧
      after.kernel.table.sleep after.executing ≠ 0 ∧
        after.kernel.ticks.ticks.toNat + (after.kernel.table.sleep after.executing).toNat ≤
          wakeAt.toNat + Code.owed after.context.code := by
  rw [hstepped.effect.executing] at hsleeps hseat ⊢
  by_cases hdoze : ∀ ticks, step ≠ .doze ticks
  · have hbefore := hsleeps
    rw [hstepped.effect.table, Step.state_tableAfter] at hbefore
    rcases Step.sleeping_before hbefore with ⟨hsleeping, hback⟩ | ⟨ticks, rfl, -⟩
    · exact h.asleep_of_asleep hregular hpopulated hstepped hdoze
        (seated_before hstepped hseat hback) hsleeping hsleeps
    · exact absurd rfl (hdoze ticks)
  · push Not at hdoze
    obtain ⟨ticks, rfl⟩ := hdoze
    obtain ⟨wakeAt, hseeking, hleft, hbound⟩ := h.asleep_of_doze hregular hstepped
    exact ⟨wakeAt, hseeking, hleft, by omega⟩

theorem perform (h : m.Posture) (hregular : m.Regular past) (hpopulated : m.Populated)
    (hstepped : m.Stepped step rest pushed after) : after.Posture where
  others := h.others_of_perform hstepped
  arriving := h.arriving_of_perform hregular hstepped
  home := h.home_of_perform hregular hpopulated hstepped
  stuck := h.stuck_of_perform hregular hstepped
  asleep := h.asleep_of_perform hregular hpopulated hstepped
  dozes := h.dozes_of_perform hregular hstepped

theorem switch {next prev : ThreadId} (h : m.Posture) (hregular : m.Regular past)
    (hcode : m.context.code = .switch next prev :: rest)
    (hswitched : (m.setCode rest).Switched next prev after) : after.Posture := by
  have hcalm := hregular.orderly.calm_of_switched hcode hswitched
  obtain ⟨hnext, -, hne⟩ := hregular.seated.switch_eq hcode
  have htable : after.kernel.table = m.kernel.table := by
    rw [hswitched.kernel]
    rfl
  have hrunning : after.kernel.table.state after.executing = .running := by
    rw [htable, hswitched.executing, hnext]
    exact h.arriving hne
  constructor
  · rw [htable]
    exact h.others
  · rw [hswitched.executing, htable]
    exact fun hleaves => absurd hnext hleaves
  · exact fun _ => .inl hrunning
  · rintro (⟨-, hwaiting⟩ | hblock)
    · rw [hrunning] at hwaiting
      cases hwaiting
    · refine ⟨.forever, ?_, trivial⟩
      rw [Code.seeking, hcalm.2 hblock]
      rfl
  · intro _ hsleeping
    rw [hrunning] at hsleeping
    cases hsleeping
  · intro ticks hmem
    exact Bool.noConfusion (hcalm.1 _ hmem)

omit [Backend P] [LawfulBackend P] in
theorem call (h : m.Posture) (hseated : m.Seated) (hcode : m.context.code = [])
    (request : Request) : (m.call request).Posture := by
  have hseat := hseated.executing_eq_of_calm (hcode ▸ calm_nil)
  have hawake : ¬ (m.kernel.table.state m.executing).isBlocked = true := by
    intro hblocked
    refine h.seeking_ne_none hseat hblocked ?_
    rw [hcode]
    rfl
  have hcalm := request.calm_code
  have hrunning : m.kernel.table.state m.executing = .running := by
    rcases h.home hseat with hrunning | hleaves | ⟨-, hblocked⟩
    · exact hrunning
    · rw [hcode] at hleaves
      rcases hleaves with ⟨front, others, -, hnil⟩ | ⟨front, target, others, -, hnil, -⟩
      · cases front <;> cases hnil
      · cases front <;> cases hnil
    · exact absurd hblocked hawake
  constructor
  · exact h.others
  · exact h.arriving
  · exact fun _ => .inl hrunning
  · rintro (⟨-, hwaiting⟩ | hblock)
    · have hwaiting : m.kernel.table.state m.executing = .waiting := hwaiting
      rw [hwaiting] at hawake
      exact absurd rfl hawake
    · rw [context_call] at hblock
      exact absurd hblock request.block_not_mem
  · intro _ hsleeping
    have hsleeping : m.kernel.table.state m.executing = .sleeping := hsleeping
    rw [hsleeping] at hawake
    exact absurd rfl hawake
  · intro ticks hmem
    rw [context_call] at hmem
    exact Bool.noConfusion (hcalm.1 _ hmem)

omit [Backend P] [LawfulBackend P] in
theorem interrupt (h : m.Posture) (hseated : m.Seated) {struck : Prop} (horderly : m.Orderly struck)
    (henabled : m.interruptsEnabled = true) : m.interrupt.Posture := by
  have hcalm := Seated.calm_of_enabled horderly henabled
  have hseat := hseated.executing_eq_of_calm hcalm
  have hseeking : ∀ {call : Blocking}, Code.seeking m.context.code = some call →
      Code.seeking m.interrupt.context.code = some call := by
    intro call hseeking
    rw [context_interrupt, seeking_append interruptCode, hseeking]
    rintro hnil
    rw [hnil] at hseeking
    cases hseeking
  constructor
  · exact h.others
  · exact h.arriving
  · intro _
    rcases h.home hseat with hrunning | hleaves | hidle
    · exact .inl hrunning
    · have hguards := hleaves.guards_pos horderly.own
      rw [horderly.cover_of_enabled henabled] at hguards
      exact absurd hguards (Nat.lt_irrefl 0)
    · exact .inr (.inr hidle)
  · rintro (hwaits | hblock)
    · obtain ⟨call, hcall, hstuck⟩ := h.stuck (.inl hwaits)
      exact ⟨call, hseeking hcall, hstuck⟩
    · rw [context_interrupt] at hblock
      obtain ⟨call, hcall, hstuck⟩ := h.stuck (.inr (by simpa [interruptCode] using hblock))
      exact ⟨call, hseeking hcall, hstuck⟩
  · intro hseat hsleeping
    obtain ⟨wakeAt, hcall, hleft, hbound⟩ := h.asleep hseat hsleeping
    have howed : Code.owed m.interrupt.context.code = Code.owed m.context.code := by
      rw [context_interrupt]
      simp [Code.owed, interruptCode]
    refine ⟨wakeAt, hseeking hcall, hleft, ?_⟩
    rw [howed]
    exact hbound
  · intro ticks hmem
    rw [context_interrupt] at hmem
    have hbefore : .doze ticks ∈ m.context.code := by simpa [interruptCode] using hmem
    exact Bool.noConfusion (hcalm.1 _ hbefore)

omit [Backend P] [LawfulBackend P] in
theorem fresh (config : Config) (policy : Policy) (cpu : P) (values : List Int32) (mutexes : Nat)
    (console : Console) : (fresh config policy cpu values mutexes console).Posture := by
  have hcode : (Machine.fresh config policy cpu values mutexes console).context.code = [] := by
    rw [context_fresh]
  have hrunning := ThreadTable.state_initial_idle
  constructor
  · intro id hid
    show ThreadTable.initial.state id ≠ .running
    have hother : ¬ id = ThreadId.idle := hid
    rw [ThreadTable.state_initial, if_neg hother]
    simp
  · exact fun _ => hrunning
  · exact fun _ => .inl hrunning
  · rintro (⟨-, hwaiting⟩ | hblock)
    · cases hrunning.symm.trans hwaiting
    · rw [hcode] at hblock
      cases hblock
  · intro _ hsleeping
    cases hrunning.symm.trans hsleeping
  · intro ticks hmem
    rw [hcode] at hmem
    cases hmem

theorem goes {move : Move} (h : m.Posture) (hregular : m.Regular past) (hpopulated : m.Populated)
    (hgoes : m.Goes move after) : after.Posture := by
  cases hgoes with
  | spin => exact h
  | step hstepped => exact h.perform hregular hpopulated hstepped
  | switch hcode hswitched => exact h.switch hregular hcode hswitched
  | call request hcode => exact h.call hregular.seated hcode request
  | interrupt henabled => exact h.interrupt hregular.seated hregular.orderly henabled

end Posture

/-- What holds in every run under a policy that keeps its contract. -/
structure Governed (past : List (Transition P)) (m : Machine P) : Prop where
  regular : m.Regular past
  populated : m.Populated
  posture : m.Posture
  asked : ∀ (id : ThreadId) (request : Request), asked past id = some request →
    m.kernel.table.contains id = true

omit [LawfulBackend P] in
theorem contains_of_goes {move : Move} {id : ThreadId} (hgoes : m.Goes move after)
    (h : m.kernel.table.contains id = true) : after.kernel.table.contains id = true := by
  cases hgoes with
  | spin | call | interrupt => exact h
  | step hstepped =>
      rw [hstepped.effect.table]
      exact Step.contains_tableAfter h
  | switch hcode hswitched =>
      rw [hswitched.kernel]
      exact h

/-- A created thread that blocks, wakes another one or counts a tick down is running. -/
theorem Governed.running_of_urgent (h : m.Governed past)
    (hid : m.executing ≠ ThreadId.idle) (hseat : m.executing = m.kernel.table.current)
    (hnext : m.nextStep? = some step) (hurgent : step.isUrgent = true ∨ step = .block)
    (hdispatch : ∀ target, step ≠ .dispatch target) :
    m.kernel.table.state m.executing = .running := by
  rcases h.posture.home hseat with hrunning | hleaves | ⟨hidle, -⟩
  · exact hrunning
  · rcases hleaves.head?_cases hnext with ⟨target, htarget⟩ | ⟨hcalm, hblock⟩
    · exact absurd htarget (hdispatch target)
    · rcases hurgent with hurgent | hurgent
      · rw [hcalm] at hurgent
        cases hurgent
      · exact absurd hurgent hblock
  · exact absurd hidle hid

theorem Governed.goes {move : Move} (h : m.Governed past) (hgoes : m.Goes move after) :
    after.Governed (past ++ [⟨m, move⟩]) where
  regular := h.regular.goes hgoes
  populated := h.populated.goes h.regular.objects h.regular.seated h.regular.orderly
    h.regular.employed hgoes
  posture := h.posture.goes h.regular h.populated hgoes
  asked id request hasked := by
    refine contains_of_goes hgoes ?_
    cases move with
    | exec => exact h.asked id request (asked_exec past m id ▸ hasked)
    | interrupt => exact h.asked id request (asked_interrupt past m id ▸ hasked)
    | call other =>
        rw [asked_call] at hasked
        split at hasked
        next heq => exact heq ▸ h.populated.executing
        next => exact h.asked id request hasked

/-- A created thread that is current does not wait for its turn. -/
def Steady (m : Machine P) : Prop :=
  m.kernel.table.current ≠ ThreadId.idle →
    m.kernel.table.state m.kernel.table.current ≠ .ready

theorem Steady.perform (h : m.Steady) (hgoverned : m.Governed past)
    (hstepped : m.Stepped step rest pushed after) : after.Steady := by
  intro hidle hready
  have hseated := hgoverned.regular.seated
  have hnext : m.nextStep? = some step := by simp [nextStep?, hstepped.code]
  rw [hstepped.effect.table] at hidle hready
  rw [Step.state_tableAfter] at hready
  by_cases hdispatch : ∃ target, step = .dispatch target
  · obtain ⟨target, rfl⟩ := hdispatch
    rw [Step.tableAfter, ThreadTable.current_dispatch, Step.stateAfter] at hready
    split at hready
    next hback =>
        have hblocked := ((m.kernel.table.handsBack_iff target).1 hback).2
        rw [hready] at hblocked
        cases hblocked
    next =>
        rw [if_pos rfl] at hready
        cases hready
  · have hsame : (step.tableAfter m.kernel.table).current = m.kernel.table.current :=
      Step.current_tableAfter fun target htarget => absurd ⟨target, htarget⟩ hdispatch
    rw [hsame] at hidle hready
    have hrunning : step.isUrgent = true →
        m.kernel.table.state m.kernel.table.current = .running := by
      intro hurgent
      have hfree : step ≠ .free .table := by
        rintro rfl
        cases hurgent
      have hseat := hseated.executing_eq hstepped.code hfree hstepped.stays
      rw [← hseat] at hidle ⊢
      exact hgoverned.running_of_urgent hidle hseat hnext (.inl hurgent)
        fun target htarget => hdispatch ⟨target, htarget⟩
    rcases Step.ready_before hready with hbefore | ⟨target, htarget, -⟩ | ⟨rfl, hwaiting⟩ |
      ⟨rfl, hsleeping⟩ | hnew
    · exact h hidle hbefore
    · exact hdispatch ⟨target, htarget⟩
    · rw [hrunning rfl] at hwaiting
      cases hwaiting
    · rw [hrunning rfl] at hsleeping
      cases hsleeping
    · rw [ThreadTable.isNext_eq_false hgoverned.populated.current] at hnew
      cases hnew

omit [LawfulBackend P] in
theorem Steady.switch {next prev : ThreadId} (h : m.Steady)
    (hswitched : (m.setCode rest).Switched next prev after) : after.Steady := by
  rw [Steady, hswitched.kernel]
  exact h

theorem Steady.goes {move : Move} (h : m.Steady) (hgoverned : m.Governed past)
    (hgoes : m.Goes move after) : after.Steady := by
  cases hgoes with
  | spin => exact h
  | step hstepped => exact h.perform hgoverned hstepped
  | switch hcode hswitched => exact h.switch hswitched
  | call request => exact h
  | interrupt => exact h

end Machine

variable [Backend P] [LawfulBackend P] {config : Config} {policy : Policy} {cpu : P}
  {values : List Int32} {mutexes : Nat} {console : Console} {past : List (Transition P)}
  {m : Machine P}

theorem Run.governed (hpolicy : policy.Sound)
    (run : Run (.fresh config policy cpu values mutexes console) past m) : m.Governed past := by
  have start : Run (.fresh config policy cpu values mutexes console) [] _ := .nil
  refine run.invariant (fun past m => m.Governed past) ?_ fun _ _ _ _ h hgoes => h.goes hgoes
  exact ⟨start.regular, .fresh config hpolicy cpu values mutexes console,
    .fresh config policy cpu values mutexes console, nofun⟩

theorem Run.steady (hpolicy : policy.Sound)
    (run : Run (.fresh config policy cpu values mutexes console) past m) : m.Steady := by
  apply run.invariant fun _ m => m.Steady
  · exact fun hidle => absurd rfl hidle
  · exact fun past m move run h hgoes => h.goes (run.governed hpolicy) hgoes

end TickKernel
