import TickKernel.Proofs.Requests
import TickKernel.Proofs.Stretch

/-!
# Mutual exclusion

A thread that returned from `lock` and has not unlocked as the owner since is the
recorded owner.  Ownership moves by an attempt of the new owner, or by the old
owner's release, and by nothing else; so whoever got past its own attempt, or was
handed the mutex meanwhile, still has it when it returns.
-/

namespace TickKernel

variable {P : Type}

/-- A mutex that has an owner keeps it until that owner releases it. -/
theorem Shared.Claims.owner_kept {before after : Shared} {step : Step} {pushed : List Step}
    {index : Nat} {id : ThreadId} (h : before.Claims after step pushed)
    (howner : before.owner index = some id) (hkeeps : step ≠ .tryRelease index id) :
    after.owner index = some id := by
  by_cases hown : step.mutex? = some index
  · cases h with
    | absent _ hafter | again _ hafter | barred _ _ hafter => rw [hafter, howner]
    | refused _ hsame =>
        rw [Shared.owner, hsame]
        exact howner
    | entered hfree =>
        cases hown
        rw [hfree] at howner
        cases howner
    | freed hme | passed hme =>
        cases hown
        rw [hme] at howner
        exact absurd (by rw [Option.some.inj howner]) hkeeps
  · rw [(h.other hown).1, howner]

structure Transition.Returns (t : Transition P) (before : List (Transition P)) (id : ThreadId)
    (request : Request) : Prop where
  executing : t.before.executing = id
  asked : TickKernel.asked before id = some request
  finishes : ∃ reply, t.step? = some (.finish reply)

theorem Machine.Regular.code_of_returns [Backend P] [LawfulBackend P]
    {past before : List (Transition P)} {m : Machine P} {move : Move} {id : ThreadId}
    {request : Request} (h : m.Regular past)
    (hreturns : Transition.Returns ⟨m, move⟩ before id request) :
    ∃ reply, (m.contextOf id).code = [.finish reply] := by
  obtain ⟨reply, hstep⟩ := hreturns.finishes
  rw [contextOf_executing hreturns.executing]
  exact ⟨reply, h.orderly.code_of_finish (nextStep?_of_step? hstep)⟩

structure Transition.GivesUp (t : Transition P) (id : ThreadId) (index : Nat) : Prop where
  executing : t.before.executing = id
  owner : t.before.shared.owner index = some id
  releases : t.step? = some (.tryRelease index id)

/-- A thread returned from `lock` and has not unlocked as the owner since. -/
def Holding (past : List (Transition P)) (index : Nat) (id : ThreadId) : Prop :=
  ∃ before t later, past = before ++ t :: later ∧ t.Returns before id (.lock index) ∧
    ∀ other ∈ later, ¬ other.GivesUp id index

theorem holding_append {past : List (Transition P)} {t : Transition P} {index : Nat}
    {id : ThreadId} (h : Holding (past ++ [t]) index id) :
    t.Returns past id (.lock index) ∨ Holding past index id ∧ ¬ t.GivesUp id index :=
  since_append.1 h

theorem holding_of_not_finish {past : List (Transition P)} {t : Transition P} {index : Nat}
    {id : ThreadId} (h : Holding (past ++ [t]) index id)
    (hstep : ∀ reply, t.step? ≠ some (.finish reply)) : Holding past index id := by
  rcases holding_append h with hreturns | ⟨hheld, -⟩
  · obtain ⟨reply, hreply⟩ := hreturns.finishes
    exact absurd hreply (hstep reply)
  · exact hheld

namespace Machine

variable [Backend P]

/-- Who holds a mutex, and who got past its attempt to acquire one, owns it. -/
structure Custody (past : List (Transition P)) (mutexes : Nat) (m : Machine P) : Prop where
  size : m.shared.mutexes.size = mutexes
  holding : ∀ (index : Nat) (id : ThreadId), index < mutexes → Holding past index id →
    m.shared.owner index = some id
  leaving : ∀ (index : Nat) (id : ThreadId), index < mutexes →
    asked past id = some (.lock index) → Code.isOperation (m.contextOf id).code →
      Code.seeking (m.contextOf id).code = none → m.shared.owner index = some id

theorem Stepped.owner_kept {m after : Machine P} {step : Step} {rest pushed : List Step}
    (hstepped : m.Stepped step rest pushed after) (h : m.shared.Sound) {index : Nat}
    {id : ThreadId} (howner : m.shared.owner index = some id)
    (hkeeps : step ≠ .tryRelease index id) : after.shared.owner index = some id := by
  cases hasks : step.asksMutex with
  | true => exact (hstepped.claims h hasks).1.owner_kept howner hkeeps
  | false => rw [hstepped.owner_eq hasks, howner]

namespace Custody

variable [LawfulBackend P] {past : List (Transition P)} {mutexes : Nat} {m after : Machine P}
  {step : Step} {rest pushed : List Step}

omit [Backend P] [LawfulBackend P] in
theorem fresh (config : Config) (policy : Policy) (cpu : P) (values : List Int32) (mutexes : Nat)
    (console : Console) : (fresh config policy cpu values mutexes console).Custody [] mutexes where
  size := by simp [Machine.fresh, boot, Shared.new]
  holding _ _ _ h := by
    obtain ⟨before, t, later, heq, -⟩ := h
    simp at heq
  leaving _ _ _ h := by cases h

omit [LawfulBackend P] in
/-- Who finds the mutex its own when it attempts to acquire it owns it afterwards. -/
theorem owner_of_settles (hstepped : m.Stepped step rest pushed after) (h : m.shared.Sound)
    {index : Nat} {me : ThreadId} (hstep : step = .tryAcquire index me)
    (hsettles : Settles m.kernel step pushed) (hbound : index < m.shared.mutexes.size) :
    after.shared.owner index = some me := by
  subst hstep
  obtain ⟨hclaims, -⟩ := hstepped.claims h rfl
  cases hsettles
  cases hclaims with
  | absent hnone hafter hline =>
      rw [Array.getElem?_eq_none_iff] at hnone
      omega
  | entered hfree hline hafter hlineAfter => rw [hafter, Function.update_self]
  | again hme hafter hline => rw [hafter, hme]

/-- Whoever holds a mutex or is past its attempt keeps it over the steps of others. -/
theorem leaving_of_perform (h : m.Custody past mutexes) (hregular : m.Regular past)
    (hstepped : m.Stepped step rest pushed after) {index : Nat} (hbound : index < mutexes)
    (hasked : asked past m.executing = some (.lock index))
    (hoperation : Code.isOperation (pushed ++ rest))
    (hseeking : Code.seeking (pushed ++ rest) = none) :
    after.shared.owner index = some m.executing := by
  have hserves := hregular.served hstepped
  rw [hasked] at hserves
  have hfits := hregular.orderly.fits hstepped
  by_cases hsettles : Settles m.kernel step pushed
  · cases hsettles with
    | @acquired mutex me =>
        obtain ⟨hrequest, rfl⟩ := hserves
        obtain rfl : index = mutex := by injection Option.some.inj hrequest
        exact owner_of_settles hstepped hregular.objects rfl .acquired (h.size ▸ hbound)
    | taken => cases hserves.1
    | awake => obtain ⟨ticks, hticks⟩ := hserves; cases hticks
  · have hdeadline : ∀ ticks, step ≠ .setDeadline ticks := by
      rintro ticks rfl
      obtain ⟨ticks, hticks⟩ := hserves
      cases hticks
    rw [hstepped.expands.seeking_eq hfits hsettles hdeadline] at hseeking
    refine hstepped.owner_kept hregular.objects ?_ ?_
    · refine h.leaving index m.executing hbound hasked ?_ ?_
      · rw [contextOf_executing rfl, hstepped.code]
        exact hstepped.expands.isOperation hoperation
      · rw [contextOf_executing rfl, hstepped.code]
        exact hseeking
    · rintro rfl
      cases hserves.1

theorem perform (h : m.Custody past mutexes) (hregular : m.Regular past)
    (hstepped : m.Stepped step rest pushed after) :
    after.Custody (past ++ [⟨m, .exec⟩]) mutexes := by
  have hserves := hregular.served hstepped
  -- a release of the owner is done by the owner
  have hrelease : ∀ {index : Nat} {id : ThreadId}, step = .tryRelease index id →
      id = m.executing := by
    rintro index id rfl
    exact hserves.2
  refine ⟨hstepped.mutexes_size.trans h.size, ?_, ?_⟩
  · intro index id hbound hholding
    rcases holding_append hholding with hreturns | ⟨hheld, hkeeps⟩
    · obtain ⟨reply, hreply⟩ := hreturns.finishes
      rw [hstepped.step?_eq] at hreply
      obtain rfl := Option.some.inj hreply
      have hexecuting : m.executing = id := hreturns.executing
      obtain rfl : rest = [] := hregular.orderly.fits hstepped
      refine hstepped.owner_kept hregular.objects ?_ (by simp)
      refine h.leaving index id hbound hreturns.asked ?_ ?_
      · rw [contextOf_executing hexecuting, hstepped.code]
        exact ⟨by simp, by simp⟩
      · rw [contextOf_executing hexecuting, hstepped.code]
        rfl
    · have howner := h.holding index id hbound hheld
      refine hstepped.owner_kept hregular.objects howner ?_
      intro hstep
      refine hkeeps ⟨(hrelease hstep).symm, howner, ?_⟩
      rw [hstepped.step?_eq, hstep]
  · intro index id hbound hasked hoperation hseeking
    rw [asked_exec] at hasked
    by_cases hid : id = m.executing
    · subst hid
      rw [contextOf_executing hstepped.effect.executing, hstepped.code_after]
        at hoperation hseeking
      exact h.leaving_of_perform hregular hstepped hbound hasked hoperation hseeking
    · rw [hstepped.effect.others id hid] at hoperation hseeking
      refine hstepped.owner_kept hregular.objects ?_ fun hstep => hid (hrelease hstep)
      exact h.leaving index id hbound hasked hoperation hseeking

theorem switch {next prev : ThreadId} (h : m.Custody past mutexes) (hregular : m.Regular past)
    (hcode : m.context.code = .switch next prev :: rest)
    (hswitched : (m.setCode rest).Switched next prev after) :
    after.Custody (past ++ [⟨m, .exec⟩]) mutexes := by
  have hshared : after.shared = m.shared := hswitched.shared
  refine ⟨hshared ▸ h.size, ?_, ?_⟩
  · intro index id hbound hholding
    rw [hshared]
    refine h.holding index id hbound (holding_of_not_finish hholding fun reply => ?_)
    simp [Transition.step?, nextStep?, hcode, spins]
  · intro index id hbound hasked hoperation hseeking
    rw [asked_exec] at hasked
    rw [hshared]
    refine h.leaving index id hbound hasked ?_ ?_
    all_goals
      rcases hregular.employed.contextOf_switched hregular.seated hcode hswitched id with
        ⟨rfl, hafter⟩ | ⟨-, hafter | ⟨hnone, -⟩⟩
      · rw [hafter] at hoperation hseeking
        rw [contextOf_executing rfl, hcode]
        first
        | exact (Code.isOperation_append [_] hoperation.1).2 hoperation
        | exact (Code.seeking_cons hoperation.1).trans hseeking
      · rw [hafter] at hoperation hseeking
        assumption
      · rw [hnone] at hasked
        cases hasked

theorem goes {move : Move} (h : m.Custody past mutexes) (hregular : m.Regular past)
    (hgoes : m.Goes move after) : after.Custody (past ++ [⟨m, move⟩]) mutexes := by
  cases hgoes with
  | spin hnone =>
      refine ⟨h.size, fun index id hbound hholding => ?_, fun index id hbound hasked => ?_⟩
      · refine h.holding index id hbound (holding_of_not_finish hholding fun reply => ?_)
        rw [hnone]
        exact nofun
      · rw [asked_exec] at hasked
        exact h.leaving index id hbound hasked
  | step hstepped => exact h.perform hregular hstepped
  | switch hcode hswitched => exact h.switch hregular hcode hswitched
  | call request hcode =>
      refine ⟨h.size, fun index id hbound hholding => ?_, ?_⟩
      · exact h.holding index id hbound (holding_of_not_finish hholding nofun)
      · intro index id hbound hasked hoperation hseeking
        by_cases hid : m.executing = id
        · subst hid
          rw [asked_call, if_pos rfl] at hasked
          obtain rfl := Option.some.inj hasked
          rw [contextOf_executing (executing_call m _), context_call] at hseeking
          cases hseeking
        · rw [asked_call, if_neg hid] at hasked
          rw [contextOf_call_of_ne m request (Ne.symm hid)] at hoperation hseeking
          exact h.leaving index id hbound hasked hoperation hseeking
  | interrupt henabled =>
      refine ⟨h.size, fun index id hbound hholding => ?_, ?_⟩
      · exact h.holding index id hbound (holding_of_not_finish hholding nofun)
      · intro index id hbound hasked hoperation hseeking
        rw [asked_interrupt] at hasked
        by_cases hid : id = m.executing
        · subst hid
          rw [contextOf_executing (executing_interrupt m), context_interrupt]
            at hoperation hseeking
          obtain ⟨hbefore, hsame⟩ := Code.isOperation_interrupt hoperation
          exact h.leaving index m.executing hbound hasked hbefore (hsame ▸ hseeking)
        · rw [contextOf_interrupt_of_ne m hid] at hoperation hseeking
          exact h.leaving index id hbound hasked hoperation hseeking

end Custody

theorem At.leads_of_not_owner {m : Machine P} {index : Nat}
    (h : m.At (Request.unlock index).code ⟨0, []⟩)
    (howner : m.shared.owner index ≠ some m.executing) :
    ∃ last after, m.Still 11 last ∧ last.Leads m.Untouched 1 after ∧
      after.context.code = Code.done := by
  obtain ⟨trying, hfirst, hattempt⟩ := h.reaches_tryRelease
  obtain ⟨pushed, hstepped, hrefused⟩ := hattempt.exec_step (by simp [Step.IsDead]) rfl
  have hsame := hfirst.untouched
  have hother : trying.shared.owner index ≠ some trying.executing := by
    rw [hsame.executing, Shared.owner, hsame.mutexes]
    exact howner
  have hclaims := (hstepped.claims hattempt.objects rfl).1
  cases hclaims with
  | freed hme _ _ _ => exact absurd hme hother
  | passed hme _ _ _ => exact absurd hme hother
  | refused _ hmutexes =>
      have hkept : trying.Untouched trying.exec :=
        ⟨hstepped.effect.executing, hstepped.effect.table, hmutexes,
          hstepped.effect.semaphores rfl⟩
      have hsecond := hfirst.trans (Still.one hkept (hrefused.masked (by simp)))
      obtain ⟨last, hthird, hleaves⟩ :=
        At.glide [.free (.mutex index), .unmask] hrefused (by simp [Step.IsDead])
      have hlast := hsecond.trans hthird
      obtain ⟨hdone, hend⟩ := At.exec_quiet hleaves rfl (by simp [Step.IsDead])
      exact ⟨last, last.exec, hlast, .one (hlast.untouched.trans hend), hdone.code⟩

end Machine

variable [Backend P] [LawfulBackend P]

theorem Run.custody {config : Config} {policy : Policy} {cpu : P} {values : List Int32}
    {mutexes : Nat} {console : Console} {past : List (Transition P)} {m : Machine P}
    (run : Run (.fresh config policy cpu values mutexes console) past m) :
    m.Custody past mutexes := by
  have start : Run (.fresh config policy cpu values mutexes console) [] _ := .nil
  refine (run.invariant (fun past m => m.Regular past ∧ m.Custody past mutexes) ?_ ?_).2
  · exact ⟨start.regular, .fresh config policy cpu values mutexes console⟩
  · rintro past m move - ⟨hregular, hcustody⟩ hgoes
    exact ⟨hregular.goes hgoes, hcustody.goes hregular hgoes⟩

/--
A mutex excludes: its owner is whoever returned from `lock` and has not unlocked
since, and it is locked just when it has an owner.  Unlocking does nothing for
anybody else, who comes to its return without an interrupt in between.
-/
theorem Run.mutual_exclusion {config : Config} {policy : Policy} {cpu : P}
    {values : List Int32} {mutexes : Nat} {console : Console} {past : List (Transition P)}
    {m : Machine P} (run : Run (.fresh config policy cpu values mutexes console) past m)
    {index : Nat} (hindex : index < mutexes) :
    ∃ mutex, m.shared.mutexes[index]? = some mutex ∧
      (∀ id, Holding past index id → mutex.owner = some id) ∧
      (∀ id other, Holding past index id → Holding past index other → id = other) ∧
      (mutex.locked = true ↔ mutex.owner.isSome = true) ∧
      (m.context.code = (Request.unlock index).code → mutex.owner ≠ some m.executing →
        ∃ count, (Machine.exec^[count] m).context.code = Code.done ∧
          (∀ k, 0 < k → k < count → (Machine.exec^[k] m).interruptsEnabled = false) ∧
          ∀ k, k ≤ count → (Machine.exec^[k] m).executing = m.executing ∧
            (Machine.exec^[k] m).shared.mutexes = m.shared.mutexes ∧
            (Machine.exec^[k] m).kernel.table = m.kernel.table) := by
  have hregular := run.regular
  have hcustody := run.custody
  have hbound : index < m.shared.mutexes.size := hcustody.size ▸ hindex
  obtain ⟨mutex, hmutex⟩ : ∃ mutex, m.shared.mutexes[index]? = some mutex :=
    ⟨_, Array.getElem?_eq_getElem hbound⟩
  have howner : m.shared.owner index = mutex.owner := by simp [Shared.owner, hmutex]
  have hholding : ∀ id, Holding past index id → mutex.owner = some id := by
    intro id hid
    rw [← howner]
    exact hcustody.holding index id hindex hid
  refine ⟨mutex, hmutex, hholding, ?_, ?_, ?_⟩
  · intro id other hid hother
    have hsame := (hholding id hid).symm.trans (hholding other hother)
    exact Option.some.inj hsame
  · rw [(hregular.objects.mutexes index mutex hmutex).locked_eq]
  · intro hcode hnot
    have hat := Machine.At.of_unlock hregular.orderly hregular.objects hregular.seated hcode
    obtain ⟨last, after, hstill, hleads, hdone⟩ := hat.leads_of_not_owner (howner ▸ hnot)
    have hall : m.Leads m.Untouched 12 after := (hstill.imp fun _ hgood => hgood.1).trans hleads
    refine ⟨12, ?_, ?_, ?_⟩
    · rw [hall.reaches]
      exact hdone
    · intro k hpos hlt
      exact (hstill.keeps k hpos (by omega)).2
    · intro k hle
      rcases Nat.eq_zero_or_pos k with rfl | hpos
      · exact ⟨rfl, rfl, rfl⟩
      · have hsame := hall.keeps k hpos hle
        exact ⟨hsame.executing, hsame.mutexes, hsame.table⟩

/-- The idle thread calls `lock` on a free mutex. -/
def locking : List Move :=
  .call (.lock 0) :: List.replicate 13 .exec

/-- A new thread comes to wait for the mutex. -/
def queueing : List Move :=
  .call (.create "waiter" ⟨0x1000, 0⟩ 4096 (some 0x10000)) :: List.replicate 20 .exec
    ++ .call .yield :: List.replicate 13 .exec
    ++ .call (.lock 0) :: List.replicate 28 .exec

/-- The idle thread unlocks the mutex, and the waiting thread is about to leave `lock`. -/
def passing : List Move :=
  .call (.unlock 0) :: List.replicate 36 .exec

/-- While the new owner sleeps, the idle thread begins to unlock once more. -/
def meddling : List Move :=
  .call (.sleep 5) :: List.replicate 20 .exec ++ [.call (.unlock 0)]

/-- A mutex with a thread in line is handed over, and its former owner cannot unlock it again. -/
theorem Run.mutual_exclusion_of_meddling :
    ∃ (past later : List (Transition Host)) (held m : Machine Host),
      Run (.fresh {} .roundRobin {} [] 1 { sinks := [], installed := none }) past held ∧
        Holding past 0 ThreadId.idle ∧ held.shared.owner 0 = some ThreadId.idle ∧
          held.shared.mutexLine 0 = [0] ∧
      Run held later m ∧ Holding (past ++ later) 0 0 ∧ m.shared.owner 0 = some 0 ∧
        m.executing = ThreadId.idle ∧ m.context.code = (Request.unlock 0).code ∧
          ∃ count, (Machine.exec^[count] m).context.code = Code.done ∧
            (Machine.exec^[count] m).shared.owner 0 = some 0 := by
  let start : Machine Host := .fresh {} .roundRobin {} [] 1 { sinks := [], installed := none }
  let first := locking.foldl Machine.after start
  let held := queueing.foldl Machine.after (first.after .exec)
  let second := passing.foldl Machine.after held
  let m := meddling.foldl Machine.after (second.after .exec)
  let past := start.transitions locking ++ ⟨first, .exec⟩ ::
    (first.after .exec).transitions queueing
  let later := held.transitions passing ++ ⟨second, .exec⟩ ::
    (second.after .exec).transitions meddling
  have run : Run start past held := .of_plays_at (by decide +kernel) (by decide +kernel)
  have more : Run held later m := .of_plays_at (by decide +kernel) (by decide +kernel)
  have hkept : ∀ t ∈ (first.after .exec).transitions queueing,
      t.step? ≠ some (.tryRelease 0 ThreadId.idle) := by decide +kernel
  have hheld : Holding past 0 ThreadId.idle :=
    ⟨_, _, _, rfl, ⟨by decide +kernel, by decide +kernel, .done, by decide +kernel⟩,
      fun t hmem hgives => hkept t hmem hgives.releases⟩
  have hkeeps : ∀ t ∈ (second.after .exec).transitions meddling,
      t.step? ≠ some (.tryRelease 0 0) := by decide +kernel
  have hpassed : Holding (past ++ later) 0 0 :=
    ⟨past ++ held.transitions passing, _, _, (List.append_assoc _ _ _).symm,
      ⟨by decide +kernel, by decide +kernel, .done, by decide +kernel⟩,
      fun t hmem hgives => hkeeps t hmem hgives.releases⟩
  have hme : m.executing = ThreadId.idle := by decide +kernel
  have hcode : m.context.code = (Request.unlock 0).code := by decide +kernel
  obtain ⟨mutex, hmutex, howner, -⟩ := Run.mutual_exclusion run (show 0 < 1 by decide)
  have hbefore : held.shared.owner 0 = some ThreadId.idle := by
    rw [Shared.owner, hmutex]
    exact howner _ hheld
  obtain ⟨mutex, hmutex, howner, -, -, hrefused⟩ :=
    Run.mutual_exclusion (run.trans more) (show 0 < 1 by decide)
  have hafter : m.shared.owner 0 = some 0 := by
    rw [Shared.owner, hmutex]
    exact howner _ hpassed
  obtain ⟨count, hdone, -, hsame⟩ := hrefused hcode (by rw [howner _ hpassed, hme]; decide)
  refine ⟨past, later, held, m, run, hheld, hbefore, by decide +kernel, more, hpassed, hafter, hme,
    hcode, count, hdone, ?_⟩
  rw [Shared.owner, (hsame count (Nat.le_refl count)).2.1]
  exact hafter

end TickKernel
