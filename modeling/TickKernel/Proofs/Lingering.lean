import TickKernel.Proofs.Handoff
import TickKernel.Proofs.LeftAlone
import TickKernel.Proofs.Units
import TickKernel.Proofs.Wakeups

/-!
# Threads that take a unit out of turn

A thread in the queue of a semaphore that is dispatched before its turn may find a
unit and take it.  That does not take it off the queue: it returns from `wait`, lingers
in the queue, and uses up the next unit's wakeup.
-/

namespace TickKernel

variable {P : Type} [Backend P]

structure Transition.Overtakes (t : Transition P) (index : Nat) (id : ThreadId) : Prop where
  executing : t.before.executing = id
  takes : t.takes index = true
  queued : id ∈ t.before.shared.semaphoreLine index

structure Transition.TakesOff (t : Transition P) (index : Nat) (id : ThreadId) : Prop where
  gives : t.gives index = true
  oldest : (t.before.shared.semaphoreLine index).head? = some id

theorem Transition.gives_eq_false_of_takes {t : Transition P} {index : Nat}
    (h : t.takes index = true) : t.gives index = false := by
  rw [takes, Bool.and_eq_true, Option.any_eq_true] at h
  obtain ⟨⟨step, hstep, hattempts⟩, -⟩ := h
  rw [gives, hstep, Option.any_some]
  cases step <;> first | rfl | cases hattempts

/-- A thread took a unit out of turn and was not taken off the queue since. -/
def Lingers (past : List (Transition P)) (index : Nat) (id : ThreadId) : Prop :=
  Since (fun _ t => t.Overtakes index id) (·.TakesOff index id) past

namespace Machine

inductive Filing (m : Machine P) (index : Nat) (move : Move) (after : Machine P) : Prop where
  | kept : (Transition.gives ⟨m, move⟩ index = true → m.shared.semaphoreLine index = []) →
      after.shared.semaphoreLine index = m.shared.semaphoreLine index → Filing m index move after
  | joined : Transition.gives ⟨m, move⟩ index = false →
      Code.seeking (after.contextOf m.executing).code = some (.unit index) →
        after.shared.semaphoreLine index = m.shared.semaphoreLine index ++ [m.executing] →
          Filing m index move after
  | passed {oldest : ThreadId} : Transition.gives ⟨m, move⟩ index = true →
      m.shared.semaphoreLine index = oldest :: after.shared.semaphoreLine index →
        Filing m index move after

variable {past : List (Transition P)} {m after : Machine P} {step : Step}
  {rest pushed : List Step} {index : Nat} {id : ThreadId} {move : Move}

omit [Backend P] in
theorem Filing.of_not_gives (hgives : Transition.gives ⟨m, move⟩ index = false)
    (hline : after.shared.semaphoreLine index = m.shared.semaphoreLine index) :
    m.Filing index move after :=
  .kept (fun hgiven => Bool.noConfusion (hgives.symm.trans hgiven)) hline

omit [Backend P] in
/-- Only a unit that is given back takes a thread off the queue, and then for good. -/
theorem Filing.mem_iff (h : m.Filing index move after)
    (hnodup : (m.shared.semaphoreLine index).Nodup) (hbefore : id ∈ m.shared.semaphoreLine index) :
    id ∈ after.shared.semaphoreLine index ↔ ¬ Transition.TakesOff ⟨m, move⟩ index id := by
  cases h with
  | kept hempty hline =>
      rw [hline]
      refine iff_of_true hbefore fun htakes => ?_
      rw [hempty htakes.gives] at hbefore
      cases hbefore
  | joined hgives _ hline =>
      rw [hline]
      refine iff_of_true (List.mem_append_left _ hbefore) fun htakes => ?_
      exact Bool.noConfusion (hgives.symm.trans htakes.gives)
  | @passed oldest hgives hold =>
      have hsame : Transition.TakesOff ⟨m, move⟩ index id ↔ oldest = id := by
        refine ⟨fun htakes => ?_, fun heq => ⟨hgives, by rw [hold, heq]; rfl⟩⟩
        have holdest := htakes.oldest
        rw [hold] at holdest
        exact Option.some.inj holdest
      rw [hold] at hnodup hbefore
      rw [hsame]
      rcases List.mem_cons.1 hbefore with rfl | hothers
      · exact iff_of_false (List.nodup_cons.1 hnodup).1 (not_not_intro rfl)
      · refine iff_of_true hothers ?_
        rintro rfl
        exact (List.nodup_cons.1 hnodup).1 hothers

theorem Stepped.filing {struck : Prop} (hstepped : m.Stepped step rest pushed after)
    (hobjects : m.shared.Sound) (horderly : m.Orderly struck)
    (hserves : step.Serves m.executing (asked past m.executing)) : m.Filing index .exec after := by
  have hgives := hstepped.gives_eq index
  by_cases hown : step.semaphore? = some index
  · have hfits := horderly.fits hstepped
    cases (hstepped.deals hobjects (Step.asksSemaphore_of_semaphore? hown)).1 with
    | absent _ _ hline | taken _ _ _ hline => exact .of_not_gives hgives (by rw [hline])
    | @short _ me _ _ _ _ hline =>
        cases hown
        obtain rfl : me = m.executing := hserves.2
        obtain rfl : rest = [] := hfits
        have hafter := congrFun hline index
        rw [Function.update_self] at hafter
        split at hafter
        · exact .of_not_gives hgives hafter
        · refine .joined hgives ?_ hafter
          rw [contextOf_executing hstepped.effect.executing, hstepped.code_after]
          rfl
    | lost hnone _ hline =>
        cases hown
        exact .kept (fun _ => Shared.semaphoreLine_eq_nil hnone) (by rw [hline])
    | given _ hempty _ hline =>
        cases hown
        exact .kept (fun _ => hempty) (by rw [hline])
    | @woken _ _ _ heir line _ hold _ hline =>
        cases hown
        have hafter : after.shared.semaphoreLine index = line := by
          rw [hline, Function.update_self]
        exact .passed (hgives.trans (beq_self_eq_true index)) (hafter.symm ▸ hold)
  · refine .of_not_gives (hgives.trans ?_) (hstepped.semaphore_other hobjects hown).2
    cases step <;> first | rfl | exact beq_eq_false_iff_ne.2 fun heq => hown (congrArg some heq)

variable [LawfulBackend P]

theorem Regular.filing (h : m.Regular past) (hgoes : m.Goes move after) (index : Nat) :
    m.Filing index move after := by
  rcases hgoes.steps_or_still with ⟨step, rest, pushed, rfl, hstepped⟩ | ⟨hshared, hswitches⟩
  · exact hstepped.filing h.objects h.orderly (h.served hstepped)
  · refine .of_not_gives ?_ (by rw [hshared])
    rw [← Bool.not_eq_true, Transition.gives, Option.any_eq_true]
    rintro ⟨step, hstep, hgiven⟩
    obtain ⟨next, prev, rfl⟩ := Step.eq_switch (hswitches step hstep)
    cases hgiven

theorem Regular.seeking_or_takes (h : m.Regular past) (hgoes : m.Goes move after)
    (hseeking : Code.seeking (m.contextOf id).code = some (.unit index)) :
    Code.seeking (after.contextOf id).code = some (.unit index) ∨
      m.executing = id ∧ Transition.takes ⟨m, move⟩ index = true := by
  have hasked : asked past id = some (.wait index) := h.serves_of_seeking hseeking
  have hlater : asked (past ++ [⟨m, move⟩]) id ≠ none := by
    cases move with
    | exec => simp [hasked]
    | interrupt => simp [hasked]
    | call request =>
        rw [asked_call, hasked]
        split <;> nofun
  cases h.ending hgoes hlater with
  | kept hlast _ =>
      left
      rwa [Code.seeking, hlast]
  | @ended step pushed _ hid hstepped =>
      subst hid
      have hserves := h.served hstepped
      rw [hasked] at hserves
      rw [contextOf_executing rfl, hstepped.code] at hseeking
      cases hstepped.draws hserves hseeking with
      | seeks _ hlast hfound _ =>
          left
          rw [contextOf_executing hstepped.effect.executing, hstepped.code_after,
            List.append_nil, Code.seeking, hlast]
          exact hfound
      | takes _ _ htakes => exact .inr ⟨rfl, htakes⟩
  | called _ hid hcode | struck hid hcode =>
      rw [contextOf_executing hid, hcode] at hseeking
      cases hseeking

/-- Who is in a semaphore's queue, and who lingers there. -/
structure Lingering (past : List (Transition P)) (index : Nat) (m : Machine P) : Prop where
  inside : ∀ id ∈ m.shared.semaphoreLine index,
    Code.seeking (m.contextOf id).code = some (.unit index) ∨ Lingers past index id
  queued : ∀ id, Lingers past index id → id ∈ m.shared.semaphoreLine index

namespace Lingering

theorem inside_of_goes (h : m.Lingering past index) (hregular : m.Regular past)
    (hgoes : m.Goes move after) (id : ThreadId) (hmem : id ∈ after.shared.semaphoreLine index) :
    Code.seeking (after.contextOf id).code = some (.unit index) ∨
      Lingers (past ++ [⟨m, move⟩]) index id := by
  have hfiling := hregular.filing hgoes index
  by_cases hbefore : id ∈ m.shared.semaphoreLine index
  · have hkeeps := (hfiling.mem_iff (hregular.objects.semaphoreLine_nodup index) hbefore).1 hmem
    rcases h.inside id hbefore with hseeking | hlingers
    · refine (hregular.seeking_or_takes hgoes hseeking).imp_right fun ⟨hid, htakes⟩ => ?_
      exact since_append.2 (.inl ⟨hid, htakes, hbefore⟩)
    · exact .inr (since_append.2 (.inr ⟨hlingers, hkeeps⟩))
  · left
    cases hfiling with
    | kept _ hline => exact absurd (hline ▸ hmem) hbefore
    | joined _ hseeking hline =>
        rw [hline] at hmem
        have hnew := (List.mem_append.1 hmem).resolve_left hbefore
        obtain rfl : id = m.executing := List.mem_singleton.1 hnew
        exact hseeking
    | passed _ hold => exact absurd (hold ▸ .tail _ hmem) hbefore

theorem queued_of_goes (h : m.Lingering past index) (hregular : m.Regular past)
    (hgoes : m.Goes move after) (id : ThreadId)
    (hlingers : Lingers (past ++ [⟨m, move⟩]) index id) :
    id ∈ after.shared.semaphoreLine index := by
  have hfiling := hregular.filing hgoes index
  have hnodup := hregular.objects.semaphoreLine_nodup index
  rcases since_append.1 hlingers with hovertakes | ⟨hbefore, hkeeps⟩
  · refine (hfiling.mem_iff hnodup hovertakes.queued).2 fun htakesOff => ?_
    have hgives := Transition.gives_eq_false_of_takes hovertakes.takes
    exact Bool.noConfusion (hgives.symm.trans htakesOff.gives)
  · exact (hfiling.mem_iff hnodup (h.queued id hbefore)).2 hkeeps

theorem goes (h : m.Lingering past index) (hregular : m.Regular past)
    (hgoes : m.Goes move after) : after.Lingering (past ++ [⟨m, move⟩]) index where
  inside := h.inside_of_goes hregular hgoes
  queued := h.queued_of_goes hregular hgoes

omit [LawfulBackend P] in
theorem fresh (config : Config) (policy : Policy) (cpu : P) (values : List Int32) (mutexes : Nat)
    (console : Console) : (fresh config policy cpu values mutexes console).Lingering [] index where
  inside id hmem := by
    rw [show (Machine.fresh config policy cpu values mutexes console).shared =
      Shared.new values mutexes console from rfl, Shared.semaphoreLine_new] at hmem
    cases hmem
  queued id hlingers := by
    obtain ⟨before, t, later, heq, -⟩ := hlingers
    simp at heq

end Lingering

omit [LawfulBackend P] in
theorem Goes.tryTake_of_takes (h : m.Goes move after)
    (htakes : Transition.takes ⟨m, move⟩ index = true) :
    ∃ me rest pushed, m.Stepped (.tryTake index me) rest pushed after := by
  rw [Transition.takes, Bool.and_eq_true, Option.any_eq_true] at htakes
  obtain ⟨⟨step, hstep, hattempts⟩, -⟩ := htakes
  rcases h.steps_or_still with ⟨other, rest, pushed, rfl, hstepped⟩ | ⟨-, hswitches⟩
  · obtain rfl : other = step := Option.some.inj (hstepped.step?_eq.symm.trans hstep)
    cases other <;> try cases hattempts
    obtain rfl := beq_iff_eq.1 hattempts
    exact ⟨_, _, _, hstepped⟩
  · obtain ⟨next, prev, rfl⟩ := Step.eq_switch (hswitches step hstep)
    cases hattempts

/-- A thread that nobody switches to takes its unit in turn. -/
theorem LeftAlone.not_overtakes {t : Transition P} (h : t.before.LeftAlone id)
    (hgoverned : t.before.Governed past) (allowed : t.before.Allows t.move) :
    ¬ t.Overtakes index id := by
  obtain ⟨m, move⟩ := t
  rintro ⟨hid, htakes, hqueued⟩
  obtain rfl : m.executing = id := hid
  have hgoes := m.goes_after allowed
  obtain ⟨value, hstock⟩ : ∃ value, m.shared.stock index = some value := by
    rw [← Option.ne_none_iff_exists']
    intro hnone
    rw [Shared.semaphoreLine_eq_nil hnone] at hqueued
    cases hqueued
  cases hgoverned.regular.deal hgoes hstock with
  | kept hkept _ _ => exact Bool.noConfusion (hkept.symm.trans htakes)
  | given hgiven _ _ => exact Bool.noConfusion (hgiven.symm.trans htakes)
  | taken _ _ hpos _ =>
      obtain ⟨me, rest, pushed, hstepped⟩ := hgoes.tryTake_of_takes htakes
      exact h.not_mem_of_taken hgoverned hstepped hstock hpos hqueued

namespace At

omit [Backend P] [LawfulBackend P] in
theorem of_giveBack {struck : Prop} {andSwitch : Bool} (horderly : m.Orderly struck)
    (hobjects : m.shared.Sound) (hseated : m.Seated)
    (hcode : m.context.code = .giveBack index andSwitch :: rest) :
    m.At (.giveBack index andSwitch :: rest) ⟨2, [.semaphore index]⟩ := by
  refine ⟨horderly.mono fun _ => trivial, hobjects, hseated, hcode, ?_⟩
  have hown := horderly.own
  rw [hcode] at hown
  obtain ⟨-, -, ⟨-, hdead⟩ | ⟨hstands, -⟩⟩ := hown
  · exact hdead.elim
  · exact (Option.some.inj hstands).symm

omit [LawfulBackend P] in
/-- A unit that is given back takes the oldest thread off the queue, and wakes it. -/
theorem wakes_oldest {andSwitch : Bool} {oldest : ThreadId} {line : List ThreadId}
    (h : m.At (.giveBack index andSwitch :: rest) ⟨2, [.semaphore index]⟩)
    (hline : m.shared.semaphoreLine index = oldest :: line) :
    ∃ after, m.Alone 6 after ∧ after.shared.semaphoreLine index = line ∧
      after.kernel.table = Step.tableAfter (.wake oldest) m.kernel.table := by
  obtain ⟨pushed, hstepped, hgiven⟩ := h.exec_step (by simp [Step.IsDead]) rfl
  cases (hstepped.deals h.objects rfl).1 with
  | lost hnone _ _ => cases hline.symm.trans (Shared.semaphoreLine_eq_nil hnone)
  | given _ hempty _ _ => cases hline.symm.trans hempty
  | @woken _ _ _ next others _ hold _ hafter =>
      obtain ⟨rfl, rfl⟩ := List.cons.inj (hline.symm.trans hold)
      have hfirst := Alone.one hstepped.effect.executing (hgiven.masked (by simp))
      rw [List.append_assoc] at hgiven
      obtain ⟨waking, hsecond, hwake⟩ :=
        At.glide [.free (.semaphore index), .unmask, .mask, .take .table] hgiven
          (by simp [Step.IsDead])
      obtain ⟨pushed, hwakes, hwoken⟩ := hwake.exec_step (by simp [Step.IsDead]) rfl
      have hthird := Alone.one hwakes.effect.executing (hwoken.masked (by simp))
      refine ⟨waking.exec, (hfirst.trans (.of_still hsecond)).trans hthird, ?_, ?_⟩
      · rw [hwakes.semaphoreLine_eq rfl, hsecond.untouched.semaphoreLine, hafter,
          Function.update_self]
      · rw [hwakes.effect.table, hsecond.untouched.table, hstepped.effect.table]
        rfl

end At

theorem Governed.mem_line_of_giveBack (h : m.Governed past) (hwaiters : m.Waiters)
    {andSwitch : Bool} (hcode : m.context.code = .giveBack index andSwitch :: rest)
    (hasked : TickKernel.asked past id = some (.wait index))
    (hwaiting : m.kernel.table.state id = .waiting) : id ∈ m.shared.semaphoreLine index := by
  obtain ⟨call, hserves, hlisted⟩ := hwaiters.listed_or_wakes h hasked hwaiting
  obtain rfl := Blocking.eq_unit hserves
  refine hlisted.resolve_right fun hwakes => ?_
  have hwake := hwakes.1
  obtain rfl : rest = .unmask :: Code.done := h.regular.orderly.fits_of_code hcode
  rw [hcode] at hwake
  simp at hwake

/-- A unit that is given back while somebody waits wakes the oldest in the queue alone. -/
theorem Governed.wakes_oldest (h : m.Governed past) (hwaiters : m.Waiters) {andSwitch : Bool}
    (hnext : m.nextStep? = some (.giveBack index andSwitch))
    (hasked : TickKernel.asked past id = some (.wait index))
    (hwaiting : m.kernel.table.state id = .waiting) :
    id ∈ m.shared.semaphoreLine index ∧ ∃ oldest line after,
      m.shared.semaphoreLine index = oldest :: line ∧ m.Alone 6 after ∧
        after.shared.semaphoreLine index = line ∧
        ∀ other, after.kernel.table.state other =
          if other = oldest ∧ m.kernel.table.state other = .waiting then .ready
          else m.kernel.table.state other := by
  obtain ⟨rest, hcode⟩ := List.head?_eq_some_iff.1 hnext
  have hmem := h.mem_line_of_giveBack hwaiters hcode hasked hwaiting
  obtain ⟨oldest, line, hline⟩ := List.exists_cons_of_ne_nil (List.ne_nil_of_mem hmem)
  have hat := At.of_giveBack h.regular.orderly h.regular.objects h.regular.seated hcode
  obtain ⟨after, halone, hafter, htable⟩ := hat.wakes_oldest hline
  refine ⟨hmem, oldest, line, after, hline, halone, hafter, fun other => ?_⟩
  rw [htable, Step.state_tableAfter, Step.stateAfter]
  refine if_congr (and_congr_right fun hother => and_iff_right ?_) rfl rfl
  rw [hother]
  exact h.populated.semaphoreLine index oldest (hline ▸ List.mem_cons_self)

theorem Lingering.mem_iff_of_returns (h : m.Lingering past index) (hregular : m.Regular past)
    {request : Request} (hreturns : Transition.Returns ⟨m, .exec⟩ past id request) :
    id ∈ m.shared.semaphoreLine index ↔ Lingers past index id := by
  refine ⟨fun hmem => (h.inside id hmem).resolve_left fun hseeking => ?_, h.queued id⟩
  obtain ⟨reply, hcode⟩ := hregular.code_of_returns hreturns
  rw [hcode] at hseeking
  cases hseeking

end Machine

variable [LawfulBackend P] {config : Config} {policy : Policy} {cpu : P} {values : List Int32}
  {mutexes : Nat} {console : Console} {past : List (Transition P)} {m : Machine P} {index : Nat}
  {id : ThreadId}

theorem Run.lingering (run : Run (.fresh config policy cpu values mutexes console) past m) :
    m.Lingering past index := by
  refine run.invariant (fun past m => m.Lingering past index) ?_ ?_
  · exact .fresh config policy cpu values mutexes console
  · exact fun past m move run h hgoes => h.goes run.regular hgoes

/-- Nobody lingers in a queue but the idle thread and those that somebody switched to. -/
theorem Run.forced_of_lingers (hpolicy : policy.Sound)
    (run : Run (.fresh config policy cpu values mutexes console) past m)
    (hlingers : Lingers past index id) :
    id = ThreadId.idle ∨ ∃ t ∈ past, t.move = .call (.switchTo id) := by
  obtain ⟨before, t, later, rfl, hovertakes, -⟩ := hlingers
  obtain ⟨earlier, allowed⟩ := run.before
  by_contra hneither
  push Not at hneither
  have huntargeted : Untargeted before id := fun other hmem =>
    hneither.2 other (List.mem_append_left _ hmem)
  have hleft := (earlier.leftAlone hpolicy hneither.1 huntargeted).1
  exact hleft.not_overtakes (earlier.governed hpolicy) allowed hovertakes

/--
Who is in the queue of a semaphore, whatever the policy chooses and whoever is switched
to.  Each thread is there once, and is still in `wait` unless it took a unit out of turn
and lingers.  So `wait` returns with its caller in the queue exactly if the caller
lingers there, which only the idle thread and the targets of switches do.  A unit that
is given back while somebody waits wakes the oldest thread in the queue and no other,
even if that one only lingers there.
-/
theorem Run.lingering_waiters (hpolicy : policy.Sound)
    (run : Run (.fresh config policy cpu values mutexes console) past m)
    (hindex : index < values.length) :
    ∃ semaphore, m.shared.semaphores[index]? = some semaphore ∧
      semaphore.line.Nodup ∧ semaphore.waiting = semaphore.line.length ∧
      (∀ id ∈ semaphore.line, Lingers past index id ∨
        asked past id = some (.wait index) ∧ (m.contextOf id).answer = none) ∧
      (∀ id, Lingers past index id → id ∈ semaphore.line ∧
        (id = ThreadId.idle ∨ ∃ t ∈ past, t.move = .call (.switchTo id))) ∧
      (∀ id, Transition.Returns ⟨m, .exec⟩ past id (.wait index) →
        (id ∈ semaphore.line ↔ Lingers past index id)) ∧
      ∀ andSwitch waiter, m.nextStep? = some (.giveBack index andSwitch) →
        asked past waiter = some (.wait index) → m.kernel.table.state waiter = .waiting →
          waiter ∈ semaphore.line ∧ ∃ oldest line after, semaphore.line = oldest :: line ∧
            m.Alone 6 after ∧ after.shared.semaphoreLine index = line ∧
            ∀ id, after.kernel.table.state id =
              if id = oldest ∧ m.kernel.table.state id = .waiting then .ready
              else m.kernel.table.state id := by
  have hgoverned := run.governed hpolicy
  have hregular := hgoverned.regular
  have hlingering : m.Lingering past index := run.lingering
  obtain ⟨semaphore, hsemaphore, hline⟩ := run.exists_semaphore hindex
  have hlines := (hregular.objects.semaphores index semaphore hsemaphore).lines
  refine ⟨semaphore, hsemaphore, hlines.nodup, hlines.holds.size_eq, ?_⟩
  rw [← hline]
  refine ⟨?_, ?_, ?_, ?_⟩
  · intro id hmem
    refine (hlingering.inside id hmem).symm.imp_right fun hseeking => ?_
    exact ⟨hregular.serves_of_seeking hseeking,
      hregular.employed.unanswered id (Code.isOperation_of_seeking hseeking)⟩
  · exact fun id hlingers => ⟨hlingering.queued id hlingers, run.forced_of_lingers hpolicy hlingers⟩
  · exact fun id hreturns => hlingering.mem_iff_of_returns hregular hreturns
  · exact fun andSwitch waiter hnext hasked hwaiting =>
      hgoverned.wakes_oldest (run.waiters hpolicy) hnext hasked hwaiting

/-- Somebody switches to the second of two waiters, which finds the unit of the first. -/
def detour : List Move :=
  shortage ++ .call (.switchTo 1) :: List.replicate 24 .exec

/-- A thread that was switched to returns from `wait` and stays in the queue. -/
theorem Run.lingering_waiters_of_detour :
    ∃ (past : List (Transition Host)) (m : Machine Host),
      Run (.fresh {} .roundRobin {} [0] 0 { sinks := [], installed := none }) past m ∧
        Transition.Returns ⟨m, .exec⟩ past 1 (.wait 0) ∧
          m.shared.semaphoreLine 0 = [1] ∧ Lingers past 0 1 := by
  let start : Machine Host := .fresh {} .roundRobin {} [0] 0 { sinks := [], installed := none }
  let past := start.transitions detour
  let m := detour.foldl Machine.after start
  have run : Run start past m := .of_plays (by decide +kernel)
  have hline : m.shared.semaphoreLine 0 = [1] := by decide +kernel
  have hreturns : Transition.Returns ⟨m, .exec⟩ past 1 (.wait 0) :=
    ⟨by decide +kernel, by decide +kernel, .done, by decide +kernel⟩
  obtain ⟨semaphore, hsemaphore, -, -, -, -, hreturned, -⟩ :=
    Run.lingering_waiters Policy.sound_roundRobin run (show 0 < 1 by decide)
  refine ⟨past, m, run, hreturns, hline, (hreturned 1 hreturns).1 ?_⟩
  have hqueue : semaphore.line = [1] := by
    rw [← hline, Shared.semaphoreLine, hsemaphore]
    rfl
  rw [hqueue]
  exact List.mem_singleton_self 1

end TickKernel
