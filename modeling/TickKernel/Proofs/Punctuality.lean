import TickKernel.Proofs.Aftermath
import TickKernel.Proofs.Neighbours
import TickKernel.Proofs.Posture
import TickKernel.Proofs.Prompting

/-!
# What a tick leads to

A tick that was counted is followed by the countdown of the sleeping threads, that by the
closing of a statistics interval if one is due and by the policy's choice otherwise, and the
choice by its dispatch.  Nothing but the handling of guards and locks comes in between, and
nothing else leads to a countdown or to the closing of an interval.
-/

namespace TickKernel

variable {P : Type}

def Config.Closes (config : Config) (count : Nat) : Prop :=
  config.statsInterval ≠ 0 ∧ config.statsInterval.toNat ∣ count % UInt64.size

theorem Config.closesInterval_iff (config : Config) (count : Nat) :
    config.closesInterval (UInt64.ofNat count) = true ↔ config.Closes count := by
  have hword : (UInt64.ofNat count).toNat = count % UInt64.size := UInt64.toNat_ofNat'
  have hzero : ∀ word : UInt64, word = 0 ↔ word.toNat = 0 := fun word =>
    ⟨fun h => h ▸ rfl, fun h => UInt64.toNat_inj.1 h⟩
  rw [closesInterval, Closes, Bool.and_eq_true, bne_iff_ne, beq_iff_eq, hzero, UInt64.toNat_mod,
    hword, UInt32.toNat_toUInt64, Nat.dvd_iff_mod_eq_zero]

def ticksIn (past : List (Transition P)) : Nat :=
  past.countP fun t => t.step? == some .countTick

theorem ticksIn_append (past : List (Transition P)) (t : Transition P) :
    ticksIn (past ++ [t]) = ticksIn past + if t.step? = some .countTick then 1 else 0 := by
  rw [ticksIn, List.countP_append, ← ticksIn, List.countP_singleton]
  simp only [beq_iff_eq]

@[simp]
def Step.keepsTime : Step → Bool
  | .countDown | .closeInterval => true
  | _ => false

theorem Step.eq_of_keepsTime {step : Step} (h : step.keepsTime = true) :
    step = .countDown ∨ step = .closeInterval := by
  cases step
  case countDown => exact .inl rfl
  case closeInterval => exact .inr rfl
  all_goals cases h

/-- The policy's choice where the last transition that was not idle set in. -/
def lastChoice (past : List (Transition P)) : ThreadId :=
  (latest past).elim ThreadId.idle fun t => t.before.kernel.choice

theorem lastChoice_of_latest {past : List (Transition P)} {t : Transition P}
    (h : latest past = some t) : lastChoice past = t.before.kernel.choice := by
  rw [lastChoice, h, Option.elim_some]

namespace Kernel

def due (kernel : Kernel P) : List Step :=
  if kernel.config.closesInterval kernel.ticks.ticks then [.closeInterval] else []

def bound (kernel : Kernel P) (chosen : ThreadId) : Step → List Step
  | .countTick => [.take .table, .countDown] ++ kernel.due ++ Code.yieldUp
  | .countDown => kernel.due ++ Code.yieldUp
  | .closeInterval => Code.yieldUp
  | .choose .dispatch => [.free .table, .unmask] ++ Code.switchTo chosen
  | _ => []

variable {kernel other : Kernel P} {chosen : ThreadId} {step : Step}

theorem due_eq_nil_or (kernel : Kernel P) : kernel.due = [] ∨ kernel.due = [.closeInterval] := by
  unfold due
  split
  next => exact .inr rfl
  next => exact .inl rfl

/-- Besides the choice, what is bound to follow depends on the time alone. -/
theorem bound_congr (hconfig : other.config = kernel.config) (hticks : other.ticks = kernel.ticks)
    (chosen : ThreadId) (step : Step) : other.bound chosen step = kernel.bound chosen step := by
  have hdue : other.due = kernel.due := by rw [due, due, hconfig, hticks]
  simp only [bound, hdue]

theorem dropWhile_bound (kernel : Kernel P) (chosen : ThreadId) (step : Step) :
    (kernel.bound chosen step).dropWhile Step.isQuiet =
      match step with
      | .countTick => .countDown :: (kernel.due ++ Code.yieldUp)
      | .countDown =>
          if kernel.due = [] then [.choose .dispatch] else .closeInterval :: Code.yieldUp
      | .closeInterval => [.choose .dispatch]
      | .choose .dispatch => [.dispatch chosen]
      | _ => [] := by
  cases step
  case choose use => cases use <;> rfl
  case countDown => rcases kernel.due_eq_nil_or with hdue | hdue <;> (simp only [bound, hdue]; rfl)
  all_goals rfl

theorem bound_of_mem_closeInterval (h : .closeInterval ∈ kernel.bound chosen step) :
    .countDown ∈ kernel.bound chosen step ∨
      kernel.bound chosen step = .closeInterval :: Code.yieldUp := by
  cases step
  case countTick => exact .inl (by simp [bound])
  case countDown =>
      rcases kernel.due_eq_nil_or with hdue | hdue
      · simp [bound, hdue, Code.yieldUp] at h
      · exact .inr (by rw [bound, hdue]; rfl)
  case closeInterval => simp [bound, Code.yieldUp] at h
  case choose use => cases use <;> simp [bound] at h
  all_goals cases h

/-- The policy's choice comes next only on the way to a dispatch. -/
theorem bound_of_ahead {next : Step} (h : Code.ahead (kernel.bound chosen step) = some next)
    (hkeeps : next.keepsTime = false) (hurgent : next.isUrgent = false) :
    kernel.bound chosen step = Code.yieldUp := by
  cases step
  case countTick =>
      cases h
      cases hkeeps
  case countDown =>
      rcases kernel.due_eq_nil_or with hdue | hdue
      · rw [bound, hdue, List.nil_append]
      · rw [bound, hdue] at h
        cases h
        cases hkeeps
  case closeInterval => rfl
  case choose use =>
      cases use
      · cases h
      · cases h
        cases hurgent
  all_goals cases h

theorem keepsTime_behind (kernel : Kernel P) {last next : Step} {behind : List Step}
    (h : (kernel.bound chosen last).dropWhile Step.isQuiet = next :: behind)
    (hnext : next.keepsTime = false) : ∀ other ∈ behind, other.keepsTime = false := by
  have hlast : behind = [] := by
    rw [dropWhile_bound] at h
    split at h
    next =>
        obtain ⟨rfl, -⟩ := List.cons.inj h
        cases hnext
    next =>
        split at h
        next => exact (List.cons.inj h).2.symm
        next =>
            obtain ⟨rfl, -⟩ := List.cons.inj h
            cases hnext
    next => exact (List.cons.inj h).2.symm
    next => exact (List.cons.inj h).2.symm
    next => cases h
  exact hlast ▸ List.forall_mem_nil _

/-- Only a tick puts time-keeping steps in front of the others. -/
theorem Expands.keepsTime_eq_false {pushed : List Step} (h : kernel.Expands step pushed)
    (htick : step ≠ .countTick) : ∀ other ∈ pushed, other.keepsTime = false := by
  intro other hmem
  have hleads := h.leadsTo hmem
  cases other
  case countDown | closeInterval => exact absurd (eq_of_beq hleads) htick
  all_goals rfl

end Kernel

theorem Request.keepsTime_eq_false (request : Request) :
    ∀ step ∈ request.code, step.keepsTime = false := by
  intro step hmem
  have hasked := request.isAskedFor_code hmem
  cases step
  case countDown | closeInterval => cases hasked
  all_goals rfl

theorem keepsTime_launchCode (call : Option EntryCall) :
    ∀ step ∈ (call.map launchCode).getD [], step.keepsTime = false := by
  cases call <;> simp [launchCode]

namespace Machine

theorem Goes.settings_eq [Backend P] {m after : Machine P} {move : Move}
    (hgoes : m.Goes move after) :
    after.kernel.number = m.kernel.number ∧ after.kernel.config = m.kernel.config := by
  cases hgoes with
  | spin | call | interrupt => exact ⟨rfl, rfl⟩
  | step hstepped => exact ⟨hstepped.aftermath.number, hstepped.aftermath.config⟩
  | switch hcode hswitched =>
      rw [hswitched.kernel]
      exact ⟨rfl, rfl⟩

/-- The counter shows the ticks counted, as far as its word goes. -/
theorem Goes.ticks_eq [Backend P] {m after : Machine P} {move : Move} {past : List (Transition P)}
    (hgoes : m.Goes move after) (h : m.kernel.ticks.ticks = UInt64.ofNat (ticksIn past)) :
    after.kernel.ticks.ticks = UInt64.ofNat (ticksIn (past ++ [⟨m, move⟩])) := by
  rw [ticksIn_append]
  cases hgoes with
  | spin hnone => simp [hnone, h]
  | call | interrupt =>
      rw [if_neg (by simp [Transition.step?]), Nat.add_zero]
      exact h
  | switch hcode hswitched =>
      rw [hswitched.kernel, step?_of_switch hcode]
      simp [h, setCode]
  | step hstepped =>
      rw [hstepped.effect.ticks, hstepped.step?_eq]
      split
      next hstep =>
          obtain rfl := Option.some.inj hstep
          rw [Step.ticksAfter, TickCounter.ticks_increment, h, UInt64.ofNat_add]
          rfl
      next hother =>
          rw [Step.ticksAfter_eq fun heq => hother (congrArg some heq), h, Nat.add_zero]

/-- The steps that are bound to follow the last one that was not quiet. -/
def bound (past : List (Transition P)) (m : Machine P) : List Step :=
  ((latest past).bind Transition.step?).elim [] (m.kernel.bound (lastChoice past))

/--
What is bound to follow comes first among the remaining steps, save for guards and locks that
are handled already, and time is kept by nothing else.
-/
structure Punctual (past : List (Transition P)) (m : Machine P) : Prop where
  own : ∃ done left rest, m.bound past = done ++ left ∧ (∀ step ∈ done, step.isQuiet = true) ∧
    m.context.code = left ++ rest ∧ ∀ step ∈ rest, step.keepsTime = false
  others : ∀ id : ThreadId, id ≠ m.executing →
    ∀ step ∈ (m.contextOf id).code, step.keepsTime = false

variable {past : List (Transition P)} {m after : Machine P} {step : Step} {rest pushed : List Step}
  {move : Move}

theorem bound_of_step? {t : Transition P} (hidle : t.isIdle = false) :
    m.bound (past ++ [t]) = t.step?.elim [] (m.kernel.bound t.before.kernel.choice) := by
  have hlatest : latest (past ++ [t]) = some t := latest_append hidle
  rw [bound, lastChoice_of_latest hlatest, hlatest, Option.bind_some]

theorem bound_of_idle {t : Transition P} (hidle : t.isIdle = true) :
    m.bound (past ++ [t]) = m.bound past := by
  rw [bound, lastChoice, latest_append_of_idle hidle, bound, lastChoice]

namespace Punctual

/-- What comes next and is not quiet was bound to come, or is no step of a tick. -/
theorem of_code (h : m.Punctual past) (hcode : m.context.code = step :: rest)
    (hloud : step.isQuiet = false) :
    (∃ behind, (m.bound past).dropWhile Step.isQuiet = step :: behind ∧
      ∃ others, rest = behind ++ others ∧ ∀ other ∈ others, other.keepsTime = false) ∨
    step.keepsTime = false ∧ ∀ other ∈ rest, other.keepsTime = false := by
  obtain ⟨done, left, others, hbound, hquiet, hsplit, hothers⟩ := h.own
  rw [hcode] at hsplit
  cases left with
  | nil =>
      rw [List.nil_append] at hsplit
      subst hsplit
      exact .inr (List.forall_mem_cons.1 hothers)
  | cons first behind =>
      obtain ⟨rfl, rfl⟩ := List.cons.inj hsplit
      refine .inl ⟨behind, ?_, others, rfl, hothers⟩
      rw [hbound, List.dropWhile_append_of_pos hquiet,
        List.dropWhile_cons_of_neg (by rw [hloud]; decide)]

theorem rest_of_code (h : m.Punctual past) (hcode : m.context.code = step :: rest)
    (hloud : step.isQuiet = false) (hstep : step.keepsTime = false) :
    ∀ other ∈ rest, other.keepsTime = false := by
  rcases h.of_code hcode hloud with ⟨behind, hbound, others, rfl, hothers⟩ | ⟨-, hrest⟩
  · refine List.forall_mem_append.2 ⟨?_, hothers⟩
    cases hlast : (latest past).bind Transition.step? with
    | none =>
        rw [Machine.bound, hlast] at hbound
        cases hbound
    | some last =>
        rw [Machine.bound, hlast] at hbound
        exact m.kernel.keepsTime_behind hbound hstep
  · exact hrest

/-- A time-keeping step was bound to come. -/
theorem bound_of_keepsTime (h : m.Punctual past) (hcode : m.context.code = step :: rest)
    (hstep : step.keepsTime = true) :
    ∃ last, (latest past).bind Transition.step? = some last ∧
      ∃ behind, (m.kernel.bound (lastChoice past) last).dropWhile Step.isQuiet = step :: behind ∧
        ∃ others, rest = behind ++ others ∧ ∀ other ∈ others, other.keepsTime = false := by
  have hloud : step.isQuiet = false := by cases step <;> first | rfl | cases hstep
  rcases h.of_code hcode hloud with hbound | ⟨hno, -⟩
  · cases hlast : (latest past).bind Transition.step? with
    | none =>
        rw [Machine.bound, hlast] at hbound
        obtain ⟨behind, hnone, -⟩ := hbound
        cases hnone
    | some last =>
        rw [Machine.bound, hlast] at hbound
        exact ⟨last, rfl, hbound⟩
  · rw [hno] at hstep
    cases hstep

theorem of_countDown (h : m.Punctual past) (hcode : m.context.code = .countDown :: rest) :
    (latest past).bind Transition.step? = some .countTick ∧
      ∃ others, rest = m.kernel.due ++ Code.yieldUp ++ others ∧
        ∀ other ∈ others, other.keepsTime = false := by
  obtain ⟨last, hlast, behind, hbehind, hothers⟩ := h.bound_of_keepsTime hcode rfl
  rw [Kernel.dropWhile_bound] at hbehind
  split at hbehind
  next =>
      obtain ⟨-, rfl⟩ := List.cons.inj hbehind
      exact ⟨hlast, hothers⟩
  next => split at hbehind <;> cases hbehind
  all_goals cases hbehind

theorem of_closeInterval (h : m.Punctual past) (hcode : m.context.code = .closeInterval :: rest) :
    (latest past).bind Transition.step? = some .countDown ∧
      m.kernel.config.closesInterval m.kernel.ticks.ticks = true ∧
        ∃ others, rest = Code.yieldUp ++ others ∧ ∀ other ∈ others, other.keepsTime = false := by
  obtain ⟨last, hlast, behind, hbehind, hothers⟩ := h.bound_of_keepsTime hcode rfl
  rw [Kernel.dropWhile_bound] at hbehind
  split at hbehind
  next => cases hbehind
  next =>
      split at hbehind
      next => cases hbehind
      next hdue =>
          obtain ⟨-, rfl⟩ := List.cons.inj hbehind
          refine ⟨hlast, ?_, hothers⟩
          rw [← Bool.not_eq_false]
          exact fun hnot => hdue (by simp [Kernel.due, hnot])
  all_goals cases hbehind

variable [Backend P]

theorem of_quiet (h : m.Punctual past) (hstepped : m.Stepped step rest pushed after)
    (hquiet : step.isQuiet = true) : after.Punctual (past ++ [⟨m, .exec⟩]) := by
  have hidle : Transition.isIdle ⟨m, .exec⟩ = true := (isIdle_of_stepped hstepped).trans hquiet
  have hticks : after.kernel.ticks = m.kernel.ticks := by
    rw [hstepped.effect.ticks]
    exact Step.ticksAfter_eq (by rintro rfl; cases hquiet) _
  have hbound : after.bound (past ++ [⟨m, .exec⟩]) = m.bound past := by
    rw [bound_of_idle hidle, Machine.bound, Machine.bound]
    cases (latest past).bind Transition.step? with
    | none => rfl
    | some last =>
        exact Kernel.bound_congr (Goes.step hstepped).settings_eq.2 hticks _ last
  have hcode : after.context.code = rest := by
    rw [hstepped.code_after, hstepped.expands.eq_nil (Step.isPlain_of_isQuiet hquiet),
      List.nil_append]
  obtain ⟨done, left, others, hsplit, hdone, hleft, hothers⟩ := h.own
  rw [hstepped.code] at hleft
  constructor
  · rw [hbound, hcode]
    cases left with
    | nil =>
        rw [List.nil_append] at hleft
        subst hleft
        exact ⟨done, [], rest, hsplit, hdone, rfl, fun other hmem => hothers other (.tail _ hmem)⟩
    | cons first left =>
        obtain ⟨rfl, rfl⟩ := List.cons.inj hleft
        refine ⟨done ++ [step], left, others, by rw [hsplit]; simp, ?_, rfl, hothers⟩
        exact List.forall_mem_append.2 ⟨hdone, List.forall_mem_singleton.2 hquiet⟩
  · intro id hid
    rw [hstepped.effect.executing] at hid
    rw [hstepped.effect.others id hid]
    exact h.others id hid

theorem code_of_countTick (hstepped : m.Stepped .countTick rest pushed after)
    (chosen : ThreadId) :
    after.context.code = after.kernel.bound chosen .countTick ++ .unmask :: rest := by
  have hafter : after = (m.setCode rest).countTick := hstepped.eq
  rw [hafter, countTick, context_push, context_modifyKernel, context_setCode]
  simp only [Kernel.bound, Kernel.due, List.append_assoc]
  rfl

/-- After a step that time may depend on, what is bound to follow is what comes first. -/
theorem code_of_loud (h : m.Punctual past) (hstepped : m.Stepped step rest pushed after)
    (hloud : step.isQuiet = false) :
    ∃ others, after.context.code = after.kernel.bound m.kernel.choice step ++ others ∧
      ∀ other ∈ others, other.keepsTime = false := by
  have hrest : step.keepsTime = false → ∀ other ∈ rest, other.keepsTime = false :=
    h.rest_of_code hstepped.code hloud
  by_cases hcount : step = .countTick
  · subst hcount
    exact ⟨_, code_of_countTick hstepped _, List.forall_mem_cons.2 ⟨rfl, hrest rfl⟩⟩
  rw [hstepped.code_after]
  cases hstep : step.keepsTime with
  | true =>
      rcases Step.eq_of_keepsTime hstep with rfl | rfl
      · obtain ⟨-, others, rfl, hothers⟩ := h.of_countDown hstepped.code
        have hdue : after.kernel.due = m.kernel.due := by
          have hticks := hstepped.effect.ticks
          rw [Step.ticksAfter_eq hcount] at hticks
          rw [Kernel.due, Kernel.due, hticks, (Goes.step hstepped).settings_eq.2]
        rw [hstepped.expands.eq_nil rfl, Kernel.bound, hdue]
        exact ⟨others, rfl, hothers⟩
      · obtain ⟨-, -, others, rfl, hothers⟩ := h.of_closeInterval hstepped.code
        rw [hstepped.expands.eq_nil rfl]
        exact ⟨others, rfl, hothers⟩
  | false =>
      by_cases hchoose : step = .choose .dispatch
      · subst hchoose
        refine ⟨rest, ?_, hrest rfl⟩
        rw [Kernel.bound]
        cases hstepped.expands with
        | nothing hplain => cases hplain
        | answer _ hasks => cases hasks
        | choice => rfl
      · have hpushed := hstepped.expands.keepsTime_eq_false hcount
        refine ⟨pushed ++ rest, ?_, List.forall_mem_append.2 ⟨hpushed, hrest hstep⟩⟩
        have hnone : after.kernel.bound m.kernel.choice step = [] := by
          cases step
          case choose use => cases use <;> first | rfl | exact absurd rfl hchoose
          case countTick => exact absurd rfl hcount
          case countDown | closeInterval => cases hstep
          all_goals rfl
        rw [hnone, List.nil_append]

theorem of_loud (h : m.Punctual past) (hstepped : m.Stepped step rest pushed after)
    (hloud : step.isQuiet = false) : after.Punctual (past ++ [⟨m, .exec⟩]) := by
  have hidle : Transition.isIdle ⟨m, .exec⟩ = false := (isIdle_of_stepped hstepped).trans hloud
  constructor
  · rw [bound_of_step? hidle, hstepped.step?_eq, Option.elim_some]
    obtain ⟨others, hcode, hothers⟩ := h.code_of_loud hstepped hloud
    exact ⟨[], _, others, rfl, List.forall_mem_nil _, hcode, hothers⟩
  · intro id hid
    rw [hstepped.effect.executing] at hid
    rw [hstepped.effect.others id hid]
    exact h.others id hid

omit [Backend P] in
/-- Where interrupts come in, no time is left to be kept. -/
theorem keepsTime_of_enabled {struck : Prop} (h : m.Punctual past) (horderly : m.Orderly struck)
    (henabled : m.interruptsEnabled = true) :
    ∀ other ∈ m.context.code, other.keepsTime = false := by
  have hcalm := Seated.calm_of_enabled horderly henabled
  obtain ⟨done, left, others, hbound, hdone, hcode, hothers⟩ := h.own
  intro other hmem
  rw [← Bool.not_eq_true]
  intro hkeeps
  have hdown : .countDown ∉ m.context.code := fun hdown => Bool.noConfusion (hcalm.1 _ hdown)
  rcases Step.eq_of_keepsTime hkeeps with rfl | rfl
  · exact hdown hmem
  · have hleft : .closeInterval ∈ left := by
      rw [hcode] at hmem
      exact (List.mem_append.1 hmem).resolve_right fun hother => by cases hothers _ hother
    have hclose : .closeInterval ∈ m.bound past := hbound ▸ List.mem_append_right done hleft
    cases hlast : (latest past).bind Transition.step? with
    | none =>
        rw [Machine.bound, hlast] at hclose
        cases hclose
    | some last =>
        rw [Machine.bound, hlast, Option.elim_some] at hclose hbound
        rcases Kernel.bound_of_mem_closeInterval hclose with hcount | hfirst
        · -- the countdown is still to come as well
          rw [hbound] at hcount
          rcases List.mem_append.1 hcount with hquiet | hcount
          · cases hdone _ hquiet
          · exact hdown (hcode ▸ List.mem_append_left others hcount)
        · -- the interval closes in the next step, which stands under a guard
          rw [hfirst] at hbound
          cases done with
          | cons first done =>
              obtain ⟨rfl, -⟩ := List.cons.inj hbound
              cases hdone _ List.mem_cons_self
          | nil =>
              obtain rfl : left = .closeInterval :: Code.yieldUp := hbound.symm
              have hstands := horderly.stands_of_code hcode id
              rw [horderly.cover_of_enabled henabled] at hstands
              cases hstands

omit [Backend P] in
/-- What is bound to follow and not quiet is ahead, with interrupts masked. -/
theorem ahead_of_bound {struck : Prop} {next : Step} (h : m.Punctual past)
    (horderly : m.Orderly struck) (hnext : Code.ahead (m.bound past) = some next) :
    Code.ahead m.context.code = some next ∧ m.interruptsEnabled = false := by
  obtain ⟨done, left, others, hbound, hdone, hcode, hothers⟩ := h.own
  have hleft : Code.ahead left = some next := by
    rw [hbound] at hnext
    rcases Code.ahead_append hnext with hquiet | hleft
    · have hloud := List.find?_some hquiet
      rw [hdone next (Code.mem_of_ahead hquiet)] at hloud
      cases hloud
    · exact hleft
  have hahead : Code.ahead m.context.code = some next := by
    rw [hcode, Code.ahead, List.find?_append, ← Code.ahead, hleft]
    rfl
  refine ⟨hahead, ?_⟩
  rw [← Bool.not_eq_true]
  intro henabled
  have hmem := Code.mem_of_ahead hahead
  have hkeeps := h.keepsTime_of_enabled horderly henabled next hmem
  have hurgent := (Seated.calm_of_enabled horderly henabled).1 next hmem
  -- what neither keeps time nor is urgent is the policy's choice, on the way to its dispatch
  have hleaves : Code.Leaves m.kernel.table m.context.code := by
    have hsuffix : left <:+ Code.yieldUp := by
      cases hlast : (latest past).bind Transition.step? with
      | none =>
          rw [Machine.bound, hlast] at hnext
          cases hnext
      | some last =>
          rw [Machine.bound, hlast, Option.elim_some] at hnext hbound
          rw [Kernel.bound_of_ahead hnext hkeeps hurgent] at hbound
          exact ⟨done, hbound.symm⟩
    obtain ⟨front, hfront, rfl⟩ : ∃ front, front <:+ [.free .table, .mask, .take .table] ∧
        left = front ++ [.choose .dispatch] := by
      simp only [Code.yieldUp, Code.reschedule, Code.choose, List.suffix_cons_iff,
        List.suffix_nil] at hsuffix
      rcases hsuffix with rfl | rfl | rfl | rfl | rfl
      · exact ⟨[.free .table, .mask, .take .table], List.suffix_rfl, rfl⟩
      · exact ⟨[.mask, .take .table], List.suffix_cons _ _, rfl⟩
      · exact ⟨[.take .table], ⟨[.free .table, .mask], rfl⟩, rfl⟩
      · exact ⟨[], List.nil_suffix, rfl⟩
      · cases hleft
    exact .inl ⟨front, others, hfront.trans (List.suffix_cons _ _), by rw [hcode]; simp⟩
  have hguards := hleaves.guards_pos horderly.own
  rw [horderly.cover_of_enabled henabled] at hguards
  exact absurd hguards (Nat.lt_irrefl 0)

/-- Nothing else comes before what is bound to follow. -/
theorem step?_of_bound {struck : Prop} {next : Step} (h : m.Punctual past)
    (horderly : m.Orderly struck) (hnext : Code.ahead (m.bound past) = some next)
    (allowed : m.Allows move) (hidle : Transition.isIdle ⟨m, move⟩ = false) :
    Transition.step? ⟨m, move⟩ = some next := by
  obtain ⟨hahead, hmasked⟩ := h.ahead_of_bound horderly hnext
  have hgoes := m.goes_after allowed
  generalize m.after move = after at hgoes
  cases hgoes with
  | spin hnone => simp [Transition.isIdle, hnone] at hidle
  | step hstepped =>
      rw [isIdle_of_stepped hstepped] at hidle
      rw [hstepped.code, Code.ahead_cons hidle] at hahead
      rw [hstepped.step?_eq, hahead]
  | switch hcode =>
      rw [hcode, Code.ahead_cons rfl] at hahead
      rw [step?_of_switch hcode, hahead]
  | call request hempty =>
      rw [hempty] at hahead
      cases hahead
  | interrupt henabled =>
      rw [hmasked] at henabled
      cases henabled

theorem goes [LawfulBackend P] (h : m.Punctual past) (hregular : m.Regular past)
    (hgoes : m.Goes move after) : after.Punctual (past ++ [⟨m, move⟩]) := by
  cases hgoes with
  | spin hnone =>
      have hidle : Transition.isIdle ⟨m, .exec⟩ = true := by simp [Transition.isIdle, hnone]
      refine ⟨?_, h.others⟩
      rw [bound_of_idle hidle]
      exact h.own
  | @step step rest pushed _ hstepped =>
      cases hquiet : step.isQuiet with
      | true => exact h.of_quiet hstepped hquiet
      | false => exact h.of_loud hstepped hquiet
  | switch hcode hswitched =>
      have hkept := hswitched.forall_contexts
        (fun _ context => ∀ step ∈ context.code, step.keepsTime = false)
        h.others (h.rest_of_code hcode rfl rfl) fun _ => keepsTime_launchCode
      refine ⟨⟨[], [], after.context.code, ?_, List.forall_mem_nil _, rfl, hkept _⟩,
        fun id _ => hkept id⟩
      rw [bound_of_step? (by simp [Transition.isIdle, step?_of_switch hcode]),
        step?_of_switch hcode]
      rfl
  | call request hempty =>
      refine ⟨⟨[], [], request.code, ?_, List.forall_mem_nil _, ?_, request.keepsTime_eq_false⟩,
        fun id hid => ?_⟩
      · rw [bound_of_step? rfl]
        rfl
      · rw [context_call]
        rfl
      · rw [contextOf_call_of_ne m request hid]
        exact h.others id hid
  | interrupt henabled =>
      refine ⟨⟨[], [], interruptCode ++ m.context.code, ?_, List.forall_mem_nil _, ?_, ?_⟩,
        fun id hid => ?_⟩
      · rw [bound_of_step? rfl]
        rfl
      · rw [context_interrupt]
        rfl
      · exact List.forall_mem_append.2
          ⟨by simp [interruptCode], h.keepsTime_of_enabled hregular.orderly henabled⟩
      · rw [contextOf_interrupt_of_ne m hid]
        exact h.others id hid

end Punctual

end Machine

/-- What comes right after what at a tick, guards and locks aside. -/
structure TickOrder (config : Config) (before : List (Transition P)) (t : Transition P) : Prop where
  /-- A tick that was counted, and nothing else, leads to the countdown of the sleeping threads. -/
  countDown : t.step? = some .countDown ↔
    (latest before).bind Transition.step? = some .countTick
  /-- A countdown, and nothing else, leads to the closing of an interval, if one is due. -/
  closeInterval : t.step? = some .closeInterval ↔
    (latest before).bind Transition.step? = some .countDown ∧ config.Closes (ticksIn before)
  goesOn : (latest before).bind Transition.step? = some .countDown →
    ¬ config.Closes (ticksIn before) → t.step? = some (.choose .dispatch)
  closed : (latest before).bind Transition.step? = some .closeInterval →
    t.step? = some (.choose .dispatch)
  /-- A choice leads to the dispatch of the thread that was the policy's choice there. -/
  dispatches : ∀ u, latest before = some u → u.step? = some (.choose .dispatch) →
    t.step? = some (.dispatch u.before.kernel.choice)

namespace SharedRun

variable [Backend P] [LawfulBackend P] {number : Nat} {config : Config} {policy : Policy} {cpu : P}
  {values : List Int32} {mutexes : Nat} {console : Console} {past : List (Transition P)}
  {m : Machine P}

omit [LawfulBackend P] in
theorem config_eq
    (run : SharedRun (.boot (.new number config policy cpu) (.new values mutexes console)) past m) :
    m.kernel.config = config := by
  refine run.invariant (fun _ m => m.kernel.config = config) rfl ?_ fun _ _ _ _ h _ _ => h
  exact fun _ _ _ _ h hgoes => hgoes.settings_eq.2.trans h

omit [LawfulBackend P] in
theorem ticks_eq
    (run : SharedRun (.boot (.new number config policy cpu) (.new values mutexes console)) past m) :
    m.kernel.ticks.ticks = UInt64.ofNat (ticksIn past) := by
  refine run.invariant (fun past m => m.kernel.ticks.ticks = UInt64.ofNat (ticksIn past)) rfl ?_
    fun _ _ _ _ h _ _ => h
  exact fun _ _ _ _ h hgoes => hgoes.ticks_eq h

theorem punctual
    (run : SharedRun (.boot (.new number config policy cpu) (.new values mutexes console)) past m) :
    m.Punctual past := by
  refine run.invariant (fun past m => m.Punctual past) ?_ ?_ fun _ _ _ _ h _ _ => ⟨h.own, h.others⟩
  · refine ⟨⟨[], [], [], rfl, List.forall_mem_nil _, ?_, List.forall_mem_nil _⟩, fun id _ => ?_⟩
    · rw [Machine.context, Machine.contextOf_boot]
      rfl
    · rw [Machine.contextOf_boot]
      exact List.forall_mem_nil _
  · exact fun _ _ _ run h hgoes => h.goes run.regular hgoes

omit [LawfulBackend P] in
theorem due_iff
    (run : SharedRun (.boot (.new number config policy cpu) (.new values mutexes console)) past m) :
    m.kernel.due = [.closeInterval] ↔ config.Closes (ticksIn past) := by
  rw [Kernel.due, run.config_eq, run.ticks_eq, ← Config.closesInterval_iff]
  split
  next hdue => simp [hdue]
  next hdue => simp [hdue]

/-- A tick does what it has to do in order, and nothing of it is done at any other time. -/
theorem tickOrder {before later : List (Transition P)} {t : Transition P}
    (run : SharedRun (.boot (.new number config policy cpu) (.new values mutexes console))
      (before ++ t :: later) m) (hidle : t.isIdle = false) : TickOrder config before t := by
  obtain ⟨hearlier, allowed⟩ := run.before
  have hpunctual := hearlier.punctual
  have hcloses := hearlier.due_iff
  have hdone : ∀ {last next : Step}, (latest before).bind Transition.step? = some last →
      Code.ahead (t.before.kernel.bound (lastChoice before) last) = some next →
        t.step? = some next := by
    intro last next hlast hahead
    refine hpunctual.step?_of_bound hearlier.regular.orderly ?_ allowed hidle
    rw [Machine.bound, hlast]
    exact hahead
  have hcode : ∀ {next : Step}, t.step? = some next →
      ∃ rest, t.before.context.code = next :: rest := fun hstep =>
    List.head?_eq_some_iff.1 (Machine.nextStep?_of_step? hstep)
  constructor
  · constructor
    · intro hstep
      obtain ⟨rest, hrest⟩ := hcode hstep
      exact (hpunctual.of_countDown hrest).1
    · exact fun hlast => hdone hlast rfl
  · constructor
    · intro hstep
      obtain ⟨rest, hrest⟩ := hcode hstep
      obtain ⟨hlast, hcloses, -⟩ := hpunctual.of_closeInterval hrest
      rw [hearlier.config_eq, hearlier.ticks_eq] at hcloses
      exact ⟨hlast, (Config.closesInterval_iff config _).1 hcloses⟩
    · intro ⟨hlast, hdue⟩
      refine hdone hlast ?_
      rw [Kernel.bound, hcloses.2 hdue]
      rfl
  · intro hlast hdue
    refine hdone hlast ?_
    have hnone : t.before.kernel.due = [] :=
      t.before.kernel.due_eq_nil_or.resolve_right fun h => hdue (hcloses.1 h)
    rw [Kernel.bound, hnone]
    rfl
  · exact fun hlast => hdone hlast rfl
  · intro u hlatest hchoose
    rw [← lastChoice_of_latest hlatest]
    exact hdone (by rw [hlatest, Option.bind_some, hchoose]) rfl

end SharedRun

end TickKernel
