import TickKernel.Proofs.Endings
import TickKernel.Proofs.Waiters

/-!
# How a call of `sleep` goes

A call of `sleep` fixes its deadline at once and then looks at the clock, again and
again, until the deadline has come; in between its thread sleeps for what is left.
So two countdowns run at the same time: the ticks counted since the call, and those
that the table still has for the sleeping thread.
-/

namespace TickKernel

/-- What a call of `sleep` has come to since it fixed its deadline. -/
structure Slumber where
  /-- The tick count when the deadline was fixed. -/
  since : UInt64
  /-- The ticks that the caller asked to sleep. -/
  ticks : UInt32
  /-- The ticks counted since. -/
  elapsed : Nat
  /-- Whether the caller has gone to sleep. -/
  dozed : Bool
  deriving DecidableEq, Repr

namespace Slumber

def wakeAt (slumber : Slumber) : UInt64 :=
  slumber.since + slumber.ticks.toUInt64

/-- The deadline is a tick count that the counter can reach without coming round. -/
def Fits (slumber : Slumber) : Prop :=
  slumber.since.toNat + slumber.ticks.toNat < UInt64.size

/-- The counter has not come round since the deadline was fixed. -/
def Counts (slumber : Slumber) : Prop :=
  slumber.since.toNat + slumber.elapsed < UInt64.size

/-- The deadline has come, unless the counter cannot show it. -/
def Due (slumber : Slumber) : Prop :=
  slumber.Fits → slumber.ticks.toNat ≤ slumber.elapsed

theorem toNat_wakeAt {slumber : Slumber} (h : slumber.Fits) :
    slumber.wakeAt.toNat = slumber.since.toNat + slumber.ticks.toNat := by
  rw [wakeAt, UInt64.toNat_add, UInt32.toNat_toUInt64]
  exact Nat.mod_eq_of_lt h

theorem counts_of_early {slumber : Slumber} (h : slumber.Fits)
    (hearly : slumber.elapsed < slumber.ticks.toNat) : slumber.Counts := by
  unfold Fits at h
  unfold Counts
  omega

structure Continues (slumber later : Slumber) (counted : Nat) : Prop where
  since : later.since = slumber.since
  ticks : later.ticks = slumber.ticks
  elapsed : later.elapsed = slumber.elapsed + counted

namespace Continues

variable {slumber later : Slumber} {counted : Nat}

theorem wakeAt (h : slumber.Continues later counted) : later.wakeAt = slumber.wakeAt := by
  rw [Slumber.wakeAt, Slumber.wakeAt, h.since, h.ticks]

theorem fits (h : slumber.Continues later counted) (hfits : later.Fits) : slumber.Fits := by
  rwa [Fits, h.since, h.ticks] at hfits

theorem counts (h : slumber.Continues later counted) (hcounts : later.Counts) :
    slumber.Counts := by
  rw [Counts, h.since, h.elapsed] at hcounts
  rw [Counts]
  omega

theorem due (h : slumber.Continues later counted) (hdue : slumber.Due) : later.Due := by
  intro hfits
  rw [h.ticks, h.elapsed]
  exact Nat.le_trans (hdue (h.fits hfits)) (Nat.le_add_right _ _)

end Continues

end Slumber

/-- What a step makes of a call of `sleep`, which may be that of the step's own thread. -/
def Step.slumbers (now : UInt64) (own : Bool) (last : Option Slumber) : Step → Option Slumber
  | .setDeadline ticks => if own then some ⟨now, ticks, 0, false⟩ else last
  | .countTick => last.map fun slumber => { slumber with elapsed := slumber.elapsed + 1 }
  | .doze _ => last.map fun slumber => { slumber with dozed := own || slumber.dozed }
  | _ => last

/-- A step fixes the deadline of a call, or the call goes on. -/
theorem Step.slumbers_cases {now : UInt64} {own : Bool} {last : Option Slumber} {step : Step}
    {slumber : Slumber} (h : step.slumbers now own last = some slumber) :
    (∃ ticks, step = .setDeadline ticks ∧ own = true ∧ slumber = ⟨now, ticks, 0, false⟩) ∨
      ∃ before, last = some before ∧ before.Continues slumber step.counted ∧
        (slumber.dozed = true → before.dozed = true ∨ own = true ∧ ∃ left, step = .doze left) := by
  have hsame : ∀ {step : Step}, last = some slumber → step.counted = 0 →
      ∃ before, last = some before ∧ before.Continues slumber step.counted ∧
        (slumber.dozed = true → before.dozed = true ∨ own = true ∧ ∃ left, step = .doze left) :=
    fun hlast hcounted => ⟨slumber, hlast, ⟨rfl, rfl, by rw [hcounted]; rfl⟩, .inl⟩
  cases step <;> simp only [slumbers] at h
  case setDeadline ticks =>
      cases own with
      | false => exact .inr (hsame h rfl)
      | true => exact .inl ⟨ticks, rfl, rfl, (Option.some.inj h).symm⟩
  case countTick =>
      obtain ⟨before, hlast, rfl⟩ := Option.map_eq_some_iff.1 h
      exact .inr ⟨before, hlast, ⟨rfl, rfl, rfl⟩, .inl⟩
  case doze left =>
      obtain ⟨before, hlast, rfl⟩ := Option.map_eq_some_iff.1 h
      refine .inr ⟨before, hlast, ⟨rfl, rfl, rfl⟩, fun hdozed => ?_⟩
      rcases Bool.or_eq_true_iff.1 hdozed with hown | hbefore
      · exact .inr ⟨hown, left, rfl⟩
      · exact .inl hbefore
  all_goals exact .inr (hsame h rfl)

variable {P : Type}

def Transition.slumbers (t : Transition P) (id : ThreadId) (last : Option Slumber) :
    Option Slumber :=
  match t.move with
  | .call _ => if t.before.executing = id then none else last
  | .interrupt => last
  | .exec =>
      t.step?.elim last
        (Step.slumbers t.before.kernel.ticks.ticks (t.before.executing == id) last)

def slumber (past : List (Transition P)) (id : ThreadId) : Option Slumber :=
  past.foldl (fun last t => t.slumbers id last) none

section Slumbers

variable (past : List (Transition P)) (m : Machine P) (id : ThreadId)

@[simp]
theorem slumber_interrupt : slumber (past ++ [⟨m, .interrupt⟩]) id = slumber past id := by
  simp [slumber, Transition.slumbers]

theorem slumber_call (request : Request) :
    slumber (past ++ [⟨m, .call request⟩]) id =
      if m.executing = id then none else slumber past id := by
  simp [slumber, Transition.slumbers]

theorem slumber_exec {step : Option Step} (h : Transition.step? ⟨m, .exec⟩ = step) :
    slumber (past ++ [⟨m, .exec⟩]) id =
      step.elim (slumber past id)
        (Step.slumbers m.kernel.ticks.ticks (m.executing == id) (slumber past id)) := by
  simp [slumber, Transition.slumbers, h]

end Slumbers

/-! ## The stages of a call -/

def Step.isEnd : Step → Bool
  | .finish _ | .resume => true
  | _ => false

/-- A step that ends something leads to nothing, and changes no countdown. -/
theorem Kernel.Expands.slumbers_of_isEnd {kernel : Kernel P} {step : Step} {pushed : List Step}
    (h : kernel.Expands step pushed) (hend : step.isEnd = true) (now : UInt64) (own : Bool)
    (last : Option Slumber) : pushed = [] ∧ step.slumbers now own last = last :=
  ⟨h.eq_nil (by cases step <;> first | rfl | cases hend),
    by cases step <;> first | rfl | cases hend⟩

theorem Step.seeks_eq_none_of_isEnd {step : Step} (h : step.isEnd = true) :
    step.seeks = none := by
  cases step <;> first | rfl | cases h

inductive Resting (ticks : UInt32) : Option Step → Option Slumber → Prop where
  /-- The deadline is still to be fixed. -/
  | asking : ticks ≠ 0 → Resting ticks (some (.setDeadline ticks)) none
  | seeking {last : Step} {slumber : Slumber} : slumber.ticks = ticks →
      last.seeks = some (.until slumber.wakeAt) → Resting ticks (some last) (some slumber)
  | ended {last : Option Step} {slumber : Slumber} : slumber.ticks = ticks →
      (∀ step, last = some step → step.isEnd = true) → slumber.Due →
        Resting ticks last (some slumber)
  /-- A sleep of no ticks is over at once. -/
  | idle {last : Option Step} : ticks = 0 → (∀ step, last = some step → step.isEnd = true) →
      Resting ticks last none

namespace Resting

variable {ticks : UInt32} {last : Option Step} {before : Option Slumber} {step : Step}

theorem of_slumbers (h : Resting ticks last before) (now : UInt64) (own : Bool)
    (hown : own = true → step.isLast = false) :
    Resting ticks last (step.slumbers now own before) := by
  cases hafter : step.slumbers now own before with
  | some slumber =>
      rcases Step.slumbers_cases hafter with ⟨other, rfl, howns, -⟩ | ⟨earlier, rfl, hgoes, -⟩
      · cases hown howns
      · cases h with
        | seeking hticks hseeks => exact .seeking (hgoes.ticks.trans hticks) (hgoes.wakeAt ▸ hseeks)
        | ended hticks hends hdue => exact .ended (hgoes.ticks.trans hticks) hends (hgoes.due hdue)
  | none =>
      have hbefore : before = none := by
        cases before with
        | none => rfl
        | some slumber =>
            cases step <;> try cases hafter
            case setDeadline other => cases own <;> cases hafter
      subst hbefore
      exact h

/-- A thread on the way to look at the clock again seeks the deadline of its call. -/
theorem wakeAt_eq (h : Resting ticks last before) {wakeAt : UInt64}
    (hseeks : last.bind Step.seeks = some (.until wakeAt)) :
    ∃ slumber, before = some slumber ∧ wakeAt = slumber.wakeAt := by
  cases h with
  | asking => cases hseeks
  | seeking _ hfound =>
      rw [Option.bind_some, hfound] at hseeks
      cases hseeks
      exact ⟨_, rfl, rfl⟩
  | ended _ hends | idle _ hends =>
      obtain ⟨step, rfl, hfound⟩ := Option.bind_eq_some_iff.1 hseeks
      rw [Step.seeks_eq_none_of_isEnd (hends step rfl)] at hfound
      cases hfound

theorem interrupted (h : Resting ticks none before)
    (hends : ∀ step, last = some step → step.isEnd = true) : Resting ticks last before := by
  cases h with
  | ended hticks _ hdue => exact .ended hticks hends hdue
  | idle hzero _ => exact .idle hzero hends

/-- The last step of a call fixes the deadline, or finds that it has come, or looks again. -/
theorem expand {kernel : Kernel P} {pushed : List Step} (h : Resting ticks (some step) before)
    (hexpands : kernel.Expands step pushed)
    (hcounter : ∀ s, before = some s →
      kernel.ticks.ticks.toNat = (s.since.toNat + s.elapsed) % UInt64.size) :
    Resting ticks pushed.getLast? (step.slumbers kernel.ticks.ticks true before) := by
  cases h with
  | asking hsome =>
      cases hexpands with
      | nothing hplain => cases hplain
      | answer _ hasks => cases hasks
      | deadline => exact .seeking rfl rfl
  | @seeking _ s hticks hseeks =>
      have hsame : step.slumbers kernel.ticks.ticks true (some s) = some s := by
        cases step <;> first | rfl | cases hseeks
      rw [hsame]
      rcases hexpands.settles_or_seeks hseeks with hsettles | ⟨final, hfinal, hfound⟩
      · cases hsettles with
        | acquired | taken => cases hseeks
        | awake hlate =>
            cases hseeks
            refine .ended hticks ?_ fun hfits => ?_
            · rintro last ⟨⟩
              rfl
            · have hnow := UInt64.le_iff_toNat_le.1 hlate
              rw [Slumber.toNat_wakeAt hfits, hcounter s rfl] at hnow
              have hmod := Nat.mod_le (s.since.toNat + s.elapsed) UInt64.size
              omega
      · rw [hfinal]
        exact .seeking hticks hfound
  | ended hticks hends hdue =>
      obtain ⟨rfl, hsame⟩ := hexpands.slumbers_of_isEnd (hends step rfl) kernel.ticks.ticks true _
      rw [hsame]
      exact .ended hticks nofun hdue
  | idle hzero hends =>
      obtain ⟨rfl, hsame⟩ := hexpands.slumbers_of_isEnd (hends step rfl) kernel.ticks.ticks true _
      rw [hsame]
      exact .idle hzero nofun

end Resting

namespace Machine

variable [Backend P]

/-- What the two countdowns of a sleeping thread tell. -/
structure Reposes (past : List (Transition P)) (id : ThreadId) (m : Machine P) : Prop where
  counter : ∀ s, slumber past id = some s →
    m.kernel.ticks.ticks.toNat = (s.since.toNat + s.elapsed) % UInt64.size
  stage : ∀ ticks, asked past id = some (.sleep ticks) →
    Resting ticks (m.contextOf id).code.getLast? (slumber past id)
  elsewhere : (∀ ticks, asked past id ≠ some (.sleep ticks)) → slumber past id = none
  asleep : ∀ s, slumber past id = some s → s.Fits → s.Counts →
    m.kernel.table.state id = .sleeping → 0 < (m.kernel.table.sleep id).toNat ∧
      s.elapsed + (m.kernel.table.sleep id).toNat = s.ticks.toNat + Code.owed m.context.code

variable [LawfulBackend P] {past : List (Transition P)} {m after : Machine P} {step : Step}
  {rest pushed : List Step} {id : ThreadId} {move : Move}

namespace Reposes

theorem exists_slumber (h : m.Reposes past id) (hregular : m.Regular past) {wakeAt : UInt64}
    (hseeking : Code.seeking (m.contextOf id).code = some (.until wakeAt)) :
    ∃ s, slumber past id = some s ∧ wakeAt = s.wakeAt := by
  obtain ⟨ticks, hasked⟩ := hregular.serves_of_seeking hseeking
  exact (h.stage ticks hasked).wakeAt_eq hseeking

omit [Backend P] [LawfulBackend P] in
theorem now_eq (h : m.Reposes past id) {s : Slumber} (hslumber : slumber past id = some s)
    (hcounts : s.Counts) : m.kernel.ticks.ticks.toNat = s.since.toNat + s.elapsed := by
  rw [h.counter s hslumber]
  exact Nat.mod_eq_of_lt hcounts

/-- A thread goes to sleep for the ticks that it has not slept yet, which always fit. -/
theorem left_of_doze (h : m.Reposes past id) (hregular : m.Regular past) (hposture : m.Posture)
    {left : UInt64} (hdoze : .doze left ∈ m.context.code) (hid : m.executing = id) {s : Slumber}
    (hslumber : slumber past id = some s) (hfits : s.Fits) (hcounts : s.Counts) :
    0 < left.toNat ∧ s.elapsed + left.toNat = s.ticks.toNat := by
  obtain ⟨wakeAt, hseeking, hearly, rfl⟩ := hposture.dozes left hdoze
  obtain ⟨other, hother, rfl⟩ :=
    h.exists_slumber hregular (contextOf_executing hid ▸ hseeking)
  obtain rfl : other = s := Option.some.inj (hother.symm.trans hslumber)
  have hless := UInt64.lt_iff_toNat_lt.1 hearly
  rw [UInt64.toNat_sub_of_le _ _ (UInt64.le_of_lt hearly)]
  rw [Slumber.toNat_wakeAt hfits, h.now_eq hslumber hcounts] at *
  omega

omit [LawfulBackend P] in
theorem counter_of_step (h : m.Reposes past id) (hstepped : m.Stepped step rest pushed after)
    (s : Slumber) (hslumber : slumber (past ++ [⟨m, .exec⟩]) id = some s) :
    after.kernel.ticks.ticks.toNat = (s.since.toNat + s.elapsed) % UInt64.size := by
  rw [slumber_exec past m id hstepped.step?_eq, Option.elim_some] at hslumber
  rw [hstepped.effect.ticks]
  rcases Step.slumbers_cases hslumber with ⟨ticks, rfl, -, rfl⟩ | ⟨before, hbefore, hgoes, -⟩
  · exact (Nat.mod_eq_of_lt m.kernel.ticks.ticks.toNat_lt).symm
  · have hcounter := h.counter before hbefore
    rw [hgoes.since, hgoes.elapsed, ← Nat.add_assoc]
    by_cases htick : step = .countTick
    · subst htick
      rw [Step.ticksAfter, TickCounter.ticks_increment, UInt64.toNat_add, hcounter]
      exact Nat.mod_add_mod _ _ _
    · rw [Step.ticksAfter_eq htick, Step.counted_eq_zero htick, Nat.add_zero, hcounter]

theorem stage_of_goes (h : m.Reposes past id) (hregular : m.Regular past)
    (hgoes : m.Goes move after) (ticks : UInt32)
    (hasked : asked (past ++ [⟨m, move⟩]) id = some (.sleep ticks)) :
    Resting ticks (after.contextOf id).code.getLast? (slumber (past ++ [⟨m, move⟩]) id) := by
  cases hregular.ending hgoes (by rw [hasked]; nofun) with
  | kept hlast hown =>
      rw [hlast]
      cases move with
      | exec =>
          rw [asked_exec] at hasked
          rw [slumber_exec past m id rfl]
          cases hstep : Transition.step? ⟨m, .exec⟩ with
          | none => exact h.stage ticks hasked
          | some step =>
              exact (h.stage ticks hasked).of_slumbers _ _ fun heq =>
                (hown (beq_iff_eq.1 heq)).2 step hstep
      | interrupt =>
          rw [asked_interrupt] at hasked
          rw [slumber_interrupt]
          exact h.stage ticks hasked
      | call request =>
          have hid : m.executing ≠ id := fun heq => (hown heq).1 request rfl
          rw [asked_call, if_neg hid] at hasked
          rw [slumber_call, if_neg hid]
          exact h.stage ticks hasked
  | @ended step pushed _ hid hstepped =>
      rw [asked_exec] at hasked
      rw [contextOf_executing (hstepped.effect.executing.trans hid), hstepped.code_after,
        List.append_nil, slumber_exec past m id hstepped.step?_eq]
      have hstage := h.stage ticks hasked
      rw [contextOf_executing hid, hstepped.code] at hstage
      rw [Option.elim_some, beq_iff_eq.2 hid]
      exact Resting.expand hstage hstepped.expands h.counter
  | called request hid hcode =>
      rw [asked_call, if_pos hid] at hasked
      obtain rfl := Option.some.inj hasked
      rw [contextOf_executing ((executing_call m _).trans hid), context_call, slumber_call,
        if_pos hid, Request.code]
      split
      next hzero =>
          refine .idle hzero ?_
          rintro step ⟨⟩
          rfl
      next hsome => exact .asking hsome
  | struck hid hcode =>
      rw [asked_interrupt] at hasked
      have hstage := h.stage ticks hasked
      rw [contextOf_executing hid, hcode] at hstage
      rw [contextOf_executing ((executing_interrupt m).trans hid), context_interrupt, hcode,
        slumber_interrupt]
      refine Resting.interrupted hstage ?_
      rintro step ⟨⟩
      rfl

theorem elsewhere_of_goes (h : m.Reposes past id) (hregular : m.Regular past)
    (hnone : ∀ ticks, asked (past ++ [⟨m, move⟩]) id ≠ some (.sleep ticks)) :
    slumber (past ++ [⟨m, move⟩]) id = none := by
  cases move with
  | exec =>
      simp only [asked_exec] at hnone
      rw [slumber_exec past m id rfl, h.elsewhere hnone]
      cases hstep : Transition.step? ⟨m, .exec⟩ with
      | none => rfl
      | some step =>
          cases step <;> try rfl
          case setDeadline ticks =>
              have hother : m.executing ≠ id := by
                rintro rfl
                obtain ⟨other, hasked⟩ := hregular.served_of_step? hstep
                exact hnone other hasked
              simp [Step.slumbers, hother]
  | interrupt =>
      simp only [asked_interrupt] at hnone
      rw [slumber_interrupt, h.elsewhere hnone]
  | call request =>
      rw [slumber_call]
      split
      next => rfl
      next hother =>
          simp only [asked_call, if_neg hother] at hnone
          exact h.elsewhere hnone

/-- A thread that goes to sleep has as many ticks left in the table as to its deadline. -/
theorem asleep_of_doze (h : m.Reposes past id) (hgoverned : m.Governed past) {left : UInt64}
    (hstepped : m.Stepped (.doze left) rest pushed after) (hid : m.executing = id) {s : Slumber}
    (hslumber : slumber past id = some s) (hfits : s.Fits) (hcounts : s.Counts) :
    0 < (after.kernel.table.sleep id).toNat ∧
      s.elapsed + (after.kernel.table.sleep id).toNat =
        s.ticks.toNat + Code.owed after.context.code := by
  have hregular := hgoverned.regular
  have hcalm : Calm rest := (hregular.orderly.fits hstepped).1
  have hseat := hregular.seated.executing_eq hstepped.code (by simp) hstepped.stays
  have hleft := h.left_of_doze hregular hgoverned.posture
    (hstepped.code ▸ List.mem_cons_self) hid hslumber hfits hcounts
  have hticks := s.ticks.toNat_lt
  have hsize : UInt32.size = 2 ^ 32 := rfl
  rw [hstepped.code_after, hstepped.expands.eq_nil rfl, List.nil_append, Code.owed_of_calm hcalm,
    hstepped.effect.table, Step.sleep_tableAfter, Step.sleepAfter, if_pos (hid.symm.trans hseat),
    ControlBlock.toNat_sleepTicks_asleep]
  omega

omit [Backend P] [LawfulBackend P] in
theorem asked_eq (h : m.Reposes past id) {s : Slumber} (hslumber : slumber past id = some s) :
    asked past id = some (.sleep s.ticks) := by
  by_cases hasleep : ∃ ticks, asked past id = some (.sleep ticks)
  · obtain ⟨ticks, hasked⟩ := hasleep
    have hstage := h.stage ticks hasked
    rw [hslumber] at hstage
    generalize (m.contextOf id).code.getLast? = last at hstage
    cases hstage with
    | seeking hticks | ended hticks => rw [hasked, hticks]
  · push Not at hasleep
    rw [h.elsewhere hasleep] at hslumber
    cases hslumber

theorem asleep_of_countDown (h : m.Reposes past id) (hgoverned : m.Governed past)
    (hstepped : m.Stepped .countDown rest pushed after) {s : Slumber}
    (hslumber : slumber past id = some s) (hfits : s.Fits) (hcounts : s.Counts)
    (hsleeping : m.kernel.table.state id = .sleeping)
    (hsleeps : after.kernel.table.state id = .sleeping) :
    0 < (after.kernel.table.sleep id).toNat ∧
      s.elapsed + (after.kernel.table.sleep id).toNat =
        s.ticks.toNat + Code.owed after.context.code := by
  have hcalm : Calm rest := (hgoverned.regular.orderly.fits hstepped).1
  have hcontains := hgoverned.asked id _ (h.asked_eq hslumber)
  have howed : Code.owed m.context.code = 1 :=
    if_pos (hstepped.code ▸ List.mem_cons_self)
  have hleft := (h.asleep s hslumber hfits hcounts hsleeping).2
  rw [hstepped.effect.table, Step.state_tableAfter, Step.stateAfter, if_pos hcontains] at hsleeps
  rw [hstepped.code_after, hstepped.expands.eq_nil rfl, List.nil_append,
    Code.owed_of_calm hcalm, hstepped.effect.table, Step.sleep_tableAfter, Step.sleepAfter,
    if_pos hcontains]
  rcases (m.kernel.table.block id).countDown_cases with
    ⟨hawake, -⟩ | ⟨-, hready⟩ | ⟨-, -, hmore, hless⟩
  · exact absurd hsleeping hawake
  · rw [hready] at hsleeps
    cases hsleeps
  · have hsleep : (m.kernel.table.sleep id).toNat =
        (m.kernel.table.block id).countDown.sleepTicks.toNat + 1 := hless
    have hpositive : (m.kernel.table.block id).countDown.sleepTicks.toNat ≠ 0 :=
      fun hzero => hmore (UInt32.toNat_inj.1 hzero)
    omega

theorem asleep_of_asleep (h : m.Reposes past id) (hgoverned : m.Governed past)
    (hstepped : m.Stepped step rest pushed after) {before s : Slumber}
    (hslumber : slumber past id = some before) (hgoes : before.Continues s step.counted)
    (hfits : s.Fits) (hcounts : s.Counts) (hsleeping : m.kernel.table.state id = .sleeping)
    (hcount : step ≠ .countDown)
    (hdoze : ∀ left, step = .doze left → id ≠ m.kernel.table.current) :
    0 < (after.kernel.table.sleep id).toNat ∧
      s.elapsed + (after.kernel.table.sleep id).toNat =
        s.ticks.toNat + Code.owed after.context.code := by
  have hcontains := hgoverned.asked id _ (h.asked_eq hslumber)
  obtain ⟨hpos, hleft⟩ :=
    h.asleep before hslumber (hgoes.fits hfits) (hgoes.counts hcounts) hsleeping
  rw [hgoes.ticks, hgoes.elapsed, hstepped.code_after,
    hstepped.expands.owed_eq (hgoverned.regular.orderly.fits hstepped) hcount,
    hstepped.effect.table, Step.sleep_tableAfter, Step.sleepAfter_eq hcontains hcount hdoze,
    ← hstepped.code]
  exact ⟨hpos, by omega⟩

theorem asleep_of_step (h : m.Reposes past id) (hgoverned : m.Governed past)
    (hwaiters : m.Waiters) (hstepped : m.Stepped step rest pushed after) (s : Slumber)
    (hslumber : slumber (past ++ [⟨m, .exec⟩]) id = some s) (hfits : s.Fits) (hcounts : s.Counts)
    (hsleeps : after.kernel.table.state id = .sleeping) :
    0 < (after.kernel.table.sleep id).toNat ∧
      s.elapsed + (after.kernel.table.sleep id).toNat =
        s.ticks.toNat + Code.owed after.context.code := by
  have hregular := hgoverned.regular
  have hbefore := hsleeps
  rw [slumber_exec past m id hstepped.step?_eq, Option.elim_some] at hslumber
  rw [hstepped.effect.table, Step.state_tableAfter] at hbefore
  rcases Step.slumbers_cases hslumber with ⟨ticks, rfl, hown, rfl⟩ | ⟨before, hlast, hgoes, -⟩
  · -- a thread that fixes its deadline does not sleep yet
    obtain rfl : m.executing = id := beq_iff_eq.1 hown
    obtain ⟨wakeAt, hseeking⟩ :=
      hwaiters.sleeping m.executing hgoverned.populated.executing hbefore
    obtain rfl : rest = [] := hregular.orderly.fits hstepped
    rw [contextOf_executing rfl, hstepped.code] at hseeking
    cases hseeking
  · by_cases hdoze : ∃ left, step = .doze left ∧ id = m.kernel.table.current
    · obtain ⟨left, rfl, hid⟩ := hdoze
      have hseat := hregular.seated.executing_eq hstepped.code (by simp) hstepped.stays
      have hleft := h.asleep_of_doze hgoverned hstepped (hseat.trans hid.symm) hlast
        (hgoes.fits hfits) (hgoes.counts hcounts)
      rw [hgoes.ticks, hgoes.elapsed]
      exact hleft
    · push Not at hdoze
      have hsleeping : m.kernel.table.state id = .sleeping := by
        rcases Step.sleeping_before hbefore with ⟨hsleeping, -⟩ | ⟨left, heq, hid⟩
        · exact hsleeping
        · exact absurd hid (hdoze left heq)
      by_cases hcount : step = .countDown
      · subst hcount
        rw [hgoes.ticks, hgoes.elapsed]
        exact h.asleep_of_countDown hgoverned hstepped hlast (hgoes.fits hfits)
          (hgoes.counts hcounts) hsleeping hsleeps
      · exact h.asleep_of_asleep hgoverned hstepped hlast hgoes hfits hcounts hsleeping hcount hdoze

omit [LawfulBackend P] in
theorem counter_of_goes (h : m.Reposes past id) (hgoes : m.Goes move after) (s : Slumber)
    (hslumber : slumber (past ++ [⟨m, move⟩]) id = some s) :
    after.kernel.ticks.ticks.toNat = (s.since.toNat + s.elapsed) % UInt64.size := by
  cases hgoes with
  | spin hnone =>
      rw [slumber_exec past m id hnone] at hslumber
      exact h.counter s hslumber
  | step hstepped => exact h.counter_of_step hstepped s hslumber
  | switch hcode hswitched =>
      rw [slumber_exec past m id (step?_of_switch hcode)] at hslumber
      rw [hswitched.kernel]
      exact h.counter s hslumber
  | call request =>
      rw [slumber_call] at hslumber
      split at hslumber
      next => cases hslumber
      next => exact h.counter s hslumber
  | interrupt =>
      rw [slumber_interrupt] at hslumber
      exact h.counter s hslumber

omit [Backend P] [LawfulBackend P] in
theorem asleep_of_still (h : m.Reposes past id) (htable : after.kernel.table = m.kernel.table)
    (howed : Code.owed after.context.code = Code.owed m.context.code) {s : Slumber}
    (hslumber : slumber past id = some s) (hfits : s.Fits) (hcounts : s.Counts)
    (hsleeps : after.kernel.table.state id = .sleeping) :
    0 < (after.kernel.table.sleep id).toNat ∧
      s.elapsed + (after.kernel.table.sleep id).toNat =
        s.ticks.toNat + Code.owed after.context.code := by
  rw [htable] at hsleeps ⊢
  rw [howed]
  exact h.asleep s hslumber hfits hcounts hsleeps

theorem asleep_of_goes (h : m.Reposes past id) (hgoverned : m.Governed past)
    (hwaiters : m.Waiters) (hgoes : m.Goes move after) (s : Slumber)
    (hslumber : slumber (past ++ [⟨m, move⟩]) id = some s) (hfits : s.Fits) (hcounts : s.Counts)
    (hsleeps : after.kernel.table.state id = .sleeping) :
    0 < (after.kernel.table.sleep id).toNat ∧
      s.elapsed + (after.kernel.table.sleep id).toNat =
        s.ticks.toNat + Code.owed after.context.code := by
  have hregular := hgoverned.regular
  cases hgoes with
  | spin hnone =>
      rw [slumber_exec past m id hnone] at hslumber
      exact h.asleep s hslumber hfits hcounts hsleeps
  | step hstepped =>
      exact h.asleep_of_step hgoverned hwaiters hstepped s hslumber hfits hcounts hsleeps
  | @switch next prev rest _ hcode hswitched =>
      rw [slumber_exec past m id (step?_of_switch hcode)] at hslumber
      refine h.asleep_of_still (by rw [hswitched.kernel]; rfl) ?_ hslumber hfits hcounts hsleeps
      have hcalm := hregular.orderly.calm_of_switched hcode hswitched
      have hrest : Calm rest := hregular.orderly.fits_of_code hcode
      rw [hcode, Code.owed_cons (by simp), Code.owed_of_calm hrest, Code.owed_of_calm hcalm]
  | call request hcode =>
      rw [slumber_call] at hslumber
      split at hslumber
      next => cases hslumber
      next =>
          have htable : (m.call request).kernel.table = m.kernel.table := rfl
          refine h.asleep_of_still htable ?_ hslumber hfits hcounts hsleeps
          rw [context_call, hcode, Code.owed_of_calm request.calm_code]
          rfl
  | interrupt =>
      rw [slumber_interrupt] at hslumber
      have htable : m.interrupt.kernel.table = m.kernel.table := rfl
      refine h.asleep_of_still htable ?_ hslumber hfits hcounts hsleeps
      rw [context_interrupt]
      simp [Code.owed, interruptCode]

theorem goes (h : m.Reposes past id) (hgoverned : m.Governed past) (hwaiters : m.Waiters)
    (hgoes : m.Goes move after) : after.Reposes (past ++ [⟨m, move⟩]) id where
  counter := h.counter_of_goes hgoes
  stage := h.stage_of_goes hgoverned.regular hgoes
  elsewhere := h.elsewhere_of_goes hgoverned.regular
  asleep := h.asleep_of_goes hgoverned hwaiters hgoes

end Reposes

end Machine

theorem Run.reposes [Backend P] [LawfulBackend P] {config : Config} {policy : Policy} {cpu : P}
    {values : List Int32} {mutexes : Nat} {console : Console} {past : List (Transition P)}
    {m : Machine P} (hpolicy : policy.Sound)
    (run : Run (.fresh config policy cpu values mutexes console) past m) (id : ThreadId) :
    m.Reposes past id := by
  refine run.invariant (fun past m => m.Reposes past id) ?_ ?_
  · exact ⟨nofun, nofun, fun _ => rfl, nofun⟩
  · exact fun past m move run h hgoes =>
      h.goes (run.governed hpolicy) (run.waiters hpolicy) hgoes

end TickKernel
