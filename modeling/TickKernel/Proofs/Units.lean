import TickKernel.Proofs.Endings
import TickKernel.Proofs.MutualExclusion
import TickKernel.Proofs.Standing

/-!
# Units are neither lost nor made

The value of a semaphore is what it was at first, with the units that were given back
and without those that were taken.  A call of `wait` takes its unit once, however often
its thread is woken, overtaken or dispatched in vain before, and returns only then.
-/

namespace TickKernel

def Step.givesBack (index : Nat) : Step → Bool
  | .giveBack other _ => other == index
  | _ => false

def Step.attempts (index : Nat) : Step → Bool
  | .tryTake other _ => other == index
  | _ => false

theorem Step.isLast_of_attempts {step : Step} {index : Nat} (h : step.attempts index = true) :
    step.isLast = true := by
  cases step <;> first | rfl | cases h

variable {P : Type} [Backend P]

namespace Transition

def gives (t : Transition P) (index : Nat) : Bool :=
  t.step?.any (Step.givesBack index)

/-- Whether an attempt to take a unit puts an end to its caller's wait. -/
def takes (t : Transition P) (index : Nat) : Bool :=
  t.step?.any (Step.attempts index) && (Code.seeking t.after.context.code).isNone

def returns (t : Transition P) (before : List (Transition P)) (request : Request) : Bool :=
  t.step?.any Step.isReturn && asked before t.before.executing == some request

omit [Backend P] in
theorem returns_iff {t : Transition P} {before : List (Transition P)} {request : Request} :
    t.returns before request = true ↔ t.Returns before t.before.executing request := by
  rw [returns, Bool.and_eq_true, Option.any_eq_true, beq_iff_eq]
  constructor
  · rintro ⟨⟨step, hstep, hreturn⟩, hasked⟩
    refine ⟨rfl, hasked, ?_⟩
    cases step <;> try cases hreturn
    exact ⟨_, hstep⟩
  · rintro ⟨-, hasked, reply, hstep⟩
    exact ⟨⟨_, hstep, rfl⟩, hasked⟩

omit [Backend P] in
theorem returns_eq_false {t : Transition P}
    (h : ∀ step, t.step? = some step → step.isLast = false) (before : List (Transition P))
    (request : Request) : t.returns before request = false := by
  rw [← Bool.not_eq_true, returns_iff]
  rintro ⟨-, -, reply, hstep⟩
  cases h _ hstep

theorem takes_eq_false {t : Transition P}
    (h : ∀ step, t.step? = some step → step.isLast = false) (index : Nat) :
    t.takes index = false := by
  rw [← Bool.not_eq_true, takes, Bool.and_eq_true, Option.any_eq_true]
  rintro ⟨⟨step, hstep, hattempts⟩, -⟩
  have hlast := Step.isLast_of_attempts hattempts
  rw [h step hstep] at hlast
  cases hlast

end Transition

def given (past : List (Transition P)) (index : Nat) : Nat :=
  past.countP (·.gives index)

def taken (past : List (Transition P)) (index : Nat) : Nat :=
  past.countP (·.takes index)

/-- How many units a thread took in the operation that it asked for last. -/
def drawn (past : List (Transition P)) (index : Nat) (id : ThreadId) : Nat :=
  past.foldl
    (fun count t =>
      if t.before.executing = id then
        match t.move with
        | .call _ => 0
        | .exec | .interrupt => if t.takes index then count + 1 else count
      else count)
    0

def completed (past : List (Transition P)) (request : Request) : Nat :=
  past.zipIdx.countP fun (t, time) => t.returns (past.take time) request

/-- No unit was given back to a semaphore whose value was the greatest. -/
def Unsaturated (past : List (Transition P)) (index : Nat) : Prop :=
  ∀ t ∈ past, t.gives index = true → t.before.shared.stock index ≠ some Int32.maxValue

omit [Backend P] in
instance decidableUnsaturated (past : List (Transition P)) (index : Nat) :
    Decidable (Unsaturated past index) :=
  inferInstanceAs (Decidable (∀ t ∈ past, t.gives index = true →
    t.before.shared.stock index ≠ some Int32.maxValue))

section Counts

variable (past : List (Transition P)) (t : Transition P) (m : Machine P) (index : Nat)
  (id : ThreadId)

omit [Backend P] in
theorem given_append :
    given (past ++ [t]) index = given past index + if t.gives index then 1 else 0 := by
  rw [given, List.countP_append, List.countP_singleton, given]

theorem taken_append :
    taken (past ++ [t]) index = taken past index + if t.takes index then 1 else 0 := by
  rw [taken, List.countP_append, List.countP_singleton, taken]

omit [Backend P] in
theorem completed_append (request : Request) :
    completed (past ++ [t]) request =
      completed past request + if t.returns past request then 1 else 0 := by
  have hbefore : ∀ p ∈ past.zipIdx, p.1.returns ((past ++ [t]).take p.2) request = true ↔
      p.1.returns (past.take p.2) request = true := by
    rintro ⟨other, time⟩ hmem
    have htime : time < past.length := List.snd_lt_of_mem_zipIdx hmem
    rw [List.take_append_of_le_length (Nat.le_of_lt htime)]
  rw [completed, List.zipIdx_append, List.countP_append, List.countP_congr hbefore]
  simp [completed]

theorem drawn_exec :
    drawn (past ++ [⟨m, .exec⟩]) index id =
      drawn past index id +
        if m.executing = id ∧ Transition.takes ⟨m, .exec⟩ index = true then 1 else 0 := by
  by_cases hid : m.executing = id <;> by_cases htakes : Transition.takes ⟨m, .exec⟩ index <;>
    simp [drawn, hid, htakes]

@[simp]
theorem drawn_interrupt :
    drawn (past ++ [⟨m, .interrupt⟩]) index id = drawn past index id := by
  simp [drawn, Transition.takes, Transition.step?]

theorem drawn_call (request : Request) :
    drawn (past ++ [⟨m, .call request⟩]) index id =
      if m.executing = id then 0 else drawn past index id := by
  simp [drawn]

omit [Backend P] in
theorem unsaturated_append :
    Unsaturated (past ++ [t]) index ↔ Unsaturated past index ∧
      (t.gives index = true → t.before.shared.stock index ≠ some Int32.maxValue) := by
  simp [Unsaturated, or_imp, forall_and]

end Counts

theorem card_add_of_forall_ne {set other : Finset ThreadId} (me : ThreadId)
    (h : ∀ id, id ≠ me → (id ∈ set ↔ id ∈ other)) :
    set.card + (if me ∈ other then 1 else 0) = other.card + if me ∈ set then 1 else 0 := by
  have hrest : set.erase me = other.erase me := by
    ext id
    by_cases hid : id = me
    · simp [hid]
    · simp [hid, h id hid]
  have hcount : ∀ some : Finset ThreadId,
      some.card = (some.erase me).card + if me ∈ some then 1 else 0 := by
    intro some
    split
    next hmem => exact (Finset.card_erase_add_one hmem).symm
    next hmem => rw [Finset.erase_eq_of_notMem hmem, Nat.add_zero]
  rw [hcount set, hcount other, hrest]
  omega

/-! ## One semaphore in one step -/

namespace Machine

variable {past : List (Transition P)} {m after : Machine P} {step : Step}
  {rest pushed : List Step} {index : Nat} {value : Int32}

theorem Stepped.gives_eq (hstepped : m.Stepped step rest pushed after) (index : Nat) :
    Transition.gives ⟨m, .exec⟩ index = step.givesBack index := by
  rw [Transition.gives, hstepped.step?_eq, Option.any_some]

theorem Stepped.takes_eq (hstepped : m.Stepped step rest pushed after) (index : Nat) :
    Transition.takes ⟨m, .exec⟩ index =
      (step.attempts index && (Code.seeking after.context.code).isNone) := by
  rw [Transition.takes, hstepped.step?_eq, hstepped.after_eq, Option.any_some]

inductive Deal (t : Transition P) (index : Nat) (value : Int32) (stock : Option Int32) : Prop where
  | kept : t.takes index = false → t.gives index = false → stock = some value →
      Deal t index value stock
  | taken : t.takes index = true → t.gives index = false → 0 < value → stock = some (value - 1) →
      Deal t index value stock
  | given : t.takes index = false → t.gives index = true →
      stock = some (Semaphore.bumped value) → Deal t index value stock

/-- A unit is taken by an attempt that finds one, and given back under the semaphore's lock. -/
theorem Stepped.deal {struck : Prop} (hstepped : m.Stepped step rest pushed after)
    (hobjects : m.shared.Sound) (horderly : m.Orderly struck)
    (hstock : m.shared.stock index = some value) :
    Deal ⟨m, .exec⟩ index value (after.shared.stock index) := by
  have hkept : step.attempts index = false → step.givesBack index = false →
      after.shared.stock index = some value →
        Deal ⟨m, .exec⟩ index value (after.shared.stock index) := by
    intro hattempts hgives hafter
    refine .kept ?_ (hstepped.gives_eq index ▸ hgives) hafter
    rw [hstepped.takes_eq, hattempts, Bool.false_and]
  by_cases hown : step.semaphore? = some index
  · have hfits := horderly.fits hstepped
    have hcode := hstepped.code_after
    have hexists : m.shared.stock index ≠ none := by
      rw [hstock]
      exact Option.some_ne_none _
    cases (hstepped.deals hobjects (Step.asksSemaphore_of_semaphore? hown)).1 with
    | absent hnone | lost hnone =>
        cases hown
        exact absurd hnone hexists
    | taken hsome hpos hafter hline =>
        cases hown
        obtain rfl := Option.some.inj (hsome.symm.trans hstock)
        obtain rfl : rest = [] := hfits
        refine .taken ?_ ((hstepped.gives_eq index).trans rfl) hpos ?_
        · rw [hstepped.takes_eq, hcode]
          simp [Step.attempts, Code.seeking, Step.seeks]
        · rw [hafter, Function.update_self]
    | short hsome hnot hafter hline =>
        obtain rfl : rest = [] := hfits
        refine .kept ?_ (hstepped.gives_eq index) (by rw [hafter, hstock])
        rw [hstepped.takes_eq, hcode]
        simp [Code.seeking, Step.seeks]
    | given hsome hempty hafter hline | woken hsome hold hafter hline =>
        cases hown
        obtain rfl := Option.some.inj (hsome.symm.trans hstock)
        refine .given (hstepped.takes_eq index) ?_ (by rw [hafter, Function.update_self])
        rw [hstepped.gives_eq]
        exact beq_self_eq_true index
  · refine hkept ?_ ?_ ((hstepped.semaphore_other hobjects hown).1.trans hstock)
    all_goals
      cases step <;> first | rfl | exact beq_eq_false_iff_ne.2 fun heq => hown (congrArg some heq)

theorem Regular.deal {move : Move} [LawfulBackend P] (h : m.Regular past)
    (hgoes : m.Goes move after) (hstock : m.shared.stock index = some value) :
    Deal ⟨m, move⟩ index value (after.shared.stock index) := by
  rcases hgoes.steps_or_still with ⟨step, rest, pushed, rfl, hstepped⟩ | ⟨hshared, hswitches⟩
  · exact hstepped.deal h.objects h.orderly hstock
  · refine .kept ?_ ?_ (hshared ▸ hstock)
    all_goals
      cases hstep : Transition.step? ⟨m, move⟩ with
      | none => simp [Transition.takes, Transition.gives, hstep]
      | some step =>
          obtain ⟨next, prev, rfl⟩ := Step.eq_switch (hswitches step hstep)
          simp [Transition.takes, Transition.gives, hstep, Step.attempts, Step.givesBack]

/-! ## The stages of a call of `wait` -/

inductive Drawing (index : Nat) : Option Step → Nat → Prop where
  | seeking {last : Step} : last.seeks = some (.unit index) → Drawing index (some last) 0
  | leaving (reply : Reply) : Drawing index (some (.finish reply)) 1
  | back : Drawing index none 1
  /-- A tick came in before the thread asked for anything else. -/
  | struck : Drawing index (some .resume) 1

/-- What the last step of a call of `wait` does. -/
inductive Draws (index : Nat) (t : Transition P) (step : Step) (pushed : List Step) : Prop where
  | seeks {last : Step} : step.isReturn = false → pushed.getLast? = some last →
      last.seeks = some (.unit index) → t.takes index = false → Draws index t step pushed
  | takes {reply : Reply} : step.isReturn = false → pushed.getLast? = some (.finish reply) →
      t.takes index = true → Draws index t step pushed

variable [LawfulBackend P] {id : ThreadId} {last : Option Step} {count : Nat}

omit [LawfulBackend P] in
/-- Whoever seeks a unit goes on seeking, or takes one and returns. -/
theorem Stepped.draws (hstepped : m.Stepped step [] pushed after)
    (hserves : step.Serves m.executing (some (.wait index)))
    (hseeks : step.seeks = some (.unit index)) : Draws index ⟨m, .exec⟩ step pushed := by
  have hcode : after.context.code = pushed := by rw [hstepped.code_after, List.append_nil]
  have hreturn : step.isReturn = false := by cases step <;> first | rfl | cases hseeks
  rcases hstepped.expands.settles_or_seeks hseeks with hsettles | ⟨last, hlast, hfound⟩
  · cases hsettles with
    | acquired => cases hseeks
    | awake => cases hseeks
    | @taken other me =>
        obtain rfl : other = index := by injection Option.some.inj hseeks
        refine .takes hreturn rfl ?_
        rw [hstepped.takes_eq, hcode]
        simp [Step.attempts, Code.seeking, Step.seeks]
  · refine .seeks hreturn hlast hfound ?_
    have hseeking : Code.seeking pushed = some (.unit index) := by
      rw [Code.seeking, hlast]
      exact hfound
    rw [hstepped.takes_eq, hcode, hseeking]
    exact Bool.and_false _

def leavers (past : List (Transition P)) (m : Machine P) (index : Nat) : Finset ThreadId :=
  Finset.univ.filter fun id =>
    asked past id = some (.wait index) ∧ Code.leaving (m.contextOf id).code = true

/-- What became of a semaphore's units, and who took them. -/
structure Ledger (past : List (Transition P)) (index : Nat) (first : Int32) (m : Machine P) :
    Prop where
  value : ∃ value, m.shared.stock index = some value ∧ min first.toInt 0 ≤ value.toInt ∧
    value.toInt ≤ first.toInt + given past index - taken past index ∧
      (Unsaturated past index →
        value.toInt = first.toInt + given past index - taken past index)
  stage : ∀ id, asked past id = some (.wait index) →
    Drawing index (m.contextOf id).code.getLast? (drawn past index id)
  elsewhere : ∀ id, asked past id ≠ some (.wait index) → drawn past index id = 0
  balance : taken past index = completed past (.wait index) + (leavers past m index).card

theorem Regular.asked_of_takes (h : m.Regular past) {t : Transition P} (hbefore : t.before = m)
    (htakes : t.takes index = true) : asked past m.executing = some (.wait index) := by
  obtain ⟨_, move⟩ := t
  subst hbefore
  rw [Transition.takes, Bool.and_eq_true, Option.any_eq_true] at htakes
  obtain ⟨⟨step, hstep, hattempts⟩, -⟩ := htakes
  cases move with
  | call | interrupt => cases hstep
  | exec =>
      have hserves := h.served_of_step? hstep
      cases step <;> try cases hattempts
      obtain rfl := beq_iff_eq.1 hattempts
      exact hserves.1

namespace Ledger

variable {first : Int32} {move : Move}

theorem value_of_goes (h : m.Ledger past index first) (hregular : m.Regular past)
    (hgoes : m.Goes move after) :
    ∃ value, after.shared.stock index = some value ∧ min first.toInt 0 ≤ value.toInt ∧
      value.toInt ≤
        first.toInt + given (past ++ [⟨m, move⟩]) index - taken (past ++ [⟨m, move⟩]) index ∧
      (Unsaturated (past ++ [⟨m, move⟩]) index → value.toInt =
        first.toInt + given (past ++ [⟨m, move⟩]) index -
          taken (past ++ [⟨m, move⟩]) index) := by
  obtain ⟨value, hstock, hlow, hhigh, hexact⟩ := h.value
  rw [given_append, taken_append, unsaturated_append]
  cases hregular.deal hgoes hstock with
  | kept htakes hgives hafter =>
      rw [htakes, hgives]
      exact ⟨value, hafter, hlow, by simpa using hhigh, fun hroom => by simpa using hexact hroom.1⟩
  | taken htakes hgives hpos hafter =>
      have hless := Semaphore.toInt_sub_one hpos
      have hvalue : (0 : Int32).toInt < value.toInt := Int32.lt_iff_toInt_lt.1 hpos
      have hzero : (0 : Int32).toInt = 0 := rfl
      rw [htakes, hgives, if_pos rfl, if_neg Bool.false_ne_true]
      refine ⟨value - 1, hafter, by omega, by omega, fun hroom => ?_⟩
      have hsame := hexact hroom.1
      omega
  | given htakes hgives hafter =>
      have hbumped := Semaphore.toInt_bumped_mem value
      rw [htakes, hgives, if_pos rfl, if_neg Bool.false_ne_true]
      refine ⟨Semaphore.bumped value, hafter, by omega, by omega, fun hroom => ?_⟩
      have hmore := Semaphore.toInt_bumped fun hmax => hroom.2 rfl (hmax ▸ hstock)
      have hsame := hexact hroom.1
      omega

/--
The last step of a `wait` leads to another look, to a return with a unit, or back to the
caller; it takes a unit, or returns with one, or does neither.
-/
theorem turn_of_last (h : m.Ledger past index first) (hregular : m.Regular past)
    (hstepped : m.Stepped step [] pushed after)
    (hasked : asked past m.executing = some (.wait index)) :
    Drawing index pushed.getLast? (drawn (past ++ [⟨m, .exec⟩]) index m.executing) ∧
      (if Code.leaving pushed = true then 1 else 0) + (if step.isReturn then 1 else 0) =
        (if Code.leaving [step] = true then 1 else 0) +
          if Transition.takes ⟨m, .exec⟩ index then 1 else 0 := by
  have hstage := h.stage m.executing hasked
  have hserves := hregular.served hstepped
  rw [hasked] at hserves
  rw [contextOf_executing rfl, hstepped.code] at hstage
  rw [drawn_exec]
  generalize hfinal : [step].getLast? = final at hstage
  obtain rfl := hfinal
  generalize drawn past index m.executing = count at hstage ⊢
  cases hstage with
  | seeking hseeks =>
      cases hstepped.draws hserves hseeks with
      | @seeks last hreturn hlast hfound htakes =>
          have hstill : last.isReturn = false := by
            cases last <;> first | rfl | cases hfound
          refine ⟨?_, by simp [Code.leaving, hreturn, hlast, hstill, htakes]⟩
          rw [hlast, htakes]
          simpa using .seeking hfound
      | @takes reply hreturn hlast htakes =>
          have hfinal : (Step.finish reply).isReturn = true := rfl
          refine ⟨?_, by simp [Code.leaving, hreturn, hlast, htakes, hfinal]⟩
          rw [hlast, htakes]
          simpa using .leaving _
  | leaving reply =>
      rw [hstepped.expands.eq_nil rfl, hstepped.takes_eq]
      refine ⟨?_, by simp [Code.leaving, Step.isReturn, Step.attempts]⟩
      simpa [Step.attempts] using .back
  | struck =>
      rw [hstepped.expands.eq_nil rfl, hstepped.takes_eq]
      refine ⟨?_, by simp [Code.leaving, Step.isReturn, Step.attempts]⟩
      simpa [Step.attempts] using .back

theorem stage_of_goes (h : m.Ledger past index first) (hregular : m.Regular past)
    (hgoes : m.Goes move after) (id : ThreadId)
    (hasked : asked (past ++ [⟨m, move⟩]) id = some (.wait index)) :
    Drawing index (after.contextOf id).code.getLast? (drawn (past ++ [⟨m, move⟩]) index id) := by
  cases hregular.ending hgoes (by rw [hasked]; nofun) with
  | kept hlast hown =>
      rw [hlast]
      cases move with
      | exec =>
          rw [asked_exec] at hasked
          rw [drawn_exec, if_neg]
          · exact h.stage id hasked
          · rintro ⟨hid, htakes⟩
            rw [Transition.takes_eq_false (hown hid).2] at htakes
            cases htakes
      | interrupt =>
          rw [asked_interrupt] at hasked
          rw [drawn_interrupt]
          exact h.stage id hasked
      | call request =>
          have hid : m.executing ≠ id := fun heq => (hown heq).1 request rfl
          rw [asked_call, if_neg hid] at hasked
          rw [drawn_call, if_neg hid]
          exact h.stage id hasked
  | @ended step pushed _ hid hstepped =>
      subst hid
      rw [contextOf_executing hstepped.effect.executing, hstepped.code_after, List.append_nil]
      exact (h.turn_of_last hregular hstepped (asked_exec past m _ ▸ hasked)).1
  | called request hid hcode =>
      subst hid
      rw [asked_call, if_pos rfl] at hasked
      obtain rfl := Option.some.inj hasked
      rw [contextOf_executing (executing_call m _), context_call, drawn_call, if_pos rfl]
      exact .seeking rfl
  | struck hid hcode =>
      subst hid
      rw [asked_interrupt] at hasked
      have hstage := h.stage m.executing hasked
      rw [contextOf_executing rfl, hcode] at hstage
      rw [contextOf_executing (executing_interrupt m), context_interrupt, hcode,
        drawn_interrupt]
      generalize drawn past index m.executing = count at hstage ⊢
      cases hstage with
      | back => exact .struck

theorem elsewhere_of_goes (h : m.Ledger past index first) (hregular : m.Regular past)
    (id : ThreadId) (hasked : asked (past ++ [⟨m, move⟩]) id ≠ some (.wait index)) :
    drawn (past ++ [⟨m, move⟩]) index id = 0 := by
  cases move with
  | exec =>
      rw [asked_exec] at hasked
      rw [drawn_exec, h.elsewhere id hasked, if_neg]
      rintro ⟨rfl, htakes⟩
      exact hasked (hregular.asked_of_takes rfl htakes)
  | interrupt =>
      rw [asked_interrupt] at hasked
      rw [drawn_interrupt, h.elsewhere id hasked]
  | call request =>
      rw [asked_call] at hasked
      rw [drawn_call]
      split at hasked
      next hid => rw [if_pos hid]
      next hid => rw [if_neg hid, h.elsewhere id hasked]

theorem turn_of_unasked (hregular : m.Regular past) (hgoes : m.Goes move after)
    (hasked : asked (past ++ [⟨m, move⟩]) m.executing ≠ some (.wait index)) :
    Transition.takes ⟨m, move⟩ index = false ∧
      Transition.returns ⟨m, move⟩ past (.wait index) = false ∧
        ¬ (asked past m.executing = some (.wait index) ∧
          Code.leaving (m.contextOf m.executing).code = true) := by
  have htakes : Transition.takes ⟨m, move⟩ index = false := by
    rw [← Bool.not_eq_true]
    intro htakes
    have hwaits := hregular.asked_of_takes rfl htakes
    cases move with
    | exec => exact hasked (asked_exec past m _ ▸ hwaits)
    | interrupt => exact hasked (asked_interrupt past m _ ▸ hwaits)
    | call => simp [Transition.takes, Transition.step?] at htakes
  refine ⟨htakes, ?_⟩
  cases move with
  | exec =>
      rw [asked_exec] at hasked
      simp [hasked, Transition.returns]
  | interrupt =>
      rw [asked_interrupt] at hasked
      simp [hasked, Transition.returns]
  | call request =>
      cases hgoes with
      | call _ hcode =>
          rw [contextOf_executing (m := m) rfl, hcode]
          simp [Transition.returns, Transition.step?, Code.leaving]

/-- One transition of a thread takes a unit, or returns with one, or does neither. -/
theorem turn_of_goes (h : m.Ledger past index first) (hregular : m.Regular past)
    (hgoes : m.Goes move after) :
    (if m.executing ∈ leavers (past ++ [⟨m, move⟩]) after index then 1 else 0) +
        (if Transition.returns ⟨m, move⟩ past (.wait index) then 1 else 0) =
      (if m.executing ∈ leavers past m index then 1 else 0) +
        if Transition.takes ⟨m, move⟩ index then 1 else 0 := by
  simp only [leavers, Finset.mem_filter, Finset.mem_univ, true_and]
  have hquiet : (∀ step, Transition.step? ⟨m, move⟩ = some step → step.isLast = false) →
      Transition.returns ⟨m, move⟩ past (.wait index) = false ∧
        Transition.takes ⟨m, move⟩ index = false :=
    fun hnone => ⟨Transition.returns_eq_false hnone _ _, Transition.takes_eq_false hnone _⟩
  by_cases hasked : asked (past ++ [⟨m, move⟩]) m.executing = some (.wait index)
  · cases hregular.ending hgoes (by rw [hasked]; exact Option.some_ne_none _) with
    | kept hlast hown =>
        obtain ⟨hcalls, hsteps⟩ := hown rfl
        obtain ⟨hreturns, htakes⟩ := hquiet hsteps
        have hsame : asked (past ++ [⟨m, move⟩]) m.executing = asked past m.executing := by
          cases move with
          | exec => exact asked_exec ..
          | interrupt => exact asked_interrupt ..
          | call request => exact absurd rfl (hcalls request)
        rw [hsame, hreturns, htakes, Code.leaving, Code.leaving, hlast]
    | @ended step pushed _ _ hstepped =>
        rw [asked_exec] at hasked
        have hreturns : Transition.returns ⟨m, .exec⟩ past (.wait index) = step.isReturn := by
          simp [Transition.returns, hstepped.step?_eq, hasked]
        rw [asked_exec, hreturns, contextOf_executing rfl, hstepped.code,
          contextOf_executing hstepped.effect.executing, hstepped.code_after, List.append_nil]
        simpa only [hasked, true_and] using (h.turn_of_last hregular hstepped hasked).2
    | called request _ hcode =>
        obtain ⟨hreturns, htakes⟩ := hquiet fun step hstep => by cases hstep
        rw [asked_call, if_pos rfl] at hasked
        obtain rfl := Option.some.inj hasked
        rw [hreturns, htakes, contextOf_executing rfl, hcode,
          contextOf_executing (executing_call m _), context_call]
        simp [Code.leaving, Request.code, Step.isReturn]
    | struck _ hcode =>
        obtain ⟨hreturns, htakes⟩ := hquiet fun step hstep => by cases hstep
        rw [hreturns, htakes, contextOf_executing rfl, hcode,
          contextOf_executing (executing_interrupt m), context_interrupt, hcode]
        simp [Code.leaving, interruptCode, Step.isReturn]
  · obtain ⟨htakes, hreturns, hleaving⟩ := turn_of_unasked hregular hgoes hasked
    rw [htakes, hreturns, if_neg fun hleaves => hasked hleaves.1, if_neg hleaving]

/-- Whoever took a unit has returned with it, or is about to. -/
theorem balance_of_goes (h : m.Ledger past index first) (hregular : m.Regular past)
    (hgoes : m.Goes move after) :
    taken (past ++ [⟨m, move⟩]) index =
      completed (past ++ [⟨m, move⟩]) (.wait index) +
        (leavers (past ++ [⟨m, move⟩]) after index).card := by
  have hothers : ∀ id, id ≠ m.executing →
      (id ∈ leavers (past ++ [⟨m, move⟩]) after index ↔ id ∈ leavers past m index) := by
    intro id hid
    have hsame : asked (past ++ [⟨m, move⟩]) id = asked past id := by
      cases move with
      | exec => exact asked_exec ..
      | interrupt => exact asked_interrupt ..
      | call request => rw [asked_call, if_neg (Ne.symm hid)]
    simp only [leavers, Finset.mem_filter, Finset.mem_univ, true_and, hsame]
    refine and_congr_right fun hasked => ?_
    cases hregular.ending hgoes (by rw [hsame, hasked]; nofun) with
    | kept hlast hown => rw [Code.leaving, Code.leaving, hlast]
    | ended heq | called _ heq | struck heq => exact absurd heq.symm hid
  have hcard := card_add_of_forall_ne m.executing hothers
  have hturn := h.turn_of_goes hregular hgoes
  have hbalance := h.balance
  rw [taken_append, completed_append]
  omega

theorem goes (h : m.Ledger past index first) (hregular : m.Regular past)
    (hgoes : m.Goes move after) : after.Ledger (past ++ [⟨m, move⟩]) index first where
  value := h.value_of_goes hregular hgoes
  stage := h.stage_of_goes hregular hgoes
  elsewhere := h.elsewhere_of_goes hregular
  balance := h.balance_of_goes hregular hgoes

omit [LawfulBackend P] in
theorem fresh (config : Config) (policy : Policy) (cpu : P) {values : List Int32} (mutexes : Nat)
    (console : Console) (hfirst : values[index]? = some first) :
    (fresh config policy cpu values mutexes console).Ledger [] index first where
  value := by
    refine ⟨first, ?_, min_le_left _ _, ?_, fun _ => ?_⟩
    · show (Shared.new values mutexes console).stock index = some first
      simp [Shared.stock, Shared.new, hfirst]
    · simp [given, taken]
    · simp [given, taken]
  stage _ hasked := by cases hasked
  elsewhere _ _ := rfl
  balance := by simp [taken, completed, leavers]

theorem drawn_of_returns (h : m.Ledger past index first) (hregular : m.Regular past)
    (hreturns : Transition.Returns ⟨m, move⟩ past id (.wait index)) : drawn past index id = 1 := by
  obtain ⟨reply, hcode⟩ := hregular.code_of_returns hreturns
  have hstage := h.stage id hreturns.asked
  rw [hcode] at hstage
  generalize drawn past index id = count at hstage ⊢
  cases hstage with
  | seeking hseeks => cases hseeks
  | leaving => rfl

omit [LawfulBackend P] in
theorem drawn_le (h : m.Ledger past index first) (id : ThreadId) : drawn past index id ≤ 1 := by
  by_cases hasked : asked past id = some (.wait index)
  · have hstage := h.stage id hasked
    generalize (m.contextOf id).code.getLast? = last at hstage
    generalize drawn past index id = count at hstage ⊢
    cases hstage <;> omega
  · rw [h.elsewhere id hasked]
    omega

/-- A unit is taken by a thread in `wait` that has none yet, and only if there is one. -/
theorem takes_pos (h : m.Ledger past index first) (hregular : m.Regular past)
    (hgoes : m.Goes move (m.after move)) (htakes : Transition.takes ⟨m, move⟩ index = true) :
    asked past m.executing = some (.wait index) ∧ drawn past index m.executing = 0 ∧
      ∃ value, m.shared.stock index = some value ∧ 0 < value ∧
        (m.after move).shared.stock index = some (value - 1) := by
  have hasked := hregular.asked_of_takes rfl htakes
  refine ⟨hasked, ?_, ?_⟩
  · have hlater := (h.goes hregular hgoes).drawn_le m.executing
    cases move with
    | call | interrupt => simp [Transition.takes, Transition.step?] at htakes
    | exec =>
        rw [drawn_exec, if_pos ⟨rfl, htakes⟩] at hlater
        omega
  · obtain ⟨value, hstock, -⟩ := h.value
    refine ⟨value, hstock, ?_⟩
    cases hregular.deal hgoes hstock with
    | kept hkept _ _ =>
        rw [htakes] at hkept
        cases hkept
    | taken _ _ hpos hafter => exact ⟨hpos, hafter⟩
    | given hgiven _ _ =>
        rw [htakes] at hgiven
        cases hgiven

end Ledger

end Machine

variable [LawfulBackend P]

theorem Run.ledger {config : Config} {policy : Policy} {cpu : P} {values : List Int32}
    {mutexes : Nat} {console : Console} {past : List (Transition P)} {m : Machine P}
    (run : Run (.fresh config policy cpu values mutexes console) past m) {index : Nat}
    {first : Int32} (hfirst : values[index]? = some first) : m.Ledger past index first := by
  refine run.invariant (fun past m => m.Ledger past index first) ?_ ?_
  · exact .fresh config policy cpu mutexes console hfirst
  · exact fun past m move run h hgoes => h.goes run.regular hgoes

/--
Units of a semaphore are conserved, whatever the policy chooses and whoever is switched
to.  The value never falls below zero, or below what it was at first if that is less;
and as long as no unit was given back at the greatest value, it is the first value, plus
the units given back, minus those taken.  A unit is taken only where the value is
positive, by a thread in `wait` that has none yet, and every call of `wait` has taken
one when it returns.  So no more calls of `wait` return than there were units.
-/
theorem Run.unit_conservation {config : Config} {policy : Policy} {cpu : P}
    {values : List Int32} {mutexes : Nat} {console : Console} {past : List (Transition P)}
    {m : Machine P} (run : Run (.fresh config policy cpu values mutexes console) past m)
    {index : Nat} {first : Int32} (hfirst : values[index]? = some first) :
    ∃ semaphore, m.shared.semaphores[index]? = some semaphore ∧
      min first.toInt 0 ≤ semaphore.value.toInt ∧
      (Unsaturated past index → semaphore.value.toInt =
        first.toInt + given past index - taken past index) ∧
      (∀ before t later, past = before ++ t :: later → t.takes index = true →
        asked before t.before.executing = some (.wait index) ∧
          drawn before index t.before.executing = 0 ∧
            ∃ value, t.before.shared.stock index = some value ∧ 0 < value ∧
              t.after.shared.stock index = some (value - 1)) ∧
      (∀ id, drawn past index id ≤ 1) ∧
      (∀ before t later id, past = before ++ t :: later →
        t.Returns before id (.wait index) → drawn before index id = 1) ∧
      completed past (.wait index) ≤ taken past index ∧
      (completed past (.wait index) : Int) ≤ max first.toInt 0 + given past index := by
  have hledger := run.ledger hfirst
  obtain ⟨value, hstock, hlow, hhigh, hexact⟩ := hledger.value
  obtain ⟨semaphore, hsemaphore, rfl⟩ := Option.map_eq_some_iff.1 hstock
  have hbalance := hledger.balance
  refine ⟨semaphore, hsemaphore, hlow, hexact, ?_, hledger.drawn_le, ?_, by omega, by omega⟩
  · rintro before t later rfl htakes
    obtain ⟨earlier, allowed⟩ := run.before
    exact (earlier.ledger hfirst).takes_pos earlier.regular (Machine.goes_after _ allowed) htakes
  · rintro before t later id rfl hreturns
    obtain ⟨earlier, -⟩ := run.before
    exact (earlier.ledger hfirst).drawn_of_returns earlier.regular hreturns

/-- The idle thread, alone, gives two units back and then takes one. -/
def refill : List Move :=
  .call (.signal 0) :: List.replicate 8 .exec ++ .call (.signal 0) :: List.replicate 8 .exec
    ++ .call (.wait 0) :: List.replicate 14 .exec

/-- A semaphore that begins a unit short has none left after two signals and a wait. -/
theorem Run.unit_conservation_of_refill :
    ∃ (past : List (Transition Host)) (m : Machine Host) (semaphore : Semaphore),
      Run (.fresh {} .roundRobin {} [-1] 0 { sinks := [], installed := none }) past m ∧
        m.shared.semaphores[0]? = some semaphore ∧ semaphore.value.toInt = -1 + 2 - 1 ∧
          completed past (.wait 0) = 1 := by
  let start : Machine Host := .fresh {} .roundRobin {} [-1] 0 { sinks := [], installed := none }
  let past := start.transitions refill
  have run : Run start past (refill.foldl Machine.after start) := .of_plays (by decide +kernel)
  have hroom : Unsaturated past 0 := by decide +kernel
  obtain ⟨semaphore, hsemaphore, -, hexact, -⟩ :=
    Run.unit_conservation run (show [(-1 : Int32)][0]? = some (-1) from rfl)
  refine ⟨past, _, semaphore, run, hsemaphore, ?_, by decide +kernel⟩
  have hgiven : given past 0 = 2 := by decide +kernel
  have htaken : taken past 0 = 1 := by decide +kernel
  rw [hexact hroom, hgiven, htaken]
  rfl

end TickKernel
