import TickKernel.Proofs.Flags
import TickKernel.Proofs.Frames

/-!
# The call of a new thread

A processor that starts threads from their first frames launches a thread that took part in no
switch, and goes on with any other where it was switched away from.  So a thread calls its entry
routine once, with the argument that it was created with, and its first dispatch leads there.
-/

namespace TickKernel

/-! ## Who took part in a switch -/

def TookPart {P : Type} (past : List (Transition P)) (id : ThreadId) : Prop :=
  ∃ t ∈ past, t.Suspends id ∨ t.Resumes id

section

variable {P : Type} {past : List (Transition P)} {t : Transition P} {id : ThreadId}

theorem tookPart_append :
    TookPart (past ++ [t]) id ↔ TookPart past id ∨ t.Suspends id ∨ t.Resumes id := by
  simp only [TookPart, List.mem_append, List.mem_singleton, or_and_right, exists_or,
    exists_eq_left]

theorem tookPart_append_switch {next prev : ThreadId} (hstep : t.step? = some (.switch next prev)) :
    TookPart (past ++ [t]) id ↔ TookPart past id ∨ prev = id ∨ next = id := by
  rw [tookPart_append, Transition.Suspends, Transition.Resumes, hstep]
  simp

theorem not_suspends_resumes (h : ∀ next prev, t.step? ≠ some (.switch next prev)) :
    ¬ t.Suspends id ∧ ¬ t.Resumes id :=
  ⟨fun ⟨next, hstep⟩ => h next id hstep, fun ⟨prev, hstep⟩ => h id prev hstep⟩

end

namespace Machine

variable {P : Type} [Backend P] [LawfulBackend P] {past : List (Transition P)}
  {m after : Machine P} {move : Move}

/-- The processor knows every thread that was switched away from, and no others but switched to. -/
structure Partaken (past : List (Transition P)) (m : Machine P) : Prop where
  left : ∀ t ∈ past, ∀ id, t.Suspends id → LawfulBackend.suspended m.kernel.cpu id
  known : ∀ id, LawfulBackend.suspended m.kernel.cpu id → TookPart past id
  /-- Whoever took part, the idle thread excepted, was switched to. -/
  origin : ∀ id, TookPart past id → id = ThreadId.idle ∨ ∃ t ∈ past, t.Resumes id
  executing : m.executing = ThreadId.idle ∨ ∃ t ∈ past, t.Resumes m.executing

end Machine

namespace Machine.Partaken

variable {P : Type} [Backend P] [FrameBackend P] {past : List (Transition P)}
  {m after : Machine P} {move : Move}

theorem fresh (config : Config) (policy : Policy) {cpu : P} (hblank : LawfulBackend.Blank cpu)
    (values : List Int32) (mutexes : Nat) (console : Console) :
    (fresh config policy cpu values mutexes console).Partaken [] where
  left t hmem := absurd hmem List.not_mem_nil
  known id hknown := absurd hknown (hblank id)
  origin id htook := by
    obtain ⟨t, hmem, -⟩ := htook
    cases hmem
  executing := .inl rfl

theorem still (h : m.Partaken past)
    (hno : ∀ next prev, Transition.step? ⟨m, move⟩ ≠ some (.switch next prev))
    (hgoes : m.Goes move after) : after.Partaken (past ++ [⟨m, move⟩]) := by
  have hsame : after.executing = m.executing ∧
      ∀ id, LawfulBackend.suspended after.kernel.cpu id ↔
        LawfulBackend.suspended m.kernel.cpu id := by
    cases hgoes with
    | spin | call | interrupt => exact ⟨rfl, fun _ => Iff.rfl⟩
    | switch hcode => exact absurd (step?_of_switch hcode) (hno _ _)
    | step hstepped =>
        refine ⟨hstepped.effect.executing, fun id => ?_⟩
        rcases hstepped.effect.cpu with hcpu | ⟨period, hcpu⟩
        · rw [hcpu]
        · rw [hcpu]
          exact ⟨FrameBackend.startTimer_adds _ period id,
            LawfulBackend.startTimer_keeps _ period id⟩
  have hlater : ∀ id, (∃ t ∈ past, t.Resumes id) → ∃ t ∈ past ++ [⟨m, move⟩], t.Resumes id :=
    fun id ⟨t, hmem, hresumes⟩ => ⟨t, List.mem_append_left _ hmem, hresumes⟩
  constructor
  · intro t hmem id hsuspends
    rw [hsame.2]
    rcases List.mem_append.1 hmem with hmem | hlast
    · exact h.left t hmem id hsuspends
    · obtain rfl := List.mem_singleton.1 hlast
      exact absurd hsuspends (not_suspends_resumes hno).1
  · exact fun id hknown => tookPart_append.2 (.inl (h.known id ((hsame.2 id).1 hknown)))
  · intro id htook
    have hbefore : TookPart past id := (tookPart_append.1 htook).resolve_right fun hlast =>
      hlast.elim (not_suspends_resumes hno).1 (not_suspends_resumes hno).2
    exact (h.origin id hbefore).imp_right (hlater id)
  · rw [hsame.1]
    exact h.executing.imp_right (hlater _)

theorem switch {next prev : ThreadId} {rest : List Step} (h : m.Partaken past)
    (hseated : m.Seated) (hcode : m.context.code = .switch next prev :: rest)
    (hswitched : (m.setCode rest).Switched next prev after) :
    after.Partaken (past ++ [⟨m, .exec⟩]) := by
  have hstep := step?_of_switch hcode
  obtain ⟨-, rfl, -⟩ := hseated.switch_eq hcode
  have htook : ∀ id, TookPart (past ++ [⟨m, .exec⟩]) id ↔
      TookPart past id ∨ m.executing = id ∨ next = id :=
    fun _ => tookPart_append_switch hstep
  have hresumed : ∀ id, (next = id ∨ ∃ t ∈ past, t.Resumes id) →
      ∃ t ∈ past ++ [⟨m, .exec⟩], t.Resumes id := by
    rintro id (rfl | ⟨t, hmem, hresumes⟩)
    · exact ⟨⟨m, .exec⟩, by simp, m.executing, hstep⟩
    · exact ⟨t, List.mem_append_left _ hmem, hresumes⟩
  constructor
  · intro t hmem id hsuspends
    rw [hswitched.kernel]
    rcases List.mem_append.1 hmem with hmem | hlast
    · exact LawfulBackend.switch_keeps _ _ _ _ (h.left t hmem id hsuspends)
    · obtain rfl := List.mem_singleton.1 hlast
      obtain ⟨other, hother⟩ := hsuspends
      cases hstep.symm.trans hother
      exact LawfulBackend.suspends _ _ _
  · intro id hknown
    rw [hswitched.kernel] at hknown
    rw [htook]
    rcases FrameBackend.switch_adds _ _ _ _ hknown with hbefore | hprev | hnext
    · exact .inl (h.known id hbefore)
    · exact .inr (.inl hprev.symm)
    · exact .inr (.inr hnext.symm)
  · intro id hid
    rcases (htook id).1 hid with hbefore | rfl | hnext
    · exact (h.origin id hbefore).imp_right fun hresumes => hresumed id (.inr hresumes)
    · exact h.executing.imp_right fun hresumes => hresumed _ (.inr hresumes)
    · exact .inr (hresumed id (.inl hnext))
  · rw [hswitched.executing]
    exact .inr (hresumed next (.inl rfl))

theorem goes (h : m.Partaken past) (hseated : m.Seated) (hgoes : m.Goes move after) :
    after.Partaken (past ++ [⟨m, move⟩]) := by
  by_cases hswitch : ∃ next prev, Transition.step? ⟨m, move⟩ = some (.switch next prev)
  · obtain ⟨next, prev, hstep⟩ := hswitch
    obtain ⟨rest, rfl, hcode, hswitched⟩ := hgoes.switched_of_step? hstep
    exact h.switch hseated hcode hswitched
  · exact h.still (fun next prev hstep => hswitch ⟨next, prev, hstep⟩) hgoes

end Machine.Partaken

theorem Run.partaken {P : Type} [Backend P] [FrameBackend P] {config : Config} {policy : Policy}
    {cpu : P} (hblank : LawfulBackend.Blank cpu) {values : List Int32} {mutexes : Nat}
    {console : Console} {past : List (Transition P)} {m : Machine P}
    (run : Run (.fresh config policy cpu values mutexes console) past m) : m.Partaken past := by
  refine run.invariant (fun past m => m.Partaken past) ?_ ?_
  · exact .fresh config policy hblank values mutexes console
  · exact fun _ _ _ run h hgoes => h.goes run.regular.seated hgoes

/-! ## Calls of entry routines -/

def Step.entered? : Step → Option EntryCall
  | .enter call => some call
  | _ => none

def Code.calls (code : List Step) : List EntryCall :=
  code.filterMap Step.entered?

theorem Code.calls_append (front rest : List Step) :
    calls (front ++ rest) = calls front ++ calls rest :=
  List.filterMap_append

section

variable {P : Type}

def Transition.entered? (t : Transition P) (id : ThreadId) : Option EntryCall :=
  if t.before.executing = id then t.step?.bind Step.entered? else none

def callsBy (past : List (Transition P)) (id : ThreadId) : List EntryCall :=
  past.filterMap (·.entered? id)

theorem callsBy_append (past : List (Transition P)) (t : Transition P) (id : ThreadId) :
    callsBy (past ++ [t]) id = callsBy past id ++ (t.entered? id).toList :=
  filterMap_snoc _ past t

theorem Kernel.Expands.calls_eq_nil {kernel : Kernel P} {step : Step} {pushed : List Step}
    (h : kernel.Expands step pushed) : Code.calls pushed = [] := by
  refine List.filterMap_eq_nil_iff.2 fun other hmem => ?_
  have hleads := h.leadsTo hmem
  cases other
  case enter => cases hleads
  all_goals rfl

theorem Request.calls_code (request : Request) : Code.calls request.code = [] := by
  refine List.filterMap_eq_nil_iff.2 fun step hmem => ?_
  have hasked := request.isAskedFor_code hmem
  cases step
  case enter => cases hasked
  all_goals rfl

namespace Machine

/-- The calls that a thread has made, and those among its remaining steps. -/
def callsOf (past : List (Transition P)) (m : Machine P) (id : ThreadId) : List EntryCall :=
  callsBy past id ++ Code.calls (m.contextOf id).code

variable [Backend P] {past : List (Transition P)} {m after : Machine P} {move : Move}
  {id : ThreadId}

/-- A step makes a call when it is taken off, and adds none. -/
theorem Stepped.callsOf_eq {step : Step} {rest pushed : List Step}
    (hstepped : m.Stepped step rest pushed after) (id : ThreadId) :
    after.callsOf (past ++ [⟨m, .exec⟩]) id = m.callsOf past id := by
  have hentered : Transition.entered? ⟨m, .exec⟩ id =
      if m.executing = id then step.entered? else none := by
    rw [Transition.entered?, hstepped.step?_eq, Option.bind_some]
  rw [callsOf, callsOf, callsBy_append, hentered]
  by_cases hid : id = m.executing
  · subst hid
    rw [contextOf_executing hstepped.effect.executing, contextOf_executing rfl, hstepped.code_after,
      hstepped.code, Code.calls_append, hstepped.expands.calls_eq_nil, if_pos rfl, Code.calls,
      Code.calls, List.filterMap_cons, List.append_assoc]
    cases step.entered? <;> rfl
  · rw [if_neg (Ne.symm hid), hstepped.effect.others id hid]
    simp

theorem Goes.callsOf_eq (hgoes : m.Goes move after)
    (hno : ∀ next prev, Transition.step? ⟨m, move⟩ ≠ some (.switch next prev)) (id : ThreadId) :
    after.callsOf (past ++ [⟨m, move⟩]) id = m.callsOf past id := by
  cases hgoes with
  | spin hnone =>
      rw [callsOf, callsBy_append, Transition.entered?, hnone]
      simp [callsOf]
  | switch hcode => exact absurd (step?_of_switch hcode) (hno _ _)
  | step hstepped => exact hstepped.callsOf_eq id
  | call request hcode =>
      rw [callsOf, callsOf, callsBy_append, Transition.entered?]
      by_cases hid : id = m.executing
      · subst hid
        rw [contextOf_executing (executing_call m request), context_call,
          contextOf_executing rfl, hcode, Request.calls_code]
        simp [Transition.step?, Code.calls]
      · rw [contextOf_call_of_ne m request hid]
        simp [Transition.step?]
  | interrupt =>
      have hcalls : Code.calls interruptCode = [] := by
        simp [Code.calls, interruptCode, Step.entered?]
      rw [callsOf, callsOf, callsBy_append, Transition.entered?]
      by_cases hid : id = m.executing
      · subst hid
        rw [contextOf_executing (executing_interrupt m), context_interrupt, Code.calls_append,
          hcalls, contextOf_executing rfl]
        simp [Transition.step?]
      · rw [contextOf_interrupt_of_ne m hid]
        simp [Transition.step?]

theorem callsOf_switched {next prev : ThreadId} {rest : List Step}
    (hcode : m.context.code = .switch next prev :: rest)
    (hswitched : (m.setCode rest).Switched next prev after) (hid : id ≠ next) :
    after.callsOf (past ++ [⟨m, .exec⟩]) id = m.callsOf past id := by
  have hsilent : Transition.entered? ⟨m, .exec⟩ id = none := by
    rw [Transition.entered?, step?_of_switch hcode]
    simp [Step.entered?]
  rw [callsOf, callsOf, callsBy_append, hsilent, hswitched.others id hid]
  by_cases hexecuting : id = m.executing
  · subst hexecuting
    have hcalls : Code.calls (.switch next prev :: rest) = Code.calls rest := rfl
    rw [contextOf_executing (executing_setCode m rest), context_setCode, contextOf_executing rfl,
      hcode, hcalls]
    simp
  · rw [contextOf_setCode_of_ne m rest hexecuting]
    simp

end Machine

end

/-! ## Who is switched to -/

/-- A switch goes on with the next thread's steps, or with the call in its saved frame. -/
theorem Machine.contextOf_switch {P : Type} [Backend P] (m : Machine P) (next prev : ThreadId) :
    (m.switch next prev).contextOf next =
      if (Backend.switch m.kernel.cpu next prev).1 then m.contextOf next
      else { code := ((m.savedCall next).map launchCode).getD [] } := by
  cases known : (Backend.switch m.kernel.cpu next prev).1 with
  | true =>
      simp only [switch, known, if_true]
      rfl
  | false =>
      simp only [switch, known, Bool.false_eq_true, if_false]
      exact context_modifyContext _ _

/-- A thread that is switched to is launched with its call, or goes on where it stood. -/
inductive Switching {P : Type} [Backend P] (past : List (Transition P)) (m : Machine P)
    (id : ThreadId) : Prop where
  | launched (creation : Creation) : Enrolled past id creation → id ≠ ThreadId.idle →
      ¬ TookPart past id → asked past id = none →
        m.exec.contextOf id = { code := launchCode creation.call } → Switching past m id
  | resumed : Suspended past id → m.exec.contextOf id = m.contextOf id → Switching past m id

section

variable {P : Type} [Backend P] [FrameBackend P] {config : Config} {policy : Policy} {cpu : P}
  {values : List Int32} {mutexes : Nat} {console : Console} {past : List (Transition P)}
  {m : Machine P} {id prev : ThreadId}

theorem Run.switching (hpolicy : policy.Sound) (hblank : LawfulBackend.Blank cpu)
    (run : Run (.fresh config policy cpu values mutexes console) past m)
    (hallocated : Allocated past) (hnext : m.nextStep? = some (.switch id prev)) :
    Switching past m id := by
  have hcontract := run.switch_contract hpolicy hnext
  obtain ⟨rest, hcode⟩ := List.head?_eq_some_iff.1 hnext
  have hother : id ≠ m.executing := hcontract.executing ▸ hcontract.ne
  have hcontext : m.exec.contextOf id =
      if (Backend.switch m.kernel.cpu id prev).1 then m.contextOf id
      else { code := ((m.savedCall id).map launchCode).getD [] } := by
    have hswitch := (m.setCode rest).contextOf_switch id prev
    rw [Machine.contextOf_setCode_of_ne m rest hother] at hswitch
    rw [Machine.exec_of_code m hcode rfl, Machine.perform, hswitch]
    rfl
  rcases hcontract.entitled with hsuspended | hfirst
  · have hknown : LawfulBackend.suspended m.kernel.cpu id := by
      obtain ⟨before, t, later, rfl, hsuspends, -⟩ := hsuspended
      exact (run.partaken hblank).left t (by simp) id hsuspends
    rw [LawfulBackend.resumes _ id prev hknown, if_pos rfl] at hcontext
    exact .resumed hsuspended hcontext
  · have hapart : ¬ TookPart past id := by
      rintro ⟨t, hmem, htook⟩
      obtain ⟨hsuspends, hresumes⟩ := hfirst.unswitched t hmem
      exact htook.elim hsuspends hresumes
    have hno : ¬ LawfulBackend.suspended m.kernel.cpu id :=
      fun hknown => hapart ((run.partaken hblank).known id hknown)
    have hasked : asked past id = none :=
      ((run.regular.employed.kept id hother).resolve_left hno).2
    obtain ⟨creation, henrolled, hcall⟩ := run.savedCall_of_created hallocated hfirst.created
    rw [FrameBackend.starts _ id prev hcontract.ne hno, if_neg Bool.false_ne_true, hcall]
      at hcontext
    exact .launched creation henrolled hfirst.created.ne_idle hapart hasked hcontext

end

/-! ## One call -/

namespace Machine

variable {P : Type}

/-- How far a thread has come with calling its entry routine. -/
inductive Starts [Backend P] (past : List (Transition P)) (m : Machine P) (id : ThreadId) : Prop where
  | silent : id = ThreadId.idle ∨ (∀ t ∈ past, ¬ t.Resumes id) → m.callsOf past id = [] →
      Starts past m id
  | started (creation : Creation) : id ≠ ThreadId.idle → (∃ t ∈ past, t.Resumes id) →
      Enrolled past id creation → m.callsOf past id = [creation.call] →
        (Code.calls (m.contextOf id).code ≠ [] → asked past id = none) → Starts past m id

variable [Backend P] {past : List (Transition P)} {m after : Machine P} {move : Move}
  {id : ThreadId}

/-- A thread that has its call still to make has not asked for anything. -/
theorem Goes.asked_of_calls {call : EntryCall} (hgoes : m.Goes move after)
    (hcalls : m.callsOf past id = [call])
    (hkept : after.callsOf (past ++ [⟨m, move⟩]) id = m.callsOf past id)
    (hbefore : Code.calls (m.contextOf id).code ≠ [] → asked past id = none)
    (hpending : Code.calls (after.contextOf id).code ≠ []) :
    asked (past ++ [⟨m, move⟩]) id = none := by
  have hnone : callsBy past id = [] := by
    rw [hcalls, callsOf, callsBy_append] at hkept
    cases hcode : Code.calls (after.contextOf id).code with
    | nil => exact absurd hcode hpending
    | cons first others =>
        rw [hcode] at hkept
        cases hmade : callsBy past id with
        | nil => rfl
        | cons made more => simp [hmade] at hkept
  have hcode : Code.calls (m.contextOf id).code ≠ [] := by
    rw [callsOf, hnone, List.nil_append] at hcalls
    rw [hcalls]
    exact List.cons_ne_nil _ _
  have hasked := hbefore hcode
  cases hgoes with
  | spin | step | switch => rw [asked_exec, hasked]
  | interrupt => rw [asked_interrupt, hasked]
  | call request huser =>
      rw [asked_call, if_neg, hasked]
      rintro rfl
      rw [contextOf_executing rfl, huser] at hcode
      exact hcode rfl

namespace Starts

theorem keeps (h : m.Starts past id) (hgoes : m.Goes move after)
    (hkept : after.callsOf (past ++ [⟨m, move⟩]) id = m.callsOf past id)
    (hresumes : Transition.Resumes ⟨m, move⟩ id →
      id = ThreadId.idle ∨ ∃ t ∈ past, t.Resumes id) :
    after.Starts (past ++ [⟨m, move⟩]) id := by
  cases h with
  | silent hquiet hcalls =>
      refine .silent ?_ (hkept.trans hcalls)
      rcases hquiet with hidle | hquiet
      · exact .inl hidle
      · by_cases hnow : Transition.Resumes ⟨m, move⟩ id
        · refine (hresumes hnow).imp_right fun ⟨t, hmem, hbefore⟩ => ?_
          exact absurd hbefore (hquiet t hmem)
        · refine .inr fun t hmem => ?_
          rcases List.mem_append.1 hmem with hmem | hmem
          · exact hquiet t hmem
          · rwa [List.mem_singleton.1 hmem]
  | started creation hid hresumed henrolled hcalls hasked =>
      obtain ⟨t, hmem, hbefore⟩ := hresumed
      exact .started creation hid ⟨t, List.mem_append_left _ hmem, hbefore⟩ (henrolled.append _)
        (hkept.trans hcalls) (hgoes.asked_of_calls hcalls hkept hasked)

theorem callsOf_eq_nil (h : m.Starts past id) (hapart : ¬ TookPart past id) :
    m.callsOf past id = [] := by
  cases h with
  | silent _ hcalls => exact hcalls
  | started _ _ hresumed =>
      obtain ⟨t, hmem, hresumes⟩ := hresumed
      exact absurd ⟨t, hmem, .inr hresumes⟩ hapart

end Starts

end Machine

section

variable {P : Type} [Backend P] [FrameBackend P] {config : Config} {policy : Policy} {cpu : P}
  {values : List Int32} {mutexes : Nat} {console : Console} {past : List (Transition P)}
  {m : Machine P} {id prev : ThreadId}

/-- A thread that is launched has its call to make. -/
theorem Switching.starts (h : Switching past m id) (hpartaken : m.Partaken past)
    (hgoes : m.Goes .exec m.exec) (hstep : Transition.step? ⟨m, .exec⟩ = some (.switch id prev))
    (hbefore : m.Starts past id) : m.exec.Starts (past ++ [⟨m, .exec⟩]) id := by
  have hsilent : Transition.entered? ⟨m, .exec⟩ id = none := by
    rw [Transition.entered?, hstep]
    simp [Step.entered?]
  have hmade : callsBy (past ++ [⟨m, .exec⟩]) id = callsBy past id := by
    rw [callsBy_append, hsilent, Option.toList_none, List.append_nil]
  cases h with
  | launched creation henrolled hid hapart hasked hcontext =>
      have hnone := (List.append_eq_nil_iff.1 (hbefore.callsOf_eq_nil hapart)).1
      refine .started creation hid ⟨⟨m, .exec⟩, by simp, prev, hstep⟩ (henrolled.append _) ?_ ?_
      · rw [Machine.callsOf, hmade, hnone, hcontext]
        rfl
      · intro _
        rw [asked_exec, hasked]
  | resumed hsuspended hcontext =>
      refine hbefore.keeps hgoes ?_ fun _ => ?_
      · rw [Machine.callsOf, hmade, hcontext, Machine.callsOf]
      · obtain ⟨before, t, later, rfl, hsuspends, -⟩ := hsuspended
        exact hpartaken.origin id ⟨t, by simp, .inl hsuspends⟩

theorem Run.starts (hpolicy : policy.Sound) (hblank : LawfulBackend.Blank cpu)
    (run : Run (.fresh config policy cpu values mutexes console) past m)
    (hallocated : Allocated past) (id : ThreadId) : m.Starts past id := by
  refine run.invariant (fun past m => Allocated past → ∀ id, m.Starts past id) ?_ ?_ hallocated id
  · intro _ id
    refine .silent (.inr fun t hmem => absurd hmem List.not_mem_nil) ?_
    rw [Machine.callsOf, Machine.contextOf_fresh]
    rfl
  · intro past m move run ih hgoes hallocated id
    have hbefore := ih hallocated.of_append
    by_cases hswitch : ∃ next prev, Transition.step? ⟨m, move⟩ = some (.switch next prev)
    · obtain ⟨next, prev, hstep⟩ := hswitch
      obtain ⟨rest, rfl, hcode, hswitched⟩ := hgoes.switched_of_step? hstep
      by_cases hid : id = next
      · subst hid
        have hswitching := run.switching hpolicy hblank hallocated.of_append
          (Machine.nextStep?_of_step? hstep)
        exact hswitching.starts (run.partaken hblank) hgoes hstep (hbefore id)
      · refine (hbefore id).keeps hgoes
          (Machine.callsOf_switched hcode hswitched hid) fun hresumes => ?_
        obtain ⟨other, hresumes⟩ := hresumes
        cases hstep.symm.trans hresumes
        exact absurd rfl hid
    · have hno : ∀ next prev, Transition.step? ⟨m, move⟩ ≠ some (.switch next prev) :=
        fun next prev hstep => hswitch ⟨next, prev, hstep⟩
      refine (hbefore id).keeps hgoes (hgoes.callsOf_eq hno id) fun hresumes => ?_
      exact absurd hresumes (not_suspends_resumes hno).2

end

/-- A thread was not asked for anything if no call of it is known. -/
theorem lastCall_eq_none {P : Type} {past : List (Transition P)} {id : ThreadId}
    (h : asked past id = none) : lastCall past id = none := by
  rw [asked_eq_bind] at h
  cases hcalled : lastCall past id with
  | none => rfl
  | some t =>
      rw [hcalled, Option.bind_some] at h
      have hasks := List.find?_some hcalled
      simp [h] at hasks

section

variable {P : Type} [Backend P] [FrameBackend P] {config : Config} {policy : Policy} {cpu : P}
  {values : List Int32} {mutexes : Nat} {console : Console} {past : List (Transition P)}
  {m : Machine P} {id : ThreadId}
  {creation : Creation}

/-- A thread that comes to a call was created with it and made none before, with interrupts on. -/
theorem Run.first_call (hpolicy : policy.Sound) (hblank : LawfulBackend.Blank cpu)
    (run : Run (.fresh config policy cpu values mutexes console) past m)
    (hallocated : Allocated past) {call : EntryCall} (hnext : m.nextStep? = some (.enter call)) :
    ∃ creation, Enrolled past m.executing creation ∧ call = creation.call ∧
      callsBy past m.executing = [] ∧ m.interruptsEnabled = true := by
  obtain ⟨rest, hcode⟩ := List.head?_eq_some_iff.1 hnext
  obtain rfl : rest = [] := run.regular.orderly.fits_of_code hcode
  have hpending : Code.calls (m.contextOf m.executing).code = [call] := by
    rw [Machine.contextOf_executing rfl, hcode]
    rfl
  cases run.starts hpolicy hblank hallocated m.executing with
  | silent _ hcalls =>
      rw [Machine.callsOf, hpending] at hcalls
      simp at hcalls
  | started creation _ _ henrolled hcalls hasked =>
      rw [Machine.callsOf, hpending, ← List.nil_append [creation.call]] at hcalls
      obtain ⟨hnone, hcall⟩ := List.append_inj' hcalls rfl
      refine ⟨creation, henrolled, List.singleton_inj.1 hcall, hnone, ?_⟩
      have hbehind := run.sharedRun.faithful.unasked m.executing
        (lastCall_eq_none (hasked (by rw [hpending]; exact List.cons_ne_nil _ _)))
      rw [Machine.contextOf_executing rfl, Context.flagBehind, Context.maskingBehind, hcode]
        at hbehind
      exact hbehind

/-- The call that a thread makes is the one it was created with, with interrupts enabled. -/
theorem Run.enters (hpolicy : policy.Sound) (hblank : LawfulBackend.Blank cpu)
    (run : Run (.fresh config policy cpu values mutexes console) past m)
    (hallocated : Allocated past) (henrolled : Enrolled past id creation) {t : Transition P}
    (hmem : t ∈ past) {call : EntryCall} (hentered : t.entered? id = some call) :
    call = creation.call ∧ t.before.interruptsEnabled = true := by
  obtain ⟨before, later, rfl⟩ := List.append_of_mem hmem
  rw [Transition.entered?] at hentered
  split at hentered
  next hexecuting =>
      obtain ⟨step, hstep, hcall⟩ := Option.bind_eq_some_iff.1 hentered
      obtain rfl : step = .enter call := by
        cases step <;> cases hcall
        rfl
      obtain ⟨own, hown, rfl, -, henabled⟩ := run.before.1.first_call hpolicy hblank
        hallocated.of_append (Machine.nextStep?_of_step? hstep)
      rw [hexecuting] at hown
      exact ⟨congrArg Creation.call ((run.enrolled henrolled).2 own (hown.append _)), henabled⟩
  next => cases hentered

end

/-! ## Every later dispatch -/

def Transition.leaves {P : Type} (t : Transition P) (id : ThreadId) : Context :=
  { t.before.contextOf id with code := (t.before.contextOf id).code.tail }

namespace Machine

variable {P : Type} [Backend P] {m after : Machine P} {move : Move} {id : ThreadId}

theorem Goes.leaves (hgoes : m.Goes move after) (hseated : m.Seated)
    (hsuspends : Transition.Suspends ⟨m, move⟩ id) :
    after.executing ≠ id ∧ after.contextOf id = Transition.leaves ⟨m, move⟩ id := by
  obtain ⟨next, hstep⟩ := hsuspends
  obtain ⟨rest, rfl, hcode, hswitched⟩ := hgoes.switched_of_step? hstep
  obtain ⟨hcurrent, rfl, hne⟩ := hseated.switch_eq hcode
  have hother : m.executing ≠ next := by
    rw [hcurrent]
    exact hne
  constructor
  · rw [hswitched.executing]
    exact hother.symm
  · rw [hswitched.others m.executing hother, Transition.leaves, contextOf_executing rfl,
      contextOf_executing (executing_setCode m rest), context_setCode, hcode]
    rfl

theorem Goes.stands (hgoes : m.Goes move after) (hid : m.executing ≠ id)
    (hresumes : ¬ Transition.Resumes ⟨m, move⟩ id) :
    after.executing ≠ id ∧ after.contextOf id = m.contextOf id := by
  cases hgoes with
  | spin => exact ⟨hid, rfl⟩
  | step hstepped =>
      rw [hstepped.effect.executing]
      exact ⟨hid, hstepped.effect.others id hid.symm⟩
  | @switch next prev rest _ hcode hswitched =>
      have hnext : next ≠ id := by
        rintro rfl
        exact hresumes ⟨prev, step?_of_switch hcode⟩
      rw [hswitched.executing, hswitched.others id hnext.symm]
      exact ⟨hnext, contextOf_setCode_of_ne m rest hid.symm⟩
  | call request => exact ⟨hid, contextOf_call_of_ne m request hid.symm⟩
  | interrupt => exact ⟨hid, contextOf_interrupt_of_ne m hid.symm⟩

end Machine

/-- A thread that was switched away from stands where it was left until it is switched to. -/
theorem Run.contextOf_suspended {P : Type} [Backend P] [LawfulBackend P] {config : Config}
    {policy : Policy} {cpu : P} {values : List Int32} {mutexes : Nat} {console : Console}
    {before between : List (Transition P)} {u : Transition P} {m : Machine P} {id : ThreadId}
    (run : Run (.fresh config policy cpu values mutexes console) (before ++ u :: between) m)
    (hsuspends : u.Suspends id) (hbetween : ∀ v ∈ between, ¬ v.Resumes id) :
    m.executing ≠ id ∧ m.contextOf id = u.leaves id := by
  generalize hpast : before ++ u :: between = past at run
  induction run generalizing between with
  | nil => simp at hpast
  | @snoc past m move run allowed ih =>
      have hgoes := m.goes_after allowed
      rcases divided_snoc hpast with ⟨rfl, rfl, rfl⟩ | ⟨others, rfl, hearlier⟩
      · exact hgoes.leaves run.regular.seated hsuspends
      · have hothers : ∀ v ∈ others, ¬ v.Resumes id := fun v hmem => hbetween v (by simp [hmem])
        obtain ⟨hid, hcontext⟩ := ih hothers hearlier
        obtain ⟨hstays, hsame⟩ := hgoes.stands hid (hbetween _ (by simp))
        exact ⟨hstays, hsame.trans hcontext⟩

/-! ## The first dispatch -/

namespace Machine

variable {P : Type} {m : Machine P} {move : Move} {id : ThreadId} {step : Step} {rest : List Step}
  {cover : Cover} {call : EntryCall}

/-- Under a guard nothing can happen but the next step. -/
theorem At.forced (h : m.At (step :: rest) cover) (hguards : 0 < cover.guards)
    (allowed : m.Allows move) : move = .exec := by
  cases move with
  | exec => rfl
  | call request => simp [Allows, atUserLevel, h.code] at allowed
  | interrupt =>
      have henabled : m.interruptsEnabled = true := allowed
      rw [h.masked hguards] at henabled
      cases henabled

variable [Backend P]

theorem At.dispatch (h : m.At (.dispatch id :: rest) ⟨2, [.table]⟩)
    (hne : m.kernel.table.current ≠ id) :
    m.exec.At (.free .table :: .switch id m.kernel.table.current :: .unmask :: rest)
        ⟨2, [.table]⟩ ∧
      m.exec.exec.At (.switch id m.kernel.table.current :: .unmask :: rest) ⟨2, []⟩ := by
  obtain ⟨pushed, hstepped, hnext⟩ := At.exec_step h (by simp [Step.IsDead]) rfl
  cases hstepped.expands with
  | nothing hplain => cases hplain
  | answer _ hasks => cases hasks
  | stay => exact absurd rfl hne
  | leave =>
      have hafter := (At.exec_quiet hnext rfl (by simp [Step.IsDead])).1
      exact ⟨hnext, hafter⟩

theorem enters_of_launched (hexecuting : m.executing = id)
    (hcontext : m.contextOf id = { code := launchCode call }) :
    m.exec.executing = id ∧ m.exec.nextStep? = some (.enter call) ∧
      m.exec.interruptsEnabled = true := by
  rw [contextOf_executing hexecuting] at hcontext
  have hcode : m.context.code = .setFlag true :: [.enter call] := by
    rw [hcontext]
    rfl
  obtain ⟨pushed, hstepped⟩ := stepped_exec hcode rfl rfl
  have hafter := hstepped.code_after
  rw [hstepped.expands.eq_nil rfl] at hafter
  refine ⟨hstepped.effect.executing.trans hexecuting, by simp [nextStep?, hafter], ?_⟩
  rw [interruptsEnabled, hstepped.effect.masking]
  rfl

/-- A dispatch leads a thread to its call by four steps, the first three of them forced. -/
structure Launches (m : Machine P) (id : ThreadId) (call : EntryCall) : Prop where
  forced : ∀ count ≤ 2, ∀ move, (exec^[count] m).Allows move → move = .exec
  executing : (exec^[4] m).executing = id
  enters : (exec^[4] m).nextStep? = some (.enter call)
  enabled : (exec^[4] m).interruptsEnabled = true

end Machine

section

variable {P : Type} [Backend P] [FrameBackend P] {config : Config} {policy : Policy} {cpu : P}
  {values : List Int32} {mutexes : Nat} {console : Console} {past : List (Transition P)}
  {m : Machine P} {id : ThreadId}
  {creation : Creation} {step : Step}

/-- A created thread that was not dispatched took part in no switch, and does not execute. -/
theorem Run.apart_of_undispatched (hblank : LawfulBackend.Blank cpu)
    (run : Run (.fresh config policy cpu values mutexes console) past m) (hid : id ≠ ThreadId.idle)
    (hnever : ∀ u ∈ past, u.target? ≠ some id) : ¬ TookPart past id ∧ m.executing ≠ id := by
  have hpartaken := run.partaken hblank
  have hunresumed : ¬ ∃ u ∈ past, u.Resumes id := by
    rintro ⟨u, hmem, prev, hstep⟩
    obtain ⟨before, later, rfl⟩ := List.append_of_mem hmem
    obtain ⟨earlier, v, between, rfl, htarget, -⟩ :=
      run.before.1.dispatch_before_switch (Machine.nextStep?_of_step? hstep)
    exact hnever v (by simp) htarget
  constructor
  · exact fun htook => hunresumed ((hpartaken.origin id htook).resolve_left hid)
  · rintro rfl
    exact hunresumed (hpartaken.executing.resolve_left hid)

omit [FrameBackend P] in
theorem Run.snoc_quiet (run : Run (.fresh config policy cpu values mutexes console) past m)
    (hallocated : Allocated past) (hstep : Transition.step? ⟨m, .exec⟩ = some step)
    (hframes : step.frames? = none) (hswitch : step.isSwitch = false)
    (hentry : ∀ creation stack, step ≠ .enroll creation stack) :
    Run (.fresh config policy cpu values mutexes console) (past ++ [⟨m, .exec⟩]) m.exec ∧
      Allocated (past ++ [⟨m, .exec⟩]) ∧
      (∀ id, TookPart (past ++ [⟨m, .exec⟩]) id → TookPart past id) ∧
      ∀ id creation, Enrolled (past ++ [⟨m, .exec⟩]) id creation → Enrolled past id creation := by
  obtain ⟨rest, hcode⟩ := List.head?_eq_some_iff.1 (Machine.nextStep?_of_step? hstep)
  refine ⟨run.snoc .exec ?_, hallocated.append_of_none ?_, fun id htook => ?_,
    fun id creation henrolled => ?_⟩
  · simp [Machine.Allows, Machine.atUserLevel, show m.context.code = step :: rest from hcode]
  · rw [Transition.frames?, hstep, Option.bind_some, hframes]
  · have hno : ¬ Transition.Suspends ⟨m, .exec⟩ id ∧ ¬ Transition.Resumes ⟨m, .exec⟩ id := by
      refine not_suspends_resumes fun next prev heq => ?_
      cases hstep.symm.trans heq
      cases hswitch
    exact (tookPart_append.1 htook).resolve_right fun hlast => hlast.elim hno.1 hno.2
  · obtain ⟨t, hmem, stack, hentered, hfree⟩ := henrolled
    rcases List.mem_append.1 hmem with hmem | hmem
    · exact ⟨t, hmem, stack, hentered, hfree⟩
    · obtain rfl := List.mem_singleton.1 hmem
      exact absurd (Option.some.inj (hstep.symm.trans hentered)) (hentry creation stack)

theorem Run.launches (hpolicy : policy.Sound) (hblank : LawfulBackend.Blank cpu)
    (run : Run (.fresh config policy cpu values mutexes console) past m)
    (hallocated : Allocated past) (hid : id ≠ ThreadId.idle)
    (hnext : m.nextStep? = some (.dispatch id)) (hnever : ∀ u ∈ past, u.target? ≠ some id) :
    ∃ creation, Enrolled past id creation ∧ m.Launches id creation.call := by
  have hregular := run.regular
  obtain ⟨rest, hcode⟩ := List.head?_eq_some_iff.1 hnext
  have hstep : Transition.step? ⟨m, .exec⟩ = some (.dispatch id) := by
    simp [Transition.step?, hnext, Machine.spins]
  have hstands := hregular.orderly.stands_of_code hcode fun hdead => hdead
  have hat : m.At (.dispatch id :: rest) ⟨2, [.table]⟩ :=
    { orderly := hregular.orderly.mono fun _ => trivial
      objects := hregular.objects
      seated := hregular.seated
      code := hcode
      cover := (Option.some.inj hstands).symm }
  obtain ⟨hapart, hother⟩ := run.apart_of_undispatched hblank hid hnever
  have hne : m.kernel.table.current ≠ id := by
    have htarget : Transition.target? ⟨m, .exec⟩ = some id := by rw [Transition.target?, hstep]
    rw [← hregular.seated.executing_of_target? htarget]
    exact hother
  obtain ⟨hfree, hswitch⟩ := hat.dispatch hne
  have hfreeing : Transition.step? ⟨m.exec, .exec⟩ = some (.free .table) := by
    simp [Transition.step?, Machine.nextStep?, hfree.code, Machine.spins]
  -- the two steps up to the switch
  obtain ⟨hrun, hmemory, hstill, hknown⟩ := run.snoc_quiet hallocated hstep rfl rfl (by simp)
  obtain ⟨hrun, hmemory, hstill', hknown'⟩ := hrun.snoc_quiet hmemory hfreeing rfl rfl (by simp)
  have hnamed : m.exec.exec.nextStep? = some (.switch id m.kernel.table.current) := by
    rw [Machine.nextStep?, hswitch.code]
    rfl
  cases hrun.switching hpolicy hblank hmemory hnamed with
  | resumed hsuspended =>
      obtain ⟨before, u, later, hsplit, hsuspends, -⟩ := hsuspended
      refine absurd (hstill id (hstill' id ?_)) hapart
      exact ⟨u, by rw [hsplit]; simp, .inl hsuspends⟩
  | launched creation henrolled _ _ _ hcontext =>
      have hswitched := Machine.switched_exec hswitch.code
      obtain ⟨hexecuting, henters, henabled⟩ :=
        Machine.enters_of_launched hswitched.executing hcontext
      refine ⟨creation, hknown _ _ (hknown' _ _ henrolled), ?_, hexecuting, henters, henabled⟩
      intro count hcount move allowed
      rcases count with _ | _ | _ | count
      · exact hat.forced (by decide) allowed
      · exact hfree.forced (by decide) allowed
      · exact hswitch.forced (by decide) allowed
      · omega

/-- The first dispatch of a thread leads to the call that it was created with. -/
theorem Run.first_dispatch (hpolicy : policy.Sound) (hblank : LawfulBackend.Blank cpu)
    {before later : List (Transition P)} {t : Transition P}
    (run : Run (.fresh config policy cpu values mutexes console) (before ++ t :: later) m)
    (hallocated : Allocated (before ++ t :: later))
    (henrolled : Enrolled (before ++ t :: later) id creation) (htarget : t.target? = some id)
    (hnever : ∀ u ∈ before, u.target? ≠ some id) : t.before.Launches id creation.call := by
  obtain ⟨own, hown, hlaunches⟩ := run.before.1.launches hpolicy hblank hallocated.of_append
    henrolled.ne_idle (Machine.nextStep?_of_step? (Transition.step?_of_target? htarget)) hnever
  rw [← (run.enrolled henrolled).2 own (hown.append _)]
  exact hlaunches

end

end TickKernel
