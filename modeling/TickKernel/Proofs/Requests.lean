import TickKernel.Proofs.Seat
import TickKernel.Proofs.Suspension

/-!
# What the steps are for

The steps of a thread belong to the operation that it asked for last, and those that
name a thread name the one that does them.  A thread in a blocking call seeks what
that call waits for until it has found it; its last step tells what that is.
-/

namespace TickKernel

variable {P : Type}

/-- The operation that a thread asked for last in the course of a run. -/
def asked (past : List (Transition P)) (id : ThreadId) : Option Request :=
  past.foldl
    (fun last t =>
      match t.move with
      | .call request => if t.before.executing = id then some request else last
      | .exec | .interrupt => last)
    none

section Asked

variable (past : List (Transition P)) (m : Machine P) (id : ThreadId)

theorem mem_of_asked {request : Request} (h : asked past id = some request) :
    ∃ t ∈ past, t.move = .call request := by
  induction past using List.reverseRecOn with
  | nil => cases h
  | append_singleton past t ih =>
      rw [asked, List.foldl_append, List.foldl_cons, List.foldl_nil] at h
      have hbefore : asked past id = some request → ∃ t' ∈ past ++ [t], t'.move = .call request :=
        fun hasked => (ih hasked).imp fun _ => And.imp_left (List.mem_append_left [t])
      cases hmove : t.move with
      | exec | interrupt =>
          rw [hmove] at h
          exact hbefore h
      | call last =>
          simp only [hmove] at h
          split at h
          · cases h
            exact ⟨t, List.mem_append_right past List.mem_cons_self, hmove⟩
          · exact hbefore h

@[simp]
theorem asked_nil : asked ([] : List (Transition P)) id = none :=
  rfl

@[simp]
theorem asked_exec : asked (past ++ [⟨m, .exec⟩]) id = asked past id := by
  simp [asked]

@[simp]
theorem asked_interrupt : asked (past ++ [⟨m, .interrupt⟩]) id = asked past id := by
  simp [asked]

theorem asked_call (request : Request) :
    asked (past ++ [⟨m, .call request⟩]) id =
      if m.executing = id then some request else asked past id := by
  simp [asked]

end Asked

def Blocking.Serves (request : Option Request) : Blocking → Prop
  | .until _ => ∃ ticks, request = some (.sleep ticks)
  | .ownership index => request = some (.lock index)
  | .unit index => request = some (.wait index)
  | .forever => request = some .park ∨ request = some .leave

def IdentityUse.Serves (request : Option Request) : IdentityUse → Prop
  | .answer => request = some .currentId
  | .acquire index => request = some (.lock index)
  | .release index => request = some (.unlock index)
  | .take index => request = some (.wait index)

/-- The operations in whose code a step can stand, and the thread that it names. -/
def Step.Serves (id : ThreadId) (request : Option Request) : Step → Prop
  | .retry call => call.Serves request
  | .identify use => use.Serves request
  | .tryAcquire index me => request = some (.lock index) ∧ me = id
  | .tryRelease index me => request = some (.unlock index) ∧ me = id
  | .tryTake index me => request = some (.wait index) ∧ me = id
  | .giveBack index andSwitch =>
      request = some (if andSwitch then .signalHandoff index else .signal index)
  | .wake _ =>
      ∃ index, request = some (.unlock index) ∨ request = some (.signal index) ∨
        request = some (.signalHandoff index)
  | .checkDeadline _ | .setDeadline _ | .doze _ => ∃ ticks, request = some (.sleep ticks)
  | .checkTarget target => request = some (.switchTo target)
  | .countThreads .answer => request = some .threadCount
  | _ => True

def Step.seeks : Step → Option Blocking
  | .retry call => some call
  | .identify (.acquire index) | .tryAcquire index _ => some (.ownership index)
  | .identify (.take index) | .tryTake index _ => some (.unit index)
  | .checkDeadline wakeAt => some (.until wakeAt)
  | _ => none

/-- What a thread with these steps left waits for, if it is in a blocking call. -/
def Code.seeking (code : List Step) : Option Blocking :=
  code.getLast?.bind Step.seeks

theorem serves_nil (id : ThreadId) (request : Option Request) :
    ∀ step ∈ ([] : List Step), step.Serves id request :=
  nofun

theorem serves_cons {id : ThreadId} {request : Option Request} {step : Step} {rest : List Step}
    (h : step.Serves id request) (hrest : ∀ other ∈ rest, other.Serves id request) :
    ∀ other ∈ step :: rest, other.Serves id request :=
  List.forall_mem_cons.2 ⟨h, hrest⟩

theorem serves_request (id : ThreadId) (request : Request) :
    ∀ step ∈ request.code, step.Serves id (some request) := by
  cases request
  case sleep ticks =>
      simp only [Request.code]
      split
      · exact serves_cons trivial (serves_nil _ _)
      · exact serves_cons ⟨ticks, rfl⟩ (serves_nil _ _)
  all_goals
    repeat refine serves_cons (by first | trivial | rfl | exact .inl rfl | exact .inr rfl) ?_
    exact serves_nil _ _

theorem Kernel.Expands.serves {kernel : Kernel P} {step : Step} {pushed : List Step}
    {id : ThreadId} {request : Option Request} (h : kernel.Expands step pushed)
    (hme : ∀ use, step = .identify use → id = kernel.table.current)
    (hserves : step.Serves id request) : ∀ other ∈ pushed, other.Serves id request := by
  cases h
  case acquire | release | take =>
      have hcurrent := (hme _ rfl).symm
      repeat refine serves_cons (by trivial) ?_
      exact serves_nil _ _
  case tick due hdue =>
      rcases hdue with rfl | rfl
      all_goals
        repeat refine serves_cons trivial ?_
        exact serves_nil _ _
  case retry call =>
      cases call
      all_goals
        repeat refine serves_cons (by trivial) ?_
        exact serves_nil _ _
  case passed mutex me heir =>
      have hwake : (Step.wake heir).Serves id request := ⟨mutex, .inl hserves.1⟩
      repeat refine serves_cons (by trivial) ?_
      exact serves_nil _ _
  case woken semaphore heir =>
      have hwake : (Step.wake heir).Serves id request := ⟨semaphore, .inr (.inl hserves)⟩
      repeat refine serves_cons (by trivial) ?_
      exact serves_nil _ _
  case handed semaphore heir =>
      have hwake : (Step.wake heir).Serves id request := ⟨semaphore, .inr (.inr hserves)⟩
      repeat refine serves_cons (by trivial) ?_
      exact serves_nil _ _
  case barred | short =>
      have hretry := hserves.1
      repeat refine serves_cons (by trivial) ?_
      exact serves_nil _ _
  case noRoom creation _ _ | noStack creation _ | noSlot creation _ _ =>
      unfold Code.refuse
      cases creation.packet
      all_goals
        repeat refine serves_cons trivial ?_
        exact serves_nil _ _
  all_goals
    repeat refine serves_cons (by trivial) ?_
    exact serves_nil _ _

inductive Settles (kernel : Kernel P) : Step → List Step → Prop where
  | acquired {index : Nat} {me : ThreadId} :
      Settles kernel (.tryAcquire index me)
        ([.free (.mutex index), .unmask, .unmask] ++ Code.done)
  | taken {index : Nat} {me : ThreadId} :
      Settles kernel (.tryTake index me)
        ([.free (.semaphore index), .unmask, .unmask] ++ Code.done)
  | awake {wakeAt : UInt64} : wakeAt ≤ kernel.ticks.ticks →
      Settles kernel (.checkDeadline wakeAt) (.unmask :: Code.done)

theorem seeking_append (front : List Step) {rest : List Step} (h : rest ≠ []) :
    Code.seeking (front ++ rest) = Code.seeking rest := by
  rw [Code.seeking, Code.seeking, List.getLast?_append_of_ne_nil _ h]

/-- A step changes what its thread seeks only when that was found, or when a sleep begins. -/
theorem Kernel.Expands.seeking_eq {kernel : Kernel P} {step : Step} {rest pushed : List Step}
    (h : kernel.Expands step pushed) (hfits : step.Fits rest)
    (hunsettled : ¬ Settles kernel step pushed) (hdeadline : ∀ ticks, step ≠ .setDeadline ticks) :
    Code.seeking (pushed ++ rest) = Code.seeking (step :: rest) := by
  by_cases hrest : rest = []
  · subst hrest
    rw [List.append_nil]
    cases h
    case nothing hplain => cases step <;> first | rfl | cases hplain
    case answer reply hasks => cases step <;> first | rfl | cases hasks
    case acquired => exact absurd .acquired hunsettled
    case taken => exact absurd .taken hunsettled
    case awake hawake => exact absurd (.awake hawake) hunsettled
    case deadline ticks => exact absurd rfl (hdeadline ticks)
    case tick due hdue => rcases hdue with rfl | rfl <;> rfl
    case retry call => cases call <;> rfl
    case noRoom creation _ _ | noStack creation _ | noSlot creation _ _ =>
        unfold Code.refuse
        cases creation.packet <;> rfl
    all_goals rfl
  · rw [seeking_append pushed hrest, ← seeking_append [step] hrest]
    rfl

/-- A thread goes on seeking what it is after until the last step of its call finds that. -/
theorem Kernel.Expands.seeking_kept {kernel : Kernel P} {step : Step} {rest pushed : List Step}
    {call : Blocking} (h : kernel.Expands step pushed) (hfits : step.Fits rest)
    (hseeking : Code.seeking (step :: rest) = some call)
    (hunsettled : rest = [] → step.seeks = some call → ¬ Settles kernel step pushed) :
    Code.seeking (pushed ++ rest) = some call := by
  rw [h.seeking_eq hfits, hseeking]
  · intro hsettles
    obtain rfl : rest = [] := by
      cases hsettles <;> exact hfits
    exact hunsettled rfl hseeking hsettles
  · rintro ticks rfl
    obtain rfl : rest = [] := hfits
    cases hseeking

theorem Code.seeking_cons {step : Step} {rest : List Step} (h : rest ≠ []) :
    Code.seeking (step :: rest) = Code.seeking rest :=
  seeking_append [step] h

def Code.isOperation (code : List Step) : Prop :=
  code ≠ [] ∧ code.getLast? ≠ some .resume

theorem Code.isOperation_of_seeking {code : List Step} {call : Blocking}
    (h : Code.seeking code = some call) : Code.isOperation code := by
  refine ⟨?_, ?_⟩
  · rintro rfl
    cases h
  · intro hlast
    rw [seeking, hlast] at h
    cases h

theorem Kernel.Expands.isOperation {kernel : Kernel P} {step : Step} {rest pushed : List Step}
    (h : kernel.Expands step pushed) (hoperation : Code.isOperation (pushed ++ rest)) :
    Code.isOperation (step :: rest) := by
  refine ⟨nofun, ?_⟩
  by_cases hrest : rest = []
  · subst hrest
    rintro hlast
    obtain rfl : step = .resume := Option.some.inj hlast
    exact hoperation.1 (by rw [h.eq_nil rfl, List.nil_append])
  · rw [List.getLast?_cons_of_ne_nil hrest, ← List.getLast?_append_of_ne_nil pushed hrest]
    exact hoperation.2

/-- Steps in front change neither what a code is nor what it seeks. -/
theorem Code.isOperation_append (front : List Step) {rest : List Step} (h : rest ≠ []) :
    Code.isOperation (front ++ rest) ↔ Code.isOperation rest := by
  rw [isOperation, isOperation, List.getLast?_append_of_ne_nil _ h]
  simp [h]

theorem Code.isOperation_interrupt {code : List Step}
    (h : Code.isOperation (interruptCode ++ code)) :
    Code.isOperation code ∧ Code.seeking (interruptCode ++ code) = Code.seeking code := by
  by_cases hcode : code = []
  · subst hcode
    exact absurd rfl h.2
  · exact ⟨(isOperation_append interruptCode hcode).1 h, seeking_append interruptCode hcode⟩

namespace Machine

variable [Backend P] [LawfulBackend P]

/-- Threads do what they asked for, and those that were suspended will be resumed. -/
structure Employed (past : List (Transition P)) (m : Machine P) : Prop where
  serves : ∀ id : ThreadId, ∀ step ∈ (m.contextOf id).code, step.Serves id (asked past id)
  unanswered : ∀ id : ThreadId, Code.isOperation (m.contextOf id).code →
    (m.contextOf id).answer = none
  kept : ∀ id : ThreadId, id ≠ m.executing →
    LawfulBackend.suspended m.kernel.cpu id ∨
      (m.contextOf id).code = [] ∧ asked past id = none

namespace Employed

variable {struck : Prop} {past : List (Transition P)} {m after : Machine P}

theorem fresh (config : Config) (policy : Policy) (cpu : P) (values : List Int32) (mutexes : Nat)
    (console : Console) : (fresh config policy cpu values mutexes console).Employed [] := by
  constructor
  · intro id
    rw [contextOf_fresh]
    exact serves_nil _ _
  · intro id
    rw [contextOf_fresh]
    exact fun h => absurd rfl h.1
  · intro id _
    rw [contextOf_fresh]
    exact .inr ⟨rfl, rfl⟩

theorem perform {step : Step} {rest pushed : List Step} (h : m.Employed past)
    (hseated : m.Seated) (horderly : m.Orderly struck)
    (hstepped : m.Stepped step rest pushed after) :
    after.Employed (past ++ [⟨m, .exec⟩]) := by
  obtain ⟨hcode, -, hswitch, -, hexpands, heffect, hafter⟩ := hstepped
  have hserves := h.serves m.executing
  have hanswer := h.unanswered m.executing
  rw [contextOf_executing rfl, hcode] at hserves hanswer
  have hfits : step.Fits rest := horderly.fits_of_code hcode
  constructor
  · intro id
    rw [asked_exec]
    refine forall_contexts (fun id context => ∀ step ∈ context.code, step.Serves id (asked past id))
      heffect.executing heffect.others (fun id _ => h.serves id) ?_ id
    rw [hafter]
    intro other hmem
    rcases List.mem_append.1 hmem with hmem | hmem
    · refine hexpands.serves ?_ (hserves step List.mem_cons_self) other hmem
      rintro use rfl
      exact hseated.executing_eq hcode (by simp) hswitch
    · exact hserves other (.tail _ hmem)
  · refine forall_contexts (fun _ context => Code.isOperation context.code → context.answer = none)
      heffect.executing heffect.others (fun id _ => h.unanswered id) ?_
    rw [hafter, heffect.answer]
    intro hoperation
    have hbefore := hexpands.isOperation hoperation
    have hfinish : ∀ reply, step ≠ .finish reply := by
      rintro reply rfl
      obtain rfl : rest = [] := hfits
      exact hoperation.1 (by rw [hexpands.eq_nil rfl, List.nil_append])
    rw [← hanswer hbefore]
    cases step <;> first | rfl | exact absurd rfl (hfinish _)
  · intro id hid
    rw [heffect.executing] at hid
    rw [heffect.others id hid, asked_exec]
    refine (h.kept id hid).imp_left fun hsuspended => ?_
    rcases heffect.cpu with hcpu | ⟨period, hcpu⟩
    · exact hcpu ▸ hsuspended
    · exact hcpu ▸ LawfulBackend.startTimer_keeps _ period id hsuspended

/-- What a switch makes of the threads: only one that never ran starts anew. -/
theorem contextOf_switched {next prev : ThreadId} {rest : List Step} (h : m.Employed past)
    (hseated : m.Seated) (hcode : m.context.code = .switch next prev :: rest)
    (hswitched : (m.setCode rest).Switched next prev after) (id : ThreadId) :
    id = m.executing ∧ after.contextOf id = { m.context with code := rest } ∨
      id ≠ m.executing ∧
        (after.contextOf id = m.contextOf id ∨
          asked past id = none ∧ (m.contextOf id).code = [] ∧
            ∃ call : Option EntryCall,
              after.contextOf id = { code := (call.map launchCode).getD [] }) := by
  obtain ⟨hnext, rfl, hne⟩ := hseated.switch_eq hcode
  have hother : next ≠ m.executing := fun heq => hne (heq ▸ hnext)
  by_cases hid : id = m.executing
  · refine .inl ⟨hid, ?_⟩
    rw [hswitched.others id (hid ▸ hother.symm)]
    rw [contextOf_executing ((executing_setCode m rest).trans hid.symm), context_setCode]
  · refine .inr ⟨hid, ?_⟩
    by_cases harrives : id = next
    · subst harrives
      rw [← contextOf_setCode_of_ne m rest hid]
      cases known : (Backend.switch m.kernel.cpu id m.executing).1 with
      | true => exact .inl (hswitched.resumed known)
      | false =>
          rcases h.kept id hid with hsuspended | ⟨hunused, hasked⟩
          · rw [LawfulBackend.resumes _ _ _ hsuspended] at known
            cases known
          · rw [contextOf_setCode_of_ne m rest hid]
            exact .inr ⟨hasked, hunused, hswitched.launched known⟩
    · left
      rw [hswitched.others id harrives, contextOf_setCode_of_ne m rest hid]

theorem switch {next prev : ThreadId} {rest : List Step} (h : m.Employed past)
    (hseated : m.Seated) (hcode : m.context.code = .switch next prev :: rest)
    (hswitched : (m.setCode rest).Switched next prev after) :
    after.Employed (past ++ [⟨m, .exec⟩]) := by
  constructor
  · intro id
    rw [asked_exec]
    refine hswitched.forall_steps hcode (fun id step => step.Serves id (asked past id)) h.serves
      (fun id call => ?_) id
    cases call with
    | none => exact serves_nil _ _
    | some call => exact serves_cons trivial (serves_cons trivial (serves_nil _ _))
  · refine hswitched.forall_contexts
      (fun _ context => Code.isOperation context.code → context.answer = none)
      (fun id _ => h.unanswered id) (fun hrest => ?_) fun _ _ _ => rfl
    refine h.unanswered m.executing ?_
    rw [contextOf_executing rfl, hcode]
    exact (Code.isOperation_append [_] hrest.1).2 hrest
  · obtain ⟨-, rfl, -⟩ := hseated.switch_eq hcode
    intro id hid
    rw [hswitched.executing] at hid
    rw [hswitched.kernel, hswitched.others id hid, asked_exec]
    by_cases hprev : id = m.executing
    · exact .inl (hprev ▸ LawfulBackend.suspends _ _ _)
    · rw [contextOf_setCode_of_ne m rest hprev]
      exact (h.kept id hprev).imp_left (LawfulBackend.switch_keeps _ _ _ id)

theorem call (h : m.Employed past) (request : Request) :
    (m.call request).Employed (past ++ [⟨m, .call request⟩]) := by
  constructor
  · refine forall_contexts
      (fun id context => ∀ step ∈ context.code,
        step.Serves id (asked (past ++ [⟨m, .call request⟩]) id))
      (executing_call m request) (fun id hid => contextOf_call_of_ne m request hid)
      (fun id hid => ?_) ?_
    · rw [asked_call, if_neg (Ne.symm hid)]
      exact h.serves id
    · rw [context_call, asked_call, if_pos rfl]
      exact serves_request _ request
  · refine forall_contexts (fun _ context => Code.isOperation context.code → context.answer = none)
      (executing_call m request) (fun id hid => contextOf_call_of_ne m request hid)
      (fun id _ => h.unanswered id) ?_
    rw [context_call]
    exact fun _ => rfl
  · intro id hid
    rw [executing_call] at hid
    rw [contextOf_call_of_ne m request hid, asked_call, if_neg (Ne.symm hid)]
    exact h.kept id hid

theorem interrupt (h : m.Employed past) : m.interrupt.Employed (past ++ [⟨m, .interrupt⟩]) := by
  constructor
  · intro id
    rw [asked_interrupt]
    refine forall_contexts (fun id context => ∀ step ∈ context.code, step.Serves id (asked past id))
      (executing_interrupt m) (fun id hid => contextOf_interrupt_of_ne m hid)
      (fun id _ => h.serves id) ?_ id
    rw [context_interrupt]
    exact serves_cons trivial (serves_cons trivial (serves_cons trivial (h.serves m.executing)))
  · refine forall_contexts (fun _ context => Code.isOperation context.code → context.answer = none)
      (executing_interrupt m) (fun id hid => contextOf_interrupt_of_ne m hid)
      (fun id _ => h.unanswered id) ?_
    rw [context_interrupt]
    exact fun hoperation => h.unanswered m.executing (Code.isOperation_interrupt hoperation).1
  · intro id hid
    rw [executing_interrupt] at hid
    rw [contextOf_interrupt_of_ne m hid, asked_interrupt]
    exact h.kept id hid

theorem goes {move : Move} (h : m.Employed past) (hseated : m.Seated) (horderly : m.Orderly struck)
    (hgoes : m.Goes move after) : after.Employed (past ++ [⟨m, move⟩]) := by
  cases hgoes with
  | spin =>
      exact
        { serves := fun id => by rw [asked_exec]; exact h.serves id
          unanswered := h.unanswered
          kept := fun id hid => by rw [asked_exec]; exact h.kept id hid }
  | step hstepped => exact h.perform hseated horderly hstepped
  | switch hcode hswitched => exact h.switch hseated hcode hswitched
  | call request => exact h.call request
  | interrupt => exact h.interrupt

end Employed

/-- What holds in every run, whatever the policy chooses. -/
structure Regular (past : List (Transition P)) (m : Machine P) : Prop where
  orderly : m.Orderly (Struck past)
  objects : m.shared.Sound
  seated : m.Seated
  employed : m.Employed past

/-- A step serves what its thread asked for. -/
theorem Regular.served {past : List (Transition P)} {m after : Machine P} {step : Step}
    {rest pushed : List Step} (h : m.Regular past) (hstepped : m.Stepped step rest pushed after) :
    step.Serves m.executing (asked past m.executing) := by
  refine h.employed.serves m.executing step ?_
  rw [contextOf_executing rfl, hstepped.code]
  exact List.mem_cons_self

theorem Regular.served_of_step? {past : List (Transition P)} {m : Machine P} {step : Step}
    (h : m.Regular past) (hstep : Transition.step? ⟨m, .exec⟩ = some step) :
    step.Serves m.executing (asked past m.executing) := by
  exact h.employed.serves m.executing step (List.mem_of_mem_head? (nextStep?_of_step? hstep))

theorem Regular.goes {past : List (Transition P)} {m after : Machine P} {move : Move}
    (h : m.Regular past) (hgoes : m.Goes move after) : after.Regular (past ++ [⟨m, move⟩]) where
  orderly := h.orderly.goes hgoes
  objects := sound_of_goes h.objects hgoes
  seated := h.seated.goes h.orderly hgoes
  employed := h.employed.goes h.seated h.orderly hgoes

end Machine

theorem Run.regular [Backend P] [LawfulBackend P] {config : Config} {policy : Policy} {cpu : P}
    {values : List Int32} {mutexes : Nat} {console : Console} {past : List (Transition P)}
    {m : Machine P} (run : Run (.fresh config policy cpu values mutexes console) past m) :
    m.Regular past := by
  refine run.invariant (fun past m => m.Regular past) ?_ fun _ _ _ _ h hgoes => h.goes hgoes
  exact ⟨.fresh config policy cpu values mutexes console, Shared.sound_new values mutexes console,
    .fresh config policy cpu values mutexes console,
    .fresh config policy cpu values mutexes console⟩

end TickKernel
