import TickKernel.Proofs.Endings
import TickKernel.Proofs.Entries
import TickKernel.Proofs.Neighbours

/-!
# What becomes of the interrupt flag

Every step has one net effect on a thread's flag and guards: that of the step itself and
of all the steps that it puts in front of the others, whatever it reads from the state.
So the flag that a thread will have when it has done all its steps is known at any time
of an operation, and nothing changes it but the line that a successful start prints.
A switch keeps it, since a thread is resumed with the guards that it left with.
-/

namespace TickKernel

variable {P : Type}

/-- The flag and the guards after a step and all the steps that it puts in front of the others. -/
@[simp]
def Step.maskingBehind : Step → Masking → Masking
  | .mask, masking => masking.acquire
  | .setFlag enabled, masking => masking.set enabled
  | .resume, masking => masking.set true
  | .unmask, masking | .identify .answer, masking | .countThreads .answer, masking
  | .choose _, masking | .checkTarget _, masking | .dispatch _, masking | .describe _, masking
  | .snapshot _, masking | .countTick, masking | .checkDeadline _, masking
  | .checkRoom _, masking | .allocate _, masking | .writeFrame _ _, masking
  | .enroll _ _, masking | .armTimer, masking | .giveBack _ _, masking | .inspect _, masking
  | .install _, masking | .remove, masking => masking.dropNewest
  | .identify _, masking | .countThreads _, masking | .tryAcquire _ _, masking
  | .tryRelease _ _, masking | .tryTake _ _, masking => masking.dropNewest.dropNewest
  | _, masking => masking

namespace Code

@[simp]
def maskingBehind (masking : Masking) (code : List Step) : Masking :=
  code.foldl (fun masking step => step.maskingBehind masking) masking

theorem maskingBehind_refuse (masking : Masking) (creation : Creation) (cause : Failure) :
    maskingBehind masking (refuse creation cause) = masking.dropNewest := by
  cases h : creation.packet <;> simp [refuse, h]

theorem maskingBehind_attempt (masking : Masking) (call : Blocking) :
    maskingBehind masking (attempt call) = masking := by
  cases call <;> simp [attempt]

end Code

/-- What a step puts in front of the others has the effect on the flag that the step has. -/
theorem Kernel.Expands.maskingBehind_eq {kernel : Kernel P} {step : Step} {pushed : List Step}
    (h : kernel.Expands step pushed) (hbanner : step ≠ .countThreads .banner)
    (masking : Masking) :
    Code.maskingBehind (step.maskingAfter masking) pushed = step.maskingBehind masking := by
  cases h
  case nothing hplain => cases step <;> first | rfl | cases hplain
  case answer reply hasks =>
      unfold Step.asksUnder at hasks
      split at hasks <;> first | rfl | cases hasks
  case banner => exact absurd rfl hbanner
  case tick due hdue => rcases hdue with rfl | rfl <;> simp [Step.maskingAfter]
  case retry call => exact Code.maskingBehind_attempt masking call
  case noRoom creation text cause =>
      simp only [Code.maskingBehind, List.foldl_append]
      have hrefuse := Code.maskingBehind_refuse masking creation cause
      simpa [Step.maskingAfter] using hrefuse
  case noStack creation cause | noSlot creation stack cause =>
      exact Code.maskingBehind_refuse masking creation cause
  all_goals simp [Step.maskingAfter]

theorem Kernel.Expands.enabled_banner {kernel : Kernel P} {pushed : List Step}
    (h : kernel.Expands (.countThreads .banner) pushed) (masking : Masking) :
    (Code.maskingBehind masking pushed).enabled = true := by
  cases h
  case nothing hplain => cases hplain
  case answer hasks => cases hasks
  case banner text => simp [Masking.set]

/-! ## Calls and what they leave -/

def Transition.asks? (t : Transition P) (id : ThreadId) : Option Request :=
  match t.move with
  | .call request => if t.before.executing = id then some request else none
  | .exec | .interrupt => none

theorem Transition.asks?_eq_some {t : Transition P} {id : ThreadId} {request : Request} :
    t.asks? id = some request ↔ t.before.executing = id ∧ t.move = .call request := by
  unfold asks?
  split <;> simp [*]

def lastCall (past : List (Transition P)) (id : ThreadId) : Option (Transition P) :=
  past.reverse.find? fun t => (t.asks? id).isSome

section

variable {past : List (Transition P)} {t : Transition P} {id : ThreadId}

theorem lastCall_append :
    lastCall (past ++ [t]) id = if (t.asks? id).isSome then some t else lastCall past id := by
  rw [lastCall, List.reverse_append, List.reverse_singleton, List.singleton_append,
    List.find?_cons]
  split <;> simp [*, lastCall]

/-- Nothing that others ask for comes between a call and the next one. -/
theorem lastCall_of_split {before between : List (Transition P)} {request : Request}
    (hcalled : t.asks? id = some request) (hbetween : ∀ u ∈ between, u.asks? id = none) :
    lastCall (before ++ t :: between) id = some t := by
  have hnone : between.reverse.find? (fun u => (u.asks? id).isSome) = none := by
    rw [List.find?_eq_none]
    intro u hmem
    simp [hbetween u (List.mem_reverse.1 hmem)]
  rw [lastCall, List.reverse_append, List.reverse_cons, List.append_assoc, List.find?_append, hnone]
  simp [hcalled]

theorem asked_eq_bind (past : List (Transition P)) (id : ThreadId) :
    asked past id = (lastCall past id).bind (·.asks? id) := by
  induction past using List.reverseRecOn with
  | nil => rfl
  | append_singleton past t ih =>
      rw [lastCall_append]
      obtain ⟨m, move⟩ := t
      cases move with
      | exec | interrupt => simpa [Transition.asks?] using ih
      | call request =>
          rw [asked_call]
          by_cases hid : m.executing = id <;> simp [Transition.asks?, hid, ih]

end

/-- Operations that are not meant to change their caller's flag. -/
def Request.keepsFlag : Request → Bool
  | .start | .setInterrupts _ => false
  | _ => true

@[simp]
def Step.starts : Step → Bool
  | .claimStart | .armTimer | .countThreads .banner => true
  | _ => false

/--
The flag that an operation called with `flag` will leave, by the step that its thread has
left last.
-/
inductive Request.Leaves (request : Request) (flag : Bool) : Step → Bool → Prop where
  | kept {last : Step} : request.keepsFlag = true → last.starts = false →
      Leaves request flag last flag
  | starting {last : Step} : request = .start → last.starts = true → Leaves request flag last flag
  | refused (cause : Failure) : request = .start →
      Leaves request flag (.finish (.failed cause)) flag
  | started : request = .start → Leaves request flag (.finish .done) true
  | set (enabled : Bool) : request = .setInterrupts enabled →
      Leaves request flag (.finish .done) enabled
  | interrupted (any : Bool) : Leaves request flag .resume any

theorem Code.getLast?_refuse (creation : Creation) (cause : Failure) :
    (refuse creation cause).getLast? = some (.finish (.failed cause)) := by
  rw [refuse, List.getLast?_append]
  rfl

theorem Kernel.Expands.starts_eq_false {kernel : Kernel P} {step last : Step}
    {pushed : List Step} (h : kernel.Expands step pushed) (hstep : step.starts = false)
    (hlast : pushed.getLast? = some last) : last.starts = false := by
  cases h
  case claimed | timer => cases hstep
  case nothing => cases hlast
  case tick due hdue =>
      rcases hdue with rfl | rfl
      all_goals
        cases hlast
        rfl
  case retry call =>
      cases call
      all_goals
        cases hlast
        rfl
  case noRoom creation text cause =>
      rw [List.getLast?_append, Code.getLast?_refuse] at hlast
      cases hlast
      rfl
  case noStack creation cause | noSlot creation stack cause =>
      rw [Code.getLast?_refuse] at hlast
      cases hlast
      rfl
  all_goals
    cases hlast
    rfl

theorem Request.Leaves.of_expands {kernel : Kernel P} {request : Request} {flag behind after : Bool}
    {step last : Step} {pushed : List Step} (h : request.Leaves flag step behind)
    (hexpands : kernel.Expands step pushed) (hlast : pushed.getLast? = some last)
    (hkept : step ≠ .countThreads .banner → after = behind)
    (hbanner : step = .countThreads .banner → after = true) : request.Leaves flag last after := by
  cases h with
  | kept hkeeps hstep =>
      rw [hkept (by rintro rfl; cases hstep)]
      exact .kept hkeeps (hexpands.starts_eq_false hstep hlast)
  | starting hstart hstep =>
      cases hexpands
      case banner text =>
          cases hlast
          rw [hbanner rfl]
          exact .started hstart
      case alreadyStarted cause | noTimer cause =>
          cases hlast
          rw [hkept nofun]
          exact .refused cause hstart
      case claimed | timer =>
          cases hlast
          rw [hkept nofun]
          exact .starting hstart rfl
      case nothing => cases hlast
      case answer hasks =>
          unfold Step.asksUnder at hasks
          split at hasks <;> first | cases hstep | cases hasks
      all_goals cases hstep
  | refused | started | set | interrupted =>
      rw [hexpands.eq_nil rfl] at hlast
      cases hlast

theorem Request.maskingBehind_code (request : Request) (masking : Masking)
    (hkeeps : ∀ enabled, request ≠ .setInterrupts enabled) :
    Code.maskingBehind masking request.code = masking := by
  cases request
  case sleep ticks =>
      simp only [code]
      split <;> simp
  case setInterrupts enabled => exact absurd rfl (hkeeps enabled)
  all_goals simp [code]

theorem Request.starts_eq_false {request : Request} {last : Step}
    (hkeeps : request.keepsFlag = true) (hlast : request.code.getLast? = some last) :
    last.starts = false := by
  cases request
  case start | setInterrupts => cases hkeeps
  case sleep ticks =>
      simp only [code] at hlast
      split at hlast
      all_goals
        cases hlast
        rfl
  all_goals
    cases hlast
    rfl

theorem Request.leaves_code (request : Request) (masking : Masking) {last : Step}
    (hlast : request.code.getLast? = some last) :
    request.Leaves masking.enabled last (Code.maskingBehind masking request.code).enabled := by
  cases hkeeps : request.keepsFlag with
  | true =>
      rw [request.maskingBehind_code masking (by rintro enabled rfl; cases hkeeps)]
      exact .kept hkeeps (request.starts_eq_false hkeeps hlast)
  | false =>
      cases request
      case start =>
          cases hlast
          exact .starting rfl rfl
      case setInterrupts enabled =>
          cases hlast
          exact .set enabled rfl
      all_goals cases hkeeps

/-! ## Threads -/

def Context.maskingBehind (context : Context) : Masking :=
  Code.maskingBehind context.masking context.code

def Context.flagBehind (context : Context) : Bool :=
  context.maskingBehind.enabled

namespace Machine

variable [Backend P] {past : List (Transition P)} {m after : Machine P} {step : Step}
  {rest pushed : List Step} {move : Move} {id : ThreadId}

theorem Stepped.maskingBehind_eq (hstepped : m.Stepped step rest pushed after)
    (hbanner : step ≠ .countThreads .banner) :
    after.context.maskingBehind = m.context.maskingBehind := by
  have hlaw := hstepped.expands.maskingBehind_eq hbanner m.context.masking
  rw [Code.maskingBehind] at hlaw
  rw [Context.maskingBehind, Context.maskingBehind, hstepped.code_after, hstepped.effect.masking,
    hstepped.code, Code.maskingBehind, List.foldl_append, hlaw, Code.maskingBehind,
    List.foldl_cons]

theorem Stepped.flagBehind_eq (hstepped : m.Stepped step rest pushed after)
    (hbanner : step ≠ .countThreads .banner) :
    after.context.flagBehind = m.context.flagBehind :=
  congrArg Masking.enabled (hstepped.maskingBehind_eq hbanner)

/-- A start that has printed its line has nothing left to do but to enable interrupts. -/
theorem Stepped.flagBehind_banner
    (hstepped : m.Stepped (.countThreads .banner) [] pushed after) :
    after.context.flagBehind = true := by
  rw [Context.flagBehind, Context.maskingBehind, hstepped.code_after, List.append_nil]
  exact hstepped.expands.enabled_banner after.context.masking

omit [Backend P] in
theorem flagBehind_interrupt (henabled : m.interruptsEnabled = true) :
    m.interrupt.context.flagBehind = m.context.flagBehind := by
  have hsame : (m.context.masking.set false).set true = m.context.masking := by
    rw [interruptsEnabled] at henabled
    cases hmasking : m.context.masking
    simp_all [Masking.set]
  rw [context_interrupt]
  simp [Context.flagBehind, Context.maskingBehind, interruptCode, hsame]

variable [LawfulBackend P]

/-- Whatever a thread does but ask for something, and whatever others do, leaves its flag ahead. -/
theorem Regular.flagBehind_of_goes (h : m.Regular past) (hgoes : m.Goes move after)
    (hcall : Transition.asks? ⟨m, move⟩ id = none) :
    (after.contextOf id).flagBehind = (m.contextOf id).flagBehind ∨
      (after.contextOf id).flagBehind = true ∧
        (asked past id = none ∨
          m.executing = id ∧ Transition.step? ⟨m, move⟩ = some (.countThreads .banner)) := by
  cases hgoes with
  | spin => exact .inl rfl
  | @step step rest pushed _ hstepped =>
      by_cases hid : id = m.executing
      · rw [contextOf_executing (hstepped.effect.executing.trans hid.symm),
          contextOf_executing hid.symm]
        by_cases hbanner : step = .countThreads .banner
        · subst hbanner
          obtain rfl : rest = [] := h.orderly.fits hstepped
          exact .inr ⟨hstepped.flagBehind_banner, .inr ⟨hid.symm, hstepped.step?_eq⟩⟩
        · exact .inl (hstepped.flagBehind_eq hbanner)
      · exact .inl (by rw [hstepped.effect.others id hid])
  | switch hcode hswitched =>
      rcases h.employed.contextOf_switched h.seated hcode hswitched id with
        ⟨rfl, hafter⟩ | ⟨-, hafter | ⟨hasked, -, call, hafter⟩⟩
      · refine .inl ?_
        rw [hafter, contextOf_executing rfl, Context.flagBehind, Context.flagBehind,
          Context.maskingBehind, Context.maskingBehind, hcode]
        rfl
      · exact .inl (by rw [hafter])
      · refine .inr ⟨?_, .inl hasked⟩
        rw [hafter]
        cases call <;>
          simp [Context.flagBehind, Context.maskingBehind, launchCode, Masking.unguarded,
            Masking.set]
  | call request =>
      have hid : id ≠ m.executing := by
        rintro rfl
        simp [Transition.asks?] at hcall
      exact .inl (by rw [contextOf_call_of_ne m request hid])
  | interrupt henabled =>
      refine .inl ?_
      by_cases hid : id = m.executing
      · rw [contextOf_executing ((executing_interrupt m).trans hid.symm),
          contextOf_executing hid.symm, flagBehind_interrupt henabled]
      · rw [contextOf_interrupt_of_ne m hid]

/-- What the threads' operations will leave, by what they were called with. -/
structure Faithful (past : List (Transition P)) (m : Machine P) : Prop where
  unasked : ∀ id, lastCall past id = none → (m.contextOf id).flagBehind = true
  leaves : ∀ id called request last, lastCall past id = some called →
    called.asks? id = some request → (m.contextOf id).code.getLast? = some last →
      request.Leaves called.before.interruptsEnabled last (m.contextOf id).flagBehind

namespace Faithful

omit [Backend P] [LawfulBackend P] in
theorem boot (number : Nat) (config : Config) (policy : Policy) (cpu : P) (values : List Int32)
    (mutexes : Nat) (console : Console) :
    (Machine.boot (.new number config policy cpu) (.new values mutexes console)).Faithful [] where
  unasked id _ := by
    have hcontext := contextOf_fresh config policy cpu values mutexes console id
    change
      (Machine.contextOf (.fresh config policy cpu values mutexes console) id).flagBehind = true
    rw [hcontext]
    rfl
  leaves _ _ _ _ hcalled := by cases hcalled

theorem unasked_of_goes (h : m.Faithful past) (hregular : m.Regular past)
    (hgoes : m.Goes move after) (id : ThreadId)
    (hcalled : lastCall (past ++ [⟨m, move⟩]) id = none) :
    (after.contextOf id).flagBehind = true := by
  rw [lastCall_append] at hcalled
  split at hcalled
  next => cases hcalled
  next hnone =>
      rw [Bool.not_eq_true, Option.isSome_eq_false_iff, Option.isNone_iff_eq_none] at hnone
      rcases hregular.flagBehind_of_goes hgoes hnone with hsame | ⟨hset, -⟩
      · exact hsame.trans (h.unasked id hcalled)
      · exact hset

theorem leaves_of_goes (h : m.Faithful past) (hregular : m.Regular past)
    (hgoes : m.Goes move after) (id : ThreadId) (called : Transition P) (request : Request)
    (last : Step) (hcalled : lastCall (past ++ [⟨m, move⟩]) id = some called)
    (hasks : called.asks? id = some request)
    (hlast : (after.contextOf id).code.getLast? = some last) :
    request.Leaves called.before.interruptsEnabled last (after.contextOf id).flagBehind := by
  have hasked : asked (past ++ [⟨m, move⟩]) id ≠ none := by
    rw [asked_eq_bind, hcalled, Option.bind_some, hasks]
    exact Option.some_ne_none request
  have hbefore : Transition.asks? ⟨m, move⟩ id = none →
      lastCall past id = some called ∧ asked past id ≠ none := by
    intro hnone
    rw [lastCall_append, hnone, Option.isSome_none, if_neg Bool.false_ne_true] at hcalled
    refine ⟨hcalled, ?_⟩
    rw [asked_eq_bind, hcalled, Option.bind_some, hasks]
    exact Option.some_ne_none request
  cases hregular.ending hgoes hasked with
  | kept hkept hown =>
      have hnone : Transition.asks? ⟨m, move⟩ id = none := by
        rw [Option.eq_none_iff_forall_ne_some]
        intro other hother
        obtain ⟨hid, rfl⟩ := Transition.asks?_eq_some.1 hother
        exact (hown hid).1 other rfl
      obtain ⟨hcalled, hasked⟩ := hbefore hnone
      have hleaves := h.leaves id called request last hcalled hasks (hkept ▸ hlast)
      rcases hregular.flagBehind_of_goes hgoes hnone with hsame | ⟨-, hnever | ⟨hid, hbanner⟩⟩
      · rw [hsame]
        exact hleaves
      · exact absurd hnever hasked
      · cases (hown hid).2 _ hbanner
  | @ended step pushed _ hid hstepped =>
      obtain ⟨hcalled, -⟩ := hbefore rfl
      subst hid
      rw [contextOf_executing hstepped.effect.executing] at hlast ⊢
      rw [hstepped.code_after, List.append_nil] at hlast
      have hleaves := h.leaves m.executing called request step hcalled hasks
        (by rw [contextOf_executing rfl, hstepped.code]; rfl)
      refine hleaves.of_expands hstepped.expands hlast hstepped.flagBehind_eq ?_
      rintro rfl
      exact hstepped.flagBehind_banner
  | called other hid hcode =>
      subst hid
      rw [lastCall_append, if_pos (by simp [Transition.asks?])] at hcalled
      obtain rfl := Option.some.inj hcalled
      obtain ⟨-, hother⟩ := Transition.asks?_eq_some.1 hasks
      obtain rfl : other = request := by injection hother
      rw [contextOf_executing (executing_call m other), context_call] at hlast ⊢
      exact other.leaves_code m.context.masking hlast
  | struck hid hcode =>
      rw [contextOf_executing ((executing_interrupt m).trans hid), context_interrupt, hcode]
        at hlast
      cases hlast
      exact .interrupted _

theorem goes (h : m.Faithful past) (hregular : m.Regular past) (hgoes : m.Goes move after) :
    after.Faithful (past ++ [⟨m, move⟩]) where
  unasked := h.unasked_of_goes hregular hgoes
  leaves := h.leaves_of_goes hregular hgoes

end Faithful

/-- With interrupts enabled a step changes no table, no object and no saved stack pointer. -/
theorem Regular.unchanged_of_enabled (h : m.Regular past) (hgoes : m.Goes move after)
    (henabled : m.interruptsEnabled = true) :
    after.kernel.table = m.kernel.table ∧ after.kernel.pointers = m.kernel.pointers ∧
      after.shared.mutexes = m.shared.mutexes ∧ after.shared.semaphores = m.shared.semaphores := by
  cases hgoes with
  | spin | call | interrupt => exact ⟨rfl, rfl, rfl, rfl⟩
  | switch hcode hswitched =>
      rw [hswitched.kernel, hswitched.shared]
      exact ⟨rfl, rfl, rfl, rfl⟩
  | @step step rest pushed _ hstepped =>
      have hcover := h.orderly.cover_of_enabled henabled
      have halive : ¬ step.IsDead m.context.cover := by
        rw [hcover]
        cases step <;> simp [Step.IsDead]
      have hstands := h.orderly.stands_of_code hstepped.code halive
      rw [hcover] at hstands
      have hquiet : (∀ table, step.tableAfter table = table) ∧
          (∀ pointers, step.pointersAfter pointers = pointers) ∧
            step.asksMutex = false ∧ step.asksSemaphore = false := by
        cases step
        all_goals first | exact ⟨fun _ => rfl, fun _ => rfl, rfl, rfl⟩ | cases hstands
      obtain ⟨htable, hpointers, hmutex, hsemaphore⟩ := hquiet
      exact ⟨hstepped.effect.table.trans (htable _),
        hstepped.aftermath.pointers.trans (hpointers _),
        hstepped.effect.mutexes hmutex, hstepped.effect.semaphores hsemaphore⟩

end Machine

/-! ## Operations -/

structure Answers (past : List (Transition P)) (called returned : Transition P)
    (request : Request) (reply : Reply) : Prop where
  between : ∃ before between later, past = before ++ called :: (between ++ returned :: later) ∧
    ∀ t ∈ between, t.asks? called.before.executing = none
  asks : called.move = .call request
  executing : returned.before.executing = called.before.executing
  finishes : returned.step? = some (.finish reply)

section

variable [Backend P] [LawfulBackend P] {number : Nat} {config : Config} {policy : Policy} {cpu : P}
  {values : List Int32} {mutexes : Nat} {console : Console} {past : List (Transition P)}
  {m : Machine P}

theorem SharedRun.faithful
    (run : SharedRun (.boot (.new number config policy cpu) (.new values mutexes console)) past m) :
    m.Faithful past := by
  refine run.invariant (fun past m => m.Faithful past) ?_ ?_ ?_
  · exact .boot number config policy cpu values mutexes console
  · exact fun _ _ _ run h hgoes => h.goes run.regular hgoes
  · exact fun _ _ _ _ h _ _ => ⟨h.unasked, h.leaves⟩

namespace Answers

variable {called returned : Transition P} {request : Request} {reply : Reply}

/-- Between an operation's call and its return its thread asks for nothing else. -/
theorem returning (h : Answers past called returned request reply)
    (run : SharedRun (.boot (.new number config policy cpu) (.new values mutexes console)) past m) :
    ∃ earlier, returned.move = .exec ∧ returned.before.context.code = [.finish reply] ∧
      lastCall earlier returned.before.executing = some called ∧
      returned.before.Regular earlier ∧ returned.before.Faithful earlier := by
  obtain ⟨before, between, later, rfl, hbetween⟩ := h.between
  rw [← List.cons_append, ← List.append_assoc] at run
  obtain ⟨hbefore, -⟩ := run.before
  have hasks : called.asks? called.before.executing = some request :=
    Transition.asks?_eq_some.2 ⟨rfl, h.asks⟩
  refine ⟨_, ?_, ?_, ?_, hbefore.regular, hbefore.faithful⟩
  · have hfinishes := h.finishes
    unfold Transition.step? at hfinishes
    split at hfinishes
    next hexec => exact hexec
    all_goals cases hfinishes
  · exact hbefore.regular.orderly.code_of_finish (Machine.nextStep?_of_step? h.finishes)
  · rw [h.executing]
    exact lastCall_of_split hasks hbetween

theorem enabled_after (h : Answers past called returned request reply)
    (run : SharedRun (.boot (.new number config policy cpu) (.new values mutexes console)) past m) :
    returned.after.interruptsEnabled = returned.before.context.flagBehind := by
  obtain ⟨earlier, hmove, hcode, -⟩ := h.returning run
  obtain ⟨pushed, hstepped⟩ := Machine.stepped_exec hcode rfl rfl
  rw [Transition.after, hmove, Machine.after, ← hstepped.flagBehind_eq (by simp),
    Context.flagBehind, Context.maskingBehind, hstepped.code_after, hstepped.expands.eq_nil rfl]
  rfl

theorem leaves (h : Answers past called returned request reply)
    (run : SharedRun (.boot (.new number config policy cpu) (.new values mutexes console)) past m) :
    request.Leaves called.before.interruptsEnabled (.finish reply)
      returned.before.context.flagBehind := by
  obtain ⟨earlier, -, hcode, hcalled, -, hfaithful⟩ := h.returning run
  have hasks : called.asks? returned.before.executing = some request :=
    Transition.asks?_eq_some.2 ⟨h.executing.symm, h.asks⟩
  refine hfaithful.leaves returned.before.executing called request _ hcalled hasks ?_
  rw [Machine.contextOf_executing rfl, hcode]
  rfl

end Answers

/--
An operation that returns leaves its caller's interrupt flag as it was at the call,
whatever it waited for and whoever ran meanwhile, and a successful start leaves it set.
While the executing thread has interrupts enabled nothing changes the thread table, a
synchronization object or a saved stack pointer.
-/
theorem SharedRun.flag_kept
    (run : SharedRun (.boot (.new number config policy cpu) (.new values mutexes console)) past m) :
    (∀ called returned request reply, Answers past called returned request reply →
      (∀ enabled, request ≠ .setInterrupts enabled) →
        returned.after.interruptsEnabled =
          if request = .start ∧ reply = .done then true else called.before.interruptsEnabled) ∧
    ∀ t ∈ past, t.before.interruptsEnabled = true →
      t.after.kernel.table = t.before.kernel.table ∧
      t.after.kernel.pointers = t.before.kernel.pointers ∧
      t.after.shared.mutexes = t.before.shared.mutexes ∧
      t.after.shared.semaphores = t.before.shared.semaphores := by
  constructor
  · rintro called returned request reply hanswers hset
    have hleaves := hanswers.leaves run
    rw [hanswers.enabled_after run]
    generalize returned.before.context.flagBehind = behind at hleaves ⊢
    cases hleaves with
    | kept hkeeps =>
        rw [if_neg]
        rintro ⟨rfl, -⟩
        cases hkeeps
    | starting _ hstarts => cases hstarts
    | refused cause => rw [if_neg (by simp)]
    | started hstart => rw [if_pos ⟨hstart, rfl⟩]
    | set _ hsets => exact absurd hsets (hset _)
  · intro t hmem henabled
    obtain ⟨before, later, rfl⟩ := List.append_of_mem hmem
    obtain ⟨hbefore, allowed⟩ := run.before
    exact hbefore.regular.unchanged_of_enabled (t.before.goes_after allowed) henabled

end

/-- The idle thread creates a thread, to which it yields and which masks its interrupts. -/
def hushing : List Move :=
  .call (.create "waiter" ⟨0x1000, 0⟩ 4096 (some 0x10000)) :: List.replicate 20 .exec
    ++ .call .yield :: List.replicate 13 .exec
    ++ .call (.setInterrupts false) :: List.replicate 2 .exec

/-- The thread waits, the idle thread gives a unit back and yields, and the thread takes it. -/
def awaiting : List Move :=
  List.replicate 28 .exec ++ .call (.signal 0) :: List.replicate 13 .exec
    ++ .call .yield :: List.replicate 26 .exec

/-- A wait that let a thread with interrupts enabled run returns with them masked. -/
theorem SharedRun.flag_kept_of_wait :
    ∃ (past : List (Transition Host)) (m : Machine Host) (called returned : Transition Host),
      SharedRun (.boot (.new 1 {} .roundRobin {})
          (.new [0] 0 { sinks := [], installed := none })) past m ∧
        Answers past called returned (.wait 0) .done ∧
          called.before.interruptsEnabled = false ∧ returned.after.interruptsEnabled = false ∧
            past.any (fun t => t.before.interruptsEnabled) = true := by
  let start : Machine Host :=
    .boot (.new 1 {} .roundRobin {}) (.new [0] 0 { sinks := [], installed := none })
  let waiting := hushing.foldl Machine.after start
  let taking := awaiting.foldl Machine.after (waiting.call (.wait 0))
  let called : Transition Host := ⟨waiting, .call (.wait 0)⟩
  let returned : Transition Host := ⟨taking, .exec⟩
  let between := (waiting.call (.wait 0)).transitions awaiting
  have hcall : Run waiting [called] (waiting.call (.wait 0)) :=
    .snoc (.call (.wait 0)) .nil (by decide +kernel)
  have hbetween : Run (waiting.call (.wait 0)) between taking := .of_plays (by decide +kernel)
  have hreturn : Run taking [returned] taking.exec := .snoc .exec .nil (by decide +kernel)
  have hfirst : Run start (start.transitions hushing) waiting := .of_plays (by decide +kernel)
  have run := ((hfirst.trans hcall).trans (hbetween.trans hreturn)).sharedRun
  have hanswers : Answers
      (start.transitions hushing ++ [called] ++ (between ++ [returned])) called returned
      (.wait 0) .done :=
    { between := ⟨start.transitions hushing, between, [], by simp, by decide +kernel⟩
      asks := rfl
      executing := by decide +kernel
      finishes := by decide +kernel }
  have hmasked : called.before.interruptsEnabled = false := by decide +kernel
  have hkept := (SharedRun.flag_kept run).1 called returned (.wait 0) .done hanswers (by simp)
  exact ⟨_, _, called, returned, run, hanswers, hmasked, hkept.trans hmasked, by decide +kernel⟩

end TickKernel
