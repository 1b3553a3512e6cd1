import TickKernel.Proofs.Requests
import TickKernel.Proofs.Stretch

/-!
# What prompts an urgent step

An urgent step is never left standing: it was put in front of the others by the last
step that did more than handle guards and locks, or it is the dispatch that follows a
wake.  So whoever comes to an urgent step finds the table and the synchronization
objects as that last step left them.
-/

namespace TickKernel

variable {P : Type}

/-! ## The last transition that did something -/

section Latest

variable {past : List (Transition P)} {t : Transition P}

def Transition.isIdle (t : Transition P) : Bool :=
  t.move == .exec && t.step?.all Step.isQuiet

/-- The last transition of a run that was not idle. -/
def latest (past : List (Transition P)) : Option (Transition P) :=
  past.foldl (fun last t => if t.isIdle then last else some t) none

theorem latest_append_of_idle (h : t.isIdle = true) : latest (past ++ [t]) = latest past := by
  simp [latest, h]

theorem latest_append (h : t.isIdle = false) : latest (past ++ [t]) = some t := by
  simp [latest, h]

theorem Transition.move_of_isIdle (h : t.isIdle = true) : t.move = .exec := by
  simp only [isIdle, Bool.and_eq_true, beq_iff_eq] at h
  exact h.1

theorem split_of_latest (h : latest past = some t) :
    ∃ before later, past = before ++ t :: later ∧ ∀ other ∈ later, other.isIdle = true := by
  induction past using List.reverseRecOn with
  | nil => cases h
  | append_singleton past last ih =>
      cases hidle : last.isIdle with
      | true =>
          rw [latest_append_of_idle hidle] at h
          obtain ⟨before, later, rfl, hlater⟩ := ih h
          refine ⟨before, later ++ [last], by simp, ?_⟩
          intro other hmem
          rcases List.mem_append.1 hmem with hmem | hmem
          · exact hlater other hmem
          · exact List.mem_singleton.1 hmem ▸ hidle
      | false =>
          rw [latest_append hidle] at h
          cases h
          exact ⟨past, [], rfl, List.forall_mem_nil _⟩

theorem asked_append_of_exec {later : List (Transition P)} (h : ∀ t ∈ later, t.move = .exec)
    (past : List (Transition P)) (id : ThreadId) : asked (past ++ later) id = asked past id := by
  induction later generalizing past with
  | nil => rw [List.append_nil]
  | cons t later ih =>
      rw [← List.singleton_append, ← List.append_assoc, ih fun other hmem => h other (.tail _ hmem)]
      obtain ⟨m, move⟩ := t
      obtain rfl : move = .exec := h _ (.head _)
      exact asked_exec past m id

end Latest

/-! ## What is ahead -/

def Code.ahead (code : List Step) : Option Step :=
  code.find? fun step => !step.isQuiet

namespace Code

variable {step next : Step} {rest : List Step}

theorem ahead_cons_of_quiet (h : step.isQuiet = true) : ahead (step :: rest) = ahead rest :=
  List.find?_cons_of_neg (by rw [h]; decide)

theorem ahead_cons (h : step.isQuiet = false) : ahead (step :: rest) = some step :=
  List.find?_cons_of_pos (by rw [h]; rfl)

theorem mem_of_ahead (h : ahead rest = some next) : next ∈ rest :=
  List.mem_of_find?_eq_some h

theorem ahead_of_calm (hcalm : Calm rest) (h : ahead rest = some next) :
    next.isUrgent = false :=
  hcalm.1 next (mem_of_ahead h)

theorem ahead_append {front : List Step} (h : ahead (front ++ rest) = some next) :
    ahead front = some next ∨ ahead rest = some next := by
  unfold ahead at h ⊢
  rw [List.find?_append] at h
  cases hfront : front.find? fun step => !step.isQuiet with
  | some first =>
      rw [hfront] at h
      exact .inl h
  | none =>
      rw [hfront] at h
      exact .inr h

end Code

theorem Step.isQuiet_of_isUrgent {step : Step} (h : step.isUrgent = true) :
    step.isQuiet = false := by
  cases step <;> first | rfl | cases h

theorem Step.isPlain_of_isQuiet {step : Step} (h : step.isQuiet = true) :
    step.isPlain = true := by
  cases step <;> first | rfl | cases h

/-- A step that is not quiet leaves nothing urgent behind it but the dispatch after a wake. -/
theorem Step.Fits.eq_dispatch {step next : Step} {rest : List Step} (h : step.Fits rest)
    (hloud : step.isQuiet = false) (hmem : next ∈ rest) (hurgent : next.isUrgent = true) :
    ∃ id, step = .wake id ∧ next = .dispatch id := by
  have hcalm : ¬ Calm rest := by
    intro hcalm
    rw [hcalm.1 next hmem] at hurgent
    cases hurgent
  unfold Step.Fits at h
  split at h
  next =>
      rw [h] at hmem
      cases hmem
  next =>
      split at h
      next => cases hloud
      next => cases hloud
      next => cases hloud
      next => cases hloud
      next id _ => exact ⟨id, rfl, h.1 next hmem hurgent⟩
      next => exact absurd h.1 hcalm
      next => exact absurd h.1 hcalm
      next => exact absurd h.1 hcalm
      next => exact absurd h.1 hcalm
      next =>
          rw [h] at hmem
          simp only [Code.done, List.mem_cons, List.not_mem_nil, or_false] at hmem
          rcases hmem with rfl | rfl <;> cases hurgent
      next =>
          rcases h with rfl | ⟨call, rfl⟩
          · cases List.mem_singleton.1 hmem
            cases hurgent
          · cases List.mem_singleton.1 hmem
            cases hurgent
      next => exact absurd h.1 hcalm
      next => exact absurd h hcalm

/-- Which step can have prompted an urgent one. -/
inductive Kernel.Urges (kernel : Kernel P) : Step → Step → Prop where
  | countDown : Urges kernel .countTick .countDown
  | doze {wakeAt ticks : UInt64} : Urges kernel (.checkDeadline wakeAt) (.doze ticks)
  | release {step : Step} (id : ThreadId) : step.asksMutex = true ∨ step.asksSemaphore = true →
      Urges kernel step (.wake id)
  | woken (id : ThreadId) : Urges kernel (.wake id) (.dispatch id)
  | choice : Urges kernel (.choose .dispatch) (.dispatch kernel.choice)
  | target (id : ThreadId) : Urges kernel (.checkTarget id) (.dispatch id)
  | leave {target : ThreadId} : kernel.table.current ≠ target →
      Urges kernel (.dispatch target) (.switch target kernel.table.current)

theorem Kernel.Expands.urges {kernel : Kernel P} {step next : Step} {pushed : List Step}
    (h : kernel.Expands step pushed) (hahead : Code.ahead pushed = some next)
    (hurgent : next.isUrgent = true) : kernel.Urges step next := by
  have hcalm : Calm pushed → kernel.Urges step next := by
    intro hcalm
    rw [Code.ahead_of_calm hcalm hahead] at hurgent
    cases hurgent
  have hnext : ∀ other, Code.ahead pushed = some other → next = other := by
    intro other hother
    exact Option.some.inj (hahead.symm.trans hother)
  cases h
  case choice => exact hnext _ rfl ▸ .choice
  case target target _ => exact hnext _ rfl ▸ .target target
  case leave target hne => exact hnext _ rfl ▸ .leave hne
  case tick due hdue => exact hnext _ rfl ▸ .countDown
  case asleep wakeAt hearly => exact hnext _ rfl ▸ .doze
  case passed index me heir => exact hnext _ rfl ▸ .release heir (.inl rfl)
  case woken index id => exact hnext _ rfl ▸ .release id (.inr rfl)
  case handed index id => exact hnext _ rfl ▸ .release id (.inr rfl)
  case retry call =>
    cases call <;> cases hnext _ rfl <;> cases hurgent
  case barred | short =>
    cases hnext _ rfl
    cases hurgent
  case noStack creation cause => exact hcalm (calm_refuse creation cause)
  case noSlot creation stack cause => exact hcalm (calm_refuse creation cause)
  case noRoom =>
    cases hnext _ rfl
    cases hurgent
  all_goals
    apply hcalm
    simp

namespace Machine

variable [Backend P] {past : List (Transition P)} {m after : Machine P} {step : Step}
  {rest pushed : List Step}

/--
A transition put an urgent step in front of the others, or woke the thread that is
dispatched next, and left the table and the objects as they are in `m`.
-/
structure Prompts (t : Transition P) (next : Step) (m : Machine P) : Prop where
  move : t.move = .exec
  stepped : ∃ step rest pushed, t.before.Stepped step rest pushed t.after ∧
    (Code.ahead pushed = some next ∨ ∃ id, step = .wake id ∧ next = .dispatch id)
  untouched : t.after.Untouched m

/-- An urgent step that is ahead was prompted by the last transition that was not idle. -/
def Prompted (past : List (Transition P)) (m : Machine P) : Prop :=
  ∀ next, Code.ahead m.context.code = some next → next.isUrgent = true →
    ∃ t, latest past = some t ∧ m.Prompts t next

theorem Prompts.urges {t : Transition P} {next : Step} (h : m.Prompts t next)
    (hurgent : next.isUrgent = true) :
    ∃ step, t.step? = some step ∧ t.before.kernel.Urges step next := by
  obtain ⟨before, move⟩ := t
  obtain ⟨rfl, ⟨step, rest, pushed, hstepped, hnext⟩, -⟩ := h
  refine ⟨step, hstepped.step?_eq, ?_⟩
  rcases hnext with hahead | ⟨id, rfl, rfl⟩
  · exact hstepped.expands.urges hahead hurgent
  · exact .woken id

theorem Effect.untouched (h : m.Effect step after) (hquiet : step.isQuiet = true) :
    m.Untouched after where
  executing := h.executing
  table := by
    rw [h.table]
    cases step <;> first | rfl | cases hquiet
  mutexes := h.mutexes (by cases step <;> first | rfl | cases hquiet)
  semaphores := h.semaphores (by cases step <;> first | rfl | cases hquiet)

theorem isIdle_of_stepped (hstepped : m.Stepped step rest pushed after) :
    Transition.isIdle ⟨m, .exec⟩ = step.isQuiet := by
  simp [Transition.isIdle, hstepped.step?_eq]

namespace Prompted

/-- Quiet steps lead on to what is ahead. -/
theorem of_quiet (h : m.Prompted past) (hstepped : m.Stepped step rest pushed after)
    (hquiet : step.isQuiet = true) : after.Prompted (past ++ [⟨m, .exec⟩]) := by
  intro next hahead hurgent
  have hpushed : pushed = [] := hstepped.expands.eq_nil (Step.isPlain_of_isQuiet hquiet)
  rw [hstepped.code_after, hpushed, List.nil_append] at hahead
  have hbefore : Code.ahead m.context.code = some next := by
    rw [hstepped.code, Code.ahead_cons_of_quiet hquiet]
    exact hahead
  obtain ⟨t, hlatest, hprompts⟩ := h next hbefore hurgent
  rw [latest_append_of_idle ((isIdle_of_stepped hstepped).trans hquiet)]
  exact ⟨t, hlatest, hprompts.move, hprompts.stepped,
    hprompts.untouched.trans (hstepped.effect.untouched hquiet)⟩

/-- What is urgent after any other step is so by that step. -/
theorem of_loud (hfits : step.Fits rest) (hstepped : m.Stepped step rest pushed after)
    (hloud : step.isQuiet = false) : after.Prompted (past ++ [⟨m, .exec⟩]) := by
  intro next hahead hurgent
  have hafter := hstepped.after_eq
  rw [latest_append ((isIdle_of_stepped hstepped).trans hloud)]
  rw [hstepped.code_after] at hahead
  refine ⟨_, rfl, rfl, ⟨step, rest, pushed, by rwa [hafter], ?_⟩, by rw [hafter]; exact .refl after⟩
  rcases Code.ahead_append hahead with hpushed | hrest
  · exact .inl hpushed
  · exact .inr (hfits.eq_dispatch hloud (Code.mem_of_ahead hrest) hurgent)

theorem goes {struck : Prop} {move : Move} (h : m.Prompted past) (horderly : m.Orderly struck)
    (hgoes : m.Goes move after) : after.Prompted (past ++ [⟨m, move⟩]) := by
  cases hgoes with
  | spin hnone =>
      rw [Prompted, latest_append_of_idle (by simp [Transition.isIdle, hnone])]
      exact h
  | @step step rest pushed _ hstepped =>
      cases hquiet : step.isQuiet with
      | true => exact h.of_quiet hstepped hquiet
      | false => exact of_loud (horderly.fits hstepped) hstepped hquiet
  | switch hcode hswitched =>
      intro next hahead hurgent
      have hcalm := horderly.calm_of_switched hcode hswitched
      rw [Code.ahead_of_calm hcalm hahead] at hurgent
      cases hurgent
  | call request hempty =>
      intro next hahead hurgent
      rw [context_call] at hahead
      rw [Code.ahead_of_calm request.calm_code hahead] at hurgent
      cases hurgent
  | interrupt =>
      intro next hahead hurgent
      rw [context_interrupt] at hahead
      obtain rfl : next = .countTick := (Option.some.inj hahead).symm
      cases hurgent

/-- An urgent step that comes next is one that is ahead. -/
theorem of_nextStep? (h : m.Prompted past) {next : Step} (hnext : m.nextStep? = some next)
    (hurgent : next.isUrgent = true) :
    ∃ t, latest past = some t ∧ m.Prompts t next ∧
      ∃ step, t.step? = some step ∧ t.before.kernel.Urges step next := by
  obtain ⟨rest, hcode⟩ := List.head?_eq_some_iff.1 hnext
  have hahead : Code.ahead m.context.code = some next := by
    rw [hcode, Code.ahead_cons (Step.isQuiet_of_isUrgent hurgent)]
  obtain ⟨t, hlatest, hprompts⟩ := h next hahead hurgent
  exact ⟨t, hlatest, hprompts, hprompts.urges hurgent⟩

end Prompted

end Machine

theorem Run.prompted [Backend P] [LawfulBackend P] {config : Config} {policy : Policy} {cpu : P}
    {values : List Int32} {mutexes : Nat} {console : Console} {past : List (Transition P)}
    {m : Machine P} (run : Run (.fresh config policy cpu values mutexes console) past m) :
    m.Prompted past := by
  apply run.invariant fun past m => m.Prompted past
  · intro next hahead
    rw [Machine.context_fresh] at hahead
    cases hahead
  · intro past m move run h hgoes
    exact h.goes run.regular.orderly hgoes

end TickKernel
