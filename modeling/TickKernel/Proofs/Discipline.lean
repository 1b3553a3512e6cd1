import TickKernel.Proofs.Moves
import TickKernel.Proofs.Provenance

/-!
# Where the steps stand

Every elementary step is reached with one number of live guards and one stack of
spin locks, whatever operation it belongs to.  `Disciplined` types the remaining
steps of a thread by that, and says what may follow a step; `Disciplined.expand`
shows that a step keeps the type of the steps after it.
-/

namespace TickKernel

attribute [simp] Code.print Code.printLine Code.identify Code.countThreads Code.choose
  Code.reschedule Code.switchTo Code.block Code.wake Code.tick Code.giveBack
  Code.blockAndRetry Code.done Code.create

/-- Live interrupt guards and spin locks held, the newest first. -/
structure Cover where
  guards : Nat
  held : List SpinLock
  deriving DecidableEq, Repr

def Context.cover (context : Context) : Cover :=
  ⟨context.masking.guards.length, context.held⟩

namespace Step

/-- The cover of a step that is always reached with the same one. -/
@[simp]
def cover? : Step → Option Cover
  | .finish _ | .enter _ | .retry _ | .setDeadline _ | .pack _ _ _ _ | .claimStart
  | .discard _ | .leaveBody | .setFlag _ | .resume => some ⟨0, []⟩
  | .armTimer | .withdrawStart | .routeTicks | .checkDeadline _ | .countTick => some ⟨1, []⟩
  | .identify .answer | .countThreads .answer | .choose .answer | .checkTarget _ | .describe _
  | .snapshot _ | .checkRoom _ | .allocate _ | .writeFrame _ _ | .enroll _ _
  | .savePointer _ _ | .block | .doze _ | .countDown | .closeInterval => some ⟨1, [.table]⟩
  | .identify _ | .countThreads _ | .choose _ | .dispatch _ | .wake _ => some ⟨2, [.table]⟩
  | .switch _ _ => some ⟨2, []⟩
  | .tryAcquire index _ | .tryRelease index _ => some ⟨2, [.mutex index]⟩
  | .tryTake index _ | .giveBack index _ => some ⟨2, [.semaphore index]⟩
  | .inspect query => some ⟨1, [query.lock]⟩
  | .install _ | .remove => some ⟨1, [.console]⟩
  | .mask | .unmask | .take _ | .free _ | .print _ => none

@[simp]
def Stands (cover : Cover) : Step → Prop
  | .mask => True
  | .unmask => 0 < cover.guards
  | .take lock => 0 < cover.guards ∧ lock ∉ cover.held
  | .free lock => cover.held.head? = some lock
  | .print _ => 0 < cover.guards ∧ cover.held.head? = some .console
  | step => step.cover? = some cover

@[simp]
def coverAfter (cover : Cover) : Step → Cover
  | .mask => ⟨cover.guards + 1, cover.held⟩
  | .unmask => ⟨cover.guards - 1, cover.held⟩
  | .take lock => ⟨cover.guards, lock :: cover.held⟩
  | .free lock => ⟨cover.guards, cover.held.erase lock⟩
  | _ => cover

@[simp]
def isLast : Step → Bool
  | .finish _ | .enter _ | .retry _ | .setDeadline _ | .pack _ _ _ _ | .claimStart
  | .armTimer | .checkDeadline _ | .identify _ | .countThreads _ | .choose .answer
  | .checkTarget _ | .describe _ | .snapshot _ | .checkRoom _ | .allocate _ | .writeFrame _ _
  | .enroll _ _ | .tryAcquire _ _ | .tryRelease _ _ | .tryTake _ _ | .inspect _ | .install _
  | .remove => true
  | _ => false

def coverBehind (cover : Cover) (step : Step) : Cover :=
  if step.isLast then ⟨0, []⟩
  else
    match step with
    | .choose _ | .dispatch _ | .giveBack _ _ => ⟨1, []⟩
    | .countTick => ⟨0, []⟩
    | step => step.coverAfter cover

/-- Steps of which none is left when the thread is interrupted or switched away from. -/
@[simp]
def isUrgent : Step → Bool
  | .wake _ | .dispatch _ | .switch _ _ | .doze _ | .countDown => true
  | _ => false

end Step

/--
Steps with which a thread may be interrupted or switched away from: nothing urgent,
and no block but that of a thread that parks.
-/
def Calm (code : List Step) : Prop :=
  (∀ step ∈ code, step.isUrgent = false) ∧
    (.block ∈ code → code.getLast? = some (.retry .forever))

/-- The steps that follow when a thread has blocked. -/
def Code.yieldUp : List Step :=
  .free .table :: Code.reschedule

def Step.Fits (rest : List Step) (step : Step) : Prop :=
  if step.isLast then rest = []
  else
    match step with
    | .mask | .unmask | .take _ | .free _ => True
    | .wake id => (∀ step ∈ rest, step.isUrgent = true → step = .dispatch id) ∧ .block ∉ rest
    | .block | .doze _ | .closeInterval => Calm rest ∧ Code.yieldUp <+: rest
    | .countDown =>
        Calm rest ∧ (Code.yieldUp <+: rest ∨ .closeInterval :: Code.yieldUp <+: rest)
    | .giveBack _ _ => rest = .unmask :: Code.done
    | .setFlag _ => rest = Code.done ∨ ∃ call, rest = [.enter call]
    | .resume => Calm rest ∧ .resume ∉ rest
    | _ => Calm rest

/--
What a thread without guards may hold: nothing, or the table lock for the one step
that is left of telling who the caller is or how many threads there are.  If a tick
has `struck` just there, its service begins without a guard and with the lock.
-/
def Bare (struck : Prop) (held : List SpinLock) (code : List Step) : Prop :=
  held = [] ∨
    held = [.table] ∧
      ((∃ reply, code = [.free .table, .finish reply]) ∨
        struck ∧ ∃ rest, code = .mask :: .countTick :: .resume :: rest)

/-- Steps that lead a thread to a lock that it holds itself. -/
def Step.IsDead (cover : Cover) : Step → Prop
  | .take lock => lock = .table ∧ cover = ⟨1, [.table]⟩
  | .countTick => cover = ⟨1, [.table]⟩
  | _ => False

/-- The remaining steps of a thread are in order from this cover on, up to a dead end. -/
def Disciplined (struck : Prop) (cover : Cover) : List Step → Prop
  | [] => cover = ⟨0, []⟩
  | step :: rest =>
      (cover.guards = 0 → Calm (step :: rest) ∧ Bare struck cover.held (step :: rest)) ∧
        step.Fits rest ∧
          (struck ∧ step.IsDead cover ∨
            step.Stands cover ∧ Disciplined struck (step.coverBehind cover) rest)

theorem Disciplined.mono {struck later : Prop} (himp : struck → later) {cover : Cover}
    {code : List Step} (h : Disciplined struck cover code) : Disciplined later cover code := by
  induction code generalizing cover with
  | nil => exact h
  | cons step rest ih =>
      obtain ⟨hbare, hfits, hstands⟩ := h
      refine ⟨fun hguards => ?_, hfits, ?_⟩
      · obtain ⟨hcalm, hheld⟩ := hbare hguards
        exact ⟨hcalm, hheld.imp_right fun h => ⟨h.1, h.2.imp_right fun h => ⟨himp h.1, h.2⟩⟩⟩
      · exact hstands.imp (fun h => ⟨himp h.1, h.2⟩) fun h => ⟨h.1, ih h.2⟩

@[simp]
theorem calm_nil : Calm [] :=
  ⟨nofun, nofun⟩

@[simp]
theorem calm_cons {step : Step} {rest : List Step} (hblock : step ≠ .block) :
    Calm (step :: rest) ↔ step.isUrgent = false ∧ Calm rest := by
  have hlast : .block ∈ rest → (step :: rest).getLast? = rest.getLast? := fun hmem =>
    List.getLast?_cons_of_ne_nil (List.ne_nil_of_mem hmem)
  constructor
  · intro h
    refine ⟨h.1 step List.mem_cons_self, fun other hmem => h.1 other (.tail step hmem), ?_⟩
    intro hmem
    rw [← hlast hmem]
    exact h.2 (.tail step hmem)
  · intro h
    refine ⟨fun other hmem => ?_, fun hmem => ?_⟩
    · rcases List.mem_cons.1 hmem with rfl | hmem
      · exact h.1
      · exact h.2.1 other hmem
    · have hrest : .block ∈ rest := (List.mem_cons.1 hmem).resolve_left hblock.symm
      rw [hlast hrest]
      exact h.2.2 hrest

/-! ## Steps keep the discipline -/

variable {struck : Prop}

theorem disciplined_request (request : Request) : Disciplined struck ⟨0, []⟩ request.code := by
  cases request
  case sleep ticks =>
      simp only [Request.code]
      split <;> simp [Disciplined, Step.Fits, Step.IsDead, Step.coverBehind, Bare]
  all_goals
    simp [Request.code, Disciplined, Step.Fits, Step.IsDead, Step.coverBehind, Bare]

theorem calm_launchCode (call : Option EntryCall) : Calm ((call.map launchCode).getD []) := by
  cases call <;> simp [launchCode]

theorem disciplined_launchCode (call : EntryCall) :
    Disciplined struck ⟨0, []⟩ (launchCode call) := by
  simp [launchCode, Disciplined, Step.Fits, Step.IsDead, Step.coverBehind, Bare]

theorem disciplined_attempt (call : Blocking) :
    Disciplined struck ⟨0, []⟩ (Code.attempt call) := by
  have hpark : Calm (Code.block.tail ++ Code.reschedule ++ [.unmask, .retry .forever]) := by
    simp [Calm]
  cases call <;>
    simp_all [Code.attempt, Code.yieldUp, Disciplined, Step.Fits, Step.IsDead, Step.coverBehind,
      Bare]

theorem calm_refuse (creation : Creation) (cause : Failure) :
    Calm (Code.refuse creation cause) := by
  cases h : creation.packet <;> simp [Code.refuse, h]

theorem disciplined_refuse (creation : Creation) (cause : Failure) :
    Disciplined struck ⟨1, [.table]⟩ (Code.refuse creation cause) := by
  cases h : creation.packet <;>
    simp [Code.refuse, h, Disciplined, Step.Fits, Step.IsDead, Step.coverBehind, Bare]

namespace Disciplined

variable {P : Type} {kernel : Kernel P} {cover : Cover} {step : Step} {rest pushed : List Step}

theorem unguarded {held : List SpinLock} {code : List Step}
    (h : Disciplined struck ⟨0, held⟩ code) : Calm code ∧ Bare struck held code := by
  cases code with
  | nil => exact ⟨calm_nil, .inl (congrArg Cover.held h)⟩
  | cons step rest => exact h.1 rfl

theorem expand_of_isDead (hstruck : struck) (h : step.IsDead cover)
    (hlock : ∀ lock ∈ cover.held, step ≠ .take lock) (hexpands : kernel.Expands step pushed) :
    Disciplined struck (step.coverAfter cover) (pushed ++ rest) := by
  cases step <;> simp only [Step.IsDead] at h
  case take lock =>
      obtain ⟨rfl, rfl⟩ := h
      exact absurd rfl (hlock .table List.mem_cons_self)
  case countTick =>
      subst h
      cases hexpands
      case nothing h => cases h
      case answer h => cases h
      case tick due h => simp [Disciplined, Step.Fits, Step.IsDead, hstruck]

/-- What a step puts in front of the steps after it stands under the cover that it leaves. -/
theorem expand (h : Disciplined struck cover (step :: rest))
    (hlock : ∀ lock ∈ cover.held, step ≠ .take lock) (hexpands : kernel.Expands step pushed) :
    Disciplined struck (step.coverAfter cover) (pushed ++ rest) := by
  obtain ⟨-, hfits, ⟨hstruck, hdead⟩ | ⟨hstands, hrest⟩⟩ := h
  · exact expand_of_isDead hstruck hdead hlock hexpands
  cases hexpands
  case nothing hplain =>
      cases step
      case finish | enter =>
          obtain rfl : rest = [] := hfits
          obtain rfl := Option.some.inj hstands
          rfl
      all_goals first | exact hrest | cases hplain
  case choice | stay | leave =>
      have hcalm : Calm rest := hfits
      obtain rfl := Option.some.inj hstands
      simpa [Disciplined, Step.Fits, Step.IsDead, Step.coverBehind, hcalm] using hrest
  case tick due hdue =>
      have hcalm : Calm rest := hfits
      obtain rfl := Option.some.inj hstands
      rcases hdue with rfl | rfl
      all_goals
        simpa [Code.yieldUp, Disciplined, Step.Fits, Step.IsDead, Step.coverBehind, hcalm]
          using hrest
  case given | woken | handed =>
      obtain rfl : rest = .unmask :: Code.done := hfits
      obtain rfl := Option.some.inj hstands
      simp [Disciplined, Step.Fits, Step.IsDead, Step.coverBehind, Bare]
  -- every other step is the last one of its code
  case retry call =>
      obtain rfl : rest = [] := hfits
      obtain rfl := Option.some.inj hstands
      simpa using disciplined_attempt call
  case answer reply h =>
      unfold Step.asksUnder at h
      split at h <;> simp only [Option.some.injEq, reduceCtorEq] at h
      all_goals
        subst h
        obtain rfl : rest = [] := hfits
        obtain rfl := Option.some.inj hstands
        simp [Disciplined, Step.Fits, Step.IsDead, Step.coverBehind, Bare]
  case noStack creation cause | noSlot creation stack cause =>
      obtain rfl : rest = [] := hfits
      obtain rfl := Option.some.inj hstands
      simpa using disciplined_refuse creation cause
  case noRoom creation text cause =>
      obtain rfl : rest = [] := hfits
      obtain rfl := Option.some.inj hstands
      simp [Disciplined, Step.Fits, Step.IsDead, Step.coverBehind, calm_refuse,
        disciplined_refuse creation cause]
  all_goals
    obtain rfl : rest = [] := hfits
    obtain rfl := Option.some.inj hstands
    simp [Code.yieldUp, Disciplined, Step.Fits, Step.IsDead, Step.coverBehind, Bare]

end Disciplined

theorem Request.calm_code (request : Request) : Calm request.code :=
  (@disciplined_request False request).unguarded.1

/-! ## Flags and guards -/

namespace Masking

/-- Interrupts are masked under a guard, so only the oldest can have found them enabled. -/
structure Nested (masking : Masking) : Prop where
  masked : masking.guards ≠ [] → masking.enabled = false
  inner : ∀ saved ∈ masking.guards.dropLast, saved = false

/-- Interrupts are masked, and were when each of the guards was acquired. -/
structure Closed (masking : Masking) : Prop where
  masked : masking.enabled = false
  saved : ∀ saved ∈ masking.guards, saved = false

theorem Nested.acquire {masking : Masking} (h : masking.Nested) : masking.acquire.Nested := by
  refine ⟨fun _ => rfl, ?_⟩
  intro saved hmem
  cases hguards : masking.guards with
  | nil => simp [hguards] at hmem
  | cons newest older =>
      rw [guards_acquire, hguards, List.dropLast_cons_of_ne_nil (List.cons_ne_nil _ _),
        ← hguards] at hmem
      rcases List.mem_cons.1 hmem with rfl | hmem
      · exact h.masked (by simp [hguards])
      · exact h.inner saved hmem

theorem Nested.dropNewest {masking : Masking} (h : masking.Nested) :
    masking.dropNewest.Nested := by
  cases hguards : masking.guards with
  | nil => simpa [Masking.dropNewest, dropAt, hguards] using h
  | cons newest older =>
      have hmasked : masking.enabled = false := h.masked (by simp [hguards])
      have hinner := h.inner
      simp only [Masking.dropNewest, dropAt, hguards, List.getElem?_cons_zero, restored, hmasked,
        Bool.or_false, List.eraseIdx_zero, List.tail_cons]
      refine ⟨fun hne => ?_, fun saved hmem => ?_⟩
      · exact hinner newest (by rw [hguards, List.dropLast_cons_of_ne_nil hne]; simp)
      · refine hinner saved ?_
        rw [hguards, List.dropLast_cons_of_ne_nil (by rintro rfl; simp at hmem)]
        exact .tail _ hmem

theorem nested_of_unguarded {masking : Masking} (h : masking.guards = []) : masking.Nested :=
  ⟨fun hne => absurd h hne, by simp [h]⟩

theorem Closed.acquire {masking : Masking} (h : masking.Closed) : masking.acquire.Closed := by
  refine ⟨rfl, fun saved hmem => ?_⟩
  rcases List.mem_cons.1 hmem with rfl | hmem
  · exact h.masked
  · exact h.saved saved hmem

theorem Closed.dropNewest {masking : Masking} (h : masking.Closed) :
    masking.dropNewest.Closed := by
  cases hguards : masking.guards with
  | nil => simpa [Masking.dropNewest, dropAt, hguards] using h
  | cons newest older =>
      have hsaved := h.saved
      rw [hguards] at hsaved
      simp only [Masking.dropNewest, dropAt, hguards, List.getElem?_cons_zero, restored, h.masked,
        Bool.or_false, List.eraseIdx_zero, List.tail_cons]
      exact ⟨hsaved newest List.mem_cons_self, fun saved hmem => hsaved saved (.tail _ hmem)⟩

end Masking

/-- Guards are nested, and while an interrupt is served none of them enables interrupts. -/
structure Context.Nested (context : Context) : Prop where
  masking : context.masking.Nested
  serving : .resume ∈ context.code → context.masking.Closed

theorem Kernel.Expands.resume_not_mem {kernel : Kernel P} {step : Step} {pushed : List Step}
    (h : kernel.Expands step pushed) : .resume ∉ pushed :=
  fun hmem => Bool.noConfusion (h.leadsTo hmem)

theorem Request.resume_not_mem (request : Request) : .resume ∉ request.code :=
  fun hmem => Bool.noConfusion (request.isAskedFor_code hmem)

namespace Machine

variable [Backend P] {m after : Machine P} {step : Step} {rest pushed : List Step}

theorem Effect.cover (h : m.Effect step after) :
    after.context.cover = step.coverAfter m.context.cover := by
  simp only [Context.cover, h.masking, h.held]
  cases step <;> try rfl
  case unmask =>
      simp only [Step.maskingAfter, Masking.dropNewest, Masking.dropAt]
      cases hguards : m.context.masking.guards <;> simp [Step.heldAfter, hguards]

theorem guards_eq_nil {context : Context} (h : context.cover = ⟨0, []⟩) :
    context.masking.guards = [] :=
  List.eq_nil_of_length_eq_zero (congrArg Cover.guards h)

theorem Effect.nested (h : m.Effect step after) (hnested : m.context.Nested)
    (hcode : m.context.code = step :: rest) (hafter : after.context.code = pushed ++ rest)
    (hpushed : .resume ∉ pushed)
    (hdisciplined : Disciplined struck m.context.cover m.context.code) :
    after.context.Nested := by
  have hrest : .resume ∈ after.context.code → .resume ∈ rest := by
    rw [hafter]
    exact fun hmem => (List.mem_append.1 hmem).resolve_left hpushed
  have hclosed : .resume ∈ after.context.code → m.context.masking.Closed := by
    intro hmem
    refine hnested.serving ?_
    rw [hcode]
    exact .tail _ (hrest hmem)
  rw [hcode] at hdisciplined
  obtain ⟨-, hfits, hstands⟩ := hdisciplined
  have hmasking := h.masking
  cases step
  case mask =>
      rw [Step.maskingAfter] at hmasking
      exact ⟨hmasking ▸ hnested.masking.acquire, fun hmem => hmasking ▸ (hclosed hmem).acquire⟩
  case unmask =>
      rw [Step.maskingAfter] at hmasking
      exact ⟨hmasking ▸ hnested.masking.dropNewest,
        fun hmem => hmasking ▸ (hclosed hmem).dropNewest⟩
  case setFlag flag =>
      have hnone : m.context.masking.guards = [] :=
        guards_eq_nil (Option.some.inj (hstands.resolve_left And.right).1).symm
      rw [Step.maskingAfter] at hmasking
      refine ⟨hmasking ▸ Masking.nested_of_unguarded hnone, fun hmem => ?_⟩
      rcases hfits with rfl | ⟨call, rfl⟩ <;> exact absurd (hrest hmem) (by simp)
  case resume =>
      have hnone : m.context.masking.guards = [] :=
        guards_eq_nil (Option.some.inj (hstands.resolve_left And.right).1).symm
      rw [Step.maskingAfter] at hmasking
      exact ⟨hmasking ▸ Masking.nested_of_unguarded hnone, fun hmem => absurd (hrest hmem) hfits.2⟩
  all_goals exact ⟨hmasking ▸ hnested.masking, fun hmem => hmasking ▸ hclosed hmem⟩

end Machine

end TickKernel
