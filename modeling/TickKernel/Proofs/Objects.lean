import Mathlib.Logic.Function.Basic
import TickKernel.Proofs.Moves
import TickKernel.Proofs.Queues

/-!
# Mutexes and semaphores of a machine

Owners, values and queues as functions of the object's index, and the attempts on
them as transitions of these functions together with the steps that follow.
-/

namespace TickKernel

namespace Shared

def owner (shared : Shared) (index : Nat) : Option ThreadId :=
  shared.mutexes[index]?.bind Mutex.owner

/-- The threads queued for a mutex, oldest first. -/
def mutexLine (shared : Shared) (index : Nat) : List ThreadId :=
  shared.mutexes[index]?.elim [] Mutex.line

def stock (shared : Shared) (index : Nat) : Option Int32 :=
  shared.semaphores[index]?.map Semaphore.value

/-- The threads queued for a semaphore, oldest first. -/
def semaphoreLine (shared : Shared) (index : Nat) : List ThreadId :=
  shared.semaphores[index]?.elim [] Semaphore.line

structure Sound (shared : Shared) : Prop where
  mutexes : ∀ (index : Nat) (mutex : Mutex), shared.mutexes[index]? = some mutex → mutex.Sound
  semaphores : ∀ (index : Nat) (semaphore : Semaphore),
    shared.semaphores[index]? = some semaphore → semaphore.Sound

def setMutex (shared : Shared) (index : Nat) (mutex : Mutex) : Shared :=
  { shared with mutexes := shared.mutexes.setIfInBounds index mutex }

def setSemaphore (shared : Shared) (index : Nat) (semaphore : Semaphore) : Shared :=
  { shared with semaphores := shared.semaphores.setIfInBounds index semaphore }

variable {shared : Shared} {index : Nat}

theorem sound_new (values : List Int32) (mutexes : Nat) (console : Console) :
    (Shared.new values mutexes console).Sound where
  mutexes index mutex h := by
    have hmem := Array.mem_of_getElem? h
    simp only [Shared.new, Array.mem_replicate] at hmem
    exact hmem.2 ▸ Mutex.sound_new
  semaphores index semaphore h := by
    have hmem := Array.mem_of_getElem? h
    simp only [Shared.new, List.mem_toArray, List.mem_map] at hmem
    obtain ⟨value, -, rfl⟩ := hmem
    exact Semaphore.sound_new value

@[simp]
theorem owner_new (values : List Int32) (mutexes : Nat) (console : Console) (index : Nat) :
    (Shared.new values mutexes console).owner index = none := by
  simp only [owner, Shared.new, Array.getElem?_replicate]
  split <;> rfl

@[simp]
theorem mutexLine_new (values : List Int32) (mutexes : Nat) (console : Console) (index : Nat) :
    (Shared.new values mutexes console).mutexLine index = [] := by
  simp only [mutexLine, Shared.new, Array.getElem?_replicate]
  split <;> rfl

@[simp]
theorem semaphoreLine_new (values : List Int32) (mutexes : Nat) (console : Console)
    (index : Nat) : (Shared.new values mutexes console).semaphoreLine index = [] := by
  simp only [semaphoreLine, Shared.new, List.getElem?_toArray, List.getElem?_map]
  cases values[index]? <;> rfl

theorem semaphoreLine_eq_nil (h : shared.stock index = none) :
    shared.semaphoreLine index = [] := by
  rw [stock, Option.map_eq_none_iff] at h
  rw [semaphoreLine, h]
  rfl

namespace Sound

theorem mutexLine_nodup (h : shared.Sound) (index : Nat) : (shared.mutexLine index).Nodup := by
  unfold mutexLine
  cases hmutex : shared.mutexes[index]? with
  | none => exact List.nodup_nil
  | some mutex => exact (h.mutexes index mutex hmutex).lines.nodup

theorem mutexLine_eq_nil (h : shared.Sound) (hfree : shared.owner index = none) :
    shared.mutexLine index = [] := by
  unfold owner at hfree
  unfold mutexLine
  cases hmutex : shared.mutexes[index]? with
  | none => rfl
  | some mutex =>
      rw [hmutex] at hfree
      exact (h.mutexes index mutex hmutex).line_eq_nil hfree

theorem owner_not_mem (h : shared.Sound) {id : ThreadId}
    (howner : shared.owner index = some id) : id ∉ shared.mutexLine index := by
  unfold owner at howner
  unfold mutexLine
  cases hmutex : shared.mutexes[index]? with
  | none => exact List.not_mem_nil
  | some mutex =>
      rw [hmutex] at howner
      exact (h.mutexes index mutex hmutex).owner_not_mem id howner

theorem semaphoreLine_nodup (h : shared.Sound) (index : Nat) :
    (shared.semaphoreLine index).Nodup := by
  unfold semaphoreLine
  cases hsemaphore : shared.semaphores[index]? with
  | none => exact List.nodup_nil
  | some semaphore => exact (h.semaphores index semaphore hsemaphore).lines.nodup

theorem setMutex (h : shared.Sound) {mutex : Mutex} (hmutex : mutex.Sound) :
    (shared.setMutex index mutex).Sound where
  mutexes other found hfound := by
    simp only [Shared.setMutex, Array.getElem?_setIfInBounds] at hfound
    split at hfound
    · split at hfound
      · obtain rfl := Option.some.inj hfound
        exact hmutex
      · cases hfound
    · exact h.mutexes other found hfound
  semaphores := h.semaphores

theorem setSemaphore (h : shared.Sound) {semaphore : Semaphore} (hsemaphore : semaphore.Sound) :
    (shared.setSemaphore index semaphore).Sound where
  mutexes := h.mutexes
  semaphores other found hfound := by
    simp only [Shared.setSemaphore, Array.getElem?_setIfInBounds] at hfound
    split at hfound
    · split at hfound
      · obtain rfl := Option.some.inj hfound
        exact hsemaphore
      · cases hfound
    · exact h.semaphores other found hfound

end Sound

/-! ## Changing one object -/

theorem owner_setMutex {mutex : Mutex} (hbound : index < shared.mutexes.size) :
    (shared.setMutex index mutex).owner = Function.update shared.owner index mutex.owner := by
  funext other
  by_cases hother : other = index
  · subst hother
    simp [owner, setMutex, hbound]
  · simp [owner, setMutex, Function.update_of_ne hother,
      Array.getElem?_setIfInBounds_ne (Ne.symm hother)]

theorem setMutex_of_getElem? {mutex : Mutex} (h : shared.mutexes[index]? = some mutex) :
    shared.setMutex index mutex = shared := by
  obtain ⟨hbound, rfl⟩ := Array.getElem?_eq_some_iff.1 h
  simp [setMutex, Array.setIfInBounds, hbound]

theorem mutexLine_setMutex {mutex : Mutex} (hbound : index < shared.mutexes.size) :
    (shared.setMutex index mutex).mutexLine =
      Function.update shared.mutexLine index mutex.line := by
  funext other
  by_cases hother : other = index
  · subst hother
    simp [mutexLine, setMutex, hbound]
  · simp [mutexLine, setMutex, Function.update_of_ne hother,
      Array.getElem?_setIfInBounds_ne (Ne.symm hother)]

theorem stock_setSemaphore {semaphore : Semaphore} (hbound : index < shared.semaphores.size) :
    (shared.setSemaphore index semaphore).stock =
      Function.update shared.stock index (some semaphore.value) := by
  funext other
  by_cases hother : other = index
  · subst hother
    simp [stock, setSemaphore, hbound]
  · simp [stock, setSemaphore, Function.update_of_ne hother,
      Array.getElem?_setIfInBounds_ne (Ne.symm hother)]

theorem semaphoreLine_setSemaphore {semaphore : Semaphore}
    (hbound : index < shared.semaphores.size) :
    (shared.setSemaphore index semaphore).semaphoreLine =
      Function.update shared.semaphoreLine index semaphore.line := by
  funext other
  by_cases hother : other = index
  · subst hother
    simp [semaphoreLine, setSemaphore, hbound]
  · simp [semaphoreLine, setSemaphore, Function.update_of_ne hother,
      Array.getElem?_setIfInBounds_ne (Ne.symm hother)]

end Shared

/-! ## Attempts -/

/-- What an attempt on a mutex changes, and the steps that follow it. -/
inductive Shared.Claims (before after : Shared) : Step → List Step → Prop where
  /-- A mutex that does not exist is acquired at once. -/
  | absent {index : Nat} {me : ThreadId} : before.mutexes[index]? = none →
      after.owner = before.owner → after.mutexLine = before.mutexLine →
        Claims before after (.tryAcquire index me)
          ([.free (.mutex index), .unmask, .unmask] ++ Code.done)
  | entered {index : Nat} {me : ThreadId} : before.owner index = none → before.mutexLine index = [] →
      after.owner = Function.update before.owner index (some me) → after.mutexLine = before.mutexLine →
        Claims before after (.tryAcquire index me)
          ([.free (.mutex index), .unmask, .unmask] ++ Code.done)
  | again {index : Nat} {me : ThreadId} : before.owner index = some me →
      after.owner = before.owner → after.mutexLine = before.mutexLine →
        Claims before after (.tryAcquire index me)
          ([.free (.mutex index), .unmask, .unmask] ++ Code.done)
  | barred {index : Nat} {me other : ThreadId} : before.owner index = some other → other ≠ me →
      after.owner = before.owner →
        after.mutexLine = Function.update before.mutexLine index
          (if me ∈ before.mutexLine index then before.mutexLine index else before.mutexLine index ++ [me]) →
          Claims before after (.tryAcquire index me)
            ([.free (.mutex index), .unmask] ++ Code.blockAndRetry (.ownership index))
  | refused {index : Nat} {me : ThreadId} : before.owner index ≠ some me →
      after.mutexes = before.mutexes →
        Claims before after (.tryRelease index me)
          ([.free (.mutex index), .unmask, .unmask] ++ Code.done)
  | freed {index : Nat} {me : ThreadId} : before.owner index = some me → before.mutexLine index = [] →
      after.owner = Function.update before.owner index none → after.mutexLine = before.mutexLine →
        Claims before after (.tryRelease index me)
          ([.free (.mutex index), .unmask, .unmask] ++ Code.done)
  | passed {index : Nat} {me heir : ThreadId} {line : List ThreadId} :
      before.owner index = some me → before.mutexLine index = heir :: line →
        after.owner = Function.update before.owner index (some heir) →
          after.mutexLine = Function.update before.mutexLine index line →
            Claims before after (.tryRelease index me)
              ([.free (.mutex index), .unmask] ++ (Code.wake heir ++ Code.switchTo heir)
                ++ [.unmask] ++ Code.done)

/-- What an attempt on a semaphore changes, and the steps that follow it. -/
inductive Shared.Deals (before after : Shared) : Step → List Step → Prop where
  /-- A semaphore that does not exist has a unit for everybody. -/
  | absent {index : Nat} {me : ThreadId} : before.stock index = none →
      after.stock = before.stock → after.semaphoreLine = before.semaphoreLine →
        Deals before after (.tryTake index me)
          ([.free (.semaphore index), .unmask, .unmask] ++ Code.done)
  | taken {index : Nat} {me : ThreadId} {value : Int32} : before.stock index = some value →
      0 < value → after.stock = Function.update before.stock index (some (value - 1)) →
        after.semaphoreLine = before.semaphoreLine →
          Deals before after (.tryTake index me)
            ([.free (.semaphore index), .unmask, .unmask] ++ Code.done)
  | short {index : Nat} {me : ThreadId} {value : Int32} : before.stock index = some value →
      ¬ 0 < value → after.stock = before.stock →
        after.semaphoreLine = Function.update before.semaphoreLine index
          (if me ∈ before.semaphoreLine index then before.semaphoreLine index
            else before.semaphoreLine index ++ [me]) →
          Deals before after (.tryTake index me)
            ([.free (.semaphore index), .unmask] ++ Code.blockAndRetry (.unit index))
  | lost {index : Nat} {andSwitch : Bool} : before.stock index = none →
      after.stock = before.stock → after.semaphoreLine = before.semaphoreLine →
        Deals before after (.giveBack index andSwitch) [.free (.semaphore index), .unmask]
  | given {index : Nat} {andSwitch : Bool} {value : Int32} : before.stock index = some value →
      before.semaphoreLine index = [] →
        after.stock = Function.update before.stock index (some (Semaphore.bumped value)) →
          after.semaphoreLine = before.semaphoreLine →
            Deals before after (.giveBack index andSwitch) [.free (.semaphore index), .unmask]
  | woken {index : Nat} {andSwitch : Bool} {value : Int32} {id : ThreadId}
      {line : List ThreadId} : before.stock index = some value →
        before.semaphoreLine index = id :: line →
          after.stock = Function.update before.stock index (some (Semaphore.bumped value)) →
            after.semaphoreLine = Function.update before.semaphoreLine index line →
              Deals before after (.giveBack index andSwitch)
                ([.free (.semaphore index), .unmask]
                  ++ (Code.wake id ++ if andSwitch then Code.switchTo id else []))

/-! ## Other objects, and the queue of one object -/

def Step.mutex? : Step → Option Nat
  | .tryAcquire index _ | .tryRelease index _ => some index
  | _ => none

def Step.semaphore? : Step → Option Nat
  | .tryTake index _ | .giveBack index _ => some index
  | _ => none

theorem Step.asksMutex_of_mutex? {step : Step} {index : Nat} (h : step.mutex? = some index) :
    step.asksMutex = true := by
  cases step <;> first | rfl | cases h

theorem Step.asksSemaphore_of_semaphore? {step : Step} {index : Nat}
    (h : step.semaphore? = some index) : step.asksSemaphore = true := by
  cases step <;> first | rfl | cases h

inductive LineMoves (attempt : ThreadId → Step) (step : Step) (pushed : List Step)
    (line : List ThreadId) : List ThreadId → Prop where
  | kept : LineMoves attempt step pushed line line
  | joined (me : ThreadId) : step = attempt me →
      LineMoves attempt step pushed line (if me ∈ line then line else line ++ [me])
  | passed {heir : ThreadId} {others : List ThreadId} : line = heir :: others →
      .wake heir ∈ pushed → LineMoves attempt step pushed line others

namespace LineMoves

variable {attempt : ThreadId → Step} {step : Step} {pushed : List Step} {line after : List ThreadId}
  {id : ThreadId}

theorem mem_before (h : LineMoves attempt step pushed line after) (hmem : id ∈ after) :
    id ∈ line ∨ step = attempt id := by
  cases h with
  | kept => exact .inl hmem
  | joined me hattempt =>
      split at hmem
      · exact .inl hmem
      · rcases List.mem_append.1 hmem with hmem | hmem
        · exact .inl hmem
        · exact .inr (hattempt.trans (by rw [List.mem_singleton.1 hmem]))
  | passed hline => exact .inl (hline ▸ .tail _ hmem)

theorem mem_after (h : LineMoves attempt step pushed line after) (hmem : id ∈ line) :
    id ∈ after ∨ .wake id ∈ pushed := by
  cases h with
  | kept => exact .inl hmem
  | joined me =>
      left
      split
      · exact hmem
      · exact List.mem_append_left _ hmem
  | passed hline hwake =>
      rw [hline] at hmem
      rcases List.mem_cons.1 hmem with rfl | hmem
      · exact .inr hwake
      · exact .inl hmem

end LineMoves

namespace Shared

variable {before after : Shared} {step : Step} {pushed : List Step} {index : Nat}

theorem Claims.other (h : before.Claims after step pushed) (hother : step.mutex? ≠ some index) :
    after.owner index = before.owner index ∧ after.mutexLine index = before.mutexLine index := by
  have hne : ∀ {mutex : Nat}, step.mutex? = some mutex → index ≠ mutex :=
    fun hstep heq => hother (heq ▸ hstep)
  cases h with
  | absent _ hafter hline | again _ hafter hline => exact ⟨by rw [hafter], by rw [hline]⟩
  | refused _ hsame => exact ⟨by rw [owner, owner, hsame], by rw [mutexLine, mutexLine, hsame]⟩
  | entered _ _ hafter hline | freed _ _ hafter hline =>
      exact ⟨by rw [hafter, Function.update_of_ne (hne rfl)], by rw [hline]⟩
  | barred _ _ hafter hline =>
      exact ⟨by rw [hafter], by rw [hline, Function.update_of_ne (hne rfl)]⟩
  | passed _ _ hafter hline =>
      exact ⟨by rw [hafter, Function.update_of_ne (hne rfl)],
        by rw [hline, Function.update_of_ne (hne rfl)]⟩

theorem Deals.other (h : before.Deals after step pushed)
    (hother : step.semaphore? ≠ some index) :
    after.stock index = before.stock index ∧
      after.semaphoreLine index = before.semaphoreLine index := by
  have hne : ∀ {semaphore : Nat}, step.semaphore? = some semaphore → index ≠ semaphore :=
    fun hstep heq => hother (heq ▸ hstep)
  cases h with
  | absent _ hafter hline | lost _ hafter hline => exact ⟨by rw [hafter], by rw [hline]⟩
  | taken _ _ hafter hline | given _ _ hafter hline =>
      exact ⟨by rw [hafter, Function.update_of_ne (hne rfl)], by rw [hline]⟩
  | short _ _ hafter hline =>
      exact ⟨by rw [hafter], by rw [hline, Function.update_of_ne (hne rfl)]⟩
  | woken _ _ hafter hline =>
      exact ⟨by rw [hafter, Function.update_of_ne (hne rfl)],
        by rw [hline, Function.update_of_ne (hne rfl)]⟩

theorem Claims.lineMoves (h : before.Claims after step pushed) (index : Nat) :
    LineMoves (.tryAcquire index) step pushed (before.mutexLine index) (after.mutexLine index) := by
  by_cases hown : step.mutex? = some index
  · cases h with
    | absent _ _ hline | entered _ _ _ hline | again _ _ hline | freed _ _ _ hline =>
        rw [hline]
        exact .kept
    | refused _ hsame =>
        rw [mutexLine, mutexLine, hsame]
        exact .kept
    | barred _ _ _ hline =>
        cases hown
        rw [hline, Function.update_self]
        exact .joined _ rfl
    | passed _ hold _ hline =>
        cases hown
        rw [hline, Function.update_self]
        exact .passed hold (by simp [Code.wake])
  · rw [(h.other hown).2]
    exact .kept

theorem Deals.lineMoves (h : before.Deals after step pushed) (index : Nat) :
    LineMoves (.tryTake index) step pushed (before.semaphoreLine index)
      (after.semaphoreLine index) := by
  by_cases hown : step.semaphore? = some index
  · cases h with
    | absent _ _ hline | taken _ _ _ hline | lost _ _ hline | given _ _ _ hline =>
        rw [hline]
        exact .kept
    | short _ _ _ hline =>
        cases hown
        rw [hline, Function.update_self]
        exact .joined _ rfl
    | woken _ hold _ hline =>
        cases hown
        rw [hline, Function.update_self]
        exact .passed hold (by simp [Code.wake])
  · rw [(h.other hown).2]
    exact .kept

end Shared

namespace Machine

variable {P : Type}

theorem claims_tryAcquire (m : Machine P) (h : m.shared.Sound) (index : Nat) (me : ThreadId) :
    ∃ pushed, m.shared.Claims (m.tryAcquire index me).shared (.tryAcquire index me) pushed ∧
      (m.tryAcquire index me).shared.Sound ∧
      (m.tryAcquire index me).context.code = pushed ++ m.context.code := by
  cases hmutex : m.shared.mutexes[index]? with
  | none =>
      simp only [tryAcquire, hmutex]
      exact ⟨_, .absent hmutex rfl rfl, h, code_push _ _⟩
  | some mutex =>
      have hsound := h.mutexes index mutex hmutex
      have hbound := (Array.getElem?_eq_some_iff.1 hmutex).1
      have howner : m.shared.owner index = mutex.owner := by simp [Shared.owner, hmutex]
      have hline : m.shared.mutexLine index = mutex.line := by simp [Shared.mutexLine, hmutex]
      cases hfound : mutex.owner with
      | none =>
          obtain ⟨after, hacquire, hafter, hafterOwner, hafterLine⟩ :=
            hsound.acquire_of_free me hfound
          simp only [tryAcquire, hmutex, hacquire]
          refine ⟨_, .entered (howner.trans hfound) (hline.trans (hsound.line_eq_nil hfound)) ?_ ?_,
            h.setMutex hafter, code_push _ _⟩
          · exact (Shared.owner_setMutex hbound).trans (by rw [hafterOwner])
          · refine (Shared.mutexLine_setMutex hbound).trans ?_
            rw [hafterLine, ← hsound.line_eq_nil hfound, ← hline, Function.update_eq_self]
      | some other =>
          by_cases hother : other = me
          · subst hother
            have hacquire := hsound.acquire_of_owner hfound
            simp only [tryAcquire, hmutex, hacquire]
            have hsame := Shared.setMutex_of_getElem? hmutex
            refine ⟨_, .again (howner.trans hfound) ?_ ?_, h.setMutex hsound, code_push _ _⟩
            · exact congrArg Shared.owner hsame
            · exact congrArg Shared.mutexLine hsame
          · obtain ⟨after, hacquire, hafter, hafterOwner, hafterLine⟩ :=
              hsound.acquire_of_other hfound hother
            simp only [tryAcquire, hmutex, hacquire]
            refine ⟨_, .barred (howner.trans hfound) hother ?_ ?_, h.setMutex hafter,
              code_push _ _⟩
            · refine (Shared.owner_setMutex hbound).trans ?_
              rw [hafterOwner, ← hfound, ← howner, Function.update_eq_self]
            · refine (Shared.mutexLine_setMutex hbound).trans ?_
              rw [hafterLine, hline]

theorem claims_tryRelease (m : Machine P) (h : m.shared.Sound) (index : Nat) (me : ThreadId) :
    ∃ pushed, m.shared.Claims (m.tryRelease index me).shared (.tryRelease index me) pushed ∧
      (m.tryRelease index me).shared.Sound ∧
      (m.tryRelease index me).context.code = pushed ++ m.context.code := by
  cases hmutex : m.shared.mutexes[index]? with
  | none =>
      have howner : m.shared.owner index ≠ some me := by simp [Shared.owner, hmutex]
      simp only [tryRelease, hmutex, Option.map_none]
      exact ⟨_, .refused howner rfl, h, code_push _ _⟩
  | some mutex =>
      have hsound := h.mutexes index mutex hmutex
      have hbound := (Array.getElem?_eq_some_iff.1 hmutex).1
      have howner : m.shared.owner index = mutex.owner := by simp [Shared.owner, hmutex]
      have hline : m.shared.mutexLine index = mutex.line := by simp [Shared.mutexLine, hmutex]
      by_cases hfound : mutex.owner = some me
      · obtain ⟨after, hrelease, hafter, hafterOwner, hafterLine⟩ := hsound.release_of_owner hfound
        simp only [tryRelease, hmutex, Option.map_some, hrelease]
        cases hwaiting : mutex.line with
        | nil =>
            rw [hwaiting] at hline hafterOwner hafterLine
            refine ⟨_, .freed (howner.trans hfound) hline ?_ ?_, h.setMutex hafter,
              code_push _ _⟩
            · exact (Shared.owner_setMutex hbound).trans (by rw [hafterOwner]; rfl)
            · refine (Shared.mutexLine_setMutex hbound).trans ?_
              rw [hafterLine, List.tail_nil, ← hline, Function.update_eq_self]
        | cons heir line =>
            rw [hwaiting] at hline hafterOwner hafterLine
            refine ⟨_, .passed (howner.trans hfound) hline ?_ ?_, h.setMutex hafter,
              code_push _ _⟩
            · exact (Shared.owner_setMutex hbound).trans (by rw [hafterOwner]; rfl)
            · exact (Shared.mutexLine_setMutex hbound).trans (by rw [hafterLine]; rfl)
      · have hrelease := Mutex.release_of_not_owner hfound
        simp only [tryRelease, hmutex, Option.map_some, hrelease]
        exact ⟨_, .refused (howner ▸ hfound) rfl, h, code_push _ _⟩

theorem deals_tryTake (m : Machine P) (h : m.shared.Sound) (index : Nat) (me : ThreadId) :
    ∃ pushed, m.shared.Deals (m.tryTake index me).shared (.tryTake index me) pushed ∧
      (m.tryTake index me).shared.Sound ∧
      (m.tryTake index me).context.code = pushed ++ m.context.code := by
  cases hsemaphore : m.shared.semaphores[index]? with
  | none =>
      have hstock : m.shared.stock index = none := by simp [Shared.stock, hsemaphore]
      simp only [tryTake, hsemaphore]
      exact ⟨_, .absent hstock rfl rfl, h, code_push _ _⟩
  | some semaphore =>
      have hsound := h.semaphores index semaphore hsemaphore
      have hbound := (Array.getElem?_eq_some_iff.1 hsemaphore).1
      have hstock : m.shared.stock index = some semaphore.value := by
        simp [Shared.stock, hsemaphore]
      have hline : m.shared.semaphoreLine index = semaphore.line := by
        simp [Shared.semaphoreLine, hsemaphore]
      by_cases hvalue : 0 < semaphore.value
      · have htake := Semaphore.take_of_pos me hvalue
        have hafter : Semaphore.Sound ⟨semaphore.value - 1, semaphore.waiters⟩ := ⟨hsound.lines⟩
        simp only [tryTake, hsemaphore, htake]
        refine ⟨_, .taken hstock hvalue ?_ ?_, h.setSemaphore hafter, code_push _ _⟩
        · exact Shared.stock_setSemaphore hbound
        · refine (Shared.semaphoreLine_setSemaphore hbound).trans ?_
          rw [
            show Semaphore.line ⟨semaphore.value - 1, semaphore.waiters⟩ = semaphore.line from rfl,
            ← hline, Function.update_eq_self]
      · obtain ⟨after, htake, hafter, hafterValue, hafterLine⟩ := hsound.take_of_not_pos me hvalue
        simp only [tryTake, hsemaphore, htake]
        refine ⟨_, .short hstock hvalue ?_ ?_, h.setSemaphore hafter, code_push _ _⟩
        · refine (Shared.stock_setSemaphore hbound).trans ?_
          rw [hafterValue, ← hstock, Function.update_eq_self]
        · refine (Shared.semaphoreLine_setSemaphore hbound).trans ?_
          rw [hafterLine, hline]

theorem deals_giveBack (m : Machine P) (h : m.shared.Sound) (index : Nat) (andSwitch : Bool) :
    ∃ pushed, m.shared.Deals (m.giveBack index andSwitch).shared (.giveBack index andSwitch)
        pushed ∧
      (m.giveBack index andSwitch).shared.Sound ∧
      (m.giveBack index andSwitch).context.code = pushed ++ m.context.code := by
  cases hsemaphore : m.shared.semaphores[index]? with
  | none =>
      have hstock : m.shared.stock index = none := by simp [Shared.stock, hsemaphore]
      simp only [giveBack, hsemaphore, Option.map_none]
      exact ⟨_, .lost hstock rfl rfl, h, code_push _ _⟩
  | some semaphore =>
      obtain ⟨hwoken, hafter, hafterLine⟩ := (h.semaphores index semaphore hsemaphore).release
      have hbound := (Array.getElem?_eq_some_iff.1 hsemaphore).1
      have hstock : m.shared.stock index = some semaphore.value := by
        simp [Shared.stock, hsemaphore]
      have hline : m.shared.semaphoreLine index = semaphore.line := by
        simp [Shared.semaphoreLine, hsemaphore]
      simp only [giveBack, hsemaphore, Option.map_some]
      cases hwaiting : semaphore.line with
      | nil =>
          rw [hwaiting] at hline hwoken hafterLine
          rw [hwoken]
          refine ⟨_, .given hstock hline ?_ ?_, h.setSemaphore hafter, code_push _ _⟩
          · exact Shared.stock_setSemaphore hbound
          · refine (Shared.semaphoreLine_setSemaphore hbound).trans ?_
            rw [hafterLine, List.tail_nil, ← hline, Function.update_eq_self]
      | cons id line =>
          rw [hwaiting] at hline hwoken hafterLine
          rw [hwoken]
          refine ⟨_, .woken hstock hline ?_ ?_, h.setSemaphore hafter, code_push _ _⟩
          · exact Shared.stock_setSemaphore hbound
          · exact (Shared.semaphoreLine_setSemaphore hbound).trans (by rw [hafterLine]; rfl)

variable [Backend P] {m after : Machine P} {step : Step} {rest pushed : List Step}

/-- A step that may change a mutex is an attempt on one. -/
theorem Stepped.claims (hstepped : m.Stepped step rest pushed after) (h : m.shared.Sound)
    (hasks : step.asksMutex = true) :
    m.shared.Claims after.shared step pushed ∧ after.shared.Sound := by
  have hafter := hstepped.eq
  have hcode := hstepped.code_after
  have hrest : (m.setCode rest).context.code = rest := by rw [context_setCode]
  cases step <;> try cases hasks
  case tryAcquire index me =>
      obtain ⟨steps, hclaims, hsound, hsteps⟩ := (m.setCode rest).claims_tryAcquire h index me
      subst hafter
      rw [perform, hsteps, hrest] at hcode
      exact ⟨List.append_cancel_right hcode ▸ hclaims, hsound⟩
  case tryRelease index me =>
      obtain ⟨steps, hclaims, hsound, hsteps⟩ := (m.setCode rest).claims_tryRelease h index me
      subst hafter
      rw [perform, hsteps, hrest] at hcode
      exact ⟨List.append_cancel_right hcode ▸ hclaims, hsound⟩

/-- A step that may change a semaphore is an attempt on one, or gives a unit back. -/
theorem Stepped.deals (hstepped : m.Stepped step rest pushed after) (h : m.shared.Sound)
    (hasks : step.asksSemaphore = true) :
    m.shared.Deals after.shared step pushed ∧ after.shared.Sound := by
  have hafter := hstepped.eq
  have hcode := hstepped.code_after
  have hrest : (m.setCode rest).context.code = rest := by rw [context_setCode]
  cases step <;> try cases hasks
  case tryTake index me =>
      obtain ⟨steps, hdeals, hsound, hsteps⟩ := (m.setCode rest).deals_tryTake h index me
      subst hafter
      rw [perform, hsteps, hrest] at hcode
      exact ⟨List.append_cancel_right hcode ▸ hdeals, hsound⟩
  case giveBack index andSwitch =>
      obtain ⟨steps, hdeals, hsound, hsteps⟩ := (m.setCode rest).deals_giveBack h index andSwitch
      subst hafter
      rw [perform, hsteps, hrest] at hcode
      exact ⟨List.append_cancel_right hcode ▸ hdeals, hsound⟩

theorem Stepped.mutexes_size (hstepped : m.Stepped step rest pushed after) :
    after.shared.mutexes.size = m.shared.mutexes.size := by
  cases hasks : step.asksMutex with
  | false => rw [hstepped.effect.mutexes hasks]
  | true =>
      rw [hstepped.eq]
      cases step <;> try cases hasks
      case tryAcquire.refl index me =>
          simp only [perform, tryAcquire]
          split
          · rfl
          · split <;> exact Array.size_setIfInBounds
      case tryRelease.refl index me =>
          simp only [perform, tryRelease]
          split <;> first | rfl | exact Array.size_setIfInBounds

theorem Stepped.semaphores_size (hstepped : m.Stepped step rest pushed after) :
    after.shared.semaphores.size = m.shared.semaphores.size := by
  cases hasks : step.asksSemaphore with
  | false => rw [hstepped.effect.semaphores hasks]
  | true =>
      rw [hstepped.eq]
      cases step <;> try cases hasks
      case tryTake.refl index me =>
          simp only [perform, tryTake]
          split
          · rfl
          · split <;> exact Array.size_setIfInBounds
      case giveBack.refl index andSwitch =>
          simp only [perform, giveBack]
          split <;> first | rfl | exact Array.size_setIfInBounds

theorem Stepped.owner_eq (hstepped : m.Stepped step rest pushed after)
    (hasks : step.asksMutex = false) : after.shared.owner = m.shared.owner := by
  unfold Shared.owner
  rw [hstepped.effect.mutexes hasks]

theorem Stepped.mutexLine_eq (hstepped : m.Stepped step rest pushed after)
    (hasks : step.asksMutex = false) : after.shared.mutexLine = m.shared.mutexLine := by
  unfold Shared.mutexLine
  rw [hstepped.effect.mutexes hasks]

theorem Stepped.stock_eq (hstepped : m.Stepped step rest pushed after)
    (hasks : step.asksSemaphore = false) : after.shared.stock = m.shared.stock := by
  unfold Shared.stock
  rw [hstepped.effect.semaphores hasks]

theorem Stepped.semaphoreLine_eq (hstepped : m.Stepped step rest pushed after)
    (hasks : step.asksSemaphore = false) :
    after.shared.semaphoreLine = m.shared.semaphoreLine := by
  unfold Shared.semaphoreLine
  rw [hstepped.effect.semaphores hasks]

theorem Stepped.mutex_other (hstepped : m.Stepped step rest pushed after) (h : m.shared.Sound)
    {index : Nat} (hother : step.mutex? ≠ some index) :
    after.shared.owner index = m.shared.owner index ∧
      after.shared.mutexLine index = m.shared.mutexLine index := by
  cases hasks : step.asksMutex with
  | true => exact (hstepped.claims h hasks).1.other hother
  | false => exact ⟨by rw [hstepped.owner_eq hasks], by rw [hstepped.mutexLine_eq hasks]⟩

theorem Stepped.semaphore_other (hstepped : m.Stepped step rest pushed after) (h : m.shared.Sound)
    {index : Nat} (hother : step.semaphore? ≠ some index) :
    after.shared.stock index = m.shared.stock index ∧
      after.shared.semaphoreLine index = m.shared.semaphoreLine index := by
  cases hasks : step.asksSemaphore with
  | true => exact (hstepped.deals h hasks).1.other hother
  | false => exact ⟨by rw [hstepped.stock_eq hasks], by rw [hstepped.semaphoreLine_eq hasks]⟩

theorem Stepped.mutexLine_moves (hstepped : m.Stepped step rest pushed after)
    (h : m.shared.Sound) (index : Nat) :
    LineMoves (.tryAcquire index) step pushed (m.shared.mutexLine index)
      (after.shared.mutexLine index) := by
  cases hasks : step.asksMutex with
  | true => exact (hstepped.claims h hasks).1.lineMoves index
  | false =>
      rw [hstepped.mutexLine_eq hasks]
      exact .kept

theorem Stepped.semaphoreLine_moves (hstepped : m.Stepped step rest pushed after)
    (h : m.shared.Sound) (index : Nat) :
    LineMoves (.tryTake index) step pushed (m.shared.semaphoreLine index)
      (after.shared.semaphoreLine index) := by
  cases hasks : step.asksSemaphore with
  | true => exact (hstepped.deals h hasks).1.lineMoves index
  | false =>
      rw [hstepped.semaphoreLine_eq hasks]
      exact .kept

theorem semaphores_size_of_goes {move : Move} (hgoes : m.Goes move after) :
    after.shared.semaphores.size = m.shared.semaphores.size := by
  cases hgoes with
  | spin | call | interrupt => rfl
  | step hstepped => exact hstepped.semaphores_size
  | switch hcode hswitched => rw [hswitched.shared]; rfl

/-- Objects are sound as long as they are used through attempts only. -/
theorem sound_of_goes {move : Move} (h : m.shared.Sound) (hgoes : m.Goes move after) :
    after.shared.Sound := by
  cases hgoes with
  | spin => exact h
  | call => exact h
  | interrupt => exact h
  | switch hcode hswitched =>
      rw [hswitched.shared]
      exact h
  | @step step rest pushed _ hstepped =>
      cases hmutex : step.asksMutex with
      | true => exact (hstepped.claims h hmutex).2
      | false =>
          cases hsemaphore : step.asksSemaphore with
          | true => exact (hstepped.deals h hsemaphore).2
          | false =>
              have hmutexes := hstepped.effect.mutexes hmutex
              have hsemaphores := hstepped.effect.semaphores hsemaphore
              exact ⟨hmutexes ▸ h.mutexes, hsemaphores ▸ h.semaphores⟩

end Machine

end TickKernel
