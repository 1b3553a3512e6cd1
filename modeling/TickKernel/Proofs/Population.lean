import TickKernel.Proofs.Requests

/-!
# Only threads that exist are named

The current thread, the executing one, whoever is queued and whoever is about to be
dispatched have a slot in the table, under every policy that keeps its contract.
-/

namespace TickKernel

/-! ## The table grows -/

theorem ThreadTable.contains_of_count_le {table after : ThreadTable} {id : ThreadId}
    (hcount : table.count ≤ after.count) (h : table.contains id = true) :
    after.contains id = true := by
  simp only [contains, Bool.or_eq_true, decide_eq_true_eq] at h ⊢
  exact h.imp_right fun hlt => Nat.lt_of_lt_of_le hlt hcount

theorem ThreadTable.count_wake (table : ThreadTable) (id : ThreadId) :
    (table.wake id).count = table.count := by
  unfold wake
  split <;> rfl

theorem Step.count_le_tableAfter (step : Step) (table : ThreadTable) :
    table.count ≤ (step.tableAfter table).count := by
  cases step
  case dispatch target => exact (table.count_dispatch target).ge
  case wake id => exact (table.count_wake id).ge
  case enroll creation stack =>
      simp only [tableAfter]
      cases hinsert : table.insert
        (ControlBlock.created · creation.name creation.call.entry stack) with
      | none => exact Nat.le_refl _
      | some entered =>
          have hcount := (ThreadTable.count_of_insert hinsert).2
          simp only [Option.map_some, Option.getD_some, hcount]
          omega
  all_goals exact Nat.le_refl _

theorem Step.contains_tableAfter {step : Step} {table : ThreadTable} {id : ThreadId}
    (h : table.contains id = true) : (step.tableAfter table).contains id = true :=
  ThreadTable.contains_of_count_le (step.count_le_tableAfter table) h

namespace Policy.Sound

variable {P : Type} {kernel : Kernel P}

theorem contains_choice (h : kernel.policy.Sound)
    (hcurrent : kernel.table.contains kernel.table.current = true) :
    kernel.table.contains kernel.choice = true := by
  rcases h kernel.shown kernel.table with ⟨hcontains, -⟩ | ⟨hchoice, -⟩ | hchoice
  · exact hcontains
  · rw [Kernel.choice, hchoice]
    exact hcurrent
  · rw [Kernel.choice, hchoice]
    exact kernel.table.contains_idle

/-- The policy chooses no blocked thread, unless it falls back to the idle thread. -/
theorem choice_eq_idle (h : kernel.policy.Sound)
    (hblocked : (kernel.table.state kernel.choice).isBlocked = true) :
    kernel.choice = ThreadId.idle := by
  rcases h kernel.shown kernel.table with ⟨-, hready⟩ | ⟨hchoice, hrunning⟩ | hchoice
  · rw [Kernel.choice, hready] at hblocked
    cases hblocked
  · rw [Kernel.choice, hchoice, hrunning] at hblocked
    cases hblocked
  · exact hchoice

end Policy.Sound

/-! ## Who is queued, woken and dispatched -/

/-- The thread that a step wakes or dispatches. -/
def Step.names : Step → Option ThreadId
  | .wake id | .dispatch id => some id
  | _ => none

def Code.names (code : List Step) : List ThreadId :=
  code.filterMap Step.names

theorem Code.mem_names {code : List Step} {id : ThreadId} :
    id ∈ Code.names code ↔ .wake id ∈ code ∨ .dispatch id ∈ code := by
  rw [names, List.mem_filterMap]
  constructor
  · rintro ⟨step, hmem, hnames⟩
    cases step
    case wake => exact .inl (Option.some.inj hnames ▸ hmem)
    case dispatch => exact .inr (Option.some.inj hnames ▸ hmem)
    all_goals cases hnames
  · rintro (hmem | hmem)
    · exact ⟨_, hmem, rfl⟩
    · exact ⟨_, hmem, rfl⟩

theorem Calm.names_eq_nil {code : List Step} (h : Calm code) : Code.names code = [] := by
  rw [List.eq_nil_iff_forall_not_mem]
  intro id hmem
  rcases Code.mem_names.1 hmem with hwake | hdispatch
  · exact Bool.noConfusion (h.1 _ hwake)
  · exact Bool.noConfusion (h.1 _ hdispatch)

namespace Shared

variable {before after : Shared} {step : Step} {pushed : List Step} {index : Nat} {id : ThreadId}

theorem Claims.mem_names (h : before.Claims after step pushed) (hmem : id ∈ Code.names pushed) :
    ∃ index, id ∈ before.mutexLine index := by
  cases h
  case passed mutex me heir line howner hold hafter hline =>
      have hid : id ∈ [heir, heir] := hmem
      obtain rfl : id = heir := by simpa using hid
      exact ⟨mutex, hold ▸ List.mem_cons_self⟩
  all_goals exact absurd (show id ∈ [] from hmem) List.not_mem_nil

theorem Deals.mem_names (h : before.Deals after step pushed) (hmem : id ∈ Code.names pushed) :
    ∃ index, id ∈ before.semaphoreLine index := by
  cases h
  case woken semaphore andSwitch value heir line hstock hold hafter hline =>
      have hid : id ∈ heir :: if andSwitch then [heir] else [] := by
        cases andSwitch <;> exact hmem
      obtain rfl : id = heir := by
        cases andSwitch <;> simpa using hid
      exact ⟨semaphore, hold ▸ List.mem_cons_self⟩
  all_goals exact absurd (show id ∈ [] from hmem) List.not_mem_nil

end Shared

/-- Other steps name the policy's choice, or a thread that was found to exist. -/
theorem Kernel.Expands.mem_names {P : Type} {kernel : Kernel P} {step : Step}
    {pushed : List Step} {id : ThreadId} (h : kernel.Expands step pushed)
    (hmutex : step.asksMutex = false) (hsemaphore : step.asksSemaphore = false)
    (hmem : id ∈ Code.names pushed) :
    step = .choose .dispatch ∧ id = kernel.choice ∨
      step = .checkTarget id ∧ kernel.table.contains id = true := by
  cases h
  case choice => exact .inl ⟨rfl, List.mem_singleton.1 hmem⟩
  case target target hcontains =>
      obtain rfl : id = target := List.mem_singleton.1 hmem
      exact .inr ⟨rfl, hcontains⟩
  case tick due hdue =>
      rcases hdue with rfl | rfl
      all_goals exact absurd (show id ∈ [] from hmem) List.not_mem_nil
  case retry call =>
      cases call
      all_goals exact absurd (show id ∈ [] from hmem) List.not_mem_nil
  case noRoom creation _ _ | noStack creation _ | noSlot creation _ _ =>
      unfold Code.refuse at hmem
      cases hpacket : creation.packet
      all_goals
        rw [hpacket] at hmem
        exact absurd (show id ∈ [] from hmem) List.not_mem_nil
  case passed => cases hmutex
  case woken | handed => cases hsemaphore
  all_goals exact absurd (show id ∈ [] from hmem) List.not_mem_nil

namespace Machine

variable {P : Type}

/-- The threads that a machine names exist. -/
structure Populated (m : Machine P) : Prop where
  sound : m.kernel.policy.Sound
  current : m.kernel.table.contains m.kernel.table.current = true
  executing : m.kernel.table.contains m.executing = true
  mutexLine : ∀ (index : Nat) (id : ThreadId), id ∈ m.shared.mutexLine index →
    m.kernel.table.contains id = true
  semaphoreLine : ∀ (index : Nat) (id : ThreadId), id ∈ m.shared.semaphoreLine index →
    m.kernel.table.contains id = true
  named : ∀ id ∈ Code.names m.context.code,
    m.kernel.table.contains id = true

variable [Backend P] {struck : Prop} {m after : Machine P} {step : Step} {rest pushed : List Step}

namespace Populated

omit [Backend P] in
theorem fresh (config : Config) {policy : Policy} (hpolicy : policy.Sound) (cpu : P)
    (values : List Int32) (mutexes : Nat) (console : Console) :
    (fresh config policy cpu values mutexes console).Populated where
  sound := hpolicy
  current := rfl
  executing := rfl
  mutexLine index id hmem := by
    rw [show (Machine.fresh config policy cpu values mutexes console).shared =
      Shared.new values mutexes console from rfl, Shared.mutexLine_new] at hmem
    cases hmem
  semaphoreLine index id hmem := by
    rw [show (Machine.fresh config policy cpu values mutexes console).shared =
      Shared.new values mutexes console from rfl, Shared.semaphoreLine_new] at hmem
    cases hmem
  named id hmem := by simp [Code.names] at hmem

/-- A step has nobody woken or dispatched but threads that exist. -/
theorem contains_of_names (h : m.Populated) (hobjects : m.shared.Sound)
    (hstepped : m.Stepped step rest pushed after) {id : ThreadId} (hid : id ∈ Code.names pushed) :
    m.kernel.table.contains id = true := by
  cases hmutex : step.asksMutex with
  | true =>
      obtain ⟨index, hline⟩ := (hstepped.claims hobjects hmutex).1.mem_names hid
      exact h.mutexLine index id hline
  | false =>
      cases hsemaphore : step.asksSemaphore with
      | true =>
          obtain ⟨index, hline⟩ := (hstepped.deals hobjects hsemaphore).1.mem_names hid
          exact h.semaphoreLine index id hline
      | false =>
          rcases hstepped.expands.mem_names hmutex hsemaphore hid with ⟨-, rfl⟩ | ⟨-, hcontains⟩
          · exact h.sound.contains_choice h.current
          · exact hcontains

theorem perform {past : List (Transition P)} [LawfulBackend P] (h : m.Populated)
    (hobjects : m.shared.Sound) (hemployed : m.Employed past)
    (hstepped : m.Stepped step rest pushed after) : after.Populated := by
  have heffect := hstepped.effect
  have hgrows : ∀ {id : ThreadId}, m.kernel.table.contains id = true →
      after.kernel.table.contains id = true := by
    intro id hid
    rw [heffect.table]
    exact Step.contains_tableAfter hid
  have hmem : step ∈ m.context.code := by
    rw [hstepped.code]
    exact List.mem_cons_self
  have hserves := hemployed.serves m.executing step hmem
  constructor
  · rw [heffect.policy]
    exact h.sound
  · by_cases hstays : ∀ target, step = .dispatch target → m.kernel.table.current = target
    · rw [heffect.table, Step.current_tableAfter hstays]
      exact Step.contains_tableAfter h.current
    · push Not at hstays
      obtain ⟨target, rfl, -⟩ := hstays
      have hcurrent : after.kernel.table.current = target := by
        rw [heffect.table, Step.tableAfter, ThreadTable.current_dispatch]
      rw [hcurrent]
      exact hgrows (h.named target (Code.mem_names.2 (.inr hmem)))
  · rw [heffect.executing]
    exact hgrows h.executing
  · intro index id hline
    rcases (hstepped.mutexLine_moves hobjects index).mem_before hline with hline | rfl
    · exact hgrows (h.mutexLine index id hline)
    · exact hgrows (hserves.2 ▸ h.executing)
  · intro index id hline
    rcases (hstepped.semaphoreLine_moves hobjects index).mem_before hline with hline | rfl
    · exact hgrows (h.semaphoreLine index id hline)
    · exact hgrows (hserves.2 ▸ h.executing)
  · intro id hid
    rw [hstepped.code_after, Code.names, List.filterMap_append] at hid
    rcases List.mem_append.1 hid with hid | hid
    · exact hgrows (h.contains_of_names hobjects hstepped hid)
    · refine hgrows (h.named id (Code.mem_names.2 ?_))
      rw [hstepped.code]
      exact (Code.mem_names.1 hid).imp (.tail _) (.tail _)

theorem switch {next prev : ThreadId} (h : m.Populated) (hseated : m.Seated)
    (horderly : m.Orderly struck) (hcode : m.context.code = .switch next prev :: rest)
    (hswitched : (m.setCode rest).Switched next prev after) : after.Populated := by
  obtain ⟨hnext, -, hne⟩ := hseated.switch_eq hcode
  have htable : after.kernel.table = m.kernel.table := by
    rw [hswitched.kernel]
    rfl
  have hshared : after.shared = m.shared := hswitched.shared
  constructor
  · rw [hswitched.kernel]
    exact h.sound
  · rw [htable]
    exact h.current
  · rw [htable, hswitched.executing, hnext]
    exact h.current
  · rw [htable, hshared]
    exact h.mutexLine
  · rw [htable, hshared]
    exact h.semaphoreLine
  · rw [(horderly.calm_of_switched hcode hswitched).names_eq_nil]
    nofun

theorem goes {move : Move} {past : List (Transition P)} [LawfulBackend P] (h : m.Populated)
    (hobjects : m.shared.Sound) (hseated : m.Seated) (horderly : m.Orderly struck)
    (hemployed : m.Employed past) (hgoes : m.Goes move after) : after.Populated := by
  cases hgoes with
  | spin => exact h
  | step hstepped => exact h.perform hobjects hemployed hstepped
  | switch hcode hswitched => exact h.switch hseated horderly hcode hswitched
  | call request hcode =>
      refine { h with named := ?_ }
      rw [context_call, request.calm_code.names_eq_nil]
      nofun
  | interrupt henabled =>
      refine { h with named := fun id hmem => h.named id ?_ }
      rw [context_interrupt, Code.names, List.filterMap_append] at hmem
      exact hmem

end Populated

end Machine

end TickKernel
