import Mathlib.Logic.Function.Iterate
import TickKernel.Proofs.Seat

/-!
# Stretches of steps

What a thread does while it has interrupts masked, one step after the other.  A
stretch of steps that only acquire and drop guards and locks changes neither the
thread table nor a synchronization object.
-/

namespace TickKernel

variable {P : Type}

/-- Steps that concern nothing but guards and locks. -/
@[simp]
def Step.isQuiet : Step → Bool
  | .mask | .unmask | .take _ | .free _ => true
  | _ => false

@[simp]
def Code.Glides (cover : Cover) : List Step → Prop
  | [] => True
  | step :: rest =>
      step.isQuiet = true ∧ ¬ step.IsDead cover ∧ 0 < (step.coverAfter cover).guards ∧
        Glides (step.coverAfter cover) rest

@[simp]
def Code.coverAfter (cover : Cover) (code : List Step) : Cover :=
  code.foldl (fun cover step => step.coverAfter cover) cover

namespace Machine

/-- Neither the table nor a synchronization object differs, and the same thread executes. -/
structure Untouched (m after : Machine P) : Prop where
  executing : after.executing = m.executing
  table : after.kernel.table = m.kernel.table
  mutexes : after.shared.mutexes = m.shared.mutexes
  semaphores : after.shared.semaphores = m.shared.semaphores

theorem Untouched.refl (m : Machine P) : m.Untouched m :=
  ⟨rfl, rfl, rfl, rfl⟩

theorem Untouched.trans {first second third : Machine P} (h : first.Untouched second)
    (h' : second.Untouched third) : first.Untouched third :=
  ⟨h'.executing.trans h.executing, h'.table.trans h.table, h'.mutexes.trans h.mutexes,
    h'.semaphores.trans h.semaphores⟩

theorem Untouched.owner {m after : Machine P} (h : m.Untouched after) :
    after.shared.owner = m.shared.owner := by
  unfold Shared.owner
  rw [h.mutexes]

theorem Untouched.mutexLine {m after : Machine P} (h : m.Untouched after) :
    after.shared.mutexLine = m.shared.mutexLine := by
  unfold Shared.mutexLine
  rw [h.mutexes]

theorem Untouched.semaphoreLine {m after : Machine P} (h : m.Untouched after) :
    after.shared.semaphoreLine = m.shared.semaphoreLine := by
  unfold Shared.semaphoreLine
  rw [h.semaphores]

/-- The executing thread has these steps left, which it reaches under this cover. -/
structure At (m : Machine P) (code : List Step) (cover : Cover) : Prop where
  orderly : m.Orderly True
  objects : m.shared.Sound
  seated : m.Seated
  code : m.context.code = code
  cover : m.context.cover = cover

namespace At

variable {m : Machine P} {step : Step} {rest : List Step} {cover : Cover}

theorem masked {code : List Step} (h : m.At code cover) (hguards : 0 < cover.guards) :
    m.interruptsEnabled = false := by
  refine (h.orderly.nested m.executing).masking.masked ?_
  intro hnil
  have hnone : cover.guards = 0 := by
    rw [← h.cover]
    exact congrArg List.length hnil
  omega

theorem spins_eq_false (h : m.At (step :: rest) cover) (hlive : ¬ step.IsDead cover) :
    m.spins step = false := by
  rw [h.orderly.spins_eq_false_iff]
  rintro lock hmem rfl
  have hown := h.orderly.own
  rw [h.code, h.cover] at hown
  obtain ⟨-, -, ⟨-, hdead⟩ | ⟨hstands, -⟩⟩ := hown
  · exact hlive hdead
  · rw [← h.cover] at hstands
    exact hstands.2 hmem

theorem of_unlock {struck : Prop} {index : Nat} (horderly : m.Orderly struck)
    (hobjects : m.shared.Sound)
    (hseated : m.Seated) (hcode : m.context.code = (Request.unlock index).code) :
    m.At (Request.unlock index).code ⟨0, []⟩ := by
  refine ⟨horderly.mono fun _ => trivial, hobjects, hseated, hcode, ?_⟩
  have hown := horderly.own
  rw [hcode] at hown
  generalize m.context.cover = cover at hown ⊢
  obtain ⟨guards, held⟩ := cover
  simp [Request.code, Disciplined, Step.Fits, Step.IsDead, Step.coverBehind] at hown
  simp [hown]

end At

variable [Backend P]

/-- Some steps of the executing thread, and what holds after each of them. -/
structure Leads (Good : Machine P → Prop) (m : Machine P) (count : Nat) (after : Machine P) :
    Prop where
  reaches : exec^[count] m = after
  keeps : ∀ k, 0 < k → k ≤ count → Good (exec^[k] m)

namespace Leads

variable {Good Better : Machine P → Prop} {m middle after : Machine P} {count more : Nat}

theorem refl (m : Machine P) : m.Leads Good 0 m :=
  ⟨rfl, fun k hpos hle => by omega⟩

theorem one (h : Good m.exec) : m.Leads Good 1 m.exec := by
  refine ⟨rfl, fun k hpos hle => ?_⟩
  obtain rfl : k = 1 := by omega
  exact h

theorem trans (h : m.Leads Good count middle) (h' : middle.Leads Good more after) :
    m.Leads Good (more + count) after := by
  refine ⟨?_, fun k hpos hle => ?_⟩
  · rw [Function.iterate_add_apply, h.reaches, h'.reaches]
  · by_cases hk : k ≤ count
    · exact h.keeps k hpos hk
    · have hlater := h'.keeps (k - count) (by omega) (by omega)
      rwa [← h.reaches, ← Function.iterate_add_apply, Nat.sub_add_cancel (by omega)] at hlater

theorem imp (h : m.Leads Good count after) (himp : ∀ other, Good other → Better other) :
    m.Leads Better count after :=
  ⟨h.reaches, fun k hpos hle => himp _ (h.keeps k hpos hle)⟩

end Leads

def Still (m : Machine P) (count : Nat) (after : Machine P) : Prop :=
  m.Leads (fun other => m.Untouched other ∧ other.interruptsEnabled = false) count after

namespace Still

variable {m middle after : Machine P} {count more : Nat}

theorem untouched (h : m.Still count after) : m.Untouched after := by
  rcases Nat.eq_zero_or_pos count with rfl | hpos
  · obtain rfl : m = after := h.reaches
    exact .refl m
  · exact h.reaches ▸ (h.keeps count hpos (Nat.le_refl _)).1

theorem one (h : m.Untouched m.exec) (hmasked : m.exec.interruptsEnabled = false) :
    m.Still 1 m.exec :=
  Leads.one ⟨h, hmasked⟩

theorem trans (h : m.Still count middle) (h' : middle.Still more after) :
    m.Still (more + count) after :=
  Leads.trans h (Leads.imp h' fun _ hgood => ⟨h.untouched.trans hgood.1, hgood.2⟩)

end Still

namespace At

variable {m : Machine P} {step : Step} {rest : List Step} {cover : Cover}

theorem exec_step (h : m.At (step :: rest) cover) (hlive : ¬ step.IsDead cover)
    (hswitch : step.isSwitch = false) :
    ∃ pushed, m.Stepped step rest pushed m.exec ∧
      m.exec.At (pushed ++ rest) (step.coverAfter cover) := by
  obtain ⟨pushed, hstepped⟩ := stepped_exec h.code (h.spins_eq_false hlive) hswitch
  refine ⟨pushed, hstepped, ?_⟩
  exact
    { orderly := h.orderly.perform hstepped
      objects := sound_of_goes h.objects (.step hstepped)
      seated := h.seated.perform hstepped
      code := hstepped.code_after
      cover := by rw [hstepped.effect.cover, h.cover] }

theorem exec_quiet (h : m.At (step :: rest) cover) (hquiet : step.isQuiet = true)
    (hlive : ¬ step.IsDead cover) :
    m.exec.At rest (step.coverAfter cover) ∧ m.Untouched m.exec := by
  have hswitch : step.isSwitch = false := by cases step <;> first | rfl | cases hquiet
  obtain ⟨pushed, hstepped, hafter⟩ := h.exec_step hlive hswitch
  have hplain : step.isPlain = true := by cases step <;> first | rfl | cases hquiet
  rw [hstepped.expands.eq_nil hplain] at hafter
  refine ⟨hafter, hstepped.effect.executing, ?_, ?_, ?_⟩
  · rw [hstepped.effect.table]
    cases step <;> first | rfl | cases hquiet
  · exact hstepped.effect.mutexes (by cases step <;> first | rfl | cases hquiet)
  · exact hstepped.effect.semaphores (by cases step <;> first | rfl | cases hquiet)

/-- A thread gets through a stretch of quiet steps without being interrupted. -/
theorem glide (front : List Step) (h : m.At (front ++ rest) cover)
    (hglides : Code.Glides cover front) :
    ∃ after, m.Still front.length after ∧ after.At rest (Code.coverAfter cover front) := by
  induction front generalizing m cover with
  | nil => exact ⟨m, .refl m, h⟩
  | cons step front ih =>
      obtain ⟨hquiet, hlive, hguards, hglides⟩ := hglides
      obtain ⟨hnext, hsame⟩ := At.exec_quiet h hquiet hlive
      obtain ⟨after, hstill, hafter⟩ := ih hnext hglides
      exact ⟨after, (Still.one hsame (hnext.masked hguards)).trans hstill, hafter⟩

/-- Who asks for its identity is told its own. -/
theorem exec_identify {index : Nat} (h : m.At [.identify (.release index)] cover) :
    m.exec.At ([.unmask, .free .table, .mask, .take (.mutex index)]
        ++ [.tryRelease index m.executing]) cover ∧ m.Untouched m.exec := by
  obtain ⟨pushed, hstepped, hafter⟩ := h.exec_step (by simp [Step.IsDead]) rfl
  have hme := h.seated.executing_eq h.code (by simp) rfl
  have hpushed : pushed = [.unmask, .free .table, .mask, .take (.mutex index),
      .tryRelease index m.executing] := by
    rw [hme]
    cases hstepped.expands with
    | nothing hplain => cases hplain
    | answer _ hasks => cases hasks
    | release _ => rfl
  rw [hpushed] at hafter
  exact ⟨hafter, hstepped.effect.executing, hstepped.effect.table, hstepped.effect.mutexes rfl,
    hstepped.effect.semaphores rfl⟩

/-- A thread that begins to unlock comes to its attempt without being interrupted. -/
theorem reaches_tryRelease {index : Nat} (h : m.At (Request.unlock index).code ⟨0, []⟩) :
    ∃ after, m.Still 8 after ∧
      after.At [.tryRelease index after.executing] ⟨2, [.mutex index]⟩ := by
  obtain ⟨asking, hfirst, hask⟩ := At.glide [.mask, .mask, .take .table] h (by simp [Step.IsDead])
  obtain ⟨hstart, hsame⟩ := exec_identify hask
  have hsecond := Still.one hsame (hstart.masked (by simp))
  obtain ⟨after, hthird, hend⟩ := At.glide _ hstart (by simp [Step.IsDead])
  refine ⟨after, (hfirst.trans hsecond).trans hthird, ?_⟩
  rw [(hsecond.trans hthird).untouched.executing]
  exact hend

end At

end Machine

end TickKernel
