import Mathlib.Data.List.Induction
import Mathlib.Data.List.Perm.Basic
import TickKernel.Proofs.Discipline

/-!
# Guards dropped in any order

A guard remembers the flag that it found, which may have been set by another guard's drop.
Interrupts that were enabled at first are so still, or else exactly one live guard remembers it:
that one gives them back, in whatever order the guards are dropped.  But until it is dropped it
is also the only one that keeps interrupts masked, however many others are alive.
-/

namespace TickKernel

inductive GuardMove where
  | acquire
  /-- Drop the live guard that is so many places from the newest. -/
  | drop (place : Nat)
  deriving DecidableEq, Repr

namespace GuardMove

/-- Whether a move respects the order of lexical scopes. -/
def isNested : GuardMove → Bool
  | acquire => true
  | drop place => place == 0

end GuardMove

namespace Masking

def after (masking : Masking) : GuardMove → Masking
  | .acquire => masking.acquire
  | .drop place => masking.dropAt place

def play (masking : Masking) (moves : List GuardMove) : Masking :=
  moves.foldl after masking

theorem play_append (masking : Masking) (moves : List GuardMove) (move : GuardMove) :
    masking.play (moves ++ [move]) = (masking.play moves).after move := by
  rw [play, List.foldl_append]
  rfl

section

variable {masking : Masking} {place : Nat}

theorem dropAt_eq_self (h : masking.guards[place]? = none) : masking.dropAt place = masking := by
  rw [dropAt, h]

theorem dropAt_eq {saved : Bool} (h : masking.guards[place]? = some saved) :
    masking.dropAt place = ⟨saved || masking.enabled, masking.guards.eraseIdx place⟩ := by
  rw [dropAt, h]
  rfl

theorem length_guards_dropAt {saved : Bool} (h : masking.guards[place]? = some saved) :
    (masking.dropAt place).guards.length + 1 = masking.guards.length := by
  obtain ⟨hlt, -⟩ := List.getElem?_eq_some_iff.1 h
  rw [dropAt_eq h, List.length_eraseIdx_of_lt hlt]
  omega

end

def Guarded (masking : Masking) : Prop :=
  masking.guards ≠ [] → masking.enabled = false

instance (masking : Masking) : Decidable masking.Guarded :=
  inferInstanceAs (Decidable (_ → _))

/-- The flag or one live guard, but not both, remembers that interrupts were enabled at first. -/
def Remembers (first : Bool) (masking : Masking) : Prop :=
  masking.enabled.toNat + masking.guards.count true = first.toNat

namespace Remembers

variable {first : Bool} {masking : Masking}

theorem unguarded (first : Bool) : (unguarded first).Remembers first :=
  rfl

theorem acquire (h : masking.Remembers first) : masking.acquire.Remembers first := by
  unfold Remembers at h ⊢
  rw [enabled_acquire, guards_acquire, ← h, List.count_cons]
  cases masking.enabled <;> simp [Nat.add_comm]

/-- A guard that is dropped hands on to the flag what it remembers. -/
theorem dropAt (h : masking.Remembers first) (place : Nat) :
    (masking.dropAt place).Remembers first := by
  cases hplace : masking.guards[place]? with
  | none => rwa [dropAt_eq_self hplace]
  | some saved =>
      obtain ⟨hlt, hsaved⟩ := List.getElem?_eq_some_iff.1 hplace
      have hcount : (masking.guards.eraseIdx place).count true + saved.toNat =
          masking.guards.count true := by
        rw [← (List.getElem_cons_eraseIdx_perm hlt).count_eq true, hsaved, List.count_cons]
        cases saved <;> rfl
      have hbound := first.toNat_le
      rw [dropAt_eq hplace]
      unfold Remembers at h ⊢
      cases saved <;> cases hflag : masking.enabled <;>
        simp only [hflag, Bool.or_self, Bool.or_false, Bool.or_true, Bool.toNat_true,
          Bool.toNat_false] at h hcount ⊢ <;>
        omega

theorem after (h : masking.Remembers first) (move : GuardMove) :
    (masking.after move).Remembers first := by
  cases move with
  | acquire => exact h.acquire
  | drop place => exact h.dropAt place

theorem enabled_iff (h : masking.Remembers first) :
    masking.enabled = true ↔ first = true ∧ true ∉ masking.guards := by
  unfold Remembers at h
  rw [← List.count_eq_zero]
  cases first <;> cases hflag : masking.enabled <;> simp_all

/-- While guards are alive, the one that found interrupts enabled keeps them masked. -/
theorem masked_iff (h : masking.Remembers first) :
    masking.enabled = false ↔ first = false ∨ true ∈ masking.guards := by
  rw [← Bool.not_eq_true, h.enabled_iff, Classical.not_and_iff_not_or_not, Bool.not_eq_true,
    Classical.not_not]

end Remembers

theorem remembers_play (first : Bool) (moves : List GuardMove) :
    ((unguarded first).play moves).Remembers first := by
  induction moves using List.reverseRecOn with
  | nil => exact .unguarded first
  | append_singleton moves move ih =>
      rw [play_append]
      exact ih.after move

theorem nested_play (first : Bool) {moves : List GuardMove}
    (hnested : ∀ move ∈ moves, move.isNested = true) :
    ((unguarded first).play moves).Nested := by
  induction moves using List.reverseRecOn with
  | nil => exact nested_of_unguarded rfl
  | append_singleton moves move ih =>
      have hmoves := ih fun other hmem => hnested other (List.mem_append_left _ hmem)
      have hlast := hnested move (by simp)
      rw [play_append]
      cases move with
      | acquire => exact hmoves.acquire
      | drop place =>
          obtain rfl : place = 0 := beq_iff_eq.1 hlast
          exact hmoves.dropNewest

/--
What guards leave of the interrupt flag, however many are acquired and in whatever order they are
dropped.  When the last one is gone the flag is as it was at first, and if interrupts were masked
at first, they are masked at every instant.  If guards are dropped newest first, interrupts are
masked at every instant at which one is alive.
-/
theorem guards_restore_flag (enabled : Bool) (moves : List GuardMove) :
    (((unguarded enabled).play moves).guards = [] →
        ((unguarded enabled).play moves).enabled = enabled) ∧
      (enabled = false →
        ∀ before, before <+: moves → ((unguarded enabled).play before).enabled = false) ∧
      ((∀ move ∈ moves, move.isNested = true) →
        ∀ before, before <+: moves → ((unguarded enabled).play before).Guarded) := by
  refine ⟨fun hnone => ?_, fun hmasked before _ => ?_, fun hnested before hbefore => ?_⟩
  · have hremembers := remembers_play enabled moves
    rw [Bool.eq_iff_iff, hremembers.enabled_iff, hnone]
    exact and_iff_left List.not_mem_nil
  · exact (remembers_play enabled before).masked_iff.2 (.inl hmasked)
  · exact (nested_play enabled fun move hmem => hnested move (hbefore.subset hmem)).masked

/-- Two guards whose lifetimes overlap, and a third one in between. -/
def overlapping : List GuardMove :=
  [.acquire, .acquire, .drop 1, .acquire, .drop 1, .drop 0]

/-- The overlapping guards leave interrupts enabled, and nested ones never do so too early. -/
theorem guards_restore_flag_of_overlapping :
    ((unguarded true).play overlapping).guards = [] ∧
      ((unguarded true).play overlapping).enabled = true ∧
        ((unguarded true).play [.acquire, .acquire, .drop 0]).Guarded := by
  have hnone : ((unguarded true).play overlapping).guards = [] := by decide
  obtain ⟨-, -, hnested⟩ := guards_restore_flag true [.acquire, .acquire, .drop 0]
  exact ⟨hnone, (guards_restore_flag true overlapping).1 hnone,
    hnested (by decide) _ List.prefix_rfl⟩

/-! ## Guards that outlive an older one -/

/-- A move keeps interrupts masked unless it drops the guard that found them enabled too early. -/
theorem Guarded.move {masking : Masking} (h : masking.Guarded) (move : GuardMove)
    (hlast : ∀ place, move = .drop place → masking.guards[place]? = some true →
      masking.guards.length = 1) : (masking.after move).Guarded := by
  cases move with
  | acquire => exact fun _ => rfl
  | drop place =>
      show (masking.dropAt place).Guarded
      cases hplace : masking.guards[place]? with
      | none => rwa [dropAt_eq_self hplace]
      | some saved =>
          have hlength := length_guards_dropAt hplace
          intro hothers
          cases saved with
          | false =>
              have hmasked : masking.enabled = false := h (List.ne_nil_of_length_pos (by omega))
              rw [dropAt_eq hplace, hmasked]
              rfl
          | true =>
              -- the guard that is dropped was the only one
              have honly := hlast place rfl hplace
              exact absurd (List.eq_nil_of_length_eq_zero (by omega)) hothers

/--
When interrupts are masked under guards.  At every instant they are masked if and only if they
were at first or the guard that found them enabled is still alive; so a guard keeps interrupts
masked all its life, whatever the order of drops, if and only if the one that found them enabled
is never dropped while another is alive.
-/
theorem guarded_iff_owner_last (enabled : Bool) (moves : List GuardMove) :
    (((unguarded enabled).play moves).enabled = false ↔
        enabled = false ∨ true ∈ ((unguarded enabled).play moves).guards) ∧
      ((∀ before, before <+: moves → ((unguarded enabled).play before).Guarded) ↔
        ∀ before place, before ++ [.drop place] <+: moves →
          ((unguarded enabled).play before).guards[place]? = some true →
            ((unguarded enabled).play before).guards.length = 1) := by
  refine ⟨(remembers_play enabled moves).masked_iff, fun hguarded before place hmoves hplace => ?_,
    fun hlast before => ?_⟩
  · have hafter := hguarded _ hmoves
    rw [play_append] at hafter
    have hlength := length_guards_dropAt hplace
    by_contra hothers
    -- another guard is alive, and the flag takes over that interrupts were enabled
    have hmasked := hafter (List.ne_nil_of_length_pos (by rw [after]; omega))
    rw [after, dropAt_eq hplace] at hmasked
    cases hmasked
  · induction before using List.reverseRecOn with
    | nil => exact fun _ hnone => absurd rfl hnone
    | append_singleton before move ih =>
        intro hmoves
        rw [play_append]
        refine (ih ((List.prefix_append _ _).trans hmoves)).move move ?_
        rintro place rfl hplace
        exact hlast before place hmoves hplace

/-- Two guards are acquired, and the older one is dropped: the newer one does not mask. -/
theorem guarded_iff_owner_last_of_oldestFirst :
    ∃ before, before <+: [.acquire, .acquire, .drop 1] ∧
      ((unguarded true).play before).guards ≠ [] ∧
        ((unguarded true).play before).enabled = true := by
  obtain ⟨-, hguarded⟩ := guarded_iff_owner_last true [.acquire, .acquire, .drop 1]
  by_contra hnone
  refine absurd (hguarded.1 fun before hbefore hothers => ?_) ?_
  · rw [← Bool.not_eq_true]
    exact fun henabled => hnone ⟨before, hbefore, hothers, henabled⟩
  · intro hlast
    exact absurd (hlast [.acquire, .acquire] 1 List.prefix_rfl (by decide)) (by decide)

end Masking

end TickKernel
