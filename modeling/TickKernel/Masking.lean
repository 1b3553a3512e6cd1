/-!
# Interrupt guards

Interrupts are masked by acquiring a guard.  A guard remembers whether they were
enabled, and dropping it enables them again only if they were.  Guards are values:
they nest when dropped newest first, but may be dropped in any order.
-/

namespace TickKernel

/-- The interrupt flag and the live guards, newest first, each by what it remembers. -/
structure Masking where
  enabled : Bool
  guards : List Bool
  deriving DecidableEq, Repr, Inhabited

namespace Masking

def unguarded (enabled : Bool) : Masking := ⟨enabled, []⟩

def acquire (masking : Masking) : Masking :=
  ⟨false, masking.enabled :: masking.guards⟩

/-- What the flag becomes when a guard that remembers `saved` is dropped. -/
def restored (masking : Masking) (saved : Bool) : Bool :=
  saved || masking.enabled

/-- Drop the guard `index` places from the newest; without such a guard nothing happens. -/
def dropAt (masking : Masking) (index : Nat) : Masking :=
  match masking.guards[index]? with
  | none => masking
  | some saved => ⟨masking.restored saved, masking.guards.eraseIdx index⟩

def dropNewest (masking : Masking) : Masking :=
  masking.dropAt 0

def dropOldest (masking : Masking) : Masking :=
  masking.dropAt (masking.guards.length - 1)

def set (masking : Masking) (enabled : Bool) : Masking :=
  { masking with enabled := enabled }

/-- Drop every guard, newest first. -/
def unwind (masking : Masking) : Masking :=
  unguarded (masking.guards.foldl (fun enabled saved => saved || enabled) masking.enabled)

/-- The flag that a computation sees while it runs masked, and the state after it. -/
def without (masking : Masking) : Bool × Masking :=
  (masking.acquire.enabled, masking.acquire.dropNewest)

@[simp]
theorem enabled_acquire (masking : Masking) : masking.acquire.enabled = false :=
  rfl

@[simp]
theorem guards_acquire (masking : Masking) :
    masking.acquire.guards = masking.enabled :: masking.guards :=
  rfl

/-- A guard dropped first after it was acquired leaves no mark. -/
@[simp]
theorem dropNewest_acquire (masking : Masking) : masking.acquire.dropNewest = masking := by
  simp [dropNewest, dropAt, acquire, restored]

end Masking

end TickKernel
