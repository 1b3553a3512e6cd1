import TickKernel.Config

/-!
# Bounded thread names

A thread keeps the longest leading part of its name that fits in
`maxNameBytes` bytes and ends between two characters.
-/

namespace TickKernel.ThreadName

/--
The leading characters that fit in `room` bytes.  The first character that does
not fit ends the name: a later, shorter one never fills the gap.
-/
def fitting : Nat → List Char → List Char
  | _, [] => []
  | room, c :: rest =>
      if c.utf8Size ≤ room then c :: fitting (room - c.utf8Size) rest else []

def bounded (name : String) : String :=
  String.ofList (fitting maxNameBytes name.toList)

def byteCount : List Char → Nat
  | [] => 0
  | c :: rest => c.utf8Size + byteCount rest

theorem byteCount_fitting_le (room : Nat) (cs : List Char) :
    byteCount (fitting room cs) ≤ room := by
  induction cs generalizing room with
  | nil => simp [fitting, byteCount]
  | cons c rest ih =>
      by_cases h : c.utf8Size ≤ room
      · have := ih (room - c.utf8Size)
        simp only [fitting, if_pos h, byteCount]
        omega
      · simp [fitting, h, byteCount]

end TickKernel.ThreadName
