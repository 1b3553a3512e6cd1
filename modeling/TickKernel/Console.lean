/-!
# Console

The kernel prints into whichever sink is installed, and into nothing when none
is.  A sink takes a piece of text as a whole or refuses it; the kernel ignores a
refusal.  A line is two pieces, its text and the line break.
-/

namespace TickKernel

/-- Where printed text goes.  Without a capacity a sink takes everything. -/
structure Sink where
  /-- Most bytes of UTF-8 that the sink holds. -/
  capacity : Option Nat
  text : String := ""
  deriving DecidableEq, Repr, Inhabited

/-- The sink with `piece` appended, or nothing if it would not fit. -/
def Sink.write? (sink : Sink) (piece : String) : Option Sink :=
  let text := sink.text ++ piece
  if sink.capacity.all (text.utf8ByteSize ≤ ·) then some { sink with text := text } else none

structure Console where
  sinks : List Sink
  installed : Option Nat
  deriving DecidableEq, Repr, Inhabited

namespace Console

def writeTo (console : Console) (index : Nat) (piece : String) : Bool × Console :=
  match console.sinks[index]?.bind (Sink.write? · piece) with
  | none => (false, console)
  | some sink => (true, { console with sinks := console.sinks.set index sink })

def print (console : Console) (piece : String) : Console :=
  match console.installed with
  | none => console
  | some index => (console.writeTo index piece).2

/-- Print a line: the text and the line break are separate pieces, and both are tried. -/
def printLine (console : Console) (text : String) : Console :=
  (console.print text).print "\n"

def install (console : Console) (index : Nat) : Option Nat × Console :=
  (console.installed, { console with installed := some index })

def remove (console : Console) : Option Nat × Console :=
  (console.installed, { console with installed := none })

end Console

end TickKernel
