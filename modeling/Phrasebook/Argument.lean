import Phrasebook.Number.Shortest
import Phrasebook.Text.Blank

/-!
# Arguments and messages

The values a message can be given, their text, and the numbers they stand for when a
plural form is chosen.
-/

namespace Phrasebook

open Number

inductive Argument where
  | text (s : String)
  | int (n : Int64)
  | float (x : Binary64)
  | bool (b : Bool)
  deriving DecidableEq

namespace Argument

/-- The number an argument stands for. A text stands for the number it spells, blanks aside;
the undefined number and truth values stand for none. -/
def number? : Argument → Option Binary64
  | text s => (Binary64.read (Text.trim s.toList)).filter fun x => !x.isNaN
  | int n => some (.ofInt n.toInt)
  | float x => if x.isNaN then none else some x
  | bool _ => none

/-- Numbers in argument texts: plain, with capital words for the special values. -/
def layout : Layout :=
  { plainLayout with infinity := "INF", negativeInfinity := "-INF", nan := "NAN" }

def render : Argument → String
  | text s => s
  | int n => toString n.toInt
  | float x => layout.render x
  | bool b => if b then "true" else "false"

end Argument

/-- Named arguments in the order they were given. -/
abbrev Arguments := List (String × Argument)

structure Message where
  id : String
  arguments : Arguments
  deriving DecidableEq

namespace Message

def ofId (id : String) : Message := ⟨id, []⟩

def push (m : Message) (name : String) (value : Argument) : Message :=
  ⟨m.id, m.arguments ++ [(name, value)]⟩

end Message

end Phrasebook
