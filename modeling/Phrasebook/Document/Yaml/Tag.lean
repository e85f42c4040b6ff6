/-!
# Tags

A tag says what kind of value a node is. It is a sequence of bytes, which need not spell
a text. Tags of the standard ask for one of its kinds; a tag that starts with an
exclamation mark is a name of its own.
-/

namespace Phrasebook.Document.Yaml

/-- The bytes of a tag. -/
structure Tag where
  bytes : List UInt8
  deriving DecidableEq, Inhabited

namespace Tag

def ofString (s : String) : Tag := ⟨s.toUTF8.data.toList⟩

def isEmpty (t : Tag) : Bool := t.bytes.isEmpty

def append (t u : Tag) : Tag := ⟨t.bytes ++ u.bytes⟩

/-- The part of a tag that counts: all before its first zero byte. -/
def beforeZero (t : Tag) : Tag := ⟨t.bytes.takeWhile (· ≠ 0)⟩

/-- The exclamation mark on its own. -/
def mark : Tag := ofString "!"

/-! ## Tags of the standard -/

def standard (kind : String) : Tag := ofString ("tag:yaml.org,2002:" ++ kind)

def bool : Tag := standard "bool"

def int : Tag := standard "int"

def float : Tag := standard "float"

def null : Tag := standard "null"

/-! ## Names -/

/-- Whether a tag starts with an exclamation mark. -/
def isOwn (t : Tag) : Bool := t.bytes.head? = mark.bytes.head?

/-- The name that a tag gives: the text after its exclamation mark, without a second one. A mark
that nothing follows is a name itself. A tag that does not start with a mark or does not spell a
text gives none. -/
def name? (t : Tag) : Option String := do
  let text ← String.fromUTF8? ⟨t.bytes.toArray⟩
  match text.toList with
  | ['!'] | ['!', '!'] => some "!"
  | '!' :: '!' :: rest | '!' :: rest => some (String.ofList rest)
  | _ => none

end Tag

end Phrasebook.Document.Yaml
