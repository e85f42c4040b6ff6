/-!
# Substitution

Tokens in a template are replaced by their values in one pass from left to right. At
each position the longest token wins; what was put in is not looked at again.
-/

namespace Phrasebook.Substitution

/-- Tokens with their values; of equal tokens the last one counts. -/
abbrev Replacements := List (String × String)

inductive Segment where
  | literal (c : Char)
  | token (t : List Char)
  deriving DecidableEq

def longer (t : List Char) : Option (List Char) → Option (List Char)
  | none => some t
  | some u => if u.length < t.length then some t else some u

/-- The longest of the tokens that a text starts with. -/
def longest (tokens : List (List Char)) (text : List Char) : Option (List Char) :=
  (tokens.filter fun t => !t.isEmpty && t.isPrefixOf text).foldr longer none

/-- Cut a template into tokens and the characters between them. -/
def segments (tokens : List (List Char)) : List Char → List Segment
  | [] => []
  | c :: rest =>
    match longest tokens (c :: rest) with
    | none => .literal c :: segments tokens rest
    | some t => .token t :: segments tokens (rest.drop (t.length - 1))
termination_by text => text.length

def value (replacements : Replacements) (token : List Char) : Option String :=
  replacements.reverse.lookup (String.ofList token)

def Segment.render (replacements : Replacements) : Segment → List Char
  | literal c => [c]
  | token t => ((value replacements t).getD (String.ofList t)).toList

/-- Replace every token in a template by its value. -/
def substitute (template : String) (replacements : Replacements) : String :=
  let tokens := replacements.map fun (token, _) => token.toList
  String.ofList ((segments tokens template.toList).flatMap (·.render replacements))

end Phrasebook.Substitution
