import Phrasebook.Document.Yaml.Lexer
import Phrasebook.Document.Yaml.Schema
import Phrasebook.Document.Yaml.Tree

/-!
# Reading YAML

From the tree of a document to its value: anchors are numbered, aliases are followed,
scalars get their values, and keys are checked to be distinct.
-/

namespace Phrasebook.Document.Yaml

open Number

/-! ## Anchors -/

abbrev AnchorNumbers := List (String × Nat)

/-- Number an anchor. A new name gets the count of names before it. A name that is used again
gets the count of all names, which the next new name will share. -/
def numberAnchor (anchor : Option String) (seen : AnchorNumbers) : Option Nat × AnchorNumbers :=
  match anchor with
  | none => (none, seen)
  | some name =>
    (some seen.length, (name, seen.length) :: seen.filter fun (other, _) => other ≠ name)

mutual

/-- Put numbers in the place of anchor names; an alias of a name not seen before is an error. -/
def Tree.number (seen : AnchorNumbers) : Tree String → Option (Tree Nat × AnchorNumbers)
  | .alias name => (seen.lookup name).map fun n => (.alias n, seen)
  | .scalar anchor tag plain text =>
    let (anchor, seen) := numberAnchor anchor seen
    some (.scalar anchor tag plain text, seen)
  | .sequence anchor tag items => do
    let (anchor, seen) := numberAnchor anchor seen
    let (items, seen) ← numberItems seen items
    return (.sequence anchor tag items, seen)
  | .mapping anchor tag entries => do
    let (anchor, seen) := numberAnchor anchor seen
    let (entries, seen) ← numberEntries seen entries
    return (.mapping anchor tag entries, seen)

def numberItems (seen : AnchorNumbers) :
    List (Tree String) → Option (List (Tree Nat) × AnchorNumbers)
  | [] => some ([], seen)
  | item :: rest => do
    let (item, seen) ← item.number seen
    let (rest, seen) ← numberItems seen rest
    return (item :: rest, seen)

def numberEntries (seen : AnchorNumbers) :
    List (Tree String × Tree String) → Option (List (Tree Nat × Tree Nat) × AnchorNumbers)
  | [] => some ([], seen)
  | (key, value) :: rest => do
    let (key, seen) ← key.number seen
    let (value, seen) ← value.number seen
    let (rest, seen) ← numberEntries seen rest
    return ((key, value) :: rest, seen)

end

abbrev Anchored := List (Nat × Tree Nat)

def anchoredHere (anchor : Option Nat) (tree : Tree Nat) : Anchored :=
  anchor.toList.map fun n => (n, tree)

mutual

def Tree.anchored : Tree Nat → Anchored
  | .alias _ => []
  | .scalar anchor tag plain text => anchoredHere anchor (.scalar anchor tag plain text)
  | .sequence anchor tag items =>
    anchoredHere anchor (.sequence anchor tag items) ++ anchoredItems items
  | .mapping anchor tag entries =>
    anchoredHere anchor (.mapping anchor tag entries) ++ anchoredEntries entries

def anchoredItems : List (Tree Nat) → Anchored
  | [] => []
  | item :: rest => item.anchored ++ anchoredItems rest

def anchoredEntries : List (Tree Nat × Tree Nat) → Anchored
  | [] => []
  | (key, value) :: rest => key.anchored ++ value.anchored ++ anchoredEntries rest

end

mutual

/-- The nodes of a tree, collections counted for their start and for their end. -/
def Tree.weight : Tree Nat → Nat
  | .alias _ => 1
  | .scalar .. => 1
  | .sequence _ _ items => 2 + itemsWeight items
  | .mapping _ _ entries => 2 + entriesWeight entries

def itemsWeight : List (Tree Nat) → Nat
  | [] => 0
  | item :: rest => item.weight + itemsWeight rest

def entriesWeight : List (Tree Nat × Tree Nat) → Nat
  | [] => 0
  | (key, value) :: rest => key.weight + value.weight + entriesWeight rest

end

/-! ## Equal keys -/

/-- Equality of numbers as keys: undefined values are equal, and so are both zeros. -/
def sameNumeral : Numeral → Numeral → Bool
  | .int m, .int n => m == n
  | .float x, .float y => (x.isNaN && y.isNaN) || x.equals y
  | _, _ => false

mutual

/-- Equality of values as keys. The order of the entries of a mapping does not matter. -/
def same : Yaml → Yaml → Bool
  | .null, .null => true
  | .bool a, .bool b => a == b
  | .number m, .number n => sameNumeral m n
  | .string s, .string t => s == t
  | .sequence xs, .sequence ys => sameItems xs ys
  | .mapping xs, .mapping ys => xs.length == ys.length && sameEntries xs ys
  | .tagged s x, .tagged t y => s == t && same x y
  | _, _ => false

def sameItems : List Yaml → List Yaml → Bool
  | [], [] => true
  | x :: xs, y :: ys => same x y && sameItems xs ys
  | _, _ => false

/-- Whether each of some entries is among others. -/
def sameEntries : List (Yaml × Yaml) → List (Yaml × Yaml) → Bool
  | [], _ => true
  | (key, value) :: rest, others =>
    (others.any fun (k, v) => same key k && same value v) && sameEntries rest others

end

/-! ## Values -/

/-- How many collections may enclose a value. -/
def maxNesting : Nat := 128

/-- How often aliases may be followed for each node of a document. -/
def maxJumps : Nat := 100

/-- A value with the name that its tag gives, if it gives one. -/
def wrapTag (tag : Option Tag) (value : Yaml) : Yaml :=
  match tag.bind Tag.name? with
  | none => value
  | some name => .tagged name value

/-- A computation that follows a limited number of aliases and can fail. -/
abbrev Following := StateT Nat Option

def follow (anchored : Anchored) (n : Nat) : Following (Tree Nat) := do
  match ← get with
  | 0 => failure
  | jumps + 1 =>
    set jumps
    (anchored.reverse.lookup n : Option (Tree Nat))

/-- The value of a node enclosed by at most `depth` more collections. A tag that gives a name does
not change what its node means without it. -/
def valueOf (anchored : Anchored) : Nat → Tree Nat → Following Yaml :=
  fun depth tree => do
    let tree ←
      match tree with
      | .alias n => follow anchored n
      | tree => pure tree
    match tree with
    | .alias _ => failure
    | .scalar _ tag plain text =>
      let kind := tag.filter fun t => t.name?.isNone
      wrapTag tag <$> (scalarValue kind plain text : Option Yaml)
    | .sequence _ tag items =>
      match depth with
      | 0 => failure
      | depth + 1 => return wrapTag tag (.sequence (← items.mapM (valueOf anchored depth)))
    | .mapping _ tag entries =>
      match depth with
      | 0 => failure
      | depth + 1 =>
        let values ← entries.foldlM (fun done (key, value) => do
          let key ← valueOf anchored depth key
          if done.any fun (other, _) => same key other then failure
          return done ++ [(key, ← valueOf anchored depth value)]) []
        return wrapTag tag (.mapping values)

def Tree.value? (tree : Tree String) : Option Yaml := do
  let (tree, _) ← tree.number []
  let (value, _) ← (valueOf tree.anchored maxNesting tree).run (maxJumps * tree.weight)
  return value

def read (s : List Char) : Option Yaml :=
  if s.all isAllowed then (tokens? s).bind fun tokens => (Tree.ofTokens? tokens).bind Tree.value?
  else none

end Phrasebook.Document.Yaml
