import Phrasebook.Document.Yaml.Token

/-!
# Trees of YAML documents

The structure of a document before its scalars are understood and its aliases are
followed. Nodes are named by anchors of some type.
-/

namespace Phrasebook.Document.Yaml

/-- A node of a document. -/
inductive Tree (Anchor : Type) where
  | alias (target : Anchor)
  | scalar (anchor : Option Anchor) (tag : Option Tag) (plain : Bool) (text : String)
  | sequence (anchor : Option Anchor) (tag : Option Tag) (items : List (Tree Anchor))
  | mapping (anchor : Option Anchor) (tag : Option Tag)
      (entries : List (Tree Anchor × Tree Anchor))

namespace Tree

/-- What stands where a node is left out. -/
def absent : Tree String := .scalar none none true ""

/-- What tag handles stand for. -/
abbrev Handles := List (String × Tag)

def defaultHandles : Handles := [("!", .mark), ("!!", .standard "")]

/-- A whole tag; none if its handle is unknown. -/
def resolveTag (handles : Handles) (handle : String) (suffix : Tag) : Option Tag :=
  if handle = "" then some suffix else (handles.lookup handle).map (·.append suffix)

structure Properties where
  anchor : Option String
  tag : Option Tag

/-- An anchor and a tag, both optional and in either order. -/
def properties (handles : Handles) : List Token → Option (Properties × List Token)
  | .anchor name :: .tag handle suffix :: rest => do
    return (⟨some name, some (← resolveTag handles handle suffix)⟩, rest)
  | .tag handle suffix :: .anchor name :: rest => do
    return (⟨some name, some (← resolveTag handles handle suffix)⟩, rest)
  | .anchor name :: rest => some (⟨some name, none⟩, rest)
  | .tag handle suffix :: rest => do
    return (⟨none, some (← resolveTag handles handle suffix)⟩, rest)
  | rest => some (⟨none, none⟩, rest)

def nextIsIn (stops : List Token) (tokens : List Token) : Bool :=
  match tokens with
  | [] => true
  | token :: _ => stops.contains token

mutual

/-- A node. Block collections are allowed inside blocks, and sequences without indentation of
their own as the parts of block mappings. -/
def node (handles : Handles) (fuel : Nat) (block unindented : Bool) (tokens : List Token) :
    Option (Tree String × List Token) :=
  match fuel with
  | 0 => none
  | fuel + 1 =>
    match tokens with
    | .alias name :: rest => some (.alias name, rest)
    | tokens => do
      let (p, rest) ← properties handles tokens
      match rest with
      | .scalar plain text :: rest => return (.scalar p.anchor p.tag plain text, rest)
      | .flowSequenceStart :: rest =>
        let (items, rest) ← flowItems handles fuel true rest
        return (.sequence p.anchor p.tag items, rest)
      | .flowMappingStart :: rest =>
        let (entries, rest) ← flowEntries handles fuel true rest
        return (.mapping p.anchor p.tag entries, rest)
      | .blockSequenceStart :: others =>
        if block then
          let (items, rest) ← blockItems handles fuel others
          return (.sequence p.anchor p.tag items, rest)
        else
          if p.anchor.isSome || p.tag.isSome then
            return (.scalar p.anchor p.tag true "", rest) else none
      | .blockMappingStart :: others =>
        if block then
          let (entries, rest) ← blockEntries handles fuel others
          return (.mapping p.anchor p.tag entries, rest)
        else
          if p.anchor.isSome || p.tag.isSome then
            return (.scalar p.anchor p.tag true "", rest) else none
      | rest =>
        if unindented && rest.head? == some .blockEntry then
          let (items, rest) ← unindentedItems handles fuel rest
          return (.sequence p.anchor p.tag items, rest)
        else if p.anchor.isSome || p.tag.isSome then
          return (.scalar p.anchor p.tag true "", rest)
        else none

/-- A node, or nothing before one of some tokens. -/
def nodeOrAbsent (handles : Handles) (fuel : Nat) (block unindented : Bool) (stops : List Token)
    (tokens : List Token) : Option (Tree String × List Token) :=
  match fuel with
  | 0 => none
  | fuel + 1 =>
    if nextIsIn stops tokens then some (absent, tokens)
    else node handles fuel block unindented tokens

/-- The items of a block sequence and its end. -/
def blockItems (handles : Handles) (fuel : Nat) (tokens : List Token) :
    Option (List (Tree String) × List Token) :=
  match fuel with
  | 0 => none
  | fuel + 1 =>
    match tokens with
    | .blockEntry :: rest => do
      let (item, rest) ← nodeOrAbsent handles fuel true false [.blockEntry, .blockEnd] rest
      let (items, rest) ← blockItems handles fuel rest
      return (item :: items, rest)
    | .blockEnd :: rest => some ([], rest)
    | _ => none

/-- The items of a sequence without indentation of its own. -/
def unindentedItems (handles : Handles) (fuel : Nat) (tokens : List Token) :
    Option (List (Tree String) × List Token) :=
  match fuel with
  | 0 => none
  | fuel + 1 =>
    match tokens with
    | .blockEntry :: rest => do
      let (item, rest) ←
        nodeOrAbsent handles fuel true false [.blockEntry, .key, .value, .blockEnd] rest
      let (items, rest) ← unindentedItems handles fuel rest
      return (item :: items, rest)
    | rest => some ([], rest)

/-- The entries of a block mapping and its end. -/
def blockEntries (handles : Handles) (fuel : Nat) (tokens : List Token) :
    Option (List (Tree String × Tree String) × List Token) :=
  match fuel with
  | 0 => none
  | fuel + 1 =>
    match tokens with
    | .key :: rest => do
      let (key, rest) ← nodeOrAbsent handles fuel true true [.key, .value, .blockEnd] rest
      let (value, rest) ←
        match rest with
        | .value :: rest => nodeOrAbsent handles fuel true true [.key, .value, .blockEnd] rest
        | rest => some (absent, rest)
      let (entries, rest) ← blockEntries handles fuel rest
      return ((key, value) :: entries, rest)
    | .blockEnd :: rest => some ([], rest)
    | _ => none

/-- The items of a sequence in brackets. An item with a colon is a mapping of one entry; after a
question mark that no key follows one more token is passed over. -/
def flowItems (handles : Handles) (fuel : Nat) (first : Bool) (tokens : List Token) :
    Option (List (Tree String) × List Token) :=
  match fuel with
  | 0 => none
  | fuel + 1 =>
    match tokens with
    | .flowSequenceEnd :: rest => some ([], rest)
    | tokens => do
      let tokens ←
        if first then some tokens
        else
          match tokens with
          | .flowEntry :: rest => some rest
          | _ => none
      match tokens with
      | .flowSequenceEnd :: rest => return ([], rest)
      | .key :: rest =>
        let (key, rest) ←
          if nextIsIn [.value, .flowEntry, .flowSequenceEnd] rest then some (absent, rest.drop 1)
          else node handles fuel false false rest
        let (value, rest) ←
          match rest with
          | .value :: rest =>
            nodeOrAbsent handles fuel false false [.flowEntry, .flowSequenceEnd] rest
          | rest => some (absent, rest)
        let (items, rest) ← flowItems handles fuel false rest
        return (.mapping none none [(key, value)] :: items, rest)
      | rest =>
        let (item, rest) ← node handles fuel false false rest
        let (items, rest) ← flowItems handles fuel false rest
        return (item :: items, rest)

/-- The entries of a mapping in braces. An entry without a colon is a key alone. -/
def flowEntries (handles : Handles) (fuel : Nat) (first : Bool) (tokens : List Token) :
    Option (List (Tree String × Tree String) × List Token) :=
  match fuel with
  | 0 => none
  | fuel + 1 =>
    match tokens with
    | .flowMappingEnd :: rest => some ([], rest)
    | tokens => do
      let tokens ←
        if first then some tokens
        else
          match tokens with
          | .flowEntry :: rest => some rest
          | _ => none
      match tokens with
      | .flowMappingEnd :: rest => return ([], rest)
      | .key :: rest =>
        let (key, rest) ←
          nodeOrAbsent handles fuel false false [.value, .flowEntry, .flowMappingEnd] rest
        let (value, rest) ←
          match rest with
          | .value :: rest =>
            nodeOrAbsent handles fuel false false [.flowEntry, .flowMappingEnd] rest
          | rest => some (absent, rest)
        let (entries, rest) ← flowEntries handles fuel false rest
        return ((key, value) :: entries, rest)
      | rest =>
        let (key, rest) ← node handles fuel false false rest
        let (entries, rest) ← flowEntries handles fuel false rest
        return ((key, absent) :: entries, rest)

end

/-! ## Documents -/

/-- The directives before a document: at most one version, which must be 1.1 or 1.2, and one
meaning for each tag handle. -/
def directives (version : Bool) (declared : Handles) : List Token → Option (Handles × List Token)
  | .version major minor :: rest =>
    if version || major ≠ 1 || (minor ≠ 1 && minor ≠ 2) then none
    else directives true declared rest
  | .tagDirective handle start :: rest =>
    if (declared.lookup handle).isSome then none
    else directives version (declared ++ [(handle, start)]) rest
  | rest => some (declared ++ defaultHandles, rest)

/-- The root of a document and what follows it. -/
def root (handles : Handles) (tokens : List Token) : Option (Tree String × List Token) :=
  node handles (3 * tokens.length + 3) true false tokens

/-- What may follow the only document: marks of its end. -/
def onlyEnd : List Token → Bool
  | .documentEnd :: rest => onlyEnd rest
  | [.endOfText] => true
  | _ => false

/-- The tree of a text with one document, or with none at all. -/
def ofTokens? (tokens : List Token) : Option (Tree String) := do
  match tokens with
  | [.endOfText] => return absent
  | .version .. :: _ | .tagDirective .. :: _ | .documentStart :: _ =>
    match ← directives false [] tokens with
    | (handles, .documentStart :: rest) =>
      let (tree, rest) ←
        match rest with
        | .version .. :: _ | .tagDirective .. :: _ | .documentStart :: _ | .documentEnd :: _
        | .endOfText :: _ => some (absent, rest)
        | _ => root handles rest
      if onlyEnd rest then return tree else none
    | _ => none
  | _ =>
    let (tree, rest) ← root defaultHandles tokens
    if onlyEnd rest then return tree else none

end Tree

end Phrasebook.Document.Yaml
