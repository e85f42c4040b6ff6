import Phrasebook.Document.Json
import Phrasebook.Document.Yaml

/-!
# Documents of both kinds

A JSON value has the same data as a YAML value: objects are mappings whose keys are strings, arrays
are sequences. Both become the same catalog, or are refused for the same reason, as long as no
number in them is a float: floats are written differently in the two kinds of documents.
-/

namespace Phrasebook.Document.Json

mutual

def toYaml : Json → Yaml
  | null => .null
  | bool b => .bool b
  | number n => .number n
  | string s => .string s
  | array items => .sequence (itemsToYaml items)
  | object members => .mapping (membersToYaml members)

def itemsToYaml : List Json → List Yaml
  | [] => []
  | item :: rest => item.toYaml :: itemsToYaml rest

def membersToYaml : List (String × Json) → List (Yaml × Yaml)
  | [] => []
  | (key, value) :: rest => (.string key, value.toYaml) :: membersToYaml rest

end

inductive FloatFree : Json → Prop where
  | null : FloatFree null
  | bool (b : Bool) : FloatFree (bool b)
  | int (n : Int) : FloatFree (number (.int n))
  | string (s : String) : FloatFree (string s)
  | array {items : List Json} : (∀ item ∈ items, FloatFree item) → FloatFree (array items)
  | object {members : List (String × Json)} :
      (∀ member ∈ members, FloatFree member.2) → FloatFree (object members)

mutual

theorem toNode_toYaml (depth : Nat) :
    ∀ {value : Json}, FloatFree value → value.toYaml.toNode depth = value.toNode depth
  | .null, _ => by rw [toYaml, Yaml.toNode, toNode]
  | .bool _, _ => by rw [toYaml, Yaml.toNode, toNode]
  | .string _, _ => by rw [toYaml, Yaml.toNode, toNode]
  | .number n, h => by
      cases h
      rw [toYaml, Yaml.toNode, toNode]
      rfl
  | .array items, h => by
      cases h with
      | array hitems => rw [toYaml, Yaml.toNode, toNode, itemNodes_itemsToYaml depth 0 [] hitems]
  | .object members, h => by
      cases h with
      | object hmembers =>
          rw [toYaml, Yaml.toNode, toNode, entryNodes_membersToYaml depth [] hmembers]

theorem itemNodes_itemsToYaml (depth index : Nat) (done : Entries Node) :
    ∀ {items : List Json}, (∀ item ∈ items, FloatFree item) →
      Yaml.itemNodes depth index done (itemsToYaml items) = itemNodes depth index done items
  | [], _ => by rw [itemsToYaml, Yaml.itemNodes, itemNodes]
  | item :: rest, h => by
      have hitem := toNode_toYaml (depth + 1) (h item List.mem_cons_self)
      rw [itemsToYaml, Yaml.itemNodes, itemNodes, hitem]
      cases item.toNode (depth + 1) with
      | error e => rfl
      | ok node =>
          exact itemNodes_itemsToYaml depth (index + 1) _
            fun other hother => h other (List.mem_cons_of_mem _ hother)

theorem entryNodes_membersToYaml (depth : Nat) (done : Entries Node) :
    ∀ {members : List (String × Json)}, (∀ member ∈ members, FloatFree member.2) →
      Yaml.entryNodes depth done (membersToYaml members) = memberNodes depth done members
  | [], _ => by rw [membersToYaml, Yaml.entryNodes, memberNodes]
  | (key, value) :: rest, h => by
      have hvalue := toNode_toYaml (depth + 1) (h (key, value) List.mem_cons_self)
      rw [membersToYaml, Yaml.entryNodes, memberNodes, Yaml.scalar?, hvalue]
      cases value.toNode (depth + 1) with
      | error e => rfl
      | ok node =>
          exact entryNodes_membersToYaml depth _
            fun other hother => h other (List.mem_cons_of_mem _ hother)

end

/-- Without floats a document of either kind gives the same catalog, in the same order at every
level, or the same error. -/
theorem toCatalog_toYaml {value : Json} (h : FloatFree value) :
    value.toYaml.toCatalog = value.toCatalog := by
  cases value with
  | object members =>
      rw [toCatalog, ← toNode_toYaml 0 h, toYaml, Yaml.toCatalog]
  | _ => rfl

example : layout.render (.ofInt (10 ^ 20)) = "1e+20" ∧
    Yaml.layout.render (.ofInt (10 ^ 20)) = "1e20" := by decide +kernel

theorem toCatalog_toYaml_mixed :
    let value := object [("b", array [null, number (.int (-3)), bool true]), ("", object []),
      ("a", null), ("b.1", string "x")]
    FloatFree value ∧ value.toYaml.toCatalog = value.toCatalog ∧
      value.toCatalog = .ok (.ofList [("b", .group [("1", .text "-3"), ("2", .text "true")]),
        ("", .group []), ("b.1", .text "x")]) := by
  intro value
  have hitems : FloatFree (array [null, number (.int (-3)), bool true]) := by
    refine .array fun item hitem => ?_
    simp only [List.mem_cons, List.not_mem_nil, or_false] at hitem
    rcases hitem with rfl | rfl | rfl
    · exact .null
    · exact .int (-3)
    · exact .bool true
  have hvalue : FloatFree value := by
    refine .object fun member hmember => ?_
    simp only [List.mem_cons, List.not_mem_nil, or_false] at hmember
    rcases hmember with rfl | rfl | rfl | rfl
    · exact hitems
    · exact .object nofun
    · exact .null
    · exact .string "x"
  exact ⟨hvalue, toCatalog_toYaml hvalue, rfl⟩

end Phrasebook.Document.Json
