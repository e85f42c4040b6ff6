import Phrasebook.Loader
import Phrasebook.Proofs.CatalogPaths
import Phrasebook.Proofs.JsonPaths

/-!
# Catalogs of documents

The catalog of a document has a node at the end of each path that leads to a value other than null.
There is no catalog exactly if some path is longer than the limit on nesting.
-/

namespace Phrasebook.Document.Json

/-! ## Nodes without a limit -/

def entry (key : String) (node : Option Node) : Entries Node :=
  (node.map fun node => (key, node)).toList

mutual

/-- The node of a value, however deep it is. -/
def asNode? : Json → Option Node
  | null => none
  | bool b => some (.text (boolText b))
  | number n => some (.text (n.render layout))
  | string s => some (.text s)
  | array items => some (.group (itemEntries 0 items))
  | object members => some (.group (memberEntries members))

def itemEntries (index : Nat) : List Json → Entries Node
  | [] => []
  | item :: rest => entry (toString index) item.asNode? ++ itemEntries (index + 1) rest

def memberEntries : List (String × Json) → Entries Node
  | [] => []
  | (key, value) :: rest => entry key value.asNode? ++ memberEntries rest

end

theorem itemEntries_eq (index : Nat) (items : List Json) :
    itemEntries index items =
      memberEntries ((items.zipIdx index).map fun (item, index) => (toString index, item)) := by
  induction items generalizing index with
  | nil => rw [itemEntries, List.zipIdx_nil, List.map_nil, memberEntries]
  | cons item rest ih =>
      rw [itemEntries, List.zipIdx_cons, List.map_cons, memberEntries, ih]

theorem asNode?_of_isGroup {value : Json} (h : value.isGroup = true) :
    value.asNode? = some (.group (memberEntries value.children)) := by
  cases value with
  | array items => rw [asNode?, itemEntries_eq]; rfl
  | object members => rw [asNode?]; rfl
  | _ => cases h

theorem asNode?_of_not_isGroup {value : Json} (h : value.isGroup = false) :
    value.asNode? = value.scalarText?.map Node.text ∧ value.children = [] := by
  cases value with
  | array items => cases h
  | object members => cases h
  | _ => exact ⟨by rw [asNode?]; rfl, rfl⟩

theorem asNode?_eq_none_iff (value : Json) : value.asNode? = none ↔ value = null := by
  cases value <;> simp [asNode?]

theorem get?_memberEntries {members : Entries Json} (h : members.keys.Nodup) (key : String) :
    Entries.get? key (memberEntries members) = (members.get? key).bind asNode? := by
  induction members with
  | nil => rw [memberEntries]; rfl
  | cons member rest ih =>
      obtain ⟨first, value⟩ := member
      obtain ⟨habsent, hrest⟩ := List.nodup_cons.mp h
      have ih := ih hrest
      rw [memberEntries, Entries.get?_cons]
      cases hvalue : value.asNode? with
      | none =>
          -- A null leaves no entry, and no later member has its key.
          have hentry : entry first none ++ memberEntries rest = memberEntries rest := rfl
          rw [hentry, ih]
          split
          · rename_i hkey
            rw [hkey, Entries.get?_eq_none_of_not_mem habsent, Option.bind_some, hvalue]
            rfl
          · rfl
      | some node =>
          have hentry : entry first (some node) ++ memberEntries rest =
              (first, node) :: memberEntries rest := rfl
          rw [hentry, Entries.get?_cons, ih]
          split
          · rw [Option.bind_some, hvalue]
          · rfl

theorem keys_memberEntries (members : List (String × Json)) :
    (memberEntries members).keys =
      (members.filter fun member => !member.2.isNull).map Prod.fst := by
  induction members with
  | nil => rw [memberEntries]; rfl
  | cons member rest ih =>
      obtain ⟨key, value⟩ := member
      rw [memberEntries, Entries.keys, List.map_append]
      rw [Entries.keys] at ih
      rw [ih]
      cases value <;> simp [asNode?, entry, isNull]

/-- A path leads to the node of what it leads to in the document. -/
theorem at?_asNode? (d : JsonDocument) (path : List String) :
    (d.value.asNode?.bind fun node => node.at? path) = (d.value.at? path).bind asNode? := by
  induction path generalizing d with
  | nil => simp
  | cons key path ih =>
      rw [at?_cons]
      cases hgroup : d.value.isGroup with
      | false =>
          obtain ⟨hnode, hchildren⟩ := asNode?_of_not_isGroup hgroup
          rw [hnode, hchildren]
          cases d.value.scalarText? <;> rfl
      | true =>
          rw [asNode?_of_isGroup hgroup, Option.bind_some, Node.at?_cons, Node.entries,
            get?_memberEntries d.nodup_keys_children]
          cases hget : Entries.get? key d.value.children with
          | none => rfl
          | some value =>
              rw [Option.bind_some, Option.bind_some]
              exact ih (d.child (Entries.mem_of_get? hget))

/-! ## The limit on nesting -/

/-- Some path through a value is too long for a value that lies at a depth. -/
def Exceeds (depth : Nat) (value : Json) : Prop :=
  ∃ path, (value.at? path).isSome ∧ maxDepth < depth + path.length

theorem exceeds_iff (d : JsonDocument) (depth : Nat) :
    d.value.Exceeds depth ↔
      maxDepth < depth ∨ ∃ child ∈ d.value.children, child.2.Exceeds (depth + 1) := by
  constructor
  · rintro ⟨path, hsome, hlength⟩
    cases path with
    | nil => exact Or.inl hlength
    | cons key path =>
        rw [at?_cons] at hsome
        cases hget : Entries.get? key d.value.children with
        | none =>
            rw [hget] at hsome
            cases hsome
        | some child =>
            rw [hget, Option.bind_some] at hsome
            rw [List.length_cons] at hlength
            exact Or.inr ⟨(key, child), Entries.mem_of_get? hget, path, hsome, by omega⟩
  · rintro (hdepth | ⟨⟨key, child⟩, hmem, path, hsome, hlength⟩)
    · exact ⟨[], rfl, hdepth⟩
    · refine ⟨key :: path, ?_, ?_⟩
      · rw [at?_cons, Entries.get?_of_mem d.nodup_keys_children hmem]
        exact hsome
      · rw [List.length_cons]
        omega

theorem itemNodes_eq (depth index : Nat) (done : Entries Node) (items : List Json) :
    itemNodes depth index done items =
      memberNodes depth done
        ((items.zipIdx index).map fun (item, index) => (toString index, item)) := by
  induction items generalizing index done with
  | nil => rw [itemNodes, List.zipIdx_nil, List.map_nil, memberNodes]
  | cons item rest ih =>
      rw [itemNodes, List.zipIdx_cons, List.map_cons, memberNodes]
      cases item.toNode (depth + 1) with
      | error e => rfl
      | ok node => exact ih (index + 1) _

theorem toNode_of_lt {depth : Nat} (h : maxDepth < depth) (value : Json) :
    value.toNode depth = .error .tooDeep := by
  cases value <;> rw [toNode, checkDepth, if_pos h]

theorem toNode_of_le {depth : Nat} (h : depth ≤ maxDepth) (value : Json) :
    value.toNode depth =
      if value.isGroup then memberNodes depth [] value.children else .ok value.asNode? := by
  have hdepth : ¬ maxDepth < depth := by omega
  cases value with
  | array items =>
      rw [toNode, checkDepth, if_neg hdepth, itemNodes_eq]
      rfl
  | _ =>
      rw [toNode, checkDepth, if_neg hdepth]
      rfl

theorem place_of_not_mem {entries : Entries Node} {key : String} (h : key ∉ entries.keys)
    (node : Option Node) : place entries key node = entries ++ entry key node := by
  cases node with
  | none => exact (List.append_nil entries).symm
  | some node => exact Entries.set_of_not_mem node h

theorem memberNodes_of_ok {depth : Nat} {members : List (String × Json)}
    (h : ∀ member ∈ members, member.2.toNode (depth + 1) = .ok member.2.asNode?)
    {done : Entries Node} (hnodup : (done.keys ++ Entries.keys members).Nodup) :
    memberNodes depth done members = .ok (some (.group (done ++ memberEntries members))) := by
  induction members generalizing done with
  | nil => rw [memberNodes, memberEntries, List.append_nil]
  | cons member rest ih =>
      obtain ⟨key, value⟩ := member
      have hvalue := h (key, value) List.mem_cons_self
      have hmiddle : (key :: (done.keys ++ Entries.keys rest)).Nodup :=
        List.nodup_middle.mp hnodup
      obtain ⟨hkey, hrest⟩ := List.nodup_cons.mp hmiddle
      have habsent : key ∉ done.keys := fun hmem => hkey (List.mem_append_left _ hmem)
      have htail : ((done ++ entry key value.asNode?).keys ++ Entries.keys rest).Nodup := by
        cases value.asNode? with
        | none => simpa [entry] using hrest
        | some node => simpa [entry, Entries.keys] using hnodup
      rw [memberNodes, hvalue, memberEntries, ← List.append_assoc]
      dsimp only
      rw [place_of_not_mem habsent]
      exact ih (fun member hmem => h member (List.mem_cons_of_mem _ hmem)) htail

theorem memberNodes_of_tooDeep {depth : Nat} {members : List (String × Json)}
    (h : ∀ member ∈ members, ∀ e, member.2.toNode (depth + 1) = .error e → e = .tooDeep)
    (hsome : ∃ member ∈ members, member.2.toNode (depth + 1) = .error .tooDeep)
    (done : Entries Node) : memberNodes depth done members = .error .tooDeep := by
  induction members generalizing done with
  | nil =>
      obtain ⟨member, hmem, -⟩ := hsome
      cases hmem
  | cons member rest ih =>
      obtain ⟨key, value⟩ := member
      rw [memberNodes]
      cases hvalue : value.toNode (depth + 1) with
      | error e =>
          obtain rfl := h (key, value) List.mem_cons_self e hvalue
          rfl
      | ok node =>
          apply ih fun member hmem => h member (List.mem_cons_of_mem _ hmem)
          obtain ⟨member, hmem, herror⟩ := hsome
          rcases List.mem_cons.mp hmem with rfl | hmem
          · rw [hvalue] at herror
            cases herror
          · exact ⟨member, hmem, herror⟩

/-- A value at a depth becomes its node, or it is refused because a path goes too deep. -/
theorem toNode_cases (d : JsonDocument) (depth : Nat) :
    d.value.Exceeds depth ∧ d.value.toNode depth = .error .tooDeep ∨
      ¬ d.value.Exceeds depth ∧ d.value.toNode depth = .ok d.value.asNode? := by
  induction d using JsonDocument.induction_on_children generalizing depth with
  | h d ih =>
      rw [exceeds_iff d]
      by_cases hdepth : maxDepth < depth
      · exact Or.inl ⟨Or.inl hdepth, toNode_of_lt hdepth d.value⟩
      rw [toNode_of_le (by omega)]
      have hchildren := fun child hmem => ih child hmem (depth + 1)
      cases hgroup : d.value.isGroup with
      | false =>
          have hnone := (asNode?_of_not_isGroup hgroup).2
          exact Or.inr ⟨by simp [hdepth, hnone], rfl⟩
      | true =>
          rw [if_pos rfl, asNode?_of_isGroup hgroup]
          by_cases hdeep : ∃ child ∈ d.value.children, child.2.Exceeds (depth + 1)
          · refine Or.inl ⟨Or.inr hdeep, memberNodes_of_tooDeep ?_ ?_ []⟩
            · intro child hmem e herror
              rcases hchildren child hmem with ⟨-, hnode⟩ | ⟨-, hnode⟩
              · exact (Except.error.inj (herror.symm.trans hnode))
              · cases herror.symm.trans hnode
            · obtain ⟨child, hmem, hexceeds⟩ := hdeep
              exact ⟨child, hmem, ((hchildren child hmem).resolve_right fun hok =>
                hok.1 hexceeds).2⟩
          · refine Or.inr ⟨by simp only [hdepth, hdeep, or_self, not_false_eq_true], ?_⟩
            apply memberNodes_of_ok
            · intro child hmem
              exact ((hchildren child hmem).resolve_left fun herror =>
                hdeep ⟨child, hmem, herror.1⟩).2
            · exact d.nodup_keys_children

/-! ## Catalogs -/

theorem asNode?_eq_text_iff (value : Json) (text : String) :
    value.asNode? = some (.text text) ↔ value.scalarText? = some text := by
  cases value <;> simp [asNode?, scalarText?]

theorem asNode?_eq_group_iff (value : Json) (entries : Entries Node) :
    value.asNode? = some (.group entries) ↔
      value.isGroup = true ∧ entries = memberEntries value.children := by
  cases hgroup : value.isGroup with
  | false =>
      rw [(asNode?_of_not_isGroup hgroup).1]
      cases value.scalarText? <;> simp
  | true =>
      rw [asNode?_of_isGroup hgroup]
      simp [eq_comm]

theorem mem_memberEntries {members : List (String × Json)} {item : String × Node}
    (h : item ∈ memberEntries members) :
    ∃ member ∈ members, member.2.asNode? = some item.2 := by
  induction members with
  | nil =>
      rw [memberEntries] at h
      cases h
  | cons member rest ih =>
      obtain ⟨key, value⟩ := member
      rw [memberEntries, List.mem_append] at h
      rcases h with h | h
      · obtain ⟨node, hnode, rfl⟩ := Option.map_eq_some_iff.mp (Option.mem_toList.mp h)
        exact ⟨(key, value), List.mem_cons_self, hnode⟩
      · obtain ⟨member, hmem, hnode⟩ := ih h
        exact ⟨member, List.mem_cons_of_mem _ hmem, hnode⟩

theorem distinct_asNode? (d : JsonDocument) {node : Node} (hnode : d.value.asNode? = some node) :
    Catalog.DistinctNode node := by
  induction d using JsonDocument.induction_on_children generalizing node with
  | h d ih =>
      cases node with
      | text s => exact .text s
      | group entries =>
          obtain ⟨-, rfl⟩ := (asNode?_eq_group_iff d.value entries).mp hnode
          refine .group ?_ fun item hitem => ?_
          · rw [keys_memberEntries]
            exact d.nodup_keys_children.sublist (List.filter_sublist.map Prod.fst)
          · obtain ⟨child, hmem, hchild⟩ := mem_memberEntries hitem
            exact ih child hmem hchild

theorem distinct_memberEntries {d : JsonDocument} {members : Entries Json}
    (hroot : d.value = object members) : Catalog.DistinctNode (.group (memberEntries members)) :=
  distinct_asNode? d (by rw [hroot, asNode?])

theorem entries_ofList_memberEntries {d : JsonDocument} {members : Entries Json}
    (hroot : d.value = object members) :
    (Catalog.ofList (memberEntries members)).entries = memberEntries members :=
  Entries.setAll_nil_of_nodup (distinct_memberEntries hroot).keys_nodup

theorem toCatalog_cases {d : JsonDocument} {members : Entries Json}
    (hroot : d.value = object members) :
    d.value.Exceeds 0 ∧ d.value.toCatalog = .error .tooDeep ∨
      ¬ d.value.Exceeds 0 ∧ d.value.toCatalog = .ok (.ofList (memberEntries members)) := by
  have hcatalog : d.value.toCatalog = rootCatalog (d.value.toNode 0) := by
    rw [hroot, toCatalog]
  rw [hcatalog]
  rcases toNode_cases d 0 with ⟨hexceeds, hnode⟩ | ⟨hexceeds, hnode⟩
  · exact Or.inl ⟨hexceeds, by rw [hnode]; rfl⟩
  · exact Or.inr ⟨hexceeds, by rw [hnode, hroot, asNode?]; rfl⟩

theorem at?_ofList_memberEntries {d : JsonDocument} {members : Entries Json}
    (hroot : d.value = object members) (path : List String) :
    (Catalog.ofList (memberEntries members)).at? path = (d.value.at? path).bind asNode? := by
  rw [← at?_asNode? d, hroot, asNode?, Catalog.at?, entries_ofList_memberEntries hroot]
  rfl

/-- What the end of a path shows of a document in its catalog. -/
structure Shows (found : Option Json) (node : Option Node) : Prop where
  group : (∃ entries, node = some (.group entries)) ↔
    ∃ value, found = some value ∧ value.isGroup = true
  text : ∀ s, node = some (.text s) ↔ ∃ value, found = some value ∧ value.scalarText? = some s
  nothing : node = none ↔ found = none ∨ found = some null
  /-- Entries stand in the order of the document, without the nulls. -/
  keys : ∀ entries, node = some (.group entries) → ∃ value, found = some value ∧
    Entries.keys entries = (value.children.filter fun child => !child.2.isNull).map Prod.fst

theorem shows_bind_asNode? (found : Option Json) : Shows found (found.bind asNode?) := by
  cases found with
  | none => constructor <;> simp
  | some value =>
      constructor
      · simp [asNode?_eq_group_iff]
      · simp [asNode?_eq_text_iff]
      · simp [asNode?_eq_none_iff]
      · intro entries hentries
        rw [Option.bind_some, asNode?_eq_group_iff] at hentries
        rw [hentries.2]
        exact ⟨value, rfl, keys_memberEntries value.children⟩

theorem exists_path_of_mem_flatten {d : JsonDocument} {members : Entries Json}
    (hroot : d.value = object members) {pair : String × String}
    (hpair : pair ∈ (Catalog.ofList (memberEntries members)).flatten) :
    ∃ path, (d.value.at? path).isSome ∧
      (Catalog.ofList (memberEntries members)).at? path = some (.text pair.2) ∧
      pair.1 = Catalog.dotted (Catalog.shown path) := by
  have hdistinct : (Catalog.ofList (memberEntries members)).HasDistinctKeys := by
    rw [Catalog.HasDistinctKeys, entries_ofList_memberEntries hroot]
    exact distinct_memberEntries hroot
  rw [Catalog.flatten_eq_map_shown] at hpair
  obtain ⟨⟨path, text⟩, hleaf, rfl⟩ := List.mem_map.mp hpair
  have hat := (Catalog.mem_leaves_iff hdistinct path text).mp hleaf
  refine ⟨path, ?_, hat, rfl⟩
  rw [at?_ofList_memberEntries hroot] at hat
  obtain ⟨value, hvalue, -⟩ := Option.bind_eq_some_iff.mp hat
  rw [hvalue]
  rfl

theorem exists_short_path (d : JsonDocument) {c : Catalog} (hc : d.value.toCatalog = .ok c)
    {pair : String × String} (hpair : pair ∈ c.flatten) :
    ∃ path, path.length ≤ maxDepth ∧ c.at? path = some (.text pair.2) ∧
      pair.1 = Catalog.dotted (Catalog.shown path) := by
  cases hroot : d.value with
  | object members =>
      rcases toCatalog_cases hroot with ⟨-, herror⟩ | ⟨hshort, hcatalog⟩
      · cases herror.symm.trans hc
      · obtain rfl := Except.ok.inj (hcatalog.symm.trans hc)
        obtain ⟨path, hsome, hat, hkey⟩ := exists_path_of_mem_flatten hroot hpair
        refine ⟨path, ?_, hat, hkey⟩
        by_contra hlong
        exact hshort ⟨path, hsome, by omega⟩
  | _ =>
      rw [hroot] at hc
      obtain rfl := Except.ok.inj hc
      rw [Catalog.flatten_empty] at hpair
      cases hpair

/-- An object is refused exactly if some value in it lies under more than 32 keys and positions.
Otherwise each path shows in the catalog what it leads to in the document, and each text has the
dotted key of a path of at most 32 steps. -/
theorem toCatalog_paths (d : JsonDocument) {members : Entries Json}
    (hroot : d.value = object members) :
    (∀ e, d.value.toCatalog = .error e ↔
      e = .tooDeep ∧ ∃ path, (d.value.at? path).isSome ∧ 32 < path.length) ∧
    ∀ c, d.value.toCatalog = .ok c →
      (∀ path, Shows (d.value.at? path) (c.at? path)) ∧
      ∀ pair ∈ c.flatten, ∃ path, path.length ≤ 32 ∧ c.at? path = some (.text pair.2) ∧
        pair.1 = Catalog.dotted (Catalog.shown path) := by
  have hexceeds : d.value.Exceeds 0 ↔ ∃ path, (d.value.at? path).isSome ∧ 32 < path.length := by
    simp only [Exceeds, Nat.zero_add, maxDepth]
  constructor
  · intro e
    rw [← hexceeds]
    rcases toCatalog_cases hroot with ⟨hdeep, hcatalog⟩ | ⟨hdeep, hcatalog⟩
    · rw [hcatalog, Except.error.injEq, and_iff_left hdeep, eq_comm]
    · rw [hcatalog]
      exact ⟨nofun, fun herror => absurd herror.2 hdeep⟩
  · intro c hc
    refine ⟨fun path => ?_, fun pair hpair => exists_short_path d hc hpair⟩
    rcases toCatalog_cases hroot with ⟨-, herror⟩ | ⟨-, hcatalog⟩
    · cases herror.symm.trans hc
    · obtain rfl := Except.ok.inj (hcatalog.symm.trans hc)
      rw [at?_ofList_memberEntries hroot]
      exact shows_bind_asNode? _

def nested (path : List String) (d : JsonDocument) : JsonDocument :=
  path.foldr (fun key inner => .object [(key, inner)]) d

/-- A null in a list, and a null that lies one key too deep. -/
theorem toCatalog_paths_menu :
    let members : Entries Json :=
      [("menu", array [string "a", null, object [("x", number (.int 1))]]), ("none", null)]
    (∃ d : JsonDocument, d.value = object members ∧
      read "\x7b\"menu\": [\"a\", null, \x7b\"x\": 1\x7d], \"none\": null\x7d".toList = some d ∧
      ∃ c, d.value.toCatalog = .ok c ∧ c.at? ["menu", "1"] = none ∧
        c.at? ["menu", "2", "x"] = some (.text "1") ∧ c.at? ["none"] = none ∧
        ∀ entries, c.at? ["menu"] = some (.group entries) → Entries.keys entries = ["0", "2"]) ∧
    (nested (List.replicate 33 "a") .null).value.toCatalog = .error .tooDeep := by
  intro members
  constructor
  · obtain ⟨d, hread, hroot⟩ : ∃ d : JsonDocument,
        read "\x7b\"menu\": [\"a\", null, \x7b\"x\": 1\x7d], \"none\": null\x7d".toList = some d ∧
          d.value = object members := by
      simp only [String.reduceToList]
      exact ⟨_, rfl, rfl⟩
    obtain ⟨c, hc⟩ : ∃ c, d.value.toCatalog = .ok c := by
      rw [hroot]
      exact ⟨_, rfl⟩
    have hshows := ((toCatalog_paths d hroot).2 c hc).1
    rw [hroot] at hshows
    refine ⟨d, hroot, hread, c, hc, ?_, ?_, ?_, ?_⟩
    · exact (hshows _).nothing.mpr (Or.inr rfl)
    · exact ((hshows _).text "1").mpr ⟨number (.int 1), rfl, rfl⟩
    · exact (hshows _).nothing.mpr (Or.inr rfl)
    · intro entries hentries
      obtain ⟨value, hvalue, hkeys⟩ := (hshows _).keys entries hentries
      obtain rfl := Option.some.inj hvalue
      exact hkeys.trans (by decide +kernel)
  · exact ((toCatalog_paths (nested (List.replicate 33 "a") .null) rfl).1 .tooDeep).mpr
      ⟨rfl, List.replicate 33 "a", rfl, by decide⟩

end Phrasebook.Document.Json

namespace Phrasebook.CatalogDirectory

theorem eq_ok_of_converted {path : String} {result : Except Document.ConversionError Catalog}
    {c : Catalog} (h : converted path result = .ok c) : result = .ok c := by
  cases result with
  | ok found => exact congrArg Except.ok (Except.ok.inj h)
  | error e => cases h

/-- A text of a file lies under no more keys than the limit allows, whatever is in the file. -/
theorem exists_short_path_of_load {files : Files} {d : CatalogDirectory} (hext : d.ext = ".json")
    {domain locale : String} {c : Catalog} (h : d.load files domain locale = .ok c)
    {pair : String × String} (hpair : pair ∈ c.flatten) :
    ∃ path, path.length ≤ Document.maxDepth ∧ c.at? path = some (.text pair.2) ∧
      pair.1 = Catalog.dotted (Catalog.shown path) := by
  have hempty : Except.ok .empty = (.ok c : Except LoadError Catalog) → False := by
    intro hc
    obtain rfl := Except.ok.inj hc
    rw [Catalog.flatten_empty] at hpair
    cases hpair
  unfold load read at h
  split at h
  · exact (hempty h).elim
  · exact (hempty h).elim
  · split at h
    · cases h
    · rw [parse, if_pos hext] at h
      split at h
      · cases h
      · rename_i document _
        exact Document.Json.exists_short_path document (eq_ok_of_converted h) hpair

end Phrasebook.CatalogDirectory
