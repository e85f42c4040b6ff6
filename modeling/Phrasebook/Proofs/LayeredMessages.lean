import Mathlib.Data.List.TakeWhile
import Phrasebook.Proofs.LayeredLoads
import Phrasebook.Proofs.MessageVariants

/-!
# Messages of layers

Layers replace each other by the keys at the top of their catalogs, in place, while of two texts
with the same dotted key the later one counts. So the message of the last layer is the message of
all layers if it stands last under the same top key in both. A dotted key that is reached from two
top keys, such as `a.b` and `a`, can have another text.
-/

namespace Phrasebook

namespace Catalog

/-- The text that stands last under a dotted key within a top entry. -/
def textUnder? (key : String) (entry : String × Node) : Option String :=
  (flattenNode entry.1 entry.2).reverse.lookup key

/-- The last of the top keys under which a dotted key has a text. -/
def topKey? (c : Catalog) (key : String) : Option String :=
  (c.entries.reverse.find? fun entry => (textUnder? key entry).isSome).map Prod.fst

theorem lookup_reverse_flattenEntries (key : String) (entries : Entries Node) :
    (flattenEntries "" entries).reverse.lookup key =
      entries.reverse.findSome? (textUnder? key) := by
  induction entries with
  | nil => rw [flattenEntries]; rfl
  | cons entry rest ih =>
      obtain ⟨top, node⟩ := entry
      have hjoin : join "" top = top := rfl
      rw [flattenEntries, List.reverse_append, List.lookup_append, ih, List.reverse_cons,
        List.findSome?_append, hjoin]
      simp [textUnder?]

theorem text?_ofCatalog (c : Catalog) (key : String) :
    (Messages.ofCatalog c).text? key = c.entries.reverse.findSome? (textUnder? key) := by
  rw [← lookup_reverse_flattenEntries, Messages.text?_ofCatalog]
  rfl

theorem text?_of_topKey? {c : Catalog} {key top : String}
    (htop : c.topKey? key = some top) :
    ∃ node text, c.get? top = some node ∧ textUnder? key (top, node) = some text ∧
      (Messages.ofCatalog c).text? key = some text := by
  obtain ⟨⟨top, node⟩, hfind, rfl⟩ := Option.map_eq_some_iff.mp htop
  obtain ⟨hsome, later, earlier, hentries, hlater⟩ := List.find?_eq_some_iff_append.mp hfind
  obtain ⟨text, htext⟩ := Option.isSome_iff_exists.mp hsome
  have hmem : (top, node) ∈ c.entries.reverse := by
    rw [hentries]
    exact List.mem_append_right _ List.mem_cons_self
  refine ⟨node, text, Entries.get?_of_mem c.nodup_keys (List.mem_reverse.mp hmem), htext, ?_⟩
  rw [text?_ofCatalog, List.findSome?_eq_some_iff]
  exact ⟨later, _, earlier, hentries, htext, fun entry hentry => by simpa using hlater entry hentry⟩

theorem exists_topKey?_of_mem {c : Catalog} {key text : String} {entry : String × Node}
    (hmem : entry ∈ c.entries) (htext : textUnder? key entry = some text) :
    ∃ top, c.topKey? key = some top := by
  have hsome : (c.entries.reverse.find? fun entry => (textUnder? key entry).isSome).isSome := by
    rw [List.find?_isSome]
    exact ⟨entry, List.mem_reverse.mpr hmem, by rw [htext]; rfl⟩
  obtain ⟨last, hlast⟩ := Option.isSome_iff_exists.mp hsome
  exact ⟨last.1, by rw [topKey?, hlast]; rfl⟩

theorem exists_topKey?_of_text? {c : Catalog} {key text : String}
    (h : (Messages.ofCatalog c).text? key = some text) : ∃ top, c.topKey? key = some top := by
  rw [text?_ofCatalog] at h
  obtain ⟨entry, hmem, htext⟩ := List.exists_of_findSome?_eq_some h
  exact exists_topKey?_of_mem (List.mem_reverse.mp hmem) htext

/-! ## Keys without points -/

/-- The path of a text goes on from that of the node it is in. -/
def GoesOn (path key : String) : Prop := ∃ rest, key.toList = path.toList ++ '.' :: rest

theorem goesOn_join {path key : String} (hpath : path ≠ "") : GoesOn path (join path key) := by
  rw [join, if_neg hpath]
  exact ⟨key.toList, by simp⟩

theorem GoesOn.trans {path middle key : String} (h : GoesOn path middle)
    (hkey : key = middle ∨ GoesOn middle key) : GoesOn path key := by
  obtain ⟨rest, hmiddle⟩ := h
  rcases hkey with rfl | ⟨more, hkey⟩
  · exact ⟨rest, hmiddle⟩
  · exact ⟨rest ++ '.' :: more, by rw [hkey, hmiddle]; simp⟩

mutual

theorem goesOn_of_mem_flattenNode {path : String} (hpath : path ≠ "") :
    ∀ (node : Node) {pair : String × String}, pair ∈ flattenNode path node →
      pair.1 = path ∨ GoesOn path pair.1
  | .text s, pair, h => by
      rw [flattenNode, List.mem_singleton] at h
      exact Or.inl (congrArg Prod.fst h)
  | .group entries, pair, h => by
      rw [flattenNode] at h
      exact Or.inr (goesOn_of_mem_flattenEntries hpath entries h)

theorem goesOn_of_mem_flattenEntries {path : String} (hpath : path ≠ "") :
    ∀ (entries : List (String × Node)) {pair : String × String},
      pair ∈ flattenEntries path entries → GoesOn path pair.1
  | [], pair, h => by
      rw [flattenEntries] at h
      cases h
  | (key, node) :: rest, pair, h => by
      rw [flattenEntries] at h
      rcases List.mem_append.mp h with h | h
      · have hjoin : GoesOn path (join path key) := goesOn_join hpath
        have hne : join path key ≠ "" := by
          intro hempty
          obtain ⟨tail, htail⟩ := hjoin
          rw [hempty] at htail
          simp at htail
        exact hjoin.trans (goesOn_of_mem_flattenNode hne node h)
      · exact goesOn_of_mem_flattenEntries hpath rest h

end

/-- A top key without a point is the first part of all dotted keys with texts under it. -/
theorem toList_eq_takeWhile {key top text : String} {node : Node} (hne : top ≠ "")
    (hpoint : '.' ∉ top.toList) (h : textUnder? key (top, node) = some text) :
    top.toList = key.toList.takeWhile (· ≠ '.') := by
  obtain ⟨before, after, hpairs, -⟩ := List.lookup_eq_some_iff.mp h
  have hmem : (key, text) ∈ (flattenNode top node).reverse :=
    hpairs ▸ List.mem_append_right _ List.mem_cons_self
  have hall : ∀ c ∈ top.toList, decide (c ≠ '.') = true := by
    intro c hc
    simp only [decide_eq_true_eq]
    rintro rfl
    exact hpoint hc
  rcases goesOn_of_mem_flattenNode hne node (List.mem_reverse.mp hmem) with hkey | ⟨rest, hkey⟩
  · dsimp only at hkey
    rw [hkey, List.takeWhile_eq_self_iff.mpr hall]
  · dsimp only at hkey
    rw [hkey, List.takeWhile_append_of_pos hall]
    simp

/-! ## A catalog over another one -/

theorem get?_overlay_of_eq_some (c : Catalog) {upper : Catalog} {key : String} {node : Node}
    (hget : upper.get? key = some node) : (c.overlay upper).get? key = some node := by
  rw [get?_overlay, hget, Option.some_or]

theorem text?_overlay (c : Catalog) {upper : Catalog} {key text : String}
    (htext : (Messages.ofCatalog upper).text? key = some text) :
    ∃ top node found, (c.overlay upper).topKey? key = some top ∧
      (c.overlay upper).get? top = some node ∧ textUnder? key (top, node) = some found ∧
      (Messages.ofCatalog (c.overlay upper)).text? key = some found ∧
      (upper.topKey? key = some top → found = text) := by
  obtain ⟨upperTop, hupperTop⟩ := exists_topKey?_of_text? htext
  obtain ⟨upperNode, upperText, hupperNode, hunder, hupperText⟩ := text?_of_topKey? hupperTop
  -- The node is there under the same top key, but another top key may come behind it.
  have hover := get?_overlay_of_eq_some c hupperNode
  obtain ⟨top, htop⟩ := exists_topKey?_of_mem (Entries.mem_of_get? hover) hunder
  obtain ⟨node, found, hnode, hfound, hmessage⟩ := text?_of_topKey? htop
  refine ⟨top, node, found, htop, hnode, hfound, hmessage, fun hsame => ?_⟩
  obtain rfl : upperTop = top := Option.some.inj (hupperTop.symm.trans hsame)
  obtain rfl : upperNode = node := Option.some.inj (hover.symm.trans hnode)
  have htexts : upperText = text := Option.some.inj (hupperText.symm.trans htext)
  rw [← htexts]
  exact Option.some.inj (hfound.symm.trans hunder)

/-- Without points in the top keys only one of them can have a text for a dotted key. -/
theorem topKey?_overlay {c upper : Catalog}
    (hpoints : ∀ top ∈ (c.overlay upper).entries.keys, top ≠ "" ∧ '.' ∉ top.toList)
    {key text : String} (htext : (Messages.ofCatalog upper).text? key = some text) :
    (c.overlay upper).topKey? key = upper.topKey? key := by
  obtain ⟨upperTop, hupperTop⟩ := exists_topKey?_of_text? htext
  obtain ⟨top, node, found, htop, hnode, hfound, -⟩ := text?_overlay c htext
  obtain ⟨upperNode, upperText, hupperNode, hunder, -⟩ := text?_of_topKey? hupperTop
  have hfirst : ∀ {top text : String} {node : Node}, (c.overlay upper).get? top = some node →
      textUnder? key (top, node) = some text →
      top.toList = key.toList.takeWhile (· ≠ '.') := by
    intro top text node hget hunder
    have hkey := hpoints top (List.mem_map_of_mem (Entries.mem_of_get? hget))
    exact toList_eq_takeWhile hkey.1 hkey.2 hunder
  -- Both top keys are the part of the dotted key before its first point.
  rw [htop, hupperTop]
  congr 1
  apply String.toList_injective
  rw [hfirst hnode hfound, hfirst (get?_overlay_of_eq_some c hupperNode) hunder]

end Catalog

namespace Loader

variable {σ : Type}

theorem layered_concat {lower : List (Loader σ)} {last : Loader σ} {domain locale : String}
    {state after : σ} {own : Catalog}
    (hload : last domain locale (loadEach domain locale lower state).2 = (.ok own, after)) :
    layered (lower ++ [last]) domain locale state =
      (.ok ((Catalog.layered (catalogs (loadEach domain locale lower state).1)).overlay own),
        after) := by
  rw [layered, overlayAll_append, overlayAll_eq _ _ lower, overlayAll]
  dsimp only
  rw [hload]
  rfl

/-- Every message of the last layer is there in all layers. It has the same text if it stands last
under the same top key, and so always if no top key is empty or has a point in it. -/
theorem text?_layered_last {lower : List (Loader σ)} {last : Loader σ} {domain locale : String}
    {state after : σ} {own : Catalog}
    (hload : last domain locale (loadEach domain locale lower state).2 = (.ok own, after)) :
    ∃ c, layered (lower ++ [last]) domain locale state = (.ok c, after) ∧
      ∀ key text, (Messages.ofCatalog own).text? key = some text →
        ∃ top node, c.topKey? key = some top ∧ c.get? top = some node ∧
          (Messages.ofCatalog c).text? key = Catalog.textUnder? key (top, node) ∧
          (own.topKey? key = some top → (Messages.ofCatalog c).text? key = some text) ∧
          ((∀ top ∈ c.entries.keys, top ≠ "" ∧ '.' ∉ top.toList) →
            (Messages.ofCatalog c).text? key = some text) := by
  refine ⟨_, layered_concat hload, fun key text htext => ?_⟩
  obtain ⟨top, node, found, htop, hnode, hfound, hmessage, hsame⟩ :=
    Catalog.text?_overlay _ htext
  refine ⟨top, node, htop, hnode, hmessage.trans hfound.symm, fun hownTop => ?_,
    fun hpoints => ?_⟩
  · rw [hmessage, hsame hownTop]
  · rw [Catalog.topKey?_overlay hpoints htext] at htop
    rw [hmessage, hsame htop]

def appLayer (pairs : List (String × Node)) : Loader Unit :=
  ofCatalogs [(("app", "en"), .ofList pairs)]

theorem text?_layered_dotted_over_group :
    ∃ c, layered [appLayer [("a", .group [("b", .text "deep")])],
        appLayer [("a.b", .text "new")]] "app" "en" () = (.ok c, ()) ∧
      (Messages.ofCatalog c).text? "a.b" = some "new" := by
  have hload : appLayer [("a.b", .text "new")] "app" "en"
      (loadEach "app" "en" [appLayer [("a", .group [("b", .text "deep")])]] ()).2 =
      (.ok (.ofList [("a.b", .text "new")]), ()) := rfl
  obtain ⟨c, hc, hmessages⟩ := text?_layered_last hload
  refine ⟨c, hc, ?_⟩
  cases hc
  obtain ⟨top, node, htop, -, -, hsame, -⟩ := hmessages "a.b" "new" (by decide +kernel)
  apply hsame
  rw [← htop]
  decide +kernel

/-- The key `a.b` has its place before the group, so a text under it is hidden by the group. -/
theorem text?_layered_hidden_by_group :
    ∃ own c, appLayer [("a.b", .text "new")] "app" "en" () = (.ok own, ()) ∧
      layered [appLayer [("a.b", .text "old"), ("a", .group [("b", .text "deep")])],
        appLayer [("a.b", .text "new")]] "app" "en" () = (.ok c, ()) ∧
      (Messages.ofCatalog own).text? "a.b" = some "new" ∧
      (Messages.ofCatalog c).text? "a.b" = some "deep" := by
  refine ⟨_, _, rfl, rfl, ?_, ?_⟩
  · decide +kernel
  · decide +kernel

end Loader

end Phrasebook
