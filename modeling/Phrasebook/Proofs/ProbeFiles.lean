import Mathlib.Data.List.Induction
import Phrasebook.Proofs.DirectoryLayers
import Phrasebook.Proofs.Identifiers
import Phrasebook.Proofs.Runs

/-!
# Probing files

Files in which every catalog has one message under one key, and one marked file has another text
there than all the others. Calls that ask for that key show which file a pair was answered from.
-/

namespace Phrasebook

namespace Probe

def text (marked : Bool) : String := if marked then "B" else "A"

def document (marked : Bool) : String := "\x7b\"k\": \"" ++ text marked ++ "\"\x7d"

def catalog (marked : Bool) : Catalog := .ofList [("k", .text (text marked))]

def files (path : String) : Files := fun other => .file (document (other == path)).toUTF8

theorem toList_document (marked : Bool) :
    (document marked).toList =
      "\x7b\"k\": \"".toList ++ (text marked).toList ++ "\"\x7d".toList := by
  rw [document, String.toList_append, String.toList_append]

theorem exists_read_json (marked : Bool) :
    ∃ d, Document.Json.read (document marked).toList = some d ∧
      d.value = .object [("k", .string (text marked))] := by
  rw [toList_document]
  simp only [String.reduceToList]
  cases marked
  · exact ⟨_, rfl, rfl⟩
  · exact ⟨_, rfl, rfl⟩

def isMapping (text : String) : Option Document.Yaml → Bool
  | some (.mapping [(.string key, .string found)]) => key == "k" && found == text
  | _ => false

theorem eq_of_isMapping {text : String} {read : Option Document.Yaml}
    (h : isMapping text read = true) : read = some (.mapping [(.string "k", .string text)]) := by
  unfold isMapping at h
  split at h
  · rw [Bool.and_eq_true, beq_iff_eq, beq_iff_eq] at h
    rw [h.1, h.2]
  · cases h

theorem read_yaml (marked : Bool) :
    Document.Yaml.read (document marked).toList =
      some (.mapping [(.string "k", .string (text marked))]) := by
  -- The reader recurses on what is left of the text, so the kernel has to run it.
  apply eq_of_isMapping
  cases marked <;> decide +kernel

/-- The document is one both in JSON and in YAML. -/
theorem parse_document {ext : String} (h : CatalogDirectory.IsReadable ext) (path : String)
    (marked : Bool) :
    CatalogDirectory.parse ext path (document marked) = .ok (catalog marked) := by
  obtain ⟨d, hjson, hroot⟩ := exists_read_json marked
  rw [CatalogDirectory.parse, hjson, read_yaml]
  dsimp only
  rw [hroot]
  rcases h with rfl | rfl | rfl <;> cases marked <;> rfl

theorem fromUTF8?_toUTF8 (s : String) : String.fromUTF8? s.toUTF8 = some s := by
  rw [String.fromUTF8?, String.toUTF8_eq_toByteArray, dif_pos s.isValidUTF8]
  rfl

theorem load_files {d : CatalogDirectory} (h : CatalogDirectory.IsReadable d.ext)
    (path domain locale : String) :
    d.load (files path) domain locale = .ok (catalog (d.path domain locale == path)) := by
  simp only [CatalogDirectory.load, CatalogDirectory.read, files, Files.Found.text?,
    fromUTF8?_toUTF8]
  exact parse_document h _ _

theorem overlay_empty (marked : Bool) : Catalog.empty.overlay (catalog marked) = catalog marked :=
  rfl

theorem overlay_catalog (lower upper : Bool) :
    (catalog lower).overlay (catalog upper) = catalog upper := by
  ext1
  simp [catalog, Entries.setAll, Entries.set]

theorem overlayFrom_files {s : Settings}
    (h : CatalogDirectory.IsReadable (CatalogDirectory.normalizeExtension s.ext))
    (path : String) (pair : String × String) (directory : String) {c : Catalog}
    (hc : c = .empty ∨ ∃ marked, c = catalog marked) :
    s.overlayFrom (files path) pair c directory =
      catalog ((s.directory directory).path pair.1 pair.2 == path) := by
  rw [Settings.overlayFrom, load_files h]
  rcases hc with rfl | ⟨marked, rfl⟩
  · exact overlay_empty _
  · exact overlay_catalog _ _

theorem catalog_files {s : Settings}
    (h : CatalogDirectory.IsReadable (CatalogDirectory.normalizeExtension s.ext))
    {last : String} (hlast : s.directories.getLast? = some last) (path : String)
    (pair : String × String) :
    s.catalog (files path) pair =
      catalog ((s.directory last).path pair.1 pair.2 == path) := by
  obtain ⟨lower, hdirectories⟩ := List.getLast?_eq_some_iff.mp hlast
  rw [Settings.catalog, hdirectories, List.foldl_append]
  -- What the lower directories hold is replaced, so the last one decides.
  apply overlayFrom_files h
  clear hdirectories
  induction lower using List.reverseRecOn with
  | nil => exact Or.inl rfl
  | append_singleton lower directory ih =>
      rw [List.foldl_append]
      exact Or.inr ⟨_, overlayFrom_files h path pair directory ih⟩

/-- A call that asks for the key in the messages that another call needs. -/
def call (other : Translator.Call) : Translator.Call :=
  ⟨(Translator.domainAndKey other.id).1 ++ ":k", [], other.locale⟩

theorem domainAndKey_call (other : Translator.Call) :
    Translator.domainAndKey (call other).id = ((Translator.domainAndKey other.id).1, "k") := by
  have happend : (Translator.domainAndKey other.id).1 ++ ":k" =
      (Translator.domainAndKey other.id).1 ++ ":" ++ "k" := by
    rw [String.append_assoc]
    rfl
  rw [call, happend]
  exact Translator.domainAndKey_append (Translator.colon_not_mem_domain other.id) "k"

theorem pair_call (t : Translator) (other : Translator.Call) :
    t.pair (call other) = t.pair other := by
  rw [Translator.pair, domainAndKey_call]
  rfl

theorem get_catalog (marked : Bool) (locale : String) (strategy : Strategy) :
    (Messages.ofCatalog (catalog marked)).get "k" none locale strategy =
      ⟨some (text marked), []⟩ := by
  simp [Messages.get, Messages.ofCatalog, Messages.text?, Catalog.flatten, Catalog.flattenEntries,
    Catalog.flattenNode, Catalog.join, catalog, Entries.setAll, Entries.set, Entries.get?_cons]

theorem textFrom_call {t : Translator} {style : PlaceholderStyle} (ht : t.wrapper = style.wrapper)
    (marked : Bool) (other : Translator.Call) :
    t.textFrom .standard (.ofCatalog (catalog marked)) (call other) = text marked := by
  have hnumber : Translator.count? (call other).arguments = none := rfl
  rw [Translator.textFrom, domainAndKey_call, ht, hnumber, get_catalog]
  show Substitution.substitute (text marked) (Translator.replacements style.wrapper []) = _
  cases style <;> cases marked <;> decide +kernel

end Probe

end Phrasebook
