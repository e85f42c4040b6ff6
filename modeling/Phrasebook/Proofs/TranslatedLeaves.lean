import Phrasebook.Proofs.CatalogLeaves
import Phrasebook.Proofs.Identifiers
import Phrasebook.Proofs.Segmentation

/-!
# Leaves through a translator

A text of a catalog with plain keys is what a translator gives for its domain and its dotted key,
apart from the placeholder of the separator, which stands for the separator in every message.
-/

namespace Phrasebook

open Substitution

theorem Substitution.substitute_single (token value template : String) :
    ∃ segments, IsCut (({token} : Finset String).erase "") template.toList segments ∧
      substitute template [(token, value)] =
        String.ofList (segments.flatMap (Segment.fill fun _ => value)) := by
  have hempty : "" ∉ ({token} : Finset String).erase "" := Finset.notMem_erase "" _
  have hassigns : Assigns (({token} : Finset String).erase "") (fun _ => value)
      [(token, value)] := by
    intro other text hne
    simp [hne]
  have hentries : ∀ u, u ≠ [] →
      (u ∈ [token.toList] ↔ String.ofList u ∈ ({token} : Finset String).erase "") := by
    intro u hu
    have hne : String.ofList u ≠ "" := fun heq => hu (by simpa using congrArg String.toList heq)
    rw [List.mem_singleton, Finset.mem_erase, Finset.mem_singleton]
    constructor
    · rintro rfl
      rw [String.ofList_toList] at hne ⊢
      exact ⟨hne, rfl⟩
    · rintro ⟨-, rfl⟩
      exact String.toList_ofList.symm
  have hcut := isCut_segments hempty hentries template.toList
  exact ⟨_, hcut, substitute_of_isCut hassigns hempty hcut⟩

namespace Translator

variable {σ : Type}

theorem textFrom_of_text? (t : Translator) (strategy : Strategy) {m : Messages} {id text : String}
    (htext : m.text? (domainAndKey id).2 = some text) (locale : Option String) :
    t.textFrom strategy m ⟨id, [], locale⟩ =
      substitute text [(t.wrapper separatorName, "|")] := by
  have hget : (m.get (domainAndKey id).2 (count? []) (t.localeFor locale) strategy).text =
      some text := htext
  have hbar : String.ofList [variantSeparator] = "|" := rfl
  rw [textFrom, replacements, List.map_nil, hbar]
  simp only [hget, Option.getD_some]

theorem messages_ofCatalogs {catalogs : List ((String × String) × Catalog)}
    {pair : String × String} {c : Catalog} (h : catalogs.lookup pair = some c)
    (earlier : List (String × String)) (start : σ) :
    (Snapshots.messages (.ofCatalogs catalogs) pair.1 pair.2
      (Snapshots.requestAll (.ofCatalogs catalogs) earlier (.empty, start)).1
      (Snapshots.requestAll (.ofCatalogs catalogs) earlier (.empty, start)).2).1 =
        .ofCatalog c := by
  have hanswer : ∀ pair (state : σ), (Loader.ofCatalogs catalogs pair.1 pair.2 state).1 =
      .ok ((catalogs.lookup pair).getD .empty) := fun _ _ => rfl
  rw [Snapshots.messages_requestAll hanswer, h]
  rfl

/-- A catalog with plain keys has one message for each of its texts, and no others. A translator
that has the catalog for a domain without colons gives each of these texts for the domain and the
dotted key, with the placeholder of the separator filled in and nothing else changed. -/
theorem translate_every_leaf {c : Catalog} (h : c.HasPlainKeys) :
    (Messages.ofCatalog c).length = c.leaves.length ∧
    (∀ key text, (Messages.ofCatalog c).text? key = some text ↔
      ∃ path, (path, text) ∈ c.leaves ∧ key = Catalog.dotted path) ∧
    ∀ (t : Translator) (strategy : Strategy) (catalogs : List ((String × String) × Catalog))
      (earlier : List (String × String)) (start : σ) (domain locale : String),
      catalogs.lookup (domain, Locale.normalize locale) = some c → ':' ∉ domain.toList →
      (∃ c ∈ locale.toList, Text.isBlank c = false) →
      ∀ path text, (path, text) ∈ c.leaves →
        ∃ segments,
          IsCut (({t.wrapper separatorName} : Finset String).erase "") text.toList segments ∧
          (t.translate (.ofLoader (.ofCatalogs catalogs) strategy)
            (domain ++ ":" ++ Catalog.dotted path) [] (some locale)
            (Snapshots.requestAll (.ofCatalogs catalogs) earlier (.empty, start))).1 =
              String.ofList (segments.flatMap (Segment.fill fun _ => "|")) := by
  refine ⟨?_, Catalog.text?_of_hasPlainKeys h, ?_⟩
  · rw [Messages.length, Catalog.texts_of_hasPlainKeys h, List.length_map]
  · intro t strategy catalogs earlier start domain locale hlookup hdomain hlocale path text hleaf
    have hid := domainAndKey_append hdomain (Catalog.dotted path)
    have hfor := t.localeFor_of_not_blank hlocale
    have htext : (Messages.ofCatalog c).text?
        (domainAndKey (domain ++ ":" ++ Catalog.dotted path)).2 = some text := by
      rw [hid]
      exact (Catalog.text?_of_hasPlainKeys h _ text).mpr ⟨path, hleaf, rfl⟩
    obtain ⟨segments, hcut, hfill⟩ := substitute_single (t.wrapper separatorName) "|" text
    refine ⟨segments, hcut, ?_⟩
    have hanswer := t.translate_eq_textFrom (.ofCatalogs catalogs) strategy
      ⟨domain ++ ":" ++ Catalog.dotted path, [], some locale⟩
      (Snapshots.requestAll (.ofCatalogs catalogs) earlier (.empty, start))
    rw [pair, hid, hfor, messages_ofCatalogs hlookup,
      t.textFrom_of_text? strategy htext] at hanswer
    exact hanswer.trans hfill

/-- A text in a group, under a key with a colon and a separator. -/
theorem translate_every_leaf_menu :
    let c := Catalog.ofList [("menu", .group [("a:b|c", .text "x %I% y|%z"), ("%I%", .group [])]),
      ("title", .text "Demo")]
    let t := ofLocale "de" PlaceholderStyle.percent.wrapper
    let loader : Loader Unit := .ofCatalogs [(("app", "de"), .empty), (("app", "en_US"), c)]
    c.HasPlainKeys ∧ (Messages.ofCatalog c).length = 2 ∧
    ∃ segments,
      IsCut (({t.wrapper separatorName} : Finset String).erase "") "x %I% y|%z".toList segments ∧
      (t.translate (.ofLoader loader .standard)
        ("app" ++ ":" ++ Catalog.dotted ["menu", "a:b|c"]) [] (some " en-US")
        (Snapshots.requestAll loader [("app", "de"), ("app", "en_US")] (.empty, ()))).1 =
          String.ofList (segments.flatMap (Segment.fill fun _ => "|")) := by
  intro c t loader
  have hmenu : Catalog.PlainNode (.group [("a:b|c", .text "x %I% y|%z"), ("%I%", .group [])]) := by
    refine .group (by decide) (by decide) fun entry hentry => ?_
    simp only [List.mem_cons, List.not_mem_nil, or_false] at hentry
    rcases hentry with rfl | rfl
    · exact .text _
    · exact .group List.nodup_nil nofun nofun
  have hplain : c.HasPlainKeys := by
    refine .group c.nodup_keys (by decide) (List.forall_mem_cons.mpr ⟨hmenu, ?_⟩)
    exact List.forall_mem_singleton.mpr (.text _)
  have hlaw := @translate_every_leaf Unit c hplain
  exact ⟨hplain, hlaw.1, hlaw.2.2 t .standard [(("app", "de"), .empty), (("app", "en_US"), c)]
    [("app", "de"), ("app", "en_US")] () "app" " en-US" rfl (by decide) ⟨'e', by decide, by decide⟩
    ["menu", "a:b|c"] "x %I% y|%z" List.mem_cons_self⟩

end Translator

end Phrasebook
