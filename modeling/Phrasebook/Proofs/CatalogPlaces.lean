import Mathlib.Data.List.Infix
import Mathlib.Data.List.Induction
import Phrasebook.Files.Tree
import Phrasebook.Loader
import Phrasebook.Proofs.Identifiers

/-!
# Places of catalogs

The path of a catalog is that of its directory with the domain and the file name behind it. As long
as these are no absolute paths and do not hold more `..` than names at any point, the path does not
leave the directory, and no file is read that lies elsewhere.
-/

namespace Phrasebook

theorem Text.split_of_not_mem {separator : Char} {s : List Char} (h : separator ∉ s) :
    split separator s = [s] := by
  induction s with
  | nil => rfl
  | cons c rest ih =>
      simp only [List.mem_cons, not_or] at h
      rw [split, if_neg fun heq => h.1 heq.symm, ih h.2]

theorem Text.split_append (separator : Char) (before after : List Char) :
    split separator (before ++ separator :: after) =
      split separator before ++ split separator after := by
  induction before with
  | nil => simp [split]
  | cons c before ih =>
      rw [List.cons_append, split, split, ih]
      by_cases hc : c = separator
      · simp [hc]
      · rw [if_neg hc, if_neg hc]
        cases hsplit : split separator before with
        | nil => exact absurd hsplit (split_ne_nil separator before)
        | cons piece pieces => rfl

namespace Files

namespace Path

/-- The parts of a path that lead somewhere: all but empty ones and `.`. -/
def components (path : String) : List String :=
  (Tree.parts path).filter fun part => part ≠ "" ∧ part ≠ "."

/-- Whether a part leads one level down. -/
def isName (part : String) : Bool := part ≠ "" ∧ part ≠ "." ∧ part ≠ ".."

/-- At no point have there been more `..` than names. -/
def NeverClimbs (parts : List String) : Prop :=
  ∀ before, before <+: parts → before.count ".." ≤ before.countP isName

instance (parts : List String) : Decidable (NeverClimbs parts) :=
  decidable_of_iff (∀ before ∈ parts.inits, before.count ".." ≤ before.countP isName) (by
    simp only [NeverClimbs, List.mem_inits])

/-! ## Components of joined paths -/

theorem components_append_slash (before after : String) :
    components (before ++ "/" ++ after) = components before ++ components after := by
  have hlist : (before ++ "/" ++ after).toList = before.toList ++ '/' :: after.toList := by simp
  rw [components, Tree.parts, hlist, Text.split_append, List.map_append, List.filter_append]
  rfl

theorem components_empty : components "" = [] := rfl

theorem components_join {part : String} (h : isAbsolute part = false) (path : String) :
    components (join path part) = components path ++ components part := by
  rw [join, if_neg (by simp [h])]
  by_cases hslash : needsSlash path = true
  · rw [if_pos hslash, components_append_slash]
  rw [if_neg hslash]
  by_cases hempty : path = ""
  · rw [hempty, String.empty_append, components_empty, List.nil_append]
  have hlast : path.toList.getLast? = some '/' := by
    simpa [needsSlash, hempty] using hslash
  obtain ⟨before, hbefore⟩ := List.getLast?_eq_some_iff.mp hlast
  have hpath : path = String.ofList before ++ "/" := by
    rw [← String.toList_inj]
    simp [hbefore]
  have hshort := components_append_slash (String.ofList before) ""
  rw [components_empty, List.append_nil, String.append_empty] at hshort
  rw [hpath, components_append_slash, hshort]

theorem eq_of_mem_components {path part : String} (h : '/' ∉ path.toList)
    (hpart : part ∈ components path) : part = path := by
  have hmem := List.mem_of_mem_filter hpart
  rw [Tree.parts, Text.split_of_not_mem h] at hmem
  simpa using hmem

theorem isAbsolute_append {path : String} (h : path ≠ "") (other : String) :
    isAbsolute (path ++ other) = isAbsolute path := by
  obtain ⟨c, rest, hpath⟩ :=
    List.exists_cons_of_ne_nil fun hnil => h (String.toList_eq_nil_iff.mp hnil)
  rw [isAbsolute, isAbsolute, String.toList_append, hpath]
  rfl

theorem isAbsolute_join {part : String} (h : isAbsolute part = false) (path : String) :
    isAbsolute (join path part) = isAbsolute path := by
  rw [join, if_neg (by simp [h])]
  by_cases hempty : path = ""
  · rw [hempty, if_neg (by simp [needsSlash]), String.empty_append, h]
    rfl
  · split
    · rw [String.append_assoc, isAbsolute_append hempty]
    · rw [isAbsolute_append hempty]

/-! ## Parts that never climb -/

theorem NeverClimbs.of_append {parts more : List String} (h : NeverClimbs (parts ++ more)) :
    NeverClimbs parts :=
  fun before hbefore => h before (hbefore.trans (List.prefix_append _ _))

theorem neverClimbs_of_not_mem {parts : List String} (h : ".." ∉ parts) : NeverClimbs parts := by
  intro before hbefore
  rw [List.count_eq_zero_of_not_mem fun hmem => h (hbefore.subset hmem)]
  exact Nat.zero_le _

theorem neverClimbs_concat_iff {parts : List String} {part : String} :
    NeverClimbs (parts ++ [part]) ↔
      NeverClimbs parts ∧ (parts ++ [part]).count ".." ≤ (parts ++ [part]).countP isName := by
  refine ⟨fun h => ⟨h.of_append, h _ (List.prefix_refl _)⟩, ?_⟩
  rintro ⟨hparts, hwhole⟩ before hbefore
  rcases List.prefix_concat_iff.mp hbefore with rfl | hbefore
  · exact hwhole
  · exact hparts before hbefore

end Path

namespace Tree

/-- The place to which a part leads. Outside of the working directory there are no names, and
nothing leads back. -/
def enter (place : Option Place) (part : String) : Option Place :=
  if part = "" ∨ part = "." then place
  else if part = ".." then place.bind fun p => if p.isEmpty then none else some p.dropLast
  else place.map (· ++ [part])

def placeFrom (place : Option Place) (parts : List String) : Option Place :=
  parts.foldl enter place

theorem placeFrom_append (place : Option Place) (parts more : List String) :
    placeFrom place (parts ++ more) = placeFrom (placeFrom place parts) more :=
  List.foldl_append

theorem placeFrom_concat (place : Option Place) (parts : List String) (part : String) :
    placeFrom place (parts ++ [part]) = enter (placeFrom place parts) part := by
  rw [placeFrom_append]
  rfl

theorem enter_none (part : String) : enter none part = none := by
  rw [enter]
  split
  · rfl
  · split <;> rfl

theorem placeFrom_none (parts : List String) : placeFrom none parts = none := by
  induction parts with
  | nil => rfl
  | cons part parts ih =>
      rw [placeFrom, List.foldl_cons, enter_none]
      exact ih

theorem placeFrom_components (place : Option Place) (path : String) :
    placeFrom place (Path.components path) = placeFrom place (parts path) := by
  rw [Path.components, placeFrom, placeFrom, List.foldl_filter]
  congr 1
  funext place part
  by_cases hpart : part = "" ∨ part = "."
  · rw [enter, if_pos hpart]
    rcases hpart with rfl | rfl <;> simp
  · have hkept : part ≠ "" ∧ part ≠ "." := not_or.mp hpart
    simp [hkept]

theorem enter_up (place : Place) :
    enter (some place) ".." = if place.isEmpty then none else some place.dropLast := rfl

theorem enter_up_ne (place below : Place) : enter (some place) ".." ≠ some (place ++ below) := by
  intro h
  cases place with
  | nil => cases h
  | cons first place =>
      rw [enter_up, if_neg (by simp)] at h
      have hlengths := congrArg List.length (Option.some.inj h)
      simp only [List.length_dropLast, List.length_cons, List.length_append] at hlengths
      omega

theorem enter_of_isName {part : String} (h : Path.isName part = true) (place : Place) :
    enter (some place) part = some (place ++ [part]) := by
  simp only [Path.isName, decide_eq_true_eq] at h
  rw [enter, if_neg (not_or.mpr ⟨h.1, h.2.1⟩), if_neg h.2.2]
  rfl

theorem isName_cases (part : String) :
    (part = "" ∨ part = ".") ∨ part = ".." ∨ Path.isName part = true := by
  by_cases hskip : part = "" ∨ part = "."
  · exact Or.inl hskip
  by_cases hup : part = ".."
  · exact Or.inr (Or.inl hup)
  · obtain ⟨hempty, hpoint⟩ := not_or.mp hskip
    exact Or.inr (Or.inr (by simp [Path.isName, hempty, hpoint, hup]))

/-- Parts that never climb lead to a place below, as deep as there are more names than `..`. -/
theorem placeFrom_of_neverClimbs {parts : List String} (h : Path.NeverClimbs parts)
    (place : Place) :
    ∃ names, names.length + parts.count ".." = parts.countP Path.isName ∧
      placeFrom (some place) parts = some (place ++ names) := by
  -- From the end of the parts, since the place before the last one is below already.
  induction parts using List.reverseRecOn with
  | nil => exact ⟨[], rfl, by rw [List.append_nil]; rfl⟩
  | append_singleton parts part ih =>
      obtain ⟨hparts, hwhole⟩ := Path.neverClimbs_concat_iff.mp h
      obtain ⟨names, hlength, hplace⟩ := ih hparts
      rw [placeFrom_concat, hplace]
      rcases isName_cases part with hskip | rfl | hname
      · refine ⟨names, ?_, if_pos hskip⟩
        rcases hskip with rfl | rfl <;> simpa [List.count_append, Path.isName] using hlength
      · simp only [List.count_append, List.countP_append, List.count_singleton_self,
          List.countP_singleton, Path.isName] at hwhole ⊢
        have hne : names ≠ [] := by
          rintro rfl
          simp at hlength hwhole
          omega
        refine ⟨names.dropLast, ?_, ?_⟩
        · have hpos := List.length_pos_iff.mpr hne
          simp
          omega
        · rw [enter_up, if_neg (by simp [hne]), List.dropLast_append_of_ne_nil hne]
      · have hup : part ≠ ".." := by
          rintro rfl
          cases hname
        refine ⟨names ++ [part], ?_, ?_⟩
        · simp only [List.count_append, List.countP_append, List.length_append,
            List.countP_singleton, hname, List.count_singleton, if_true, List.length_singleton]
          simp [hup]
          omega
        · rw [enter_of_isName hname, List.append_assoc]

theorem neverClimbs_iff (parts : List String) (place : Place) :
    Path.NeverClimbs parts ↔ ∀ before, before <+: parts →
      ∃ names, placeFrom (some place) before = some (place ++ names) := by
  constructor
  · rintro h before ⟨after, rfl⟩
    obtain ⟨names, -, hplace⟩ := placeFrom_of_neverClimbs h.of_append place
    exact ⟨names, hplace⟩
  · intro h
    induction parts using List.reverseRecOn with
    | nil =>
        intro before hbefore
        rw [List.prefix_nil.mp hbefore]
        rfl
    | append_singleton parts part ih =>
        have hparts := ih fun before hbefore => h before (hbefore.trans (List.prefix_append _ _))
        refine Path.neverClimbs_concat_iff.mpr ⟨hparts, ?_⟩
        obtain ⟨names, hlength, hplace⟩ := placeFrom_of_neverClimbs hparts place
        obtain ⟨below, hbelow⟩ := h _ (List.prefix_refl _)
        rw [placeFrom_concat, hplace] at hbelow
        rw [List.count_append, List.countP_append]
        by_cases hup : part = ".."
        · subst hup
          have hne : names ≠ [] := by
            rintro rfl
            rw [List.append_nil] at hbelow
            exact enter_up_ne place below hbelow
          have hpos := List.length_pos_iff.mpr hne
          rw [List.count_singleton_self]
          omega
        · have hzero : [part].count ".." = 0 := by simp [hup]
          omega

/-- A file that is found stands where the parts lead. -/
theorem exists_place_of_follow {t : Tree} {start : Option Place} {parts : List String}
    {bytes : ByteArray} (h : follow t start parts = .file bytes) :
    ∃ place, placeFrom start parts = some place ∧ t.found place = .file bytes := by
  fun_induction follow t start parts with
  | case1 place => exact ⟨place, rfl, h⟩
  | case2 => cases h
  | case3 place part rest _ hskip ih =>
      obtain ⟨found, hplace, hfile⟩ := ih h
      refine ⟨found, ?_, hfile⟩
      rw [placeFrom, List.foldl_cons, enter, if_pos hskip]
      exact hplace
  | case4 place rest _ hskip ih =>
      obtain ⟨found, hplace, hfile⟩ := ih h
      exact ⟨found, hplace, hfile⟩
  | case5 => cases h
  | case6 part rest hskip hup hlong p _ ih =>
      obtain ⟨found, hplace, hfile⟩ := ih h
      refine ⟨found, ?_, hfile⟩
      rw [placeFrom, List.foldl_cons, enter, if_neg hskip, if_neg hup]
      exact hplace
  | case7 => cases h
  | case8 => cases h
  | case9 place part rest _ hother => exact absurd h (hother bytes)

theorem exists_names_of_follow {t : Tree} {place : Place} {parts : List String}
    {bytes : ByteArray} (hnever : Path.NeverClimbs parts)
    (h : follow t (some place) parts = .file bytes) :
    ∃ names, placeFrom (some place) parts = some (place ++ names) ∧
      t.found (place ++ names) = .file bytes := by
  obtain ⟨found, hfound, hfile⟩ := exists_place_of_follow h
  obtain ⟨names, -, hnames⟩ := placeFrom_of_neverClimbs hnever place
  obtain rfl := Option.some.inj (hfound.symm.trans hnames)
  exact ⟨names, hnames, hfile⟩

theorem placeFrom_append_of_eq_some {start : Option Place} {before after : List String}
    {last : Place} (h : placeFrom start (before ++ after) = some last) :
    ∃ place, placeFrom start before = some place ∧ placeFrom (some place) after = some last := by
  rw [placeFrom_append] at h
  cases hbefore : placeFrom start before with
  | none =>
      rw [hbefore, placeFrom_none] at h
      cases h
  | some place => exact ⟨place, rfl, hbefore ▸ h⟩

theorem follow_of_look {t : Tree} {path : String} {bytes : ByteArray}
    (h : t.look path = .file bytes) : follow t (some []) (parts path) = .file bytes := by
  rw [look] at h
  split_ifs at h
  · obtain ⟨place, hplace, -⟩ := exists_place_of_follow h
    rw [placeFrom_none] at hplace
    cases hplace
  · exact h

end Tree

end Files

namespace CatalogDirectory

open Files.Path Files.Tree

def below (d : CatalogDirectory) (domain locale : String) : List String :=
  components domain ++ components (locale ++ d.ext)

theorem isAbsolute_fileName {locale : String} (h : isAbsolute locale = false) (ext : String) :
    isAbsolute (locale ++ normalizeExtension ext) = false := by
  by_cases hempty : locale = ""
  · rw [hempty, String.empty_append, normalizeExtension]
    split_ifs with hext
    · rcases hext with rfl | hpoint
      · rfl
      · rw [isAbsolute, hpoint]
        rfl
    · exact isAbsolute_append (by decide) ext
  · rw [isAbsolute_append hempty, h]

theorem neverClimbs_below {d : CatalogDirectory} {domain locale : String}
    (hdomain : '/' ∉ domain.toList) (hup : domain ≠ "..")
    (hname : '/' ∉ (locale ++ d.ext).toList) (hnameUp : locale ++ d.ext ≠ "..") :
    NeverClimbs (d.below domain locale) := by
  apply neverClimbs_of_not_mem
  intro hmem
  rcases List.mem_append.mp hmem with hmem | hmem
  · exact hup (eq_of_mem_components hdomain hmem).symm
  · exact hnameUp (eq_of_mem_components hname hmem).symm

/-- Unless the domain or the locale is absolute, the path of a catalog is its directory with the
parts below behind it. It stays below the directory on the whole way exactly if these parts never
climb. Then a file that is found along them stands at or below the place from which they are
followed, whichever place the directory leads to; so does one that is found along the whole path,
from the root of a tree or from a directory in it. A domain and a file name without slashes never
climb, unless one of them is `..`. -/
theorem path_stays_below (directory ext : String) (t : Translator) (id : String)
    (locale : Option String) (hdomain : isAbsolute (Translator.domainAndKey id).1 = false)
    (hlocale : isAbsolute (t.localeFor locale) = false) :
    let d := ofExtension directory ext
    let path := d.path (Translator.domainAndKey id).1 (t.localeFor locale)
    let parts := d.below (Translator.domainAndKey id).1 (t.localeFor locale)
    isAbsolute path = isAbsolute directory ∧
    components path = components directory ++ parts ∧
    (∀ place : Files.Place, NeverClimbs parts ↔
      ∀ before, before <+: parts →
        ∃ names, placeFrom (some place) before = some (place ++ names)) ∧
    (NeverClimbs parts → ∀ (tree : Files.Tree) (place : Files.Place) bytes,
      tree.follow (some place) parts = .file bytes →
        ∃ names, placeFrom (some place) parts = some (place ++ names) ∧
          tree.found (place ++ names) = .file bytes) ∧
    (NeverClimbs parts → ∀ (tree : Files.Tree) (start : Files.Place) bytes,
      tree.follow (some start) (Files.Tree.parts path) = .file bytes →
        ∃ place names, placeFrom (some start) (components directory) = some place ∧
          placeFrom (some place) parts = some (place ++ names) ∧
          tree.found (place ++ names) = .file bytes) ∧
    (∀ (tree : Files.Tree) bytes, tree.look path = .file bytes →
      tree.follow (some []) (Files.Tree.parts path) = .file bytes) ∧
    ('/' ∉ (Translator.domainAndKey id).1.toList → (Translator.domainAndKey id).1 ≠ ".." →
      '/' ∉ (t.localeFor locale ++ d.ext).toList → t.localeFor locale ++ d.ext ≠ ".." →
      NeverClimbs parts) := by
  intro d path parts
  have hname : isAbsolute (t.localeFor locale ++ d.ext) = false := isAbsolute_fileName hlocale ext
  have hpath : path = join (join directory (Translator.domainAndKey id).1)
      (t.localeFor locale ++ d.ext) := rfl
  have hcomponents : components path = components directory ++ parts := by
    rw [hpath, components_join hname, components_join hdomain, List.append_assoc]
    rfl
  refine ⟨?_, hcomponents, fun place => neverClimbs_iff parts place,
    fun hnever tree place bytes hfollow => exists_names_of_follow hnever hfollow, ?_,
    fun tree bytes hlook => follow_of_look hlook, neverClimbs_below⟩
  · rw [hpath, isAbsolute_join hname, isAbsolute_join hdomain]
  · intro hnever tree start bytes hfollow
    obtain ⟨found, hfound, hfile⟩ := exists_place_of_follow hfollow
    rw [← placeFrom_components, hcomponents] at hfound
    obtain ⟨place, hplace, hbelow⟩ := placeFrom_append_of_eq_some hfound
    obtain ⟨names, -, hnames⟩ := placeFrom_of_neverClimbs hnever place
    obtain rfl := Option.some.inj (hbelow.symm.trans hnames)
    exact ⟨place, names, hplace, hbelow, hfile⟩

/-- Below a directory that is named from the root the domain goes down and up again. In a directory
that is named from where the program runs, a plain domain leads one level down. -/
theorem path_stays_below_down_and_up :
    let d := ofExtension "/srv/i18n" "yaml"
    let near := ofExtension "i18n" "yaml"
    let t : Translator := .ofLocale "en-US" PlaceholderStyle.percent.wrapper
    let tree : Files.Tree := ⟨[(["srv"], none), (["srv", "i18n"], none),
      (["srv", "i18n", "a"], none), (["srv", "i18n", "b"], none),
      (["srv", "i18n", "b", "en_US.yaml"], some "k: inside\n".toUTF8)]⟩
    let here : Files.Tree := ⟨[(["i18n"], none), (["i18n", "b"], none),
      (["i18n", "b", "en_US.yaml"], some "k: here\n".toUTF8)]⟩
    (Translator.domainAndKey "a/../b:k").1 = "a/../b" ∧ t.localeFor none = "en_US" ∧
    d.path "a/../b" "en_US" = "/srv/i18n/a/../b/en_US.yaml" ∧
    components "/srv/i18n/a/../b/en_US.yaml" = ["srv", "i18n", "a", "..", "b", "en_US.yaml"] ∧
    NeverClimbs ["a", "..", "b", "en_US.yaml"] ∧
    tree.follow (some []) (Files.Tree.parts "/srv/i18n/a/../b/en_US.yaml") =
      .file "k: inside\n".toUTF8 ∧
    (∃ place names, placeFrom (some []) (components "/srv/i18n") = some place ∧
      placeFrom (some place) ["a", "..", "b", "en_US.yaml"] = some (place ++ names) ∧
      tree.found (place ++ names) = .file "k: inside\n".toUTF8) ∧
    tree.follow (some ["srv", "i18n"]) ["a", "..", "b", "en_US.yaml"] =
      .file "k: inside\n".toUTF8 ∧
    (∃ names, placeFrom (some ["srv", "i18n"]) ["a", "..", "b", "en_US.yaml"] =
        some (["srv", "i18n"] ++ names) ∧
      tree.found (["srv", "i18n"] ++ names) = .file "k: inside\n".toUTF8) ∧
    (Translator.domainAndKey "b:k").1 = "b" ∧ near.path "b" "en_US" = "i18n/b/en_US.yaml" ∧
    NeverClimbs ["b", "en_US.yaml"] ∧
    here.look "i18n/b/en_US.yaml" = .file "k: here\n".toUTF8 ∧
    ∃ place names, placeFrom (some []) (components "i18n") = some place ∧
      placeFrom (some place) ["b", "en_US.yaml"] = some (place ++ names) ∧
      here.found (place ++ names) = .file "k: here\n".toUTF8 := by
  intro d near t tree here
  have hdomain : (Translator.domainAndKey "a/../b:k").1 = "a/../b" := by decide +kernel
  have hlocale : t.localeFor none = "en_US" := by decide +kernel
  have hpath : d.path "a/../b" "en_US" = "/srv/i18n/a/../b/en_US.yaml" := by decide +kernel
  have hparts : d.below "a/../b" "en_US" = ["a", "..", "b", "en_US.yaml"] := by decide +kernel
  have hnever : NeverClimbs ["a", "..", "b", "en_US.yaml"] := by decide
  have hfollow : tree.follow (some []) (Files.Tree.parts "/srv/i18n/a/../b/en_US.yaml") =
      .file "k: inside\n".toUTF8 := by rfl
  have hbelow : tree.follow (some ["srv", "i18n"]) ["a", "..", "b", "en_US.yaml"] =
      .file "k: inside\n".toUTF8 := by rfl
  obtain ⟨-, hcomponents, -, hplace, hwhole, -, -⟩ :=
    path_stays_below "/srv/i18n" "yaml" t "a/../b:k" none
      (by rw [hdomain]; decide) (by rw [hlocale]; decide)
  rw [hdomain, hlocale] at hcomponents hplace hwhole
  rw [hpath, hparts] at hcomponents hwhole
  rw [hparts] at hplace
  have hplain : (Translator.domainAndKey "b:k").1 = "b" := by decide +kernel
  have hnear : near.path "b" "en_US" = "i18n/b/en_US.yaml" := by decide +kernel
  have hnames : near.below "b" "en_US" = ["b", "en_US.yaml"] := by decide +kernel
  have hlook : here.look "i18n/b/en_US.yaml" = .file "k: here\n".toUTF8 := by rfl
  obtain ⟨-, -, -, -, hfound, hread, hslashes⟩ := path_stays_below "i18n" "yaml" t "b:k" none
    (by rw [hplain]; decide) (by rw [hlocale]; decide)
  rw [hplain, hlocale, hnames] at hslashes
  rw [hplain, hlocale, hnear, hnames] at hfound
  rw [hplain, hlocale, hnear] at hread
  have hdown := hslashes (by decide) (by decide) (by decide +kernel) (by decide +kernel)
  exact ⟨hdomain, hlocale, hpath, hcomponents, hnever, hfollow, hwhole hnever tree [] _ hfollow,
    hbelow, hplace hnever tree _ _ hbelow, hplain, hnear, hdown, hlook,
    hfound hdown here [] _ (hread here _ hlook)⟩

/-- A domain of two points leads out of the directory, and the file that stands beside it is read.
An absolute domain takes the place of the directory. -/
theorem path_leaves_directory :
    let d := ofExtension "i18n" "yaml"
    let t : Translator := .ofLocale "en-US" PlaceholderStyle.percent.wrapper
    let tree : Files.Tree := ⟨[(["i18n"], none), (["en_US.yaml"], some "k: leaked\n".toUTF8)]⟩
    let lookup : Lookup (Snapshots × Unit) := .ofLoader (.ofDirectory tree.look d) .standard
    (Translator.domainAndKey "..:k").1 = ".." ∧ t.localeFor none = "en_US" ∧
    d.path ".." "en_US" = "i18n/../en_US.yaml" ∧
    (¬ ∃ parts, components "i18n/../en_US.yaml" = components "i18n" ++ parts ∧
      NeverClimbs parts) ∧
    placeFrom (some []) (components "i18n/../en_US.yaml") = some ["en_US.yaml"] ∧
    (t.translate lookup "..:k" [] none (.empty, ())).1 = "leaked" ∧
    d.path "/srv" "en_US" = "/srv/en_US.yaml" := by
  intro d t tree lookup
  have hdomain : (Translator.domainAndKey "..:k").1 = ".." := by decide +kernel
  have hlocale : t.localeFor none = "en_US" := by decide +kernel
  have hpath : d.path ".." "en_US" = "i18n/../en_US.yaml" := by decide +kernel
  refine ⟨hdomain, hlocale, hpath, ?_, by decide +kernel, by decide +kernel, by decide +kernel⟩
  rintro ⟨parts, hparts, hnever⟩
  have hcomponents : components "i18n/../en_US.yaml" =
      components "i18n" ++ ["..", "en_US.yaml"] := by decide +kernel
  obtain rfl := List.append_cancel_left (hcomponents.symm.trans hparts)
  have hclimbs : ¬ NeverClimbs ["..", "en_US.yaml"] := by decide
  exact hclimbs hnever

end CatalogDirectory

end Phrasebook
