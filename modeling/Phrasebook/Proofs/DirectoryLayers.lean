import Phrasebook.Settings

/-!
# Layers of directories

The files of a translator do not change while it runs, so its layers give each pair of a domain
and a locale one catalog, whatever was loaded before.
-/

namespace Phrasebook

namespace CatalogDirectory

def IsReadable (ext : String) : Prop := ext = ".json" ∨ ext = ".yaml" ∨ ext = ".yml"

theorem parse_of_not_isReadable {ext : String} (h : ¬ IsReadable ext) (path text : String) :
    ∃ e, parse ext path text = .error e := by
  simp only [IsReadable, not_or] at h
  unfold parse
  rw [if_neg h.1, if_neg (not_or.mpr h.2)]
  exact ⟨_, rfl⟩

theorem load_of_not_isReadable (d : CatalogDirectory) (h : ¬ IsReadable d.ext) (files : Files)
    (domain locale : String) :
    d.load files domain locale = .ok .empty ∨ ∃ e, d.load files domain locale = .error e := by
  unfold load read
  split
  · exact Or.inl rfl
  · exact Or.inl rfl
  · split
    · exact Or.inr ⟨_, rfl⟩
    · exact Or.inr (parse_of_not_isReadable h _ _)

theorem join_toList (path part : String) :
    (Files.Path.join path part).toList = part.toList ∨
      ∃ before, (Files.Path.join path part).toList = before ++ '/' :: part.toList := by
  unfold Files.Path.join
  by_cases habsolute : Files.Path.isAbsolute part = true
  · rw [if_pos habsolute]
    exact Or.inl rfl
  rw [if_neg habsolute]
  by_cases hslash : Files.Path.needsSlash path = true
  · rw [if_pos hslash]
    exact Or.inr ⟨path.toList, by simp⟩
  rw [if_neg hslash]
  by_cases hempty : path = ""
  · exact Or.inl (by simp [hempty])
  have hlast : path.toList.getLast? = some '/' := by
    simpa [Files.Path.needsSlash, hempty] using hslash
  obtain ⟨before, hbefore⟩ := List.getLast?_eq_some_iff.mp hlast
  exact Or.inr ⟨before, by simp [hbefore]⟩

theorem path_toList (d : CatalogDirectory) (domain locale : String) :
    ∃ before, (d.path domain locale).toList = before ++ (locale.toList ++ d.ext.toList) := by
  rw [path, ← String.toList_append]
  rcases join_toList (Files.Path.join d.directory domain) (locale ++ d.ext) with h | ⟨before, h⟩
  · exact ⟨[], by rw [h]; rfl⟩
  · exact ⟨before ++ ['/'], by rw [h]; simp⟩

/-- Where one file name ends in `_` and another one, a slash stands there in the other path. -/
theorem path_ne_of_locale_suffix (d : CatalogDirectory) {domain domain' locale locale' : String}
    {moved : List Char} (hlocale : locale.toList = moved ++ '_' :: locale'.toList) :
    d.path domain locale ≠ d.path domain' locale' := by
  intro heq
  obtain ⟨before, hbefore⟩ := d.path_toList domain locale
  rw [heq, path, hlocale, List.append_assoc, List.cons_append, ← String.toList_append] at hbefore
  rcases join_toList (Files.Path.join d.directory domain') (locale' ++ d.ext) with h | ⟨front, h⟩
  · have hlength := congrArg List.length (h.symm.trans hbefore)
    simp only [List.length_append, List.length_cons] at hlength
    omega
  · rw [h, ← List.append_assoc] at hbefore
    have hslash := (List.append_inj' hbefore rfl).2
    simp at hslash

theorem suffix_of_append_eq {front front' back back' : List Char}
    (h : front ++ '_' :: back = front' ++ '_' :: back') :
    (front = front' ∧ back = back') ∨
      ∃ moved, back = moved ++ '_' :: back' ∨ back' = moved ++ '_' :: back := by
  rcases List.append_eq_append_iff.mp h with ⟨moved, hfront, hback⟩ | ⟨moved, hfront, hback⟩
  · cases moved with
    | nil => exact Or.inl ⟨by simpa using hfront.symm, by simpa using hback⟩
    | cons c moved =>
        simp only [List.cons_append, List.cons.injEq] at hback
        exact Or.inr ⟨moved, Or.inl hback.2⟩
  · cases moved with
    | nil => exact Or.inl ⟨by simpa using hfront, by simpa using hback.symm⟩
    | cons c moved =>
        simp only [List.cons_append, List.cons.injEq] at hback
        exact Or.inr ⟨moved, Or.inr hback.2⟩

theorem path_ne_of_cacheKey_eq (d : CatalogDirectory) {start : String}
    {pair other : String × String} (hne : pair ≠ other)
    (hkey : Loader.cacheKey start pair.1 pair.2 = Loader.cacheKey start other.1 other.2) :
    d.path pair.1 pair.2 ≠ d.path other.1 other.2 := by
  have hlists := congrArg String.toList hkey
  simp only [Loader.cacheKey, String.toList_append, List.append_assoc,
    List.append_cancel_left_eq] at hlists
  rcases suffix_of_append_eq hlists with ⟨hdomain, hlocale⟩ | ⟨moved, h | h⟩
  · exact absurd (Prod.ext (String.toList_inj.mp hdomain) (String.toList_inj.mp hlocale)) hne
  · exact d.path_ne_of_locale_suffix h
  · exact (d.path_ne_of_locale_suffix h).symm

end CatalogDirectory

namespace Settings

def directory (s : Settings) (path : String) : CatalogDirectory := .ofExtension path s.ext

def overlayFrom (s : Settings) (files : Files) (pair : String × String) (c : Catalog)
    (path : String) : Catalog :=
  match (s.directory path).load files pair.1 pair.2 with
  | .ok upper => c.overlay upper
  | .error _ => c

def catalog (s : Settings) (files : Files) (pair : String × String) : Catalog :=
  s.directories.foldl (s.overlayFrom files pair) .empty

theorem overlayAll_directories (s : Settings) (files : Files) (pair : String × String)
    (directories : List String) (c : Catalog) (cache : Cache) :
    Loader.overlayAll pair.1 pair.2
        (directories.map fun path => Loader.ofDirectory files (.ofExtension path s.ext)) c cache =
      (directories.foldl (s.overlayFrom files pair) c, cache) := by
  induction directories generalizing c with
  | nil => rfl
  | cons path directories ih =>
      rw [List.map_cons, Loader.overlayAll, List.foldl_cons]
      simp only [Loader.ofDirectory, overlayFrom, directory]
      cases hload : (CatalogDirectory.ofExtension path s.ext).load files pair.1 pair.2 with
      | ok upper => exact ih (c.overlay upper)
      | error e => exact ih c

theorem layers_eq (s : Settings) (files : Files) (pair : String × String) (cache : Cache) :
    s.layers files pair.1 pair.2 cache = (.ok (s.catalog files pair), cache) := by
  rw [layers, Loader.layered]
  simp only [overlayAll_directories]
  rfl

theorem catalog_of_not_isReadable {s : Settings}
    (h : ¬ CatalogDirectory.IsReadable (CatalogDirectory.normalizeExtension s.ext))
    (files : Files) (pair : String × String) : s.catalog files pair = .empty := by
  have hstep : ∀ path, s.overlayFrom files pair .empty path = .empty := by
    intro path
    have hload := (s.directory path).load_of_not_isReadable h files pair.1 pair.2
    rcases hload with hload | ⟨e, hload⟩ <;> simp only [overlayFrom, hload]
    rfl
  rw [catalog]
  induction s.directories with
  | nil => rfl
  | cons path directories ih => rw [List.foldl_cons, hstep, ih]

end Settings

end Phrasebook
