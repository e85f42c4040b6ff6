import Phrasebook.Proofs.InfiniteMagnitudes
import Phrasebook.Proofs.NumeralReading
import Phrasebook.Translator

/-!
# Arguments and their texts

The text of an argument stands for the same number as the argument does: integers are rounded alike
whether they are converted or read, finite numbers are printed so that they are read back, and the
words for the special values are read too. A translation takes no more from an argument than its
number and its text, so the text can be given in its place.
-/

namespace Phrasebook

open Number

namespace Argument

/-- Every number is read back from its text, the undefined one and the infinities included. -/
theorem read_render_float (x : Binary64) : Binary64.read (layout.render x).toList = some x := by
  cases hx : x.isFinite with
  | true =>
      obtain ⟨n, htext, hdenotes⟩ := Condition.exists_numeral_plain hx
      have hplain : layout.render x = x.plain := by
        cases x with
        | nan => cases hx
        | signed negative m =>
            have hfinite : m.isInfinite = false := by simpa [Binary64.isFinite] using hx
            rw [Binary64.plain, Layout.render, Layout.render, hfinite]
            rfl
      rw [hplain, ← htext]
      exact hdenotes.read
  | false =>
      rcases Binary64.not_isFinite_cases hx with rfl | rfl | rfl <;> decide +kernel

theorem number?_text_render (v : Argument) : (text v.render).number? = v.number? := by
  cases v with
  | text s => rfl
  | int n => exact number?_text (read_toString n.toInt)
  | float x => exact number?_text (read_render_float x)
  | bool b => cases b <;> decide +kernel

theorem number?_ne_nan (v : Argument) : v.number? ≠ some .nan := by
  intro h
  cases v with
  | text s =>
      obtain ⟨-, hnan⟩ := Option.filter_eq_some_iff.mp h
      cases hnan
  | int n => cases h
  | float x => cases x <;> cases h
  | bool b => cases h

/-- What a translation takes from a named argument: its text and its number. -/
def view (argument : String × Argument) : String × String × Option Binary64 :=
  (argument.1, argument.2.render, argument.2.number?)

end Argument

namespace Translator

theorem lookup_number? (arguments : List (String × Argument)) (name : String) :
    (arguments.lookup name).bind Argument.number? =
      ((arguments.map Argument.view).lookup name).bind Prod.snd := by
  induction arguments with
  | nil => rfl
  | cons argument arguments ih =>
      rw [List.map_cons, Argument.view, List.lookup_cons, List.lookup_cons]
      cases name == argument.1 with
      | true => rfl
      | false => exact ih

theorem replacements_eq_map_view (wrapper : Wrapper) (arguments : Arguments) :
    replacements wrapper arguments =
      (wrapper separatorName, String.ofList [variantSeparator]) ::
        (arguments.map Argument.view).map fun (name, text, _) => (wrapper name, text) := by
  rw [replacements, List.map_map]
  rfl

variable {τ : Type}

theorem translate_congr_view (lookup : Lookup τ) (t : Translator) (id : String)
    (locale : Option String) (state : τ) {arguments others : Arguments}
    (h : arguments.map Argument.view = others.map Argument.view) :
    t.translate lookup id arguments locale state = t.translate lookup id others locale state := by
  have hcount : count? arguments = count? others := by
    rw [count?, count?, lookup_number?, lookup_number?, List.map_reverse, List.map_reverse, h]
  have hreplacements : replacements t.wrapper arguments = replacements t.wrapper others := by
    rw [replacements_eq_map_view, replacements_eq_map_view, h]
  rw [translate, translate, hcount, hreplacements]

/-- An argument and its text stand for the same number, which is a defined one, or both for none.
Each can be given in the place of the other, as `count` or under any other name. -/
theorem translate_text_of_argument :
    (∀ v : Argument, (Argument.text v.render).number? = v.number? ∧ v.number? ≠ some .nan) ∧
    ∀ (lookup : Lookup τ) (t : Translator) (id : String) (locale : Option String) (state : τ)
      (before after : Arguments) (name : String) (v : Argument),
      t.translate lookup id (before ++ (name, .text v.render) :: after) locale state =
        t.translate lookup id (before ++ (name, v) :: after) locale state := by
  refine ⟨fun v => ⟨v.number?_text_render, v.number?_ne_nan⟩, ?_⟩
  intro lookup t id locale state before after name v
  apply translate_congr_view
  have hview : Argument.view (name, .text v.render) = Argument.view (name, v) := by
    rw [Argument.view, Argument.view, v.number?_text_render]
    rfl
  rw [List.map_append, List.map_append, List.map_cons, List.map_cons, hview]

end Translator

end Phrasebook
