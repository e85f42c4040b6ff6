import Phrasebook.Catalog
import Phrasebook.Variants

/-!
# Messages

The texts of one catalog by dotted key, and the variants of those texts that have a
separator in them. Where two texts have the same key the later one counts.
-/

namespace Phrasebook

open Number

/-- The messages of one domain in one locale. There is one text under each key. -/
structure Messages where
  texts : Entries String
  variants : Entries Variants
  nodup_keys : texts.keys.Nodup

namespace Messages

/-- Whether a text has more than one fragment. -/
def hasVariants (text : String) : Bool := text.toList.contains variantSeparator

def variantsOf (texts : Entries String) : Entries Variants :=
  (texts.filter fun (_, text) => hasVariants text).map fun (key, text) =>
    (key, .ofTemplate text)

def ofCatalog (c : Catalog) : Messages :=
  let texts := Entries.setAll [] c.flatten
  ⟨texts, variantsOf texts, Entries.nodup_keys_setAll c.flatten Entries.nodup_keys_nil⟩

@[simp] theorem texts_ofCatalog (c : Catalog) :
    (ofCatalog c).texts = Entries.setAll [] c.flatten := rfl

def empty : Messages := .ofCatalog .empty

def text? (m : Messages) (key : String) : Option String := m.texts.get? key

def variants? (m : Messages) (key : String) : Option Variants := m.variants.get? key

def length (m : Messages) : Nat := m.texts.length

def isEmpty (m : Messages) : Bool := m.texts.isEmpty

/-- The text of a message for a number. Without a number, without variants and where no variant
applies it is the whole text. -/
def get (m : Messages) (key : String) (number : Option Binary64) (locale : String)
    (strategy : Strategy) : Variants.Selection :=
  match number, m.variants? key with
  | some number, some variants =>
    let selection := variants.select number locale strategy
    ⟨selection.text.or (m.text? key), selection.asked⟩
  | _, _ => ⟨m.text? key, []⟩

end Messages

end Phrasebook
