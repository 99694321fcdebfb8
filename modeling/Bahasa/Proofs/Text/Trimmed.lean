import Bahasa.Text.Blank
import Mathlib.Data.List.TakeWhile

namespace Bahasa.Text

/-- Whether the text is the word, perhaps with more behind a space. Blanks at its ends do not
count. -/
def calls (text word : String) : Bool :=
  trim text = word ∨ word.toList ++ [' '] <+: (trim text).toList

end Bahasa.Text
