import Scrollback.Color

/-!
This module contains the style of a cell: its colors, its effects and the number of columns that its
glyph takes up.
-/

namespace Scrollback

/--
How a glyph is drawn.

The number of columns belongs to the style: it is one for an ordinary glyph and more for a wide one.
Zero marks the text of combining characters where styles are stored.
-/
structure Style where
  foreground : Color := .named .foreground
  background : Color := .named .background
  /--
  Effects, one bit each, from the lowest: bold, dim, italic, underline, blink, inverse, hidden,
  strikethrough, then curly, dotted, dashed and double underline.
  -/
  flags : UInt16 := 0
  columns : UInt8 := 1
  deriving DecidableEq, Repr

namespace Style

instance : Inhabited Style := ⟨{}⟩

def definedFlags : UInt16 := 0x0fff

def FlagsDefined (style : Style) : Prop :=
  style.flags &&& definedFlags = style.flags

instance (style : Style) : Decidable style.FlagsDefined :=
  inferInstanceAs (Decidable (_ = _))

def withColumns (style : Style) (columns : UInt8) : Style :=
  { style with columns }

def combining : Style :=
  { columns := 0 }

end Style

end Scrollback
