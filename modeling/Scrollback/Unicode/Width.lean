import Scrollback.Text.Control
import Scrollback.Unicode.Extend
import Scrollback.Unicode.Format
import Scrollback.Unicode.Wide

/-!
This module contains the number of columns that a character takes up on a terminal.
-/

namespace Scrollback

namespace Unicode

/--
Whether the character is a vowel or a final consonant of a decomposed Hangul syllable. These are
written into the block of the consonant before them.
-/
def isHangulVowelOrFinal (char : Char) : Bool :=
  let code := char.toNat
  (0x1160 ≤ code && code ≤ 0x11ff) ||
    (0xd7b0 ≤ code && code ≤ 0xd7c6) || (0xd7cb ≤ code && code ≤ 0xd7fb)

/--
The signs among `prepend` that are drawn under or around the digits after them, and so are seen in
columns of their own.
-/
def isEnclosingSign (char : Char) : Bool :=
  let code := char.toNat
  (0x600 ≤ code && code ≤ 0x604) || code == 0x6dd || code == 0x110bd || code == 0x110cd

/--
Whether the character extends another one without columns of its own. The sound marks of halfwidth
Katakana extend letters but have the width of one.
-/
def isExtension (char : Char) : Bool :=
  (CodeRanges.graphemeExtend.contains char || CodeRanges.addedGraphemeExtend.contains char) &&
    char ≠ '\uff9e' && char ≠ '\uff9f'

/--
Characters without columns that no property singles out: vowel signs that decompose into two
combining characters, and the Devanagari caret.
-/
def otherZeroWidth : List Char :=
  ['\u0cc0', '\u0cc7', '\u0cc8', '\u0cca', '\u0ccb', '\u1b3b', '\u1b3d', '\u1b43', '\ua8fa']

def isZeroWidth (char : Char) : Bool :=
  CodeRanges.defaultIgnorable.contains char || isExtension char || isHangulVowelOrFinal char ||
    (CodeRanges.prepend.contains char && !isEnclosingSign char) || otherZeroWidth.contains char

/--
The columns that a character takes up, `none` for a control character.

Four characters are exceptions: the Hangul filler for an initial consonant holds the place of one,
two Khmer characters are ligatures, and the Tifinagh joiner shows where it joins nothing.
-/
def width (char : Char) : Option Nat :=
  if isControl char then
    none
  else if char.toNat < 0x7f then
    some 1
  else if char = '\u115f' || char = '\u17a4' then
    some 2
  else if char = '\u17d8' then
    some 3
  else if char = '\u2d7f' then
    some 1
  else if isZeroWidth char then
    some 0
  else if CodeRanges.wide.contains char then
    some 2
  else
    some 1

end Unicode

end Scrollback
