import Scrollback.Unicode.Ranges

/-!
This module contains the characters that control or precede others and the ones that are not shown.
-/

namespace Scrollback

namespace Unicode

/--
Characters whose `Grapheme_Cluster_Break` is `Control`: control and format characters and line
separators, but no line breaks and no joiners.
-/
def CodeRanges.breakControl : CodeRanges := .ofArray #[
  (0x0000, 0x0009), (0x000b, 0x000c), (0x000e, 0x001f), (0x007f, 0x009f), (0x00ad, 0x00ad),
  (0x061c, 0x061c), (0x180e, 0x180e), (0x200b, 0x200b), (0x200e, 0x200f), (0x2028, 0x202e),
  (0x2060, 0x206f), (0xfeff, 0xfeff), (0xfff0, 0xfffb), (0x13430, 0x1343f), (0x1bca0, 0x1bca3),
  (0x1d173, 0x1d17a), (0xe0000, 0xe001f), (0xe0080, 0xe00ff), (0xe01f0, 0xe0fff)]

def CodeRanges.prepend : CodeRanges := .ofArray #[
  (0x0600, 0x0605), (0x06dd, 0x06dd), (0x070f, 0x070f), (0x0890, 0x0891), (0x08e2, 0x08e2),
  (0x0d4e, 0x0d4e), (0x110bd, 0x110bd), (0x110cd, 0x110cd), (0x111c2, 0x111c3),
  (0x113d1, 0x113d1), (0x1193f, 0x1193f), (0x11941, 0x11941), (0x11a84, 0x11a89),
  (0x11d46, 0x11d46), (0x11f02, 0x11f02)]

def CodeRanges.defaultIgnorable : CodeRanges := .ofArray #[
  (0x00ad, 0x00ad), (0x034f, 0x034f), (0x061c, 0x061c), (0x115f, 0x1160), (0x17b4, 0x17b5),
  (0x180b, 0x180f), (0x200b, 0x200f), (0x202a, 0x202e), (0x2060, 0x206f), (0x3164, 0x3164),
  (0xfe00, 0xfe0f), (0xfeff, 0xfeff), (0xffa0, 0xffa0), (0xfff0, 0xfff8), (0x1bca0, 0x1bca3),
  (0x1d173, 0x1d17a), (0xe0000, 0xe0fff)]

end Unicode

end Scrollback
