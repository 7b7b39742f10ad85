import Scrollback.Unicode.Ranges

/-!
This module contains the combining characters that take up room of their own.
-/

namespace Scrollback

namespace Unicode

def CodeRanges.spacingMark : CodeRanges := .ofArray #[
  (0x0903, 0x0903), (0x093b, 0x093b), (0x093e, 0x0940), (0x0949, 0x094c), (0x094e, 0x094f),
  (0x0982, 0x0983), (0x09bf, 0x09c0), (0x09c7, 0x09c8), (0x09cb, 0x09cc), (0x0a03, 0x0a03),
  (0x0a3e, 0x0a40), (0x0a83, 0x0a83), (0x0abe, 0x0ac0), (0x0ac9, 0x0ac9), (0x0acb, 0x0acc),
  (0x0b02, 0x0b03), (0x0b40, 0x0b40), (0x0b47, 0x0b48), (0x0b4b, 0x0b4c), (0x0bbf, 0x0bbf),
  (0x0bc1, 0x0bc2), (0x0bc6, 0x0bc8), (0x0bca, 0x0bcc), (0x0c01, 0x0c03), (0x0c41, 0x0c44),
  (0x0c82, 0x0c83), (0x0cbe, 0x0cbe), (0x0cc1, 0x0cc1), (0x0cc3, 0x0cc4), (0x0cf3, 0x0cf3),
  (0x0d02, 0x0d03), (0x0d3f, 0x0d40), (0x0d46, 0x0d48), (0x0d4a, 0x0d4c), (0x0d82, 0x0d83),
  (0x0dd0, 0x0dd1), (0x0dd8, 0x0dde), (0x0df2, 0x0df3), (0x0e33, 0x0e33), (0x0eb3, 0x0eb3),
  (0x0f3e, 0x0f3f), (0x0f7f, 0x0f7f), (0x1031, 0x1031), (0x103b, 0x103c), (0x1056, 0x1057),
  (0x1084, 0x1084), (0x17b6, 0x17b6), (0x17be, 0x17c5), (0x17c7, 0x17c8), (0x1923, 0x1926),
  (0x1929, 0x192b), (0x1930, 0x1931), (0x1933, 0x1938), (0x1a19, 0x1a1a), (0x1a55, 0x1a55),
  (0x1a57, 0x1a57), (0x1a6d, 0x1a72), (0x1b04, 0x1b04), (0x1b3e, 0x1b41), (0x1b82, 0x1b82),
  (0x1ba1, 0x1ba1), (0x1ba6, 0x1ba7), (0x1be7, 0x1be7), (0x1bea, 0x1bec), (0x1bee, 0x1bee),
  (0x1c24, 0x1c2b), (0x1c34, 0x1c35), (0x1ce1, 0x1ce1), (0x1cf7, 0x1cf7), (0xa823, 0xa824),
  (0xa827, 0xa827), (0xa880, 0xa881), (0xa8b4, 0xa8c3), (0xa952, 0xa952), (0xa983, 0xa983),
  (0xa9b4, 0xa9b5), (0xa9ba, 0xa9bb), (0xa9be, 0xa9bf), (0xaa2f, 0xaa30), (0xaa33, 0xaa34),
  (0xaa4d, 0xaa4d), (0xaaeb, 0xaaeb), (0xaaee, 0xaaef), (0xaaf5, 0xaaf5), (0xabe3, 0xabe4),
  (0xabe6, 0xabe7), (0xabe9, 0xabea), (0xabec, 0xabec), (0x11000, 0x11000), (0x11002, 0x11002),
  (0x11082, 0x11082), (0x110b0, 0x110b2), (0x110b7, 0x110b8), (0x1112c, 0x1112c),
  (0x11145, 0x11146), (0x11182, 0x11182), (0x111b3, 0x111b5), (0x111bf, 0x111bf),
  (0x111ce, 0x111ce), (0x1122c, 0x1122e), (0x11232, 0x11233), (0x112e0, 0x112e2),
  (0x11302, 0x11303), (0x1133f, 0x1133f), (0x11341, 0x11344), (0x11347, 0x11348),
  (0x1134b, 0x1134c), (0x11362, 0x11363), (0x113b9, 0x113ba), (0x113ca, 0x113ca),
  (0x113cc, 0x113cd), (0x11435, 0x11437), (0x11440, 0x11441), (0x11445, 0x11445),
  (0x114b1, 0x114b2), (0x114b9, 0x114b9), (0x114bb, 0x114bc), (0x114be, 0x114be),
  (0x114c1, 0x114c1), (0x115b0, 0x115b1), (0x115b8, 0x115bb), (0x115be, 0x115be),
  (0x11630, 0x11632), (0x1163b, 0x1163c), (0x1163e, 0x1163e), (0x116ac, 0x116ac),
  (0x116ae, 0x116af), (0x1171e, 0x1171e), (0x11726, 0x11726), (0x1182c, 0x1182e),
  (0x11838, 0x11838), (0x11931, 0x11935), (0x11937, 0x11938), (0x11940, 0x11940),
  (0x11942, 0x11942), (0x119d1, 0x119d3), (0x119dc, 0x119df), (0x119e4, 0x119e4),
  (0x11a39, 0x11a39), (0x11a57, 0x11a58), (0x11a97, 0x11a97), (0x11b61, 0x11b61),
  (0x11b65, 0x11b65), (0x11b67, 0x11b67), (0x11c2f, 0x11c2f), (0x11c3e, 0x11c3e),
  (0x11ca9, 0x11ca9), (0x11cb1, 0x11cb1), (0x11cb4, 0x11cb4), (0x11d8a, 0x11d8e),
  (0x11d93, 0x11d94), (0x11d96, 0x11d96), (0x11ef5, 0x11ef6), (0x11f03, 0x11f03),
  (0x11f34, 0x11f35), (0x11f3e, 0x11f3f), (0x1612a, 0x1612c), (0x16f51, 0x16f87)]

end Unicode

end Scrollback
