import Scrollback.Unicode.Ranges

/-!
This module contains the characters that form conjuncts in Indic scripts.
-/

namespace Scrollback

namespace Unicode

def CodeRanges.conjunctLinker : CodeRanges := .ofArray #[
  (0x094d, 0x094d), (0x09cd, 0x09cd), (0x0acd, 0x0acd), (0x0b4d, 0x0b4d), (0x0c4d, 0x0c4d),
  (0x0d4d, 0x0d4d), (0x1039, 0x1039), (0x17d2, 0x17d2), (0x1a60, 0x1a60), (0x1b44, 0x1b44),
  (0x1bab, 0x1bab), (0xa9c0, 0xa9c0), (0xaaf6, 0xaaf6), (0x10a3f, 0x10a3f), (0x11133, 0x11133),
  (0x113d0, 0x113d0), (0x1193e, 0x1193e), (0x11a47, 0x11a47), (0x11a99, 0x11a99),
  (0x11f42, 0x11f42)]

def CodeRanges.conjunctConsonant : CodeRanges := .ofArray #[
  (0x0915, 0x0939), (0x0958, 0x095f), (0x0978, 0x097f), (0x0995, 0x09a8), (0x09aa, 0x09b0),
  (0x09b2, 0x09b2), (0x09b6, 0x09b9), (0x09dc, 0x09dd), (0x09df, 0x09df), (0x09f0, 0x09f1),
  (0x0a95, 0x0aa8), (0x0aaa, 0x0ab0), (0x0ab2, 0x0ab3), (0x0ab5, 0x0ab9), (0x0af9, 0x0af9),
  (0x0b15, 0x0b28), (0x0b2a, 0x0b30), (0x0b32, 0x0b33), (0x0b35, 0x0b39), (0x0b5c, 0x0b5d),
  (0x0b5f, 0x0b5f), (0x0b71, 0x0b71), (0x0c15, 0x0c28), (0x0c2a, 0x0c39), (0x0c58, 0x0c5a),
  (0x0d15, 0x0d3a), (0x1000, 0x102a), (0x103f, 0x103f), (0x1050, 0x1055), (0x105a, 0x105d),
  (0x1061, 0x1061), (0x1065, 0x1066), (0x106e, 0x1070), (0x1075, 0x1081), (0x108e, 0x108e),
  (0x1780, 0x17b3), (0x1a20, 0x1a54), (0x1b0b, 0x1b0c), (0x1b13, 0x1b33), (0x1b45, 0x1b4c),
  (0x1b83, 0x1ba0), (0x1bae, 0x1baf), (0x1bbb, 0x1bbd), (0xa989, 0xa98b), (0xa98f, 0xa9b2),
  (0xa9e0, 0xa9e4), (0xa9e7, 0xa9ef), (0xa9fa, 0xa9fe), (0xaa60, 0xaa6f), (0xaa71, 0xaa73),
  (0xaa7a, 0xaa7a), (0xaa7e, 0xaa7f), (0xaae0, 0xaaea), (0xabc0, 0xabda), (0x10a00, 0x10a00),
  (0x10a10, 0x10a13), (0x10a15, 0x10a17), (0x10a19, 0x10a35), (0x11103, 0x11126),
  (0x11144, 0x11144), (0x11147, 0x11147), (0x11380, 0x11389), (0x1138b, 0x1138b),
  (0x1138e, 0x1138e), (0x11390, 0x113b5), (0x11900, 0x11906), (0x11909, 0x11909),
  (0x1190c, 0x11913), (0x11915, 0x11916), (0x11918, 0x1192f), (0x11a00, 0x11a00),
  (0x11a0b, 0x11a32), (0x11a50, 0x11a50), (0x11a5c, 0x11a83), (0x11f04, 0x11f10),
  (0x11f12, 0x11f33)]

end Unicode

end Scrollback
