/-!
This module contains the decoding of bytes that should be UTF-8 but need not be.
-/

namespace Scrollback

namespace Text

structure Utf8Decoder where
  text : String := ""
  code : Nat := 0
  missing : Nat := 0
  low : UInt8 := 0x80
  high : UInt8 := 0xbf

namespace Utf8Decoder

def replacement : Char := '\ufffd'

/--
The decoder after the first byte of a character. The bounds for the second byte leave out characters
that have a shorter form, surrogates, and numbers that are too high.
-/
def start (text : String) (byte : UInt8) : Utf8Decoder :=
  let code := byte.toNat
  if byte < 0x80 then { text := text.push (Char.ofNat code) }
  else if byte < 0xc2 then { text := text.push replacement }
  else if byte < 0xe0 then { text, code := code % 0x20, missing := 1 }
  else if byte = 0xe0 then { text, code := 0, missing := 2, low := 0xa0 }
  else if byte = 0xed then { text, code := 0xd, missing := 2, high := 0x9f }
  else if byte < 0xf0 then { text, code := code % 0x10, missing := 2 }
  else if byte = 0xf0 then { text, code := 0, missing := 3, low := 0x90 }
  else if byte < 0xf4 then { text, code := code % 0x08, missing := 3 }
  else if byte = 0xf4 then { text, code := 4, missing := 3, high := 0x8f }
  else { text := text.push replacement }

/--
The decoder after another byte. A character that breaks off is replaced as a whole.
-/
def step (decoder : Utf8Decoder) (byte : UInt8) : Utf8Decoder :=
  match decoder.missing with
  | 0 => start decoder.text byte
  | missing + 1 =>
    if decoder.low ≤ byte && byte ≤ decoder.high then
      let code := decoder.code * 0x40 + byte.toNat % 0x40
      if missing = 0 then
        { text := decoder.text.push (Char.ofNat code) }
      else
        { text := decoder.text, code, missing }
    else
      start (decoder.text.push replacement) byte

def finish (decoder : Utf8Decoder) : String :=
  if decoder.missing = 0 then decoder.text else decoder.text.push replacement

end Utf8Decoder

def decodeUtf8 (bytes : ByteArray) : String :=
  (bytes.foldl Utf8Decoder.step {}).finish

end Text

end Scrollback
