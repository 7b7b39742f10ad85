import Scrollback.Bytes.LittleEndian
import Scrollback.Style

/-!
This module contains the entries of the attribute log. Each ends a run of text of one style. An
entry is 19 bytes long: an offset of 8 bytes, two colors of 4 bytes, 2 bytes of effects and the
number of columns.
-/

namespace Scrollback

namespace Color

def encode : Color → List UInt8
  | .named name => 0 :: LittleEndian.encode 2 name.number.toNat ++ [0]
  | .indexed index => [1, index, 0, 0]
  | .rgb red green blue => [2, red, green, blue]

def decode? : List UInt8 → Option Color
  | [kind, a, b, c] =>
    if kind = 0 then
      (NamedColor.ofNumber? (.ofNat (LittleEndian.decode [a, b]))).map .named
    else if kind = 1 then
      some (.indexed a)
    else if kind = 2 then
      some (.rgb a b c)
    else
      none
  | _ => none

end Color

/--
The end of a run of text. The text before `textEnd`, back to where the previous run ends, has the
given style.
-/
structure StyleChange where
  textEnd : UInt64
  style : Style
  deriving DecidableEq, Repr

namespace StyleChange

def size : Nat := 19

def encode (change : StyleChange) : List UInt8 :=
  LittleEndian.encode 8 change.textEnd.toNat ++ change.style.foreground.encode ++
    change.style.background.encode ++ LittleEndian.encode 2 change.style.flags.toNat ++
    [change.style.columns]

def decode? (bytes : List UInt8) : Option StyleChange :=
  match bytes.drop 16 with
  | [low, high, columns] => do
    let foreground ← Color.decode? ((bytes.drop 8).take 4)
    let background ← Color.decode? ((bytes.drop 12).take 4)
    let style : Style :=
      { foreground, background, flags := .ofNat (LittleEndian.decode [low, high]), columns }
    guard style.FlagsDefined
    return { textEnd := .ofNat (LittleEndian.decode (bytes.take 8)), style }
  | _ => none

end StyleChange

end Scrollback
