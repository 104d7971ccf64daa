import AvmAssembler.Text.Digit

/-! # Quoted text

Text and bytes as they are shown between quotes. The single quote is preferred; a text that holds single
quotes and no double quote is shown between double quotes instead. Backslash and the chosen quote are
escaped, tab, line feed and carriage return have their letters, and the other control characters are
written with two digits of base sixteen. Bytes above ASCII are written so too, characters are kept.
-/

namespace AvmAssembler.Text.Quoted

def quoteFor (cs : List Char) : Char :=
  if cs.contains '\'' && !cs.contains '"' then '"' else '\''

def hexEscape (code : Nat) : List Char :=
  ['\\', 'x', Digit.lowerHex (code / 16), Digit.lowerHex (code % 16)]

def escape (quote : Char) (c : Char) : List Char :=
  if c = quote ∨ c = '\\' then ['\\', c]
  else if c = '\t' then ['\\', 't']
  else if c = '\n' then ['\\', 'n']
  else if c = '\r' then ['\\', 'r']
  else if c.toNat < 0x20 ∨ c.toNat = 0x7f then hexEscape c.toNat
  else [c]

def text (s : String) : String :=
  let q := quoteFor s.toList
  String.ofList (q :: s.toList.flatMap (escape q) ++ [q])

def bytes (bs : List UInt8) : String :=
  let q := quoteFor (bs.map fun b => Char.ofNat b.toNat)
  let shown := bs.flatMap fun b =>
    if b.toNat < 0x80 then escape q (Char.ofNat b.toNat) else hexEscape b.toNat
  String.ofList ('b' :: q :: shown ++ [q])

end AvmAssembler.Text.Quoted
