import Transcription.Text.Printable

namespace Transcription.Quoted

/-- `n` in lower-case hexadecimal, at least `width` digits wide. -/
def hex (width n : Nat) : List Char :=
  let ds := Nat.toDigits 16 n
  List.replicate (width - ds.length) '0' ++ ds

def escape (quote c : Char) : List Char :=
  if c = quote || c = '\\' then ['\\', c]
  else if c = '\n' then ['\\', 'n']
  else if c = '\r' then ['\\', 'r']
  else if c = '\t' then ['\\', 't']
  else if Printable.isShown c then [c]
  else if c.toNat < 0x100 then '\\' :: 'x' :: hex 2 c.toNat
  else if c.toNat < 0x10000 then '\\' :: 'u' :: hex 4 c.toNat
  else '\\' :: 'U' :: hex 8 c.toNat

/-- The quote that a text is put into. -/
def quoteFor (cs : List Char) : Char :=
  if cs.contains '\'' && !cs.contains '"' then '"' else '\''

def encode (s : String) : String :=
  let cs := s.toList
  let q := quoteFor cs
  String.ofList (q :: cs.flatMap (escape q) ++ [q])

/-- Bytes in quotes; all but the printable ones of the first half are shown by their codes. -/
def encodeBytes (cs : List Char) : String :=
  let q := quoteFor cs
  String.ofList (q :: cs.flatMap (fun c =>
    if c.toNat < 128 then escape q c else '\\' :: 'x' :: hex 2 c.toNat) ++ [q])

end Transcription.Quoted
