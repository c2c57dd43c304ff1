import Transcription.Value.Equality

namespace Transcription
namespace Literal

inductive Token where
  | number (v : Value)
  | text (s : List Char)
  | bytes (s : List Char)
  | word (w : String)
  | mark (c : Char)
  | dots
  | newline

def asciiDigit (c : Char) : Option Nat :=
  if c.isDigit then some (c.toNat - '0'.toNat) else none

def digitBelow (base : Nat) (c : Char) : Option Nat :=
  let v := if c.isDigit then c.toNat - '0'.toNat
    else if 'a' ≤ c && c ≤ 'f' then c.toNat - 'a'.toNat + 10
    else if 'A' ≤ c && c ≤ 'F' then c.toNat - 'A'.toNat + 10
    else base
  if v < base then some v else none

def isWordChar (c : Char) : Bool := c.isAlphanum || c = '_' || 128 ≤ c.toNat

/-- The base that a leading `0` and this letter announce. -/
def base? (c : Char) : Option Nat :=
  if c = 'x' || c = 'X' then some 16
  else if c = 'o' || c = 'O' then some 8
  else if c = 'b' || c = 'B' then some 2
  else none

def takeBased (base : Nat) (cs : List Char) : Option (Value × List Char) :=
  let cs := match cs with
    | '_' :: r => r
    | r => r
  match Numeral.takeDigits (digitBelow base) cs with
  | ([], _) => none
  | (ds, r) => some (.int (Numeral.ofDigits base ds), r)

/-- A decimal number; a whole one starts with a zero only if it is zero. -/
def takeDecimal (cs : List Char) : Option (Value × List Char) := do
  let (whole, rest) := Numeral.takeDigits asciiDigit cs
  let isWhole := match rest with
    | c :: _ => !(c = '.' || c = 'e' || c = 'E' || c = 'j' || c = 'J')
    | [] => true
  if isWhole then
    if whole.head? = some 0 && whole.any (· != 0) then none
    if Numeral.maxDigits < whole.length then none
    pure (.int (Numeral.ofDigits 10 whole), rest)
  else
    let (x, rest) ← Numeral.takeDecimal asciiDigit cs
    match rest with
    | c :: r => if c = 'j' || c = 'J' then pure (.complex 0 x, r) else pure (.float x, c :: r)
    | [] => pure (.float x, [])

def takeNumber (cs : List Char) : Option (Value × List Char) := do
  let (v, rest) ← match cs with
    | '0' :: c :: r => match base? c with
      | some base => takeBased base r
      | none => takeDecimal cs
    | _ => takeDecimal cs
  if (rest.head?.map isWordChar).getD false then none
  pure (v, rest)

structure Quoting where
  quote : Char
  triple : Bool
  raw : Bool
  bytes : Bool

def simpleEscape? (c : Char) : Option (List Char) :=
  match c with
  | '\n' => some []
  | '\\' | '\'' | '"' => some [c]
  | 'a' => some [Char.ofNat 7]
  | 'b' => some [Char.ofNat 8]
  | 'f' => some [Char.ofNat 12]
  | 'n' => some ['\n']
  | 'r' => some ['\r']
  | 't' => some ['\t']
  | 'v' => some [Char.ofNat 11]
  | _ => none

/-- Takes the character with a code of exactly `n` hexadecimal digits. -/
def takeCode (n : Nat) (cs : List Char) : Option (List Char × List Char) := do
  let ds ← (cs.take n).mapM (digitBelow 16)
  let code := Numeral.ofDigits 16 ds
  if ds.length = n && code.isValidChar then some ([Char.ofNat code], cs.drop n) else none

/-- Takes what follows a backslash. -/
def takeEscape (q : Quoting) : List Char → Option (List Char × List Char)
  | [] => none
  | c :: r =>
    if q.raw then some (['\\', c], r)
    else match simpleEscape? c with
      | some cs => some (cs, r)
      | none =>
        if c = 'x' then takeCode 2 r
        else if c = 'u' && !q.bytes then takeCode 4 r
        else if c = 'U' && !q.bytes then takeCode 8 r
        else if c = 'N' && !q.bytes then none
        else
          let ds := ((c :: r).take 3).takeWhile fun d => (digitBelow 8 d).isSome
          if ds.isEmpty then some (['\\', c], r)
          else
            let code := Numeral.ofDigits 8 (ds.filterMap (digitBelow 8))
            some ([Char.ofNat (if q.bytes then code % 256 else code)], (c :: r).drop ds.length)

/-- The rest after the closing quotes, if they stand here. -/
def closing? (q : Quoting) : List Char → Option (List Char)
  | a :: b :: c :: r =>
    if q.triple then (if a = q.quote && b = q.quote && c = q.quote then some r else none)
    else if a = q.quote then some (b :: c :: r) else none
  | a :: r => if !q.triple && a = q.quote then some r else none
  | [] => none

/-- Takes a quoted text whose opening quotes have been read. Every character takes one unit of
`fuel`, so the length of the text is enough. -/
def takeQuoted (q : Quoting) : Nat → List Char → Option (List Char × List Char)
  | 0, _ => none
  | fuel + 1, cs =>
    match closing? q cs, cs with
    | some rest, _ => some ([], rest)
    | none, [] => none
    | none, '\\' :: r => do
      let (s, r) ← takeEscape q r
      let (t, r) ← takeQuoted q fuel r
      pure (s ++ t, r)
    | none, c :: r => do
      if c = '\n' && !q.triple then none
      if q.bytes && 128 ≤ c.toNat then none
      let (t, r) ← takeQuoted q fuel r
      pure (c :: t, r)

/-- The way of quoting that letters before a quote announce. -/
def quoting? (letters : List Char) (quote : Char) (triple : Bool) : Option Quoting :=
  match letters.map Char.toLower with
  | [] | ['u'] => some ⟨quote, triple, false, false⟩
  | ['r'] => some ⟨quote, triple, true, false⟩
  | ['b'] => some ⟨quote, triple, false, true⟩
  | ['r', 'b'] | ['b', 'r'] => some ⟨quote, triple, true, true⟩
  | _ => none

/-- Takes a quoted text at its opening quote. -/
def takeText (letters : List Char) (cs : List Char) : Option (Token × List Char) := do
  let (quote, rest) ← match cs with
    | c :: r => some (c, r)
    | [] => none
  let (triple, rest) := match rest with
    | a :: b :: r => if a = quote && b = quote then (true, r) else (false, rest)
    | _ => (false, rest)
  let q ← quoting? letters quote triple
  let (s, rest) ← takeQuoted q (rest.length + 1) rest
  pure (if q.bytes then .bytes s else .text s, rest)

/-- Where the reader of tokens stands: how many brackets are open, whether a token has been read on
this line, and whether blanks that would indent it have. -/
structure Position where
  depth : Nat
  started : Bool
  indented : Bool

def step (p : Position) : List Char → Option (Option Token × Position × List Char)
  | [] => none
  | c :: r =>
    let here (t : Token) (p : Position) (r : List Char) : Option (Option Token × Position × List Char) :=
      if p.indented && !p.started && p.depth = 0 then none
      else some (some t, { p with started := true }, r)
    if c = '\n' then
      if p.depth = 0 && p.started then some (some .newline, ⟨0, false, false⟩, r)
      else some (none, { p with indented := false }, r)
    else if c = ' ' || c = '\t' then some (none, { p with indented := true }, r)
    else if c = '\x0c' then some (none, { p with indented := false }, r)
    else if c = '#' then some (none, { p with indented := false }, r.dropWhile (· != '\n'))
    else if c = '\\' then match r with
      | '\n' :: d :: r => some (none, p, d :: r)
      | _ => none
    else if c = '\'' || c = '"' then do
      let (t, r) ← takeText [] (c :: r)
      here t p r
    else if c.isDigit || (c = '.' && (r.head?.map Char.isDigit).getD false) then do
      let (v, r) ← takeNumber (c :: r)
      here (.number v) p r
    else if c = '.' then match r with
      | '.' :: '.' :: r => here .dots p r
      | _ => none
    else if isWordChar c then
      let w := (c :: r).takeWhile isWordChar
      let rest := (c :: r).dropWhile isWordChar
      if rest.head? = some '\'' || rest.head? = some '"' then do
        let (t, r) ← takeText w rest
        here t p r
      else here (.word (String.ofList w)) p rest
    else if c = '(' || c = '[' || c = '\x7b' then here (.mark c) { p with depth := p.depth + 1 } r
    else if c = ')' || c = ']' || c = '\x7d' then here (.mark c) { p with depth := p.depth - 1 } r
    else if c = ',' || c = ':' || c = '+' || c = '-' then here (.mark c) p r
    else none

/-- All tokens of a text, if it has no character that belongs to none and does not end in blanks of
an unfinished line. Every step takes a character, so the length is enough `fuel`. -/
def tokens : Nat → Position → List Char → Option (List Token)
  | _, p, [] => if p.indented && !p.started && p.depth = 0 then none else some []
  | 0, _, _ => none
  | fuel + 1, p, cs => do
    let (t, p, r) ← step p cs
    let ts ← tokens fuel p r
    pure (match t with
      | some t => t :: ts
      | none => ts)

/-- A value read, and whether it is a bare number or one with at most a sign. -/
structure Item where
  value : Value
  bare : Bool := false
  signed : Bool := false

def negate : Value → Option Value
  | .int n => some (.int (-n))
  | .float x => some (.float (-x))
  | .complex re im => some (.complex (-re) (-im))
  | _ => none

/-- The sum or difference of a real and an imaginary number. -/
def addImaginary (minus : Bool) : Value → Value → Option Value
  | v, .complex re im => do
    let x ← match v with
      | .int n => Binary64.ofInt? n
      | .float x => some x
      | _ => none
    pure (if minus then .complex (x - re) (0.0 - im) else .complex (x + re) (0.0 + im))
  | _, _ => none

/-- Takes the quoted texts that follow one another; they read as one. -/
def takeTexts : List Token → List Char × List Token
  | .text s :: ts => let (s', r) := takeTexts ts; (s ++ s', r)
  | ts => ([], ts)

/-- Takes the quoted bytes that follow one another. -/
def takeBytes : List Token → List Char × List Token
  | .bytes s :: ts => let (s', r) := takeBytes ts; (s ++ s', r)
  | ts => ([], ts)

/-- The members of a set: of equal values the first. -/
def distinct (vs : List Value) : List Value :=
  vs.foldl (fun kept v => if v.isAmong kept then kept else kept ++ [v]) []

/-- Sets the entry of a key, where it stands or at the end. -/
def setEntry (k v : Value) : List (Value × Value) → List (Value × Value)
  | [] => [(k, v)]
  | (l, w) :: rest => if k.isAmong [l] then (l, v) :: rest else (l, w) :: setEntry k v rest

/-- The entries of a dictionary: the last value of a key counts. -/
def collectEntries (entries : List (Value × Value)) : List (Value × Value) :=
  entries.foldl (fun acc e => setEntry e.1 e.2 acc) []

mutual

/-- A number with its sign, a sum with an imaginary number, or another value. -/
def takeItem : Nat → List Token → Option (Item × List Token)
  | 0, _ => none
  | fuel + 1, ts => do
    let (a, r) ← takeSigned fuel ts
    match r with
    | .mark c :: r' =>
      if c = '+' || c = '-' then
        let (b, r'') ← takeAtom fuel r'
        if !a.signed || !b.bare then none
        let v ← addImaginary (c = '-') a.value b.value
        match r'' with
        | .mark '+' :: _ => none
        | .mark '-' :: _ => none
        | _ => pure ({ value := v }, r'')
      else pure (a, r)
    | _ => pure (a, r)

def takeSigned : Nat → List Token → Option (Item × List Token)
  | 0, _ => none
  | fuel + 1, ts =>
    match ts with
    | .mark '+' :: r => do
      let (a, r) ← takeAtom fuel r
      if a.bare then pure ({ a with bare := false }, r) else none
    | .mark '-' :: r => do
      let (a, r) ← takeAtom fuel r
      let v ← negate a.value
      if a.bare then pure ({ value := v, signed := true }, r) else none
    | ts => takeAtom fuel ts

def takeAtom : Nat → List Token → Option (Item × List Token)
  | 0, _ => none
  | fuel + 1, ts =>
    match ts with
    | .number v :: r => some (⟨v, true, true⟩, r)
    | .text s :: r =>
      let (t, r) := takeTexts r
      match r with
      | .bytes _ :: _ => none
      | _ => some ({ value := .text (String.ofList (s ++ t)) }, r)
    | .bytes s :: r =>
      let (t, r) := takeBytes r
      match r with
      | .text _ :: _ => none
      | r => some ({ value := .other (.bytes (s ++ t)) }, r)
    | .dots :: r => some ({ value := .other .ellipsis }, r)
    | .word "set" :: .mark '(' :: .mark ')' :: r => some ({ value := .other (.set []) }, r)
    | .word "None" :: r => some ({ value := .none }, r)
    | .word "True" :: r => some ({ value := .bool true }, r)
    | .word "False" :: r => some ({ value := .bool false }, r)
    | .mark '(' :: .mark ')' :: r => some ({ value := .tuple [] }, r)
    | .mark '(' :: r => do
      let (vs, comma, item, r) ← takeItems fuel ')' r
      match comma, item with
      | false, some a => pure (a, r)
      | _, _ => pure ({ value := .tuple vs }, r)
    | .mark '[' :: .mark ']' :: r => some ({ value := .list [] }, r)
    | .mark '[' :: r => do
      let (vs, _, _, r) ← takeItems fuel ']' r
      pure ({ value := .list vs }, r)
    | .mark '\x7b' :: .mark '\x7d' :: r => some ({ value := .other (.dict []) }, r)
    | .mark '\x7b' :: r =>
      match takeItems fuel '\x7d' r with
      | some (vs, _, _, r) =>
        if Value.areKeys vs then some ({ value := .other (.set (distinct vs)) }, r) else none
      | none => do
        let (entries, r) ← takeEntries fuel r
        pure ({ value := .other (.dict (collectEntries entries)) }, r)
    | _ => none

/-- One or more values up to a closing mark: the values, whether a comma stood among them, and the
only one as it was read. -/
def takeItems : Nat → Char → List Token → Option (List Value × Bool × Option Item × List Token)
  | 0, _, _ => none
  | fuel + 1, close, ts => do
    let (a, r) ← takeItem fuel ts
    match r with
    | .mark ',' :: .mark c :: r' =>
      if c = close then pure ([a.value], true, none, r')
      else
        let (vs, _, _, r) ← takeItems fuel close (.mark c :: r')
        pure (a.value :: vs, true, none, r)
    | .mark ',' :: r =>
      let (vs, _, _, r) ← takeItems fuel close r
      pure (a.value :: vs, true, none, r)
    | .mark c :: r => if c = close then pure ([a.value], false, some a, r) else none
    | _ => none

/-- The entries of a dictionary up to its closing mark. -/
def takeEntries : Nat → List Token → Option (List (Value × Value) × List Token)
  | 0, _ => none
  | fuel + 1, ts => do
    let (k, r) ← takeItem fuel ts
    if !k.value.isKey then none
    match r with
    | .mark ':' :: r =>
      let (v, r) ← takeItem fuel r
      let entry := (k.value, v.value)
      match r with
      | .mark '\x7d' :: r => pure ([entry], r)
      | .mark ',' :: .mark '\x7d' :: r => pure ([entry], r)
      | .mark ',' :: r =>
        let (entries, r) ← takeEntries fuel r
        pure (entry :: entries, r)
      | _ => none
    | _ => none

end

/-- One value, or several with commas, which form a tuple, and nothing but line ends after. -/
def whole (ts : List Token) : Option Value := do
  let isNewline : Token → Bool
    | .newline => true
    | _ => false
  let body := ts.takeWhile (!isNewline ·)
  if !(ts.dropWhile (!isNewline ·)).all isNewline then none
  let close := ')'
  let (vs, comma, item, rest) ← takeItems (4 * ts.length + 8) close (body ++ [.mark close])
  if !rest.isEmpty then none
  match comma, item with
  | false, some a => pure a.value
  | _, _ => pure (.tuple vs)

/-- Line ends of any kind as line feeds. -/
def unifyLines : List Char → List Char
  | '\r' :: '\n' :: r => '\n' :: unifyLines r
  | '\r' :: r => '\n' :: unifyLines r
  | c :: r => c :: unifyLines r
  | [] => []

end Literal

/-- The value that a text is a literal of. -/
def Value.literal? (s : String) : Option Value := do
  let cs := Literal.unifyLines (s.toList.dropWhile fun c => c = ' ' || c = '\t')
  let ts ← Literal.tokens (2 * cs.length + 1) ⟨0, false, false⟩ cs
  Literal.whole ts

end Transcription
