import AbcKit.Text.Hex
import AbcKit.Toml.Value
/-!
The lexical layer of TOML: blanks, comments and line ends, keys, the four kinds of string,
numbers, and dates and times.

Each reader takes the characters from its start and returns what it read with the rest, or
`none` when the text is not of its kind. Control characters other than tab appear in no
comment or string. A key has fewer than `nestingLimit` parts. An integer fits in 64 signed bits;
a float whose decimal value rounds up to positive infinity is refused; a date has a real day of
its month.
-/
namespace AbcKit.Toml

/-- space or tab -/
def isBlank (c : Char) : Bool := c = ' ' || c = '\t'

/-- a character allowed in a comment: tab, or any character that is not a control -/
def isCommentChar (c : Char) : Bool := c = '\t' || (c.toNat ≥ 0x20 && c.toNat ≠ 0x7F)

/-- a character of a bare key -/
def isBareKeyChar (c : Char) : Bool := c.isAlphanum || c = '_' || c = '-'

/-- the rest after a line break, if one starts the text -/
def newline : List Char → Option (List Char)
  | '\n' :: rest => some rest
  | '\r' :: '\n' :: rest => some rest
  | _ => none

/-- the text without its leading blanks -/
def skipBlank (cs : List Char) : List Char := cs.dropWhile isBlank

/-- the rest of a line after blanks and a comment: empty at the end of the text, after the
line break otherwise -/
def lineEnd (cs : List Char) : Option (List Char) :=
  let cs := match skipBlank cs with
    | '#' :: rest => rest.dropWhile isCommentChar
    | cs => cs
  if cs.isEmpty then some [] else newline cs

/-- skip blanks, line breaks and comments, as between the items of an array; `inComment` says
that a comment is open -/
def skipFill : Bool → List Char → List Char
  | false, ' ' :: r => skipFill false r
  | false, '\t' :: r => skipFill false r
  | _, '\n' :: r => skipFill false r
  | _, '\r' :: '\n' :: r => skipFill false r
  | false, '#' :: r => skipFill true r
  | true, c :: r => if isCommentChar c then skipFill true r else c :: r
  | _, cs => cs

/-- the character of a code point that is a Unicode scalar value -/
def scalar? (n : Nat) : Option Char :=
  if n < 0xD800 || (0xDFFF < n && n < 0x110000) then some (Char.ofNat n) else none

/-- the value of hexadecimal digits -/
def hexValue? (ds : List Char) : Option Nat :=
  ds.foldlM (fun acc c => (Hex.value? c).map (acc * 16 + ·)) 0

/-- a string character allowed as itself: not a control (tab apart), quote or backslash -/
def isPlainChar (c : Char) : Bool := isCommentChar c && c ≠ '"' && c ≠ '\\'

/-- the body of a basic string after its opening quote: escapes resolved, up to the closing
quote -/
def basicBody : List Char → List Char → Option (String × List Char)
  | acc, '"' :: rest => some (String.ofList acc.reverse, rest)
  | acc, '\\' :: 'b' :: rest => basicBody ('\x08' :: acc) rest
  | acc, '\\' :: 't' :: rest => basicBody ('\t' :: acc) rest
  | acc, '\\' :: 'n' :: rest => basicBody ('\n' :: acc) rest
  | acc, '\\' :: 'f' :: rest => basicBody ('\x0c' :: acc) rest
  | acc, '\\' :: 'r' :: rest => basicBody ('\r' :: acc) rest
  | acc, '\\' :: '"' :: rest => basicBody ('"' :: acc) rest
  | acc, '\\' :: '\\' :: rest => basicBody ('\\' :: acc) rest
  | acc, '\\' :: 'u' :: a :: b :: c :: d :: rest => do
    let ch ← (hexValue? [a, b, c, d]).bind scalar?
    basicBody (ch :: acc) rest
  | acc, '\\' :: 'U' :: a :: b :: c :: d :: e :: f :: g :: h :: rest => do
    let ch ← (hexValue? [a, b, c, d, e, f, g, h]).bind scalar?
    basicBody (ch :: acc) rest
  | acc, c :: rest => if isPlainChar c then basicBody (c :: acc) rest else none
  | _, [] => none

/-- the body of a literal string after its opening quote, up to the closing quote -/
def literalBody : List Char → List Char → Option (String × List Char)
  | acc, '\'' :: rest => some (String.ofList acc.reverse, rest)
  | acc, c :: rest => if isCommentChar c then literalBody (c :: acc) rest else none
  | _, [] => none

/-- where a multi-line basic string is between its escapes -/
inductive Trim where
  /-- characters count -/
  | off
  /-- after a backslash that ends a line: blanks, then the line break -/
  | backslash
  /-- after that line break: blanks and line breaks are dropped -/
  | on
deriving DecidableEq

/-- the body of a multi-line basic string after its opening quotes: up to two quotes may stand
before the closing three, and a backslash at the end of a line drops the blanks and line breaks
after it -/
def mlBasicBody : Trim → List Char → List Char → Option (String × List Char)
  | .backslash, acc, ' ' :: rest => mlBasicBody .backslash acc rest
  | .backslash, acc, '\t' :: rest => mlBasicBody .backslash acc rest
  | .backslash, acc, '\n' :: rest => mlBasicBody .on acc rest
  | .backslash, acc, '\r' :: '\n' :: rest => mlBasicBody .on acc rest
  | .backslash, _, _ => none
  | .on, acc, ' ' :: rest => mlBasicBody .on acc rest
  | .on, acc, '\t' :: rest => mlBasicBody .on acc rest
  | .on, acc, '\n' :: rest => mlBasicBody .on acc rest
  | .on, acc, '\r' :: '\n' :: rest => mlBasicBody .on acc rest
  | _, acc, '"' :: '"' :: '"' :: '"' :: '"' :: rest =>
    some (String.ofList ('"' :: '"' :: acc).reverse, rest)
  | _, acc, '"' :: '"' :: '"' :: '"' :: rest => some (String.ofList ('"' :: acc).reverse, rest)
  | _, acc, '"' :: '"' :: '"' :: rest => some (String.ofList acc.reverse, rest)
  | _, acc, '\n' :: rest => mlBasicBody .off ('\n' :: acc) rest
  | _, acc, '\r' :: '\n' :: rest => mlBasicBody .off ('\n' :: acc) rest
  | _, acc, '\\' :: ' ' :: rest => mlBasicBody .backslash acc rest
  | _, acc, '\\' :: '\t' :: rest => mlBasicBody .backslash acc rest
  | _, acc, '\\' :: '\n' :: rest => mlBasicBody .on acc rest
  | _, acc, '\\' :: '\r' :: '\n' :: rest => mlBasicBody .on acc rest
  | _, acc, '\\' :: 'b' :: rest => mlBasicBody .off ('\x08' :: acc) rest
  | _, acc, '\\' :: 't' :: rest => mlBasicBody .off ('\t' :: acc) rest
  | _, acc, '\\' :: 'n' :: rest => mlBasicBody .off ('\n' :: acc) rest
  | _, acc, '\\' :: 'f' :: rest => mlBasicBody .off ('\x0c' :: acc) rest
  | _, acc, '\\' :: 'r' :: rest => mlBasicBody .off ('\r' :: acc) rest
  | _, acc, '\\' :: '"' :: rest => mlBasicBody .off ('"' :: acc) rest
  | _, acc, '\\' :: '\\' :: rest => mlBasicBody .off ('\\' :: acc) rest
  | _, acc, '\\' :: 'u' :: a :: b :: c :: d :: rest => do
    let ch ← (hexValue? [a, b, c, d]).bind scalar?
    mlBasicBody .off (ch :: acc) rest
  | _, acc, '\\' :: 'U' :: a :: b :: c :: d :: e :: f :: g :: h :: rest => do
    let ch ← (hexValue? [a, b, c, d, e, f, g, h]).bind scalar?
    mlBasicBody .off (ch :: acc) rest
  | _, acc, c :: rest =>
    if c = '"' || isPlainChar c then mlBasicBody .off (c :: acc) rest else none
  | _, _, [] => none

/-- the body of a multi-line literal string after its opening quotes: up to two quotes may
stand before the closing three -/
def mlLiteralBody : List Char → List Char → Option (String × List Char)
  | acc, '\'' :: '\'' :: '\'' :: '\'' :: '\'' :: rest =>
    some (String.ofList ('\'' :: '\'' :: acc).reverse, rest)
  | acc, '\'' :: '\'' :: '\'' :: '\'' :: rest =>
    some (String.ofList ('\'' :: acc).reverse, rest)
  | acc, '\'' :: '\'' :: '\'' :: rest => some (String.ofList acc.reverse, rest)
  | acc, '\n' :: rest => mlLiteralBody ('\n' :: acc) rest
  | acc, '\r' :: '\n' :: rest => mlLiteralBody ('\n' :: acc) rest
  | acc, c :: rest => if isCommentChar c then mlLiteralBody (c :: acc) rest else none
  | _, [] => none

/-- the text after a line break that directly follows the opening quotes of a multi-line
string -/
def dropFirstNewline (cs : List Char) : List Char := (newline cs).getD cs

/-- a string value of any of the four kinds -/
def stringValue : List Char → Option (String × List Char)
  | '"' :: '"' :: '"' :: rest => mlBasicBody .off [] (dropFirstNewline rest)
  | '"' :: rest => basicBody [] rest
  | '\'' :: '\'' :: '\'' :: rest => mlLiteralBody [] (dropFirstNewline rest)
  | '\'' :: rest => literalBody [] rest
  | _ => none

/-- one part of a key: bare, or a one-line string -/
def simpleKey : List Char → Option (String × List Char)
  | '"' :: rest => basicBody [] rest
  | '\'' :: rest => literalBody [] rest
  | cs =>
    let k := cs.takeWhile isBareKeyChar
    if k.isEmpty then none else some (String.ofList k, cs.dropWhile isBareKeyChar)

/-- the parts of a dotted key, blanks allowed around each dot, reading at most `fuel` parts -/
def dottedKeyFrom : Nat → List Char → Option (List String × List Char)
  | 0, _ => none
  | fuel + 1, cs => do
    let (k, rest) ← simpleKey cs
    match skipBlank rest with
    | '.' :: more => do
      let (ks, rest) ← dottedKeyFrom fuel (skipBlank more)
      pure (k :: ks, rest)
    | _ => pure ([k], rest)

/-- how deep a document may nest: a key of this many parts, or arrays and inline tables nested
this deep, are refused -/
def nestingLimit : Nat := 80

/-- a key: one part or several joined by dots, fewer than `nestingLimit` of them -/
def dottedKey (cs : List Char) : Option (List String × List Char) := do
  let (ks, rest) ← dottedKeyFrom (cs.length + 1) cs
  if ks.length < nestingLimit then some (ks, rest) else none

/-- the digits after a first one: each may follow one underscore; the digits read (reversed
into `acc`) and the rest -/
def digitTail (isDigit : Char → Bool) : List Char → List Char → List Char × List Char
  | acc, '_' :: d :: rest =>
    if isDigit d then digitTail isDigit (d :: acc) rest else (acc.reverse, '_' :: d :: rest)
  | acc, d :: rest =>
    if isDigit d then digitTail isDigit (d :: acc) rest else (acc.reverse, d :: rest)
  | acc, [] => (acc.reverse, [])

/-- digits of a kind, single underscores allowed between two of them: the digits without the
underscores, and the rest -/
def digitRun (isDigit : Char → Bool) : List Char → Option (List Char × List Char)
  | c :: rest => if isDigit c then some (digitTail isDigit [c] rest) else none
  | [] => none

/-- the value of digits in a base -/
def digitsValue (base : Nat) (ds : List Char) : Nat :=
  ds.foldl (fun acc c => acc * base + ((Hex.value? c).getD 0)) 0

/-- the largest 64-bit signed integer -/
def maxInteger : Int := 9223372036854775807

/-- an integer in a base, prefixed, unsigned: the whole text must be its digits -/
def radixInteger (base : Nat) (isDigit : Char → Bool) (cs : List Char) : Option Value := do
  let (ds, rest) ← digitRun isDigit cs
  if !rest.isEmpty then none
  let n : Int := digitsValue base ds
  if n > maxInteger then none else some (.integer n)

/-- whether a decimal `m * 10^e` is at least `2^1024 - 2^970`, where binary64 rounds up to
infinity -/
def overflows (m : Nat) (e : Int) : Bool :=
  if m = 0 then false
  else
    let mag : Int := ((Nat.toDigits 10 m).length : Int) - 1 + e
    if mag ≥ 309 then true
    else if mag ≤ 307 then false
    else m * Nat.pow 10 e.toNat ≥ (Nat.pow 2 1024 - Nat.pow 2 970) * Nat.pow 10 (-e).toNat

/-- the exponent part of a float, after its letter -/
def exponent (cs : List Char) : Option Int := do
  let (neg, cs) := match cs with
    | '+' :: r => (false, r)
    | '-' :: r => (true, r)
    | r => (false, r)
  let (ds, rest) ← digitRun Char.isDigit cs
  if !rest.isEmpty then none
  let n : Int := digitsValue 10 ds
  pure (if neg then -n else n)

/-- a decimal integer or float, its sign already read (`neg`) -/
def decimalNumber (neg : Bool) (text : List Char) (cs : List Char) : Option Value := do
  let (whole, rest) ← digitRun Char.isDigit cs
  if whole.length > 1 && whole.head? = some '0' then none
  let float := fun (frac : List Char) (e : Int) =>
    if !neg && overflows (digitsValue 10 (whole ++ frac)) (e - frac.length) then none
    else some (Value.float (String.ofList text))
  match rest with
  | [] =>
    let n : Int := digitsValue 10 whole
    let v := if neg then -n else n
    if v > maxInteger || v < -maxInteger - 1 then none else some (.integer v)
  | '.' :: more => do
    let (frac, rest) ← digitRun Char.isDigit more
    match rest with
    | [] => float frac 0
    | 'e' :: ex | 'E' :: ex => do float frac (← exponent ex)
    | _ => none
  | 'e' :: ex | 'E' :: ex => do float [] (← exponent ex)
  | _ => none

/-- an integer or a float, from the whole text of its token -/
def number? (text : List Char) : Option Value :=
  let (neg, signed, body) := match text with
    | '+' :: r => (false, true, r)
    | '-' :: r => (true, true, r)
    | r => (false, false, r)
  match body with
  | ['i', 'n', 'f'] | ['n', 'a', 'n'] => some (.float (String.ofList text))
  | '0' :: 'x' :: r => if signed then none else radixInteger 16 (fun c => (Hex.value? c).isSome) r
  | '0' :: 'o' :: r => if signed then none else radixInteger 8 (fun c => '0' ≤ c && c ≤ '7') r
  | '0' :: 'b' :: r => if signed then none else radixInteger 2 (fun c => c = '0' || c = '1') r
  | _ => decimalNumber neg text body

/-- exactly `n` decimal digits and their value -/
def fixedDigits (n : Nat) (cs : List Char) : Option (Nat × List Char) :=
  let ds := cs.take n
  if ds.length = n && ds.all Char.isDigit then some (digitsValue 10 ds, cs.drop n) else none

/-- whether a year is a leap year -/
def isLeap (y : Nat) : Bool := y % 4 = 0 && (y % 100 ≠ 0 || y % 400 = 0)

/-- the number of days of a month of a year -/
def daysIn (y m : Nat) : Nat :=
  if m = 2 then (if isLeap y then 29 else 28)
  else if m = 4 || m = 6 || m = 9 || m = 11 then 30 else 31

/-- a full date `YYYY-MM-DD` with a real day of its month -/
def fullDate (cs : List Char) : Option (List Char) := do
  let (y, cs) ← fixedDigits 4 cs
  let cs ← match cs with | '-' :: r => some r | _ => none
  let (m, cs) ← fixedDigits 2 cs
  let cs ← match cs with | '-' :: r => some r | _ => none
  let (d, cs) ← fixedDigits 2 cs
  if m < 1 || m > 12 || d < 1 || d > daysIn y m then none else some cs

/-- a time `HH:MM:SS` with an optional fraction of a second -/
def partialTime (cs : List Char) : Option (List Char) := do
  let (h, cs) ← fixedDigits 2 cs
  let cs ← match cs with | ':' :: r => some r | _ => none
  let (m, cs) ← fixedDigits 2 cs
  let cs ← match cs with | ':' :: r => some r | _ => none
  let (s, cs) ← fixedDigits 2 cs
  if h > 23 || m > 59 || s > 60 then none
  match cs with
  | '.' :: r =>
    let frac := r.takeWhile Char.isDigit
    if frac.isEmpty then none else some (r.dropWhile Char.isDigit)
  | _ => some cs

/-- an offset from UTC: `Z` or `+HH:MM` / `-HH:MM` -/
def offset : List Char → Option (List Char)
  | 'Z' :: r | 'z' :: r => some r
  | '+' :: cs | '-' :: cs => do
    let (h, cs) ← fixedDigits 2 cs
    let cs ← match cs with | ':' :: r => some r | _ => none
    let (m, cs) ← fixedDigits 2 cs
    if h > 23 || m > 59 then none else some cs
  | cs => some cs

/-- whether the whole token is a date, a time, or a date and time with an optional offset -/
def isDatetime (text : List Char) : Bool :=
  match fullDate text with
  | some [] => true
  | some (sep :: rest) =>
    (sep = 'T' || sep = 't' || sep = ' ') &&
      match partialTime rest with
      | some r => offset r = some []
      | none => false
  | none => partialTime text = some []

/-- a character of a number or date token -/
def isTokenChar (c : Char) : Bool :=
  c.isAlphanum || c = '_' || c = '+' || c = '-' || c = '.' || c = ':'

/-- the token of a number, date or time: its characters, and a time after a blank when the
token is a date -/
def token (cs : List Char) : List Char × List Char :=
  let tok := cs.takeWhile isTokenChar
  let rest := cs.dropWhile isTokenChar
  match rest with
  | ' ' :: a :: b :: ':' :: _ =>
    if a.isDigit && b.isDigit && fullDate tok = some [] then
      let more := rest.tail
      (tok ++ ' ' :: more.takeWhile isTokenChar, more.dropWhile isTokenChar)
    else (tok, rest)
  | _ => (tok, rest)

/-- a scalar value that is not a string: a boolean, a number, or a date and time -/
def scalarValue (cs : List Char) : Option (Value × List Char) :=
  match cs with
  | 't' :: 'r' :: 'u' :: 'e' :: rest => some (.boolean true, rest)
  | 'f' :: 'a' :: 'l' :: 's' :: 'e' :: rest => some (.boolean false, rest)
  | _ =>
    let (tok, rest) := token cs
    if tok.isEmpty then none
    else if isDatetime tok then some (.datetime (String.ofList tok), rest)
    else (number? tok).map (·, rest)

end AbcKit.Toml
