import AbcKit.Toml.Lexical
/-!
A TOML document: values with their arrays and inline tables, then lines of key/value pairs
and table headers, folded into the root table.

A key/value line adds to the table of the last header (the root before any). A header `[k]`
defines the table `k`, which must not be defined yet nor made by dotted keys; `[[k]]` adds a
table to the array of tables `k`. Arrays and inline tables nest fewer than `nestingLimit` levels
deep. Every nesting step reads at least one character, so the length of the text bounds the depth
and the number of items, and serves as fuel.
-/
namespace AbcKit.Toml

mutual

/-- a value at nesting depth `depth`: a string, a scalar, an array or an inline table; an array
or inline table is one level deeper, and refused at `nestingLimit` -/
def valueFrom : Nat → Nat → List Char → Option (Value × List Char)
  | 0, _, _ => none
  | fuel + 1, depth, cs =>
    match cs with
    | '"' :: _ | '\'' :: _ => (stringValue cs).map fun (s, rest) => (.string s, rest)
    | '[' :: rest =>
      if depth + 1 < nestingLimit then arrayItems fuel (depth + 1) [] (skipFill false rest)
      else none
    | '{' :: rest =>
      if depth + 1 < nestingLimit then
        match skipBlank rest with
        | '}' :: more => some (.table [] .inline, more)
        | body => inlineEntries fuel (depth + 1) (.empty .header) body
      else none
    | _ => scalarValue cs

/-- the items of an array at depth `depth` after its opening bracket and any fill: items
separated by commas, a trailing comma allowed, blanks, line breaks and comments around them -/
def arrayItems : Nat → Nat → List Value → List Char → Option (Value × List Char)
  | 0, _, _, _ => none
  | fuel + 1, depth, acc, cs =>
    match cs with
    | ']' :: rest => some (.array acc.reverse, rest)
    | _ => do
      let (v, rest) ← valueFrom fuel depth cs
      match skipFill false rest with
      | ',' :: more => arrayItems fuel depth (v :: acc) (skipFill false more)
      | ']' :: more => some (.array (v :: acc).reverse, more)
      | _ => none

/-- the entries of an inline table at depth `depth` after its opening brace and blanks:
key/value pairs on one line, separated by commas, no trailing comma -/
def inlineEntries : Nat → Nat → Value → List Char → Option (Value × List Char)
  | 0, _, _, _ => none
  | fuel + 1, depth, t, cs => do
    let (path, rest) ← dottedKey cs
    let rest ← match skipBlank rest with
      | '=' :: r => some (skipBlank r)
      | _ => none
    let (v, rest) ← valueFrom fuel depth rest
    let t ← insertKey path.dropLast (path.getLastD "") v t
    match skipBlank rest with
    | ',' :: more => inlineEntries fuel depth t (skipBlank more)
    | '}' :: more =>
      match t with
      | .table es _ => some (.table es .inline, more)
      | _ => none
    | _ => none

end

/-- a value of a key/value line, with the length of its text as fuel -/
def value (cs : List Char) : Option (Value × List Char) := valueFrom (cs.length + 1) 0 cs

/-- the state of a document being read: its root table and the path of the current table -/
structure Reading where
  root : Value := .empty .header
  current : List String := []

namespace Reading

/-- add a key/value pair to the current table -/
def keyValue (r : Reading) (path : List String) (v : Value) : Option Reading := do
  let root ← modifyAt false (insertKey path.dropLast (path.getLastD "") v) r.current r.root
  pure { r with root }

/-- a table header: the table at `path` becomes defined and current -/
def header (r : Reading) (path : List String) : Option Reading := do
  let define := fun (t : Value) => match t with
    | .table es o =>
      let entry := (es.lookup (path.getLastD "")).getD (.empty .pathOnly)
      match entry with
      | .table ces .pathOnly => some (.table (upsert (path.getLastD "") (.table ces .header) es) o)
      | _ => none
    | _ => none
  let root ← modifyAt false define path.dropLast r.root
  pure { root, current := path }

/-- an array-of-tables header: a new table at the end of the array at `path` becomes current -/
def arrayHeader (r : Reading) (path : List String) : Option Reading := do
  let extend := fun (t : Value) => match t with
    | .table es o =>
      match (es.lookup (path.getLastD "")).getD (.tables []) with
      | .tables ts =>
        some (.table (upsert (path.getLastD "") (.tables (ts ++ [.empty .header])) es) o)
      | _ => none
    | _ => none
  let root ← modifyAt false extend path.dropLast r.root
  pure { root, current := path }

end Reading

/-- the key of a header up to its closing bracket(s) -/
def headerKey (close : List Char) (cs : List Char) : Option (List String × List Char) := do
  let (path, rest) ← dottedKey (skipBlank cs)
  let rest := skipBlank rest
  if close.isPrefixOf rest then some (path, rest.drop close.length) else none

/-- read the lines of a document, at most `fuel` of them -/
def linesFrom : Nat → Reading → List Char → Option Reading
  | 0, _, _ => none
  | fuel + 1, r, cs =>
    match skipBlank cs with
    | [] => some r
    | '#' :: _ => lineEnd cs >>= linesFrom fuel r
    | '\n' :: rest => linesFrom fuel r rest
    | '\r' :: '\n' :: rest => linesFrom fuel r rest
    | '[' :: '[' :: rest => do
      let (path, rest) ← headerKey [']', ']'] rest
      let r ← r.arrayHeader path
      linesFrom fuel r (← lineEnd rest)
    | '[' :: rest => do
      let (path, rest) ← headerKey [']'] rest
      let r ← r.header path
      linesFrom fuel r (← lineEnd rest)
    | line => do
      let (path, rest) ← dottedKey line
      let rest ← match skipBlank rest with
        | '=' :: more => some (skipBlank more)
        | _ => none
      let (v, rest) ← value rest
      let r ← r.keyValue path v
      linesFrom fuel r (← lineEnd rest)

/-- the characters of a document, without the byte-order mark it may start with -/
def body (text : String) : List Char :=
  match text.toList with
  | '\uFEFF' :: rest => rest
  | cs => cs

/-- the root table of a document, or `none` when it is not valid TOML; a byte-order mark at the
start is skipped -/
def parse? (text : String) : Option Value :=
  (linesFrom ((body text).length + 1) {} (body text)).map Reading.root

end AbcKit.Toml
