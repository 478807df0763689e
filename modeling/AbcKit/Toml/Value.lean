/-!
Values of a TOML document, and the tables that hold them.

A table remembers how it came to exist, because that decides whether a later line may add to it:
a table written inline is closed, a table named by a header is defined once, a table that only
lies on the path of a header may still be defined by a header of its own, and a table made by
a dotted key may be extended by dotted keys only.
-/
namespace AbcKit.Toml

/-- how a table came to exist -/
inductive Origin where
  /-- written as an inline table: closed -/
  | inline
  /-- named by a header, or the document's root: defined -/
  | header
  /-- on the path of a header, not yet defined -/
  | pathOnly
  /-- made by a dotted key -/
  | dotted
deriving DecidableEq, Repr, Inhabited

/-- a value: a scalar, an array, a table with its entries in order, or an array of tables made
by headers -/
inductive Value where
  | string (s : String)
  | integer (i : Int)
  | float (text : String)
  | boolean (b : Bool)
  | datetime (text : String)
  | array (items : List Value)
  | table (entries : List (String × Value)) (origin : Origin)
  | tables (items : List Value)
deriving Repr, Inhabited

namespace Value

/-- an empty table of an origin -/
def empty (o : Origin) : Value := .table [] o

/-- the entry of a key in a table, if any -/
def get? (v : Value) (key : String) : Option Value :=
  match v with
  | .table es _ => es.lookup key
  | _ => none

end Value

/-- replace the entry of `key`, or add it at the end -/
def upsert (key : String) (v : Value) : List (String × Value) → List (String × Value)
  | [] => [(key, v)]
  | (k, w) :: rest => if k = key then (key, v) :: rest else (k, w) :: upsert key v rest

/-- Apply `k` to the table that `path` reaches from `v`, creating each missing table on the
way, and rebuild. A step into an array of tables goes to its last table. A closed table, or a
value that is no table, cannot be passed; with `dotted` neither can a defined table, and the
tables made are dotted ones, otherwise they lie on a header's path. -/
def modifyAt (dotted : Bool) (k : Value → Option Value) : List String → Value → Option Value
  | [], v => k v
  | key :: rest, .table es o => do
    let child := (es.lookup key).getD (.empty (if dotted then .dotted else .pathOnly))
    let child ← match child with
      | .table ces co =>
        if co = .inline || (dotted && co = .header) then none
        else modifyAt dotted k rest (.table ces co)
      | .tables ts => do
        let last ← ts.getLast?
        let last ← modifyAt dotted k rest last
        pure (.tables (ts.dropLast ++ [last]))
      | _ => none
    pure (.table (upsert key child es) o)
  | _ :: _, _ => none

/-- Add `key = value` to the table at the end of the dotted prefix `path`: the table reached is
a dotted one exactly when the prefix is not empty, and it has no entry for `key` yet. -/
def insertKey (path : List String) (key : String) (value : Value) (v : Value) : Option Value :=
  modifyAt true (fun t => match t with
    | .table es o =>
      if (o = .dotted) ≠ !path.isEmpty || (es.lookup key).isSome then none
      else some (.table (es ++ [(key, value)]) o)
    | _ => none) path v

end AbcKit.Toml
