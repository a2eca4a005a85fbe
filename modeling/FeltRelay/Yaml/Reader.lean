import FeltRelay.Text.Blank
import FeltRelay.Yaml.Token

/-!
# Reading YAML text

The reader accepts one document of block and flow collections. A block mapping or sequence is known
by its column: entries stand at one column, their values further to the right. A sequence that is
the value of a mapping may stand at the column of the mapping. Flow collections are as in JSON, with
plain scalars. Anchors, tags, block scalars and documents after the first are refused.

Every function takes a budget that bounds the depth of its recursion; the text's length is enough.
-/

namespace FeltRelay.Yaml

/-- A document as it is written. Names may be repeated, and scalars are still to be had. -/
inductive Node where
  | scalar (v : Weighed Scalar)
  | sequence (items : List Node)
  | mapping (members : List (Weighed Scalar × Node))

/-- The node of a value that is left out. -/
def nothing : Node := .scalar (.ok .null)

def Node.scalar? : Node → Option (Weighed Scalar)
  | scalar v => some v
  | _ => none

/-! ### Flow collections -/

def colon? : List Char → Option (List Char)
  | ':' :: rest => some rest
  | _ => none

mutual

/-- A value inside a flow collection: the value, what follows, and whether it goes over a line. -/
def flowNode : Nat → List Char → Option (Node × List Char × Bool)
  | 0, _ => none
  | budget + 1, s =>
    match s with
    | '[' :: rest => (flowItems budget [] (skip rest).rest).map fun (v, r) => (v, r, true)
    | '\x7b' :: rest => (flowMembers budget [] (skip rest).rest).map fun (v, r) => (v, r, true)
    | _ => (scalar? true 0 s).map fun (v, after, multiline) =>
      (.scalar v, after.rest, multiline || after.fresh)

/-- A key with its value. A key without colon on its line has none. -/
def flowMember : Nat → List Char → Option (Weighed Scalar × Node × List Char)
  | 0, _ => none
  | budget + 1, s => do
    let (name, after, multiline) ← scalar? true 0 s
    let next := after.skip
    match colon? next.rest with
    | some rest =>
      if multiline || next.fresh then none
      else
        let value := (skip rest).rest
        match value with
        | ',' :: _ | '\x7d' :: _ | ']' :: _ => return (name, nothing, value)
        | _ =>
          let (v, rest, _) ← flowNode budget value
          return (name, v, rest)
    | none => return (name, nothing, next.rest)

/-- The items of a flow sequence. An item with a colon is a mapping of one member. -/
def flowItems : Nat → List Node → List Char → Option (Node × List Char)
  | 0, _, _ => none
  | budget + 1, items, s =>
    match s with
    | [] => none
    | ']' :: rest => some (.sequence items, rest)
    | _ => do
      let (v, rest, multiline) ← flowNode budget s
      let next := skip rest
      let (v, rest) ← match colon? next.rest with
        | none => pure (v, next.rest)
        | some _ =>
          if multiline || next.fresh then none
          else do
            let (name, v, rest) ← flowMember budget s
            pure (Node.mapping [(name, v)], (skip rest).rest)
      match rest with
      | ',' :: rest => flowItems budget (items ++ [v]) (skip rest).rest
      | ']' :: rest => some (.sequence (items ++ [v]), rest)
      | _ => none

def flowMembers :
    Nat → List (Weighed Scalar × Node) → List Char → Option (Node × List Char)
  | 0, _, _ => none
  | budget + 1, members, s =>
    match s with
    | [] => none
    | '\x7d' :: rest => some (.mapping members, rest)
    | _ => do
      let (name, v, rest) ← flowMember budget s
      let members := members ++ [(name, v)]
      match (skip rest).rest with
      | ',' :: rest => flowMembers budget members (skip rest).rest
      | '\x7d' :: rest => some (.mapping members, rest)
      | _ => none

end

/-! ### Block collections -/

/-- Whether an entry of a block sequence starts here. -/
def isDash : List Char → Bool
  | '-' :: rest => endsWord rest
  | _ => false

/-- What follows the colon of a block mapping's key. -/
def blockColon? : List Char → Option (List Char)
  | ':' :: rest => if endsWord rest then some rest else none
  | _ => none

/-- A scalar or flow collection on a line, whether it may be a key, and the place after it. -/
def inline (budget least : Nat) (s : List Char) : Option (Node × Bool × Cursor) :=
  match s with
  | '[' :: _ | '\x7b' :: _ =>
    (flowNode budget s).map fun (v, rest, _) => (v, false, (⟨rest, 0, false⟩ : Cursor))
  | _ => (scalar? false least s).map fun (v, after, multiline) =>
    (.scalar v, !multiline && !after.fresh, after)

/-- The next token, which has to stand on a line of its own. -/
def nextLine (c : Cursor) : Option Cursor :=
  let c := c.skip
  if c.fresh || c.rest.isEmpty then some c else none

/-- The name of a key, if a colon follows on its line, and the rest after the colon. -/
def key? (v : Node) (mayBeKey : Bool) (after : Cursor) :
    Option (Option (Weighed Scalar) × List Char) :=
  match blockColon? (after.rest.dropWhile (· = ' ')) with
  | some rest => if mayBeKey then some (v.scalar?, rest) else none
  | none => none

mutual

/-- The value at a token, and the token after it. -/
def blockNode : Nat → Nat → Cursor → Option (Node × Cursor)
  | 0, _, _ => none
  | budget + 1, least, c =>
    if isDash c.rest then blockItems budget c.column [] c.rest
    else do
      let (v, mayBeKey, after) ← inline budget least c.rest
      match key? v mayBeKey after with
      | some (name, rest) => blockMembers budget c.column [] (← name) rest
      | none => return (v, ← nextLine after)

/-- The value of an entry that starts after a dash or a colon; `column` is that of the entry. -/
def blockValue : Nat → Bool → Nat → Cursor → Option (Node × Cursor)
  | 0, _, _, _ => none
  | budget + 1, nested, column, c =>
    if c.rest.isEmpty then some (nothing, c)
    else if c.fresh then
      if column < c.column then blockNode budget (column + 1) c
      else if !nested && c.column = column && isDash c.rest then
        blockItems budget column [] c.rest
      else some (nothing, c)
    else if nested then blockNode budget (column + 1) c
    else do
      let (v, _, after) ← inline budget (column + 1) c.rest
      return (v, ← nextLine after)

/-- The entries of a block sequence, from a dash on. -/
def blockItems : Nat → Nat → List Node → List Char → Option (Node × Cursor)
  | 0, _, _, _ => none
  | budget + 1, column, items, s => do
    let (v, next) ← blockValue budget true column (skipFrom false (s.drop 1) (column + 1) false)
    let items := items ++ [v]
    if next.rest.isEmpty ∨ next.column < column then return (.sequence items, next)
    else if next.column = column then
      if isDash next.rest then blockItems budget column items next.rest
      else return (.sequence items, next)
    else none

/-- The entries of a block mapping, from the colon of a key on. -/
def blockMembers :
    Nat → Nat → List (Weighed Scalar × Node) → Weighed Scalar → List Char →
      Option (Node × Cursor)
  | 0, _, _, _, _ => none
  | budget + 1, column, members, name, s => do
    let (v, next) ← blockValue budget false column (skip s)
    let members := members ++ [(name, v)]
    if next.rest.isEmpty ∨ next.column < column then return (.mapping members, next)
    else if next.column = column ∧ !isDash next.rest then
      let (k, mayBeKey, after) ← inline budget (column + 1) next.rest
      let (name, rest) ← key? k mayBeKey after
      blockMembers budget column members (← name) rest
    else none

end

/-! ### Values -/

/-- A table whose names are any scalars, in order of arrival. -/
abbrev Named := List (Scalar × Json)

def Named.put (name : Scalar) (v : Json) : Named → Named
  | [] => [(name, v)]
  | (name', v') :: rest =>
    if name'.same name then (name', v) :: rest else (name', v') :: put name v rest

/-- Of a repeated name the last value counts, at the first place. -/
def Named.ofPairs (pairs : Named) : Named := pairs.foldl (fun acc e => Named.put e.1 e.2 acc) []

/-- The members under names that are texts. -/
def Named.texts (ms : Named) : List (String × Json) :=
  ms.filterMap fun (name, v) => name.text?.map (·, v)

/-- An object with all members. Names that are one text are one name there. -/
def Named.json (ms : Named) : Json :=
  .obj (Entries.ofPairs (ms.map fun (name, v) => (name.memberName, v)))

namespace Node

mutual

/-- The value of a document. -/
def json : Node → Weighed Json
  | scalar v => v.map Scalar.json
  | sequence items => do return .arr (← jsons items)
  | mapping ms => do return (Named.ofPairs (← pairs ms)).json

def jsons : List Node → Weighed (List Json)
  | [] => return []
  | n :: rest => return (← json n) :: (← jsons rest)

def pairs : List (Weighed Scalar × Node) → Weighed Named
  | [] => return []
  | (name, n) :: rest => return (← name, ← json n) :: (← pairs rest)

end

/-- The members of a mapping; nothing for other values. An empty document is an empty mapping. -/
def members : Node → Weighed (Option Named)
  | mapping ms => do return some (Named.ofPairs (← pairs ms))
  | n => do return if (← n.json).isEmpty then some [] else none

end Node

/-! ### Documents -/

def isAllowed (c : Char) : Bool :=
  let n := c.toNat
  n = 9 || n = 10 || n = 13 || (0x20 ≤ n && n ≤ 0x7E) || n = 0x85 || (0xA0 ≤ n && n ≤ 0xFFFD) ||
    0x10000 ≤ n

def isMarker (line : List Char) : Bool :=
  (['-', '-', '-'].isPrefixOf line || ['.', '.', '.'].isPrefixOf line) && endsWord (line.drop 3)

/-- A line that holds nothing but blanks or a comment. -/
def isIdle (line : List Char) : Bool := (line.dropWhile (· = ' ')).headD '#' = '#'

/-- A marker behind a document, with nothing else on its line. -/
def isEnd (line : List Char) : Bool := ['.', '.', '.'].isPrefixOf line && isIdle (line.drop 3)

/-- The lines of the only document: markers may stand in front of it and behind it. -/
def body? (lines : List (List Char)) : Option (List (List Char)) :=
  let lines := lines.dropWhile isIdle
  let lines := match lines with
    | line :: rest =>
      if ['-', '-', '-'].isPrefixOf line && isIdle (line.drop 3) then rest else line :: rest
    | [] => []
  let (lines, after) := lines.span (!isEnd ·)
  if lines.any isMarker || !after.all (fun line => isIdle line || isEnd line) then none
  else some lines

def read? (text : String) : Option Node := do
  let s := match text.toList with
    | '\ufeff' :: rest => rest
    | s => s
  if !s.all isAllowed then none
  let s := Text.unifyBreaks (fun c => c = '\r' || c.toNat = 0x85) s
  let lines ← body? (s.splitOnP (· = '\n'))
  let s := List.intercalate ['\n'] lines
  let c := skipFrom false s 0 true
  if c.rest.isEmpty then return nothing
  let (v, next) ← blockNode (2 * s.length + 4) 0 c
  if next.rest.isEmpty then return v else none

end FeltRelay.Yaml
