import UtreexoBridge.Rpc.JsonCursor

/-!
# The streaming projection (`ProjectVerboseBlock`, `ParseVerboseBlockJson`)

Only the fields that `ParseVerboseBlock` reads are copied. The rest of a
`getblock` result is skipped.
-/

namespace UtreexoBridge.Rpc

open JsonCursor

/-! ## Fields -/

/-- `Projection`, by the object that it selects from. -/
inductive JsonProjection
  | block
  | transaction
  | input
  | prevout
  | output
  | script
  deriving DecidableEq

inductive FieldProjection
  | scalar
  | object (child : JsonProjection)
  | array (child : JsonProjection)
  deriving DecidableEq

def projectedField (projection : JsonProjection) (key : List UInt8) : Option FieldProjection :=
  match projection with
  | .block =>
    if key = ascii "hash" ∨ key = ascii "height" ∨ key = ascii "previousblockhash" then some .scalar
    else if key = ascii "tx" then some (.array .transaction)
    else none
  | .transaction =>
    if key = ascii "txid" then some .scalar
    else if key = ascii "vin" then some (.array .input)
    else if key = ascii "vout" then some (.array .output)
    else none
  | .input =>
    if key = ascii "txid" ∨ key = ascii "vout" then some .scalar
    else if key = ascii "prevout" then some (.object .prevout)
    else none
  | .prevout =>
    if key = ascii "generated" ∨ key = ascii "height" ∨ key = ascii "value" then some .scalar
    else if key = ascii "scriptPubKey" then some (.object .script)
    else none
  | .output =>
    if key = ascii "n" ∨ key = ascii "value" then some .scalar
    else if key = ascii "scriptPubKey" then some (.object .script)
    else none
  | .script => if key = ascii "hex" then some .scalar else none

/-! ## Copying -/

def copyValue (cursor output : List UInt8) : Except String (List UInt8 × List UInt8) :=
  let first := whitespace cursor
  match skipValue (2 * first.length + 2) 0 first with
  | .error message => .error message
  | .ok cursor =>
    let behind := whitespace cursor
    .ok (behind, output ++ first.take (first.length - behind.length))

mutual

/-- `ProjectObject`. With two fuel for each byte that is left no call runs out of it. -/
def projectObject : Nat → JsonProjection → List UInt8 → List UInt8 → Except String (List UInt8 × List UInt8)
  | 0, _, _, _ => .error "projected JSON field must be an object"
  | fuel + 1, projection, cursor, output =>
    match consume 123 cursor with
    | (false, _) => .error "projected JSON field must be an object"
    | (true, cursor) =>
      match consume 125 cursor with
      | (true, cursor) => .ok (cursor, output ++ [123] ++ [125])
      | (false, cursor) => projectMembers fuel projection true cursor (output ++ [123])

/-- The loop over the members. `first` is `first_output`. -/
def projectMembers : Nat → JsonProjection → Bool → List UInt8 → List UInt8 → Except String (List UInt8 × List UInt8)
  | 0, _, _, _, _ => .error "projected JSON field must be an object"
  | fuel + 1, projection, first, cursor, output =>
    match string cursor with
    | .error message => .error message
    | .ok (key, cursor) =>
      match consume 58 cursor with
      | (false, _) => .error "missing colon in projected JSON object"
      | (true, cursor) =>
        match projectField fuel projection first key cursor output with
        | .error message => .error message
        | .ok (first, cursor, output) =>
          match consume 125 cursor with
          | (true, cursor) => .ok (cursor, output ++ [125])
          | (false, cursor) =>
            match consume 44 cursor with
            | (false, _) => .error "missing comma in projected JSON object"
            | (true, cursor) => projectMembers fuel projection first cursor output

def projectField : Nat → JsonProjection → Bool → List UInt8 → List UInt8 → List UInt8 →
    Except String (Bool × List UInt8 × List UInt8)
  | 0, _, _, _, _, _ => .error "projected JSON field must be an object"
  | fuel + 1, projection, first, key, cursor, output =>
    let named := (if first then output else output ++ [44]) ++ 34 :: (key ++ [34, 58])
    match projectedField projection key with
    | none =>
      match skipValue (2 * cursor.length + 2) 0 cursor with
      | .error message => .error message
      | .ok cursor => .ok (first, cursor, output)
    | some .scalar => (copyValue cursor named).map fun copied => (false, copied)
    | some (.object child) => (projectObject fuel child cursor named).map fun copied => (false, copied)
    | some (.array child) => (projectArray fuel child cursor named).map fun copied => (false, copied)

def projectArray : Nat → JsonProjection → List UInt8 → List UInt8 → Except String (List UInt8 × List UInt8)
  | 0, _, _, _ => .error "projected JSON field must be an array"
  | fuel + 1, element, cursor, output =>
    match consume 91 cursor with
    | (false, _) => .error "projected JSON field must be an array"
    | (true, cursor) =>
      match consume 93 cursor with
      | (true, cursor) => .ok (cursor, output ++ [91] ++ [93])
      | (false, cursor) => projectElements fuel element cursor (output ++ [91])

def projectElements : Nat → JsonProjection → List UInt8 → List UInt8 → Except String (List UInt8 × List UInt8)
  | 0, _, _, _ => .error "projected JSON field must be an array"
  | fuel + 1, element, cursor, output =>
    match projectObject fuel element cursor output with
    | .error message => .error message
    | .ok (cursor, output) =>
      match consume 93 cursor with
      | (true, cursor) => .ok (cursor, output ++ [93])
      | (false, cursor) =>
        match consume 44 cursor with
        | (false, _) => .error "missing comma in projected JSON array"
        | (true, cursor) => projectElements fuel element cursor (output ++ [44])

end

def projectVerboseBlock (block : List UInt8) : Except String (List UInt8) :=
  match projectObject (2 * block.length + 2) .block block [] with
  | .error message => .error message
  | .ok (cursor, projected) =>
    if whitespace cursor ≠ [] then .error "trailing data after getblock result" else .ok projected

/-- `read` is the reader of the JSON library. -/
def parseVerboseBlockJson {H : Type} [StoredHash H] [DecidableEq H] (read : List UInt8 → Option UniValue)
    (block : List UInt8) (resolve : Nat → Except String H) : Except String (VerboseDelta H) :=
  match projectVerboseBlock block with
  | .error message => .error ("invalid streaming getblock response: " ++ message)
  | .ok projected =>
    match read projected with
    | none => .error "streaming getblock projection produced invalid JSON"
    | some value => parseVerboseBlock value resolve

/-! ## The projection of a value -/

mutual

/-- The value without the members that are not selected. -/
def UniValue.project (projection : JsonProjection) : UniValue → UniValue
  | .obj members => .obj (projectEntries projection members)
  | value => value

def projectEntries (projection : JsonProjection) : List (List UInt8 × UniValue) → List (List UInt8 × UniValue)
  | [] => []
  | (key, value) :: members =>
    match projectedField projection key with
    | none => projectEntries projection members
    | some .scalar => (key, value) :: projectEntries projection members
    | some (.object child) => (key, value.project child) :: projectEntries projection members
    | some (.array child) => (key, value.projectAll child) :: projectEntries projection members

def UniValue.projectAll (projection : JsonProjection) : UniValue → UniValue
  | .arr values => .arr (projectValues projection values)
  | value => value

def projectValues (projection : JsonProjection) : List UniValue → List UniValue
  | [] => []
  | value :: values => value.project projection :: projectValues projection values

end

end UtreexoBridge.Rpc
