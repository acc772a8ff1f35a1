import UtreexoBridge.Rpc.VerboseBlock

/-!
# The JSON cursor (`JsonCursor`)

A value is skipped without being built. The cursor is the text that is left.
-/

namespace UtreexoBridge.Rpc

namespace JsonCursor

/-! ## Bytes -/

def isSpace (b : UInt8) : Bool := b = 32 ∨ b = 10 ∨ b = 13 ∨ b = 9

def isDigit (b : UInt8) : Bool := 48 ≤ b ∧ b ≤ 57

def whitespace (cursor : List UInt8) : List UInt8 := cursor.dropWhile isSpace

/-- Whether `value` comes next, and the cursor behind it, or behind the whitespace. -/
def consume (value : UInt8) (cursor : List UInt8) : Bool × List UInt8 :=
  match whitespace cursor with
  | [] => (false, [])
  | b :: rest => if b = value then (true, rest) else (false, b :: rest)

/-! ## Strings -/

/-- The escapes of one letter. -/
def simpleEscape (b : UInt8) : Option UInt8 :=
  if b = 34 ∨ b = 92 ∨ b = 47 then some b
  else if b = 98 then some 8
  else if b = 102 then some 12
  else if b = 110 then some 10
  else if b = 114 then some 13
  else if b = 116 then some 9
  else none

def codepoint (digits : List UInt8) : Option Nat :=
  digits.foldlM (fun code digit => (hexDigit digit).map (code <<< 4 ||| ·)) 0

/-- The loop of `String`, behind the opening quote. -/
def stringBody : List UInt8 → List UInt8 → Except String (List UInt8 × List UInt8)
  | _, [] => .error "unterminated JSON string"
  | output, value :: rest =>
    if value = 34 then .ok (output, rest)
    else if value < 0x20 then .error "unescaped control byte in JSON string"
    else if value ≠ 92 then stringBody (output ++ [value]) rest
    else
      match rest with
      | [] => .error "truncated JSON escape"
      | escaped :: rest =>
        if escaped = 117 then
          match rest with
          | a :: b :: c :: d :: rest =>
            match codepoint [a, b, c, d] with
            | none => .error "invalid JSON unicode escape"
            | some code =>
              -- the field names of the projection are ASCII
              if code > 0x7f then .error "non-ASCII escaped JSON object key"
              else stringBody (output ++ [UInt8.ofNat code]) rest
          | _ => .error "truncated JSON unicode escape"
        else
          match simpleEscape escaped with
          | some b => stringBody (output ++ [b]) rest
          | none => .error "invalid JSON string escape"

def string (cursor : List UInt8) : Except String (List UInt8 × List UInt8) :=
  match whitespace cursor with
  | [] => .error "expected JSON string"
  | b :: rest => if b = 34 then stringBody [] rest else .error "expected JSON string"

/-- `SkipString`, behind the opening quote. -/
def skipString : List UInt8 → Except String (List UInt8)
  | [] => .error "unterminated JSON string"
  | value :: rest =>
    if value = 34 then .ok rest
    else if value < 0x20 then .error "unescaped control byte in JSON string"
    else if value ≠ 92 then skipString rest
    else
      match rest with
      | [] => .error "truncated JSON escape"
      | escaped :: rest =>
        if escaped = 117 then
          match rest with
          | a :: b :: c :: d :: rest =>
            if [a, b, c, d].all fun digit => (hexDigit digit).isSome then skipString rest
            else .error "invalid JSON unicode escape"
          | _ => .error "truncated JSON unicode escape"
        else if (simpleEscape escaped).isSome then skipString rest
        else .error "invalid JSON string escape"

/-! ## Literals and numbers -/

def literal (text cursor : List UInt8) : Except String (List UInt8) :=
  if cursor.take text.length = text then .ok (cursor.drop text.length) else .error "invalid JSON literal"

def skipDigits (message : String) (cursor : List UInt8) : Except String (List UInt8) :=
  if (cursor.takeWhile isDigit).isEmpty then .error message else .ok (cursor.dropWhile isDigit)

def skipExponent : List UInt8 → Except String (List UInt8)
  | [] => .ok []
  | b :: rest =>
    if b = 101 ∨ b = 69 then
      match rest with
      | [] => .error "invalid JSON exponent"
      | sign :: digits =>
        skipDigits "invalid JSON exponent" (if sign = 43 ∨ sign = 45 then digits else rest)
    else .ok (b :: rest)

def skipFraction : List UInt8 → Except String (List UInt8)
  | [] => .ok []
  | b :: rest =>
    if b = 46 then
      match skipDigits "invalid JSON fraction" rest with
      | .error message => .error message
      | .ok rest => skipExponent rest
    else skipExponent (b :: rest)

def skipUnsigned : List UInt8 → Except String (List UInt8)
  | [] => .error "truncated JSON number"
  | b :: rest =>
    if b = 48 then skipFraction rest
    else if b < 49 ∨ b > 57 then .error "invalid JSON number"
    else skipFraction (rest.dropWhile isDigit)

/-- `SkipNumber`. There is a byte at the cursor. -/
def skipNumber : List UInt8 → Except String (List UInt8)
  | [] => .error "truncated JSON number"
  | b :: rest => if b = 45 then skipUnsigned rest else skipUnsigned (b :: rest)

/-! ## Values -/

mutual

/-- `SkipValue`. With two fuel for each byte that is left, and two more, no call runs out of it. -/
def skipValue : Nat → Nat → List UInt8 → Except String (List UInt8)
  | 0, _, _ => .error "missing JSON value"
  | fuel + 1, depth, cursor =>
    if depth > 64 then .error "JSON nesting exceeds limit"
    else
      match whitespace cursor with
      | [] => .error "missing JSON value"
      | b :: rest =>
        if b = 34 then skipString rest
        else if b = 123 then
          match consume 125 rest with
          | (true, cursor) => .ok cursor
          | (false, cursor) => skipMembers fuel depth cursor
        else if b = 91 then
          match consume 93 rest with
          | (true, cursor) => .ok cursor
          | (false, cursor) => skipElements fuel depth cursor
        else if b = 116 then literal (ascii "true") (b :: rest)
        else if b = 102 then literal (ascii "false") (b :: rest)
        else if b = 110 then literal (ascii "null") (b :: rest)
        else skipNumber (b :: rest)

def skipMembers : Nat → Nat → List UInt8 → Except String (List UInt8)
  | 0, _, _ => .error "missing JSON value"
  | fuel + 1, depth, cursor =>
    match string cursor with
    | .error message => .error message
    | .ok (_, cursor) =>
      match consume 58 cursor with
      | (false, _) => .error "missing colon in JSON object"
      | (true, cursor) =>
        match skipValue fuel (depth + 1) cursor with
        | .error message => .error message
        | .ok cursor =>
          match consume 125 cursor with
          | (true, cursor) => .ok cursor
          | (false, cursor) =>
            match consume 44 cursor with
            | (false, _) => .error "missing comma in JSON object"
            | (true, cursor) => skipMembers fuel depth cursor

def skipElements : Nat → Nat → List UInt8 → Except String (List UInt8)
  | 0, _, _ => .error "missing JSON value"
  | fuel + 1, depth, cursor =>
    match skipValue fuel (depth + 1) cursor with
    | .error message => .error message
    | .ok cursor =>
      match consume 93 cursor with
      | (true, cursor) => .ok cursor
      | (false, cursor) =>
        match consume 44 cursor with
        | (false, _) => .error "missing comma in JSON array"
        | (true, cursor) => skipElements fuel depth cursor

end

end JsonCursor

end UtreexoBridge.Rpc
