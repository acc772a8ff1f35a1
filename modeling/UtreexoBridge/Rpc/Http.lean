import Mathlib.Algebra.Group.Nat.Defs
import Mathlib.Data.List.DropRight
import UtreexoBridge.Bytes.Find

/-!
# HTTP responses (`core_rpc.cpp`)

The client reads the headers twice: `ParseHttpHeaders` decides how many bytes
belong to a response, `ParseHttpResponse` takes the body out of them.
-/

namespace UtreexoBridge.Rpc

open Bytes (find findFrom)

def ascii (text : String) : List UInt8 := text.toList.map fun c => UInt8.ofNat c.toNat

def crlf : List UInt8 := [13, 10]

/-! ## Characters -/

def toLower (b : UInt8) : UInt8 := if 65 ≤ b ∧ b ≤ 90 then b + 32 else b

def lower (text : List UInt8) : List UInt8 := text.map toLower

/-- A digit as `std::from_chars` reads it. -/
def digit (base : Nat) (b : UInt8) : Option Nat :=
  let value :=
    if 48 ≤ b ∧ b ≤ 57 then b.toNat - 48
    else if 97 ≤ b ∧ b ≤ 122 then b.toNat - 87
    else if 65 ≤ b ∧ b ≤ 90 then b.toNat - 55
    else base
  if value < base then some value else none

def digitsValue (base : Nat) (digits : List UInt8) : Nat :=
  digits.foldl (fun value b => value * base + (digit base b).getD 0) 0

/-- `std::from_chars` of a `std::size_t`: the value and the text after it. No digit is invalid, too many are out of
range. -/
def fromChars (base : Nat) (text : List UInt8) : Option (Nat × List UInt8) :=
  let digits := text.takeWhile fun b => (digit base b).isSome
  if digits = [] ∨ 2 ^ 64 ≤ digitsValue base digits then none
  else some (digitsValue base digits, text.drop digits.length)

def fromCharsInt (text : List UInt8) : Option (Int × List UInt8) :=
  match text with
  | 45 :: text => (fromChars 10 text).map fun p => (-p.1, p.2)
  | text => (fromChars 10 text).map fun p => (p.1, p.2)

def wholeNumber {α : Type} : Option (α × List UInt8) → Option α
  | some (value, []) => some value
  | _ => none

/-! ## Chunked bodies -/

/-- The size in a chunk's line: the text before the first `;`. -/
def chunkSize (line : List UInt8) : Option Nat :=
  let sizeText :=
    match find [59] line with
    | none => line
    | some extension => line.take extension
  wholeNumber (fromChars 16 sizeText)

theorem drop_line_lt {rest : List UInt8} {i : Nat} (h : find crlf rest = some i) (n : Nat) :
    (rest.drop (i + 2 + n)).length < rest.length := by
  have hle := Bytes.find_le h
  rw [show crlf.length = 2 from rfl] at hle
  rw [List.length_drop]
  omega

/-- The loop of `DecodeChunked` on `encoded.substr(cursor)`. -/
def decodeChunkedFrom (output rest : List UInt8) : Except String (List UInt8) :=
  match _ : find crlf rest with
  | none => .error "truncated chunk size"
  | some lineEnd =>
    match chunkSize (rest.take lineEnd) with
    | none => .error "invalid chunk size"
    | some size =>
      let body := rest.drop (lineEnd + 2)
      if size = 0 then .ok output
      else if size > body.length ∨ body.length - size < 2 then .error "truncated chunk body"
      else if (body.drop size).take 2 ≠ crlf then .error "invalid chunk terminator"
      else decodeChunkedFrom (output ++ body.take size) (rest.drop (lineEnd + 2 + (size + 2)))
termination_by rest.length
decreasing_by exact drop_line_lt ‹find crlf rest = some lineEnd› _

def decodeChunked (encoded : List UInt8) : Except String (List UInt8) := decodeChunkedFrom [] encoded

/-- The loop of `CompleteChunkedSize` over the trailer lines. -/
def trailerEnd (cursor : Nat) (rest : List UInt8) : Option Nat :=
  match h : find crlf rest with
  | none => none
  | some lineEnd => if lineEnd = 0 then some (cursor + 2) else trailerEnd (cursor + (lineEnd + 2)) (rest.drop (lineEnd + 2))
termination_by rest.length
decreasing_by exact drop_line_lt h 0

/-- The loop of `CompleteChunkedSize` with `cursor` bytes read: `rest` is `encoded.substr(cursor)`. -/
def completeChunkedFrom (cursor : Nat) (rest : List UInt8) : Except String (Option Nat) :=
  match _ : find crlf rest with
  | none => .ok none
  | some lineEnd =>
    match chunkSize (rest.take lineEnd) with
    | none => .error "invalid chunk size"
    | some size =>
      let body := rest.drop (lineEnd + 2)
      if size = 0 then .ok (trailerEnd (cursor + (lineEnd + 2)) body)
      else if size > body.length then .ok none
      else if body.length - size < 2 then .ok none
      else if (body.drop size).take 2 ≠ crlf then .error "invalid chunk terminator"
      else completeChunkedFrom (cursor + (lineEnd + 2 + (size + 2))) (rest.drop (lineEnd + 2 + (size + 2)))
termination_by rest.length
decreasing_by exact drop_line_lt ‹find crlf rest = some lineEnd› _

def completeChunkedSize (encoded : List UInt8) : Except String (Option Nat) := completeChunkedFrom 0 encoded

/-! ## Headers -/

/-- The loop over the header lines from `cursor` to `headerEnd`. A line without an end goes to `malformed`. -/
def headerLoop {σ : Type} (malformed : σ → Except String σ) (line : List UInt8 → σ → Except String σ)
    (response : List UInt8) (headerEnd cursor : Nat) (state : σ) : Except String σ :=
  if _ : cursor < headerEnd then
    match _ : findFrom crlf response cursor with
    | none => malformed state
    | some lineEnd =>
      if lineEnd > headerEnd then malformed state
      else
        match line ((response.drop cursor).take (lineEnd - cursor)) state with
        | .error message => .error message
        | .ok state => headerLoop malformed line response headerEnd (lineEnd + 2) state
  else .ok state
termination_by headerEnd - cursor
decreasing_by
  have hfound : findFrom crlf response cursor = some lineEnd := ‹_›
  rw [findFrom, Option.map_eq_some_iff] at hfound
  obtain ⟨i, -, rfl⟩ := hfound
  omega

def headerField (line : List UInt8) : Option (List UInt8 × List UInt8) :=
  (find [58] line).map fun colon => (lower (line.take colon), line.drop (colon + 1))

structure HttpHeaders where
  headerEnd : Nat
  chunked : Bool := false
  connectionClose : Bool := false
  contentLength : Option Nat := none
  deriving DecidableEq, Repr

/-- Blanks as `ParseHttpHeaders` strips them. -/
def isBlank (b : UInt8) : Bool := b = 32 || b = 9

def HttpHeaders.line (line : List UInt8) (headers : HttpHeaders) : Except String HttpHeaders :=
  match headerField line with
  | none => .ok headers
  | some (name, value) =>
    let value := (value.dropWhile isBlank).rdropWhile isBlank
    let lowerValue := lower value
    if name = ascii "transfer-encoding" ∧ find (ascii "chunked") lowerValue ≠ none then
      .ok { headers with chunked := true }
    else if name = ascii "content-length" then
      match wholeNumber (fromChars 10 value) with
      | none => .error "invalid HTTP content length"
      | some parsed => .ok { headers with contentLength := some parsed }
    else if name = ascii "connection" ∧ find (ascii "close") lowerValue ≠ none then
      .ok { headers with connectionClose := true }
    else .ok headers

def parseHttpHeaders (response : List UInt8) : Except String HttpHeaders :=
  match find (crlf ++ crlf) response with
  | none => .error "HTTP response has no complete header"
  | some headerEnd =>
    match find crlf response with
    | none => .error "HTTP response has no status line"
    | some statusEnd =>
      if statusEnd > headerEnd then .error "HTTP response has no status line"
      else
        match headerLoop (fun _ => .error "malformed HTTP header line") HttpHeaders.line response headerEnd (statusEnd + 2)
            { headerEnd } with
        | .error message => .error message
        | .ok headers =>
          if headers.chunked ∧ headers.contentLength.isSome then .error "HTTP response has conflicting body framing"
          else .ok headers

/-! ## Responses -/

/-- `chunked` and `content_length` of `ParseHttpResponse`. -/
structure Framing where
  chunked : Bool := false
  contentLength : Option Nat := none
  deriving DecidableEq, Repr

def Framing.line (line : List UInt8) (framing : Framing) : Except String Framing :=
  match headerField line with
  | none => .ok framing
  | some (name, value) =>
    let value := value.dropWhile fun b => b = 32
    let framing :=
      if name = ascii "transfer-encoding" ∧ find (ascii "chunked") (lower value) ≠ none then
        { framing with chunked := true }
      else framing
    if name = ascii "content-length" then
      match wholeNumber (fromChars 10 value) with
      | none => .error "invalid HTTP content length"
      | some parsed => .ok { framing with contentLength := some parsed }
    else .ok framing

/-- The header loop of `ParseHttpResponse`. -/
def responseFraming (response : List UInt8) (headerEnd statusEnd : Nat) : Except String Framing :=
  headerLoop .ok Framing.line response headerEnd (statusEnd + 2) {}

def statusCode (status : List UInt8) : Except String Int :=
  match find [32] status with
  | none => .error "invalid HTTP status line"
  | some firstSpace =>
    if status.length < firstSpace + 4 then .error "invalid HTTP status line"
    else
      match wholeNumber (fromCharsInt ((status.drop (firstSpace + 1)).take 3)) with
      | none => .error "invalid HTTP status code"
      | some code => .ok code

def framedBody (framing : Framing) (body : List UInt8) : Except String (List UInt8) :=
  if framing.chunked then decodeChunked body
  else
    match framing.contentLength with
    | none => .ok body
    | some length => if body.length < length then .error "truncated HTTP body" else .ok (body.take length)

/-- What `ParseHttpResponse` gives: the body, a text, or the body of a response with another status. -/
inductive HttpResult
  | ok (body : List UInt8)
  | error (message : String)
  /-- `Bitcoin Core RPC returned HTTP <code>: <body>`. -/
  | status (code : Int) (body : List UInt8)
  deriving DecidableEq, Repr

/-- `isRpcError` says that `ExtractJsonRpcResult` finds an error envelope in the body. -/
def deliver (isRpcError : List UInt8 → Bool) (code : Int) (body : List UInt8) : HttpResult :=
  if code ≠ 200 then
    if (code = 400 ∨ code = 404 ∨ code = 500) ∧ isRpcError body then .ok body else .status code body
  else .ok body

def parseHttpResponse (isRpcError : List UInt8 → Bool) (response : List UInt8) : HttpResult :=
  match find (crlf ++ crlf) response with
  | none => .error "HTTP response has no header terminator"
  | some headerEnd =>
    match find crlf response with
    | none => .error "HTTP response has no status line"
    | some statusEnd =>
      match statusCode (response.take statusEnd) with
      | .error message => .error message
      | .ok code =>
        match responseFraming response headerEnd statusEnd with
        | .error message => .error message
        | .ok framing =>
          match framedBody framing (response.drop (headerEnd + 4)) with
          | .error message => .error message
          | .ok body => deliver isRpcError code body

end UtreexoBridge.Rpc
