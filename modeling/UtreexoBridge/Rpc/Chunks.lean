import UtreexoBridge.Rpc.Http

/-!
# Chunked bodies, byte by byte

`Trailer` and `Chunked` describe the bytes of a complete body. `CompleteChunkedSize`
finds exactly these at the front of what it has read, and says nothing before
their last byte.
-/

namespace UtreexoBridge.Rpc

open Bytes

/-- The trailer lines and the empty line after them. -/
inductive Trailer : List UInt8 → Prop
  | last : Trailer crlf
  | line {line rest : List UInt8} (hne : line ≠ []) (hline : find crlf line = none) (h : Trailer rest) :
      Trailer (line ++ crlf ++ rest)

/-- The bytes of a complete body and the body. -/
inductive Chunked : List UInt8 → List UInt8 → Prop
  | last {line trailer : List UInt8} (hline : find crlf line = none) (hsize : chunkSize line = some 0)
      (h : Trailer trailer) : Chunked (line ++ crlf ++ trailer) []
  | chunk {line data rest body : List UInt8} (hline : find crlf line = none) (hsize : chunkSize line = some data.length)
      (hne : data ≠ []) (h : Chunked rest body) : Chunked (line ++ crlf ++ (data ++ crlf ++ rest)) (data ++ body)

/-! ## One line -/

theorem find_crlf_line {line : List UInt8} (hline : find crlf line = none) (rest : List UInt8) :
    find crlf (line ++ crlf ++ rest) = some line.length := find_line (by decide) hline rest

theorem drop_line (line rest : List UInt8) : (line ++ crlf ++ rest).drop (line.length + 2) = rest := by
  rw [show line.length + 2 = (line ++ crlf).length by simp [crlf], List.drop_left]

theorem drop_line_add (line rest : List UInt8) (n : Nat) :
    (line ++ crlf ++ rest).drop (line.length + 2 + n) = rest.drop n := by rw [← List.drop_drop, drop_line]

theorem find_crlf_part {line : List UInt8} (hline : find crlf line = none) {n : Nat} (hn : n < line.length + 2)
    (rest : List UInt8) : find crlf ((line ++ crlf ++ rest).take n) = none := by
  cases hf : find crlf ((line ++ crlf ++ rest).take n) with
  | none => rfl
  | some j =>
    have hle := find_le hf
    have happ := find_append hf ((line ++ crlf ++ rest).drop n)
    rw [List.take_append_drop, find_crlf_line hline] at happ
    cases happ
    rw [List.length_take, show crlf.length = 2 from rfl] at hle
    omega

theorem take_line {line rest : List UInt8} {n : Nat} (hn : line.length + 2 ≤ n) :
    (line ++ crlf ++ rest).take n = line ++ crlf ++ rest.take (n - (line.length + 2)) := by
  rw [List.take_append, List.take_of_length_le (by simp [crlf]; omega)]
  congr 2
  simp [crlf]

theorem eq_line {rest : List UInt8} {i : Nat} (h : find crlf rest = some i) :
    find crlf (rest.take i) = none ∧ (rest.take i).length = i ∧ rest = rest.take i ++ crlf ++ rest.drop (i + 2) := by
  have hle := find_le h
  rw [show crlf.length = 2 from rfl] at hle
  exact ⟨find_take_self h (by decide), by rw [List.length_take]; omega, eq_of_find h⟩

/-! ## Trailers -/

theorem trailerEnd_line {line : List UInt8} (hne : line ≠ []) (hline : find crlf line = none) (cursor : Nat)
    (rest : List UInt8) : trailerEnd cursor (line ++ crlf ++ rest) = trailerEnd (cursor + (line.length + 2)) rest := by
  rw [trailerEnd]
  split
  · next hnone => rw [find_crlf_line hline] at hnone; cases hnone
  · next i hsome =>
    rw [find_crlf_line hline] at hsome
    cases hsome
    rw [if_neg (by simpa using hne), drop_line]

theorem trailerEnd_eq_none {rest : List UInt8} (h : find crlf rest = none) (cursor : Nat) :
    trailerEnd cursor rest = none := by
  rw [trailerEnd]
  split
  · rfl
  · next i hsome => rw [h] at hsome; cases hsome

theorem trailerEnd_crlf (cursor : Nat) (rest : List UInt8) : trailerEnd cursor (crlf ++ rest) = some (cursor + 2) := by
  have hfind : find crlf (crlf ++ rest) = some 0 := @find_crlf_line [] (by decide) rest
  rw [trailerEnd]
  split
  · next hnone => rw [hfind] at hnone; cases hnone
  · next i hsome =>
    rw [hfind] at hsome
    cases hsome
    rw [if_pos rfl]

theorem Trailer.complete {bytes : List UInt8} (h : Trailer bytes) (cursor : Nat) (more : List UInt8) :
    trailerEnd cursor (bytes ++ more) = some (cursor + bytes.length) := by
  induction h generalizing cursor with
  | last => exact trailerEnd_crlf cursor more
  | @line line rest hne hline _ ih =>
    rw [List.append_assoc, trailerEnd_line hne hline, ih]
    simp [crlf]
    omega

theorem Trailer.part {bytes : List UInt8} (h : Trailer bytes) (cursor : Nat) {n : Nat} (hn : n < bytes.length) :
    trailerEnd cursor (bytes.take n) = none := by
  induction h generalizing cursor n with
  | last => exact trailerEnd_eq_none (@find_crlf_part [] (by decide) n hn []) cursor
  | @line line rest hne hline _ ih =>
    by_cases hpart : n < line.length + 2
    · exact trailerEnd_eq_none (find_crlf_part hline hpart rest) cursor
    · rw [take_line (by omega), trailerEnd_line hne hline]
      apply ih
      simp [crlf] at hn
      omega

theorem trailer_of_trailerEnd {cursor n : Nat} {rest : List UInt8} (h : trailerEnd cursor rest = some n) :
    ∃ bytes more, rest = bytes ++ more ∧ n = cursor + bytes.length ∧ Trailer bytes := by
  fun_induction trailerEnd cursor rest with
  | case1 => cases h
  | case2 cursor rest hfind =>
    cases h
    obtain ⟨-, -, heq⟩ := eq_line hfind
    exact ⟨crlf, rest.drop 2, by simpa using heq, rfl, .last⟩
  | case3 cursor rest i hfind hne ih =>
    obtain ⟨bytes, more, hrest, rfl, htrailer⟩ := ih h
    obtain ⟨hline, hlen, heq⟩ := eq_line hfind
    refine ⟨rest.take i ++ crlf ++ bytes, more, ?_, ?_, .line ?_ hline htrailer⟩
    · rw [List.append_assoc, ← hrest]
      exact heq
    · simp [crlf, hlen]
      omega
    · intro hnil
      rw [hnil] at hlen
      exact hne hlen.symm

/-! ## One chunk -/

theorem completeChunkedFrom_line {line : List UInt8} (hline : find crlf line = none) (cursor : Nat) (body : List UInt8) :
    completeChunkedFrom cursor (line ++ crlf ++ body) =
      match chunkSize line with
      | none => .error "invalid chunk size"
      | some size =>
        if size = 0 then .ok (trailerEnd (cursor + (line.length + 2)) body)
        else if size > body.length then .ok none
        else if body.length - size < 2 then .ok none
        else if (body.drop size).take 2 ≠ crlf then .error "invalid chunk terminator"
        else completeChunkedFrom (cursor + (line.length + 2 + (size + 2))) (body.drop (size + 2)) := by
  rw [completeChunkedFrom]
  split
  · next hnone => rw [find_crlf_line hline] at hnone; cases hnone
  · next i hsome =>
    rw [find_crlf_line hline] at hsome
    cases hsome
    rw [List.append_assoc, List.take_left]
    cases chunkSize line with
    | none => rfl
    | some size => simp only [← List.append_assoc, drop_line, drop_line_add]

theorem completeChunkedFrom_none {rest : List UInt8} (h : find crlf rest = none) (cursor : Nat) :
    completeChunkedFrom cursor rest = .ok none := by
  rw [completeChunkedFrom]
  split
  · rfl
  · next i hsome => rw [h] at hsome; cases hsome

theorem decodeChunkedFrom_line {line : List UInt8} (hline : find crlf line = none) (output body : List UInt8) :
    decodeChunkedFrom output (line ++ crlf ++ body) =
      match chunkSize line with
      | none => .error "invalid chunk size"
      | some size =>
        if size = 0 then .ok output
        else if size > body.length ∨ body.length - size < 2 then .error "truncated chunk body"
        else if (body.drop size).take 2 ≠ crlf then .error "invalid chunk terminator"
        else decodeChunkedFrom (output ++ body.take size) (body.drop (size + 2)) := by
  rw [decodeChunkedFrom]
  split
  · next hnone => rw [find_crlf_line hline] at hnone; cases hnone
  · next i hsome =>
    rw [find_crlf_line hline] at hsome
    cases hsome
    rw [List.append_assoc, List.take_left]
    cases chunkSize line with
    | none => rfl
    | some size => simp only [← List.append_assoc, drop_line, drop_line_add]

section Chunk

variable {line data : List UInt8} (hline : find crlf line = none) (hsize : chunkSize line = some data.length)
  (hne : data ≠ [])
include hline hsize hne

theorem completeChunkedFrom_chunk (cursor : Nat) (rest : List UInt8) :
    completeChunkedFrom cursor (line ++ crlf ++ (data ++ crlf ++ rest)) =
      completeChunkedFrom (cursor + (line.length + 2 + (data.length + 2))) rest := by
  have hpos := List.length_pos_iff.mpr hne
  rw [completeChunkedFrom_line hline, hsize]
  dsimp only
  rw [if_neg (by omega), if_neg (by simp [crlf]), if_neg (by simp [crlf]), if_neg, drop_line]
  rw [List.append_assoc, List.drop_left, not_not]
  rfl

theorem decodeChunkedFrom_chunk (output rest : List UInt8) :
    decodeChunkedFrom output (line ++ crlf ++ (data ++ crlf ++ rest)) = decodeChunkedFrom (output ++ data) rest := by
  have hpos := List.length_pos_iff.mpr hne
  rw [decodeChunkedFrom_line hline, hsize]
  dsimp only
  rw [if_neg (by omega), if_neg (by simp [crlf]), if_neg, drop_line, List.append_assoc, List.take_left]
  rw [List.append_assoc, List.drop_left, not_not]
  rfl

theorem completeChunkedFrom_part (cursor : Nat) (rest : List UInt8) {n : Nat}
    (hn : n < line.length + 2 + (data.length + 2)) :
    completeChunkedFrom cursor ((line ++ crlf ++ (data ++ crlf ++ rest)).take n) = .ok none := by
  have hpos := List.length_pos_iff.mpr hne
  by_cases hpart : n < line.length + 2
  · exact completeChunkedFrom_none (find_crlf_part hline hpart _) cursor
  · have hlen : ((data ++ crlf ++ rest).take (n - (line.length + 2))).length < data.length + 2 := by
      rw [List.length_take]
      omega
    rw [take_line (by omega), completeChunkedFrom_line hline, hsize]
    dsimp only
    rw [if_neg (by omega)]
    split_ifs
    · rfl
    · rfl
    all_goals omega

end Chunk

/-! ## Whole bodies -/

theorem Chunked.complete {bytes body : List UInt8} (h : Chunked bytes body) (cursor : Nat) (more : List UInt8) :
    completeChunkedFrom cursor (bytes ++ more) = .ok (some (cursor + bytes.length)) := by
  induction h generalizing cursor with
  | @last line trailer hline hsize htrailer =>
    rw [List.append_assoc, completeChunkedFrom_line hline, hsize]
    dsimp only
    rw [if_pos rfl, htrailer.complete]
    simp [crlf]
    omega
  | @chunk line data rest body hline hsize hne _ ih =>
    rw [List.append_assoc, List.append_assoc _ rest more, completeChunkedFrom_chunk hline hsize hne, ih]
    simp [crlf]
    omega

theorem Chunked.decode {bytes body : List UInt8} (h : Chunked bytes body) (output more : List UInt8) :
    decodeChunkedFrom output (bytes ++ more) = .ok (output ++ body) := by
  induction h generalizing output with
  | @last line trailer hline hsize htrailer =>
    rw [List.append_assoc, decodeChunkedFrom_line hline, hsize]
    dsimp only
    rw [if_pos rfl, List.append_nil]
  | @chunk line data rest body hline hsize hne _ ih =>
    rw [List.append_assoc, List.append_assoc _ rest more, decodeChunkedFrom_chunk hline hsize hne, ih,
      List.append_assoc]

theorem Chunked.part {bytes body : List UInt8} (h : Chunked bytes body) (cursor : Nat) {n : Nat}
    (hn : n < bytes.length) : completeChunkedFrom cursor (bytes.take n) = .ok none := by
  induction h generalizing cursor n with
  | @last line trailer hline hsize htrailer =>
    by_cases hpart : n < line.length + 2
    · exact completeChunkedFrom_none (find_crlf_part hline hpart _) cursor
    · rw [take_line (by omega), completeChunkedFrom_line hline, hsize]
      dsimp only
      rw [if_pos rfl, htrailer.part]
      simp [crlf] at hn
      omega
  | @chunk line data rest body hline hsize hne _ ih =>
    by_cases hpart : n < line.length + 2 + (data.length + 2)
    · exact completeChunkedFrom_part hline hsize hne cursor rest hpart
    · have htake : (line ++ crlf ++ (data ++ crlf ++ rest)).take n =
          line ++ crlf ++ (data ++ crlf ++ rest.take (n - (line.length + 2 + (data.length + 2)))) := by
        rw [take_line (by omega), take_line (by omega)]
        congr 3
        omega
      rw [htake, completeChunkedFrom_chunk hline hsize hne]
      apply ih
      simp [crlf] at hn
      omega

theorem chunked_of_complete {cursor n : Nat} {rest : List UInt8} (h : completeChunkedFrom cursor rest = .ok (some n)) :
    ∃ bytes more body, rest = bytes ++ more ∧ n = cursor + bytes.length ∧ Chunked bytes body := by
  fun_induction completeChunkedFrom cursor rest with
  | case1 => cases h
  | case2 => cases h
  | case3 cursor rest i hfind body hsize =>
    obtain ⟨trailer, more, hbody, rfl, htrailer⟩ := trailer_of_trailerEnd (Except.ok.inj h)
    obtain ⟨hline, hlen, heq⟩ := eq_line hfind
    refine ⟨rest.take i ++ crlf ++ trailer, more, [], ?_, ?_, .last hline hsize htrailer⟩
    · rw [List.append_assoc, ← hbody]
      exact heq
    · simp [crlf, hlen]
      omega
  | case4 => cases h
  | case5 => cases h
  | case6 => cases h
  | case7 cursor rest i hfind size hsize body hzero hle hroom hcrlf ih =>
    obtain ⟨bytes, more, message, hrest, rfl, hchunked⟩ := ih h
    obtain ⟨hline, hlen, heq⟩ := eq_line hfind
    have hdata : (body.take size).length = size := by
      rw [List.length_take]
      omega
    have hbody : body = body.take size ++ crlf ++ (bytes ++ more) := by
      rw [← hrest, ← not_not.mp hcrlf, ← List.drop_drop, ← List.drop_drop, List.append_assoc, List.take_append_drop,
        List.take_append_drop]
    refine ⟨rest.take i ++ crlf ++ (body.take size ++ crlf ++ bytes), more, body.take size ++ message, ?_, ?_,
      .chunk hline (by rw [hdata]; exact hsize) ?_ hchunked⟩
    · rw [List.append_assoc, List.append_assoc (body.take size ++ crlf), ← hbody]
      exact heq
    · simp only [List.length_append, hdata, hlen, show crlf.length = 2 from rfl]
      omega
    · intro hnil
      rw [hnil] at hdata
      exact hzero hdata.symm

/-- More bytes do not repair a body. -/
theorem completeChunkedFrom_error {cursor : Nat} {rest : List UInt8} {message : String}
    (h : completeChunkedFrom cursor rest = .error message) (more : List UInt8) :
    completeChunkedFrom cursor (rest ++ more) = .error message := by
  have hdrop : ∀ {body : List UInt8} {size : Nat}, ¬size > body.length → ¬body.length - size < 2 →
      ((body ++ more).drop size).take 2 = (body.drop size).take 2 := by
    intro body size hle hroom
    rw [List.drop_append_of_le_length (by omega), List.take_append_of_le_length]
    rw [List.length_drop]
    omega
  fun_induction completeChunkedFrom cursor rest with
  | case1 => cases h
  | case2 cursor rest i hfind hsize =>
    cases h
    obtain ⟨hline, -, heq⟩ := eq_line hfind
    rw [heq, List.append_assoc, completeChunkedFrom_line hline, hsize]
  | case3 => cases h
  | case4 => cases h
  | case5 => cases h
  | case6 cursor rest i hfind size hsize body hzero hle hroom hcrlf =>
    cases h
    obtain ⟨hline, -, heq⟩ := eq_line hfind
    rw [heq, List.append_assoc, completeChunkedFrom_line hline, hsize, show rest.drop (i + 2) = body from rfl]
    clear_value body
    dsimp only
    rw [if_neg hzero, if_neg (by rw [List.length_append]; omega), if_neg (by rw [List.length_append]; omega),
      hdrop hle hroom, if_pos hcrlf]
  | case7 cursor rest i hfind size hsize body hzero hle hroom hcrlf ih =>
    obtain ⟨hline, hlen, heq⟩ := eq_line hfind
    have hnext : body.drop (size + 2) = rest.drop (i + 2 + (size + 2)) := List.drop_drop
    rw [← hnext] at ih h
    rw [show rest.drop (i + 2) = body from rfl] at heq
    clear_value body
    conv_lhs => rw [heq]
    rw [List.append_assoc, completeChunkedFrom_line hline, hsize]
    dsimp only
    rw [if_neg hzero, if_neg (by rw [List.length_append]; omega), if_neg (by rw [List.length_append]; omega),
      hdrop hle hroom, if_neg hcrlf, hlen, List.drop_append_of_le_length (by omega)]
    exact ih h

/-! ## Messages as a peer sends them -/

/-- A line with the size of a chunk: hexadecimal digits, and an extension after a `;`. -/
structure SizeLine (size : Nat) where
  digits : List UInt8
  extension : List UInt8
  nonempty : digits ≠ []
  hex : ∀ b ∈ digits, (digit 16 b).isSome = true
  value : digitsValue 16 digits = size
  semicolon : extension = [] ∨ extension.head? = some 59
  oneLine : find crlf extension = none

def SizeLine.bytes {size : Nat} (line : SizeLine size) : List UInt8 := line.digits ++ line.extension

structure Chunk where
  data : List UInt8
  nonempty : data ≠ []
  /-- The length of a `std::string`. -/
  bound : data.length < 2 ^ 64
  line : SizeLine data.length

def Chunk.bytes (chunk : Chunk) : List UInt8 := chunk.line.bytes ++ crlf ++ chunk.data ++ crlf

structure ChunkedMessage where
  chunks : List Chunk
  last : SizeLine 0
  trailers : List { line : List UInt8 // line ≠ [] ∧ find crlf line = none }

def ChunkedMessage.bytes (m : ChunkedMessage) : List UInt8 :=
  m.chunks.flatMap Chunk.bytes ++ (m.last.bytes ++ crlf ++ (m.trailers.flatMap (fun line => line.1 ++ crlf) ++ crlf))

def ChunkedMessage.body (m : ChunkedMessage) : List UInt8 := m.chunks.flatMap Chunk.data

theorem digit_not_special {b : UInt8} (h : (digit 16 b).isSome = true) : b ≠ 13 ∧ b ≠ 59 := by
  refine ⟨?_, ?_⟩ <;> rintro rfl <;> exact absurd h (by decide)

theorem SizeLine.find_bytes {size : Nat} (line : SizeLine size) : find crlf line.bytes = none := by
  rw [find_eq_none_iff]
  intro j hj hp
  have hno := find_eq_none_iff.mp line.oneLine
  rw [SizeLine.bytes] at hp
  by_cases hin : j < line.digits.length
  · -- a digit does not start a line end
    rw [List.drop_append_of_le_length (le_of_lt hin), List.drop_eq_getElem_cons hin, List.cons_append] at hp
    have hhead := (List.cons_prefix_cons.mp hp).1
    exact (digit_not_special (line.hex _ (List.getElem_mem hin))).1 hhead.symm
  · rw [List.drop_append, List.drop_eq_nil_of_le (by omega), List.nil_append] at hp
    rw [SizeLine.bytes, List.length_append] at hj
    exact hno _ (by omega) hp

theorem SizeLine.number {size : Nat} (line : SizeLine size) (hbound : size < 2 ^ 64) :
    wholeNumber (fromChars 16 line.digits) = some size := by
  have hall : line.digits.takeWhile (fun b => (digit 16 b).isSome) = line.digits :=
    List.takeWhile_eq_self_iff.mpr line.hex
  unfold fromChars
  dsimp only
  rw [hall, line.value, if_neg, List.drop_length]
  · rfl
  · rintro (hnil | hlarge)
    · exact line.nonempty hnil
    · omega

theorem SizeLine.chunkSize_bytes {size : Nat} (line : SizeLine size) (hbound : size < 2 ^ 64) :
    chunkSize line.bytes = some size := by
  have hdigits : ∀ j < line.digits.length, ¬[59] <+: line.bytes.drop j := by
    intro j hj hp
    rw [SizeLine.bytes, List.drop_append_of_le_length (le_of_lt hj), List.drop_eq_getElem_cons hj,
      List.cons_append] at hp
    exact (digit_not_special (line.hex _ (List.getElem_mem hj))).2 (List.cons_prefix_cons.mp hp).1.symm
  rcases line.semicolon with hnil | hhead
  · have hbytes : line.bytes = line.digits := by rw [SizeLine.bytes, hnil, List.append_nil]
    have hnone : find [59] line.bytes = none := by
      refine find_eq_none_iff.mpr fun j hj hp => ?_
      by_cases hlt : j < line.digits.length
      · exact hdigits j hlt hp
      · rw [hbytes] at hj hp
        rw [List.drop_eq_nil_of_le (by omega)] at hp
        exact absurd hp.length_le (by simp)
    simp only [chunkSize, hnone]
    rw [hbytes]
    exact line.number hbound
  · have hsome : find [59] line.bytes = some line.digits.length := by
      refine find_eq_some_iff.mpr ⟨by simp [SizeLine.bytes], ?_, hdigits⟩
      rw [SizeLine.bytes, List.drop_left]
      obtain ⟨rest, hrest⟩ := List.head?_eq_some_iff.mp hhead
      rw [hrest]
      exact ⟨rest, rfl⟩
    simp only [chunkSize, hsome]
    rw [SizeLine.bytes, List.take_left]
    exact line.number hbound

theorem ChunkedMessage.chunked (m : ChunkedMessage) : Chunked m.bytes m.body := by
  obtain ⟨chunks, last, trailers⟩ := m
  have htrailer : Trailer (trailers.flatMap (fun line => line.1 ++ crlf) ++ crlf) := by
    induction trailers with
    | nil => exact .last
    | cons line trailers ih =>
      rw [List.flatMap_cons, List.append_assoc]
      exact .line line.2.1 line.2.2 ih
  unfold ChunkedMessage.bytes ChunkedMessage.body
  dsimp only
  induction chunks with
  | nil => exact .last last.find_bytes (last.chunkSize_bytes (by omega)) htrailer
  | cons chunk chunks ih =>
    have h := Chunked.chunk chunk.line.find_bytes (chunk.line.chunkSize_bytes chunk.bound) chunk.nonempty ih
    rw [List.flatMap_cons, List.flatMap_cons, Chunk.bytes]
    simpa only [List.append_assoc] using h

/-- **Chunk framing.** `CompleteChunkedSize` answers once and for all: what it says of the bytes so far stays true
whatever follows, `DecodeChunked` agrees with it, and it is silent up to the last byte of a message. -/
theorem chunk_framing (s : List UInt8) :
    (∀ n, completeChunkedSize s = .ok (some n) → n ≤ s.length ∧
      (∃ body, decodeChunked (s.take n) = .ok body ∧ decodeChunked s = .ok body) ∧
      (∀ more, completeChunkedSize (s ++ more) = .ok (some n)) ∧ completeChunkedSize (s.take n) = .ok (some n)) ∧
    (∀ message, completeChunkedSize s = .error message → ∀ more, completeChunkedSize (s ++ more) = .error message) ∧
    ∀ m : ChunkedMessage, decodeChunked m.bytes = .ok m.body ∧
      completeChunkedSize m.bytes = .ok (some m.bytes.length) ∧
      ∀ n < m.bytes.length, completeChunkedSize (m.bytes.take n) = .ok none := by
  refine ⟨fun n h => ?_, fun message h more => completeChunkedFrom_error h more, fun m => ?_⟩
  · obtain ⟨bytes, more, body, rfl, rfl, hchunked⟩ := chunked_of_complete h
    have hself := hchunked.complete 0 []
    have hdecode := hchunked.decode [] []
    rw [List.append_nil] at hself hdecode
    rw [Nat.zero_add, List.take_left]
    refine ⟨by simp, ⟨body, hdecode, hchunked.decode [] more⟩, fun more' => ?_, ?_⟩
    · have hmore := hchunked.complete 0 (more ++ more')
      rwa [Nat.zero_add, ← List.append_assoc] at hmore
    · rwa [Nat.zero_add] at hself
  · have hchunked := m.chunked
    have hself := hchunked.complete 0 []
    have hdecode := hchunked.decode [] []
    rw [List.append_nil] at hself hdecode
    rw [Nat.zero_add] at hself
    exact ⟨hdecode, hself, fun n hn => hchunked.part 0 hn⟩

/-- One chunk with an extension, and a trailer line. -/
def helloMessage : ChunkedMessage where
  chunks := [⟨ascii "hello", by decide, by decide +kernel, ⟨ascii "05", ascii ";a=b", by decide, by decide +kernel,
    by decide +kernel, by decide +kernel, by decide +kernel⟩⟩]
  last := ⟨ascii "0", [], by decide +kernel, by decide +kernel, by decide +kernel, by decide +kernel, by decide +kernel⟩
  trailers := [⟨ascii "x: y", by decide +kernel, by decide +kernel⟩]

example : helloMessage.bytes = ascii "05;a=b\r\nhello\r\n0\r\nx: y\r\n\r\n" ∧
    completeChunkedSize (helloMessage.bytes ++ ascii "HTTP") = .ok (some 26) := by decide +kernel

end UtreexoBridge.Rpc
