import UtreexoBridge.Rpc.Http

/-!
# Two readers of one header

Both loops see the same lines. They differ in the blanks that they strip from
a content length.
-/

namespace UtreexoBridge.Rpc

open Bytes

/-! ## The lines of a header -/

def headerLines (response : List UInt8) (headerEnd cursor : Nat) : List (List UInt8) :=
  if _ : cursor < headerEnd then
    match h : findFrom crlf response cursor with
    | none => []
    | some lineEnd =>
      if lineEnd > headerEnd then []
      else (response.drop cursor).take (lineEnd - cursor) :: headerLines response headerEnd (lineEnd + 2)
  else []
termination_by headerEnd - cursor
decreasing_by
  have hle : cursor ≤ lineEnd := by
    rw [findFrom, Option.map_eq_some_iff] at h
    obtain ⟨i, -, rfl⟩ := h
    omega
  omega

variable {response : List UInt8} {headerEnd cursor : Nat}

theorem lineEnd_le (hheader : find (crlf ++ crlf) response = some headerEnd) (hcursor : cursor < headerEnd) :
    ∃ i, find crlf (response.drop cursor) = some i ∧ cursor + i ≤ headerEnd := by
  obtain ⟨hle, hat, -⟩ := find_eq_some_iff.mp hheader
  have hpos := find_le hheader
  have hcrlf : crlf <+: (response.drop cursor).drop (headerEnd - cursor) := by
    rw [List.drop_drop, show cursor + (headerEnd - cursor) = headerEnd by omega]
    exact (List.prefix_append crlf crlf).trans hat
  cases hf : find crlf (response.drop cursor) with
  | none => exact absurd hcrlf (find_eq_none_iff.mp hf _ (by rw [List.length_drop]; omega))
  | some i =>
    refine ⟨i, rfl, ?_⟩
    obtain ⟨-, -, hno⟩ := find_eq_some_iff.mp hf
    by_contra hlt
    exact hno (headerEnd - cursor) (by omega) hcrlf

theorem lines_induct {P : Nat → Prop} (hheader : find (crlf ++ crlf) response = some headerEnd)
    (stop : ∀ cursor, ¬cursor < headerEnd → P cursor)
    (next : ∀ cursor i, cursor < headerEnd → find crlf (response.drop cursor) = some i → cursor + i ≤ headerEnd →
      P (cursor + i + 2) → P cursor) (cursor : Nat) : P cursor := by
  by_cases hcursor : cursor < headerEnd
  · obtain ⟨i, hi, hle⟩ := lineEnd_le hheader hcursor
    exact next cursor i hcursor hi hle (lines_induct hheader stop next (cursor + i + 2))
  · exact stop cursor hcursor
termination_by headerEnd - cursor

theorem findFrom_of_find {i : Nat} (h : find crlf (response.drop cursor) = some i) :
    findFrom crlf response cursor = some (cursor + i) := by
  rw [findFrom, h]
  rfl

theorem headerLines_next {i : Nat} (hcursor : cursor < headerEnd) (hi : find crlf (response.drop cursor) = some i)
    (hle : cursor + i ≤ headerEnd) :
    headerLines response headerEnd cursor =
      (response.drop cursor).take i :: headerLines response headerEnd (cursor + i + 2) := by
  have hfrom := findFrom_of_find hi
  rw [headerLines, dif_pos hcursor]
  split
  · next hnone =>
    rw [hfrom] at hnone
    cases hnone
  · next lineEnd hsome =>
    rw [hfrom] at hsome
    cases hsome
    rw [if_neg (not_lt.mpr hle), Nat.add_sub_cancel_left]

theorem headerLoop_next {σ : Type} (malformed : σ → Except String σ) (line : List UInt8 → σ → Except String σ)
    {i : Nat} (hcursor : cursor < headerEnd) (hi : find crlf (response.drop cursor) = some i)
    (hle : cursor + i ≤ headerEnd) (state : σ) :
    headerLoop malformed line response headerEnd cursor state =
      line ((response.drop cursor).take i) state >>= headerLoop malformed line response headerEnd (cursor + i + 2) := by
  have hfrom := findFrom_of_find hi
  rw [headerLoop, dif_pos hcursor]
  split
  · next hnone =>
    rw [hfrom] at hnone
    cases hnone
  · next lineEnd hsome =>
    rw [hfrom] at hsome
    cases hsome
    rw [if_neg (not_lt.mpr hle), Nat.add_sub_cancel_left]
    cases line ((response.drop cursor).take i) state with
    | error message => rfl
    | ok state => rfl

theorem headerLoop_eq {σ : Type} (malformed : σ → Except String σ) (line : List UInt8 → σ → Except String σ)
    (hheader : find (crlf ++ crlf) response = some headerEnd) (cursor : Nat) (state : σ) :
    headerLoop malformed line response headerEnd cursor state =
      (headerLines response headerEnd cursor).foldlM (fun state l => line l state) state := by
  induction cursor using lines_induct hheader generalizing state with
  | stop cursor hcursor =>
    rw [headerLoop, dif_neg hcursor, headerLines, dif_neg hcursor, List.foldlM_nil]
    rfl
  | next cursor i hcursor hi hle ih =>
    rw [headerLoop_next malformed line hcursor hi hle, headerLines_next hcursor hi hle, List.foldlM_cons]
    exact bind_congr ih

theorem headerLines_block (hheader : find (crlf ++ crlf) response = some headerEnd) (body : List UInt8) (cursor : Nat) :
    headerLines (response.take (headerEnd + 4) ++ body) headerEnd cursor = headerLines response headerEnd cursor := by
  have hlen := find_le hheader
  rw [List.length_append, show crlf.length = 2 from rfl] at hlen
  induction cursor using lines_induct hheader with
  | stop cursor hcursor => rw [headerLines, dif_neg hcursor, headerLines, dif_neg hcursor]
  | next cursor i hcursor hi hle ih =>
    have hdrop : (response.take (headerEnd + 4) ++ body).drop cursor =
        (response.drop cursor).take (headerEnd + 4 - cursor) ++ body := by
      rw [List.drop_append_of_le_length (by rw [List.length_take]; omega), List.drop_take]
    have hsame : find crlf ((response.take (headerEnd + 4) ++ body).drop cursor) = some i := by
      rw [hdrop]
      exact find_append (find_take hi (by rw [show crlf.length = 2 from rfl]; omega)) body
    rw [headerLines_next hcursor hi hle, headerLines_next hcursor hsame hle, ih, hdrop,
      List.take_append_of_le_length (by rw [List.length_take, List.length_drop]; omega), List.take_take]
    congr 2
    omega

/-! ## Blanks -/

/-- Only spaces stand before the value, and no blank after it. -/
def SpacedOnly (value : List UInt8) : Prop :=
  let text := value.dropWhile fun b => b = 32
  text.head? ≠ some 9 ∧ ∀ b, text.getLast? = some b → isBlank b = false

/-- A content length that `ParseHttpResponse` strips as `ParseHttpHeaders` does. Other lines do not matter. -/
def SpacedLength (line : List UInt8) : Prop :=
  ∀ name value, headerField line = some (name, value) → name = ascii "content-length" → SpacedOnly value

theorem isBlank_iff {b : UInt8} : isBlank b = true ↔ b = 32 ∨ b = 9 := by simp [isBlank]

theorem toLower_blank {b : UInt8} (h : isBlank b = true) : toLower b = b := by
  rcases isBlank_iff.mp h with rfl | rfl <;> decide

theorem toLower_not_blank {b : UInt8} (h : isBlank b = true) {word : List UInt8}
    (hword : ∀ a ∈ word, isBlank a = false) : toLower b ∉ word := by
  rw [toLower_blank h]
  intro hmem
  rw [hword b hmem] at h
  cases h

/-- The blanks that one reader strips first are among those of the other. -/
theorem dropWhile_isBlank (value : List UInt8) :
    (value.dropWhile fun b => b = 32).dropWhile isBlank = value.dropWhile isBlank := by
  induction value with
  | nil => rfl
  | cons b value ih =>
    by_cases hb : b = 32
    · subst hb
      rw [List.dropWhile_cons_of_pos (by simp), ih, List.dropWhile_cons_of_pos (by decide)]
    · rw [List.dropWhile_cons_of_neg (by simpa using hb)]

theorem find_word_strip {word : List UInt8} (hword : ∀ b ∈ word, isBlank b = false) (text : List UInt8) :
    find word (lower ((text.dropWhile isBlank).rdropWhile isBlank)) ≠ none ↔ find word (lower text) ≠ none := by
  have hfront : ∀ a ∈ lower (text.takeWhile isBlank), a ∉ word := by
    intro a ha
    obtain ⟨b, hb, rfl⟩ := List.mem_map.mp ha
    exact toLower_not_blank (List.mem_takeWhile_imp hb) hword
  have hback : ∀ a ∈ lower ((text.dropWhile isBlank).rtakeWhile isBlank), a ∉ word := by
    intro a ha
    obtain ⟨b, hb, rfl⟩ := List.mem_map.mp ha
    exact toLower_not_blank (List.mem_rtakeWhile_imp hb) hword
  have hsplit : lower text = lower (text.takeWhile isBlank) ++
      (lower ((text.dropWhile isBlank).rdropWhile isBlank) ++ lower ((text.dropWhile isBlank).rtakeWhile isBlank)) := by
    simp only [lower, ← List.map_append, List.rdropWhile_append_rtakeWhile, List.takeWhile_append_dropWhile]
  rw [find_ne_none_iff, find_ne_none_iff, hsplit, infix_append_left_iff hfront, infix_append_right_iff hback]

theorem strip_eq {value : List UInt8} (h : SpacedOnly value) :
    (value.dropWhile isBlank).rdropWhile isBlank = value.dropWhile fun b => b = 32 := by
  obtain ⟨hhead, hlast⟩ := h
  rw [← dropWhile_isBlank]
  have hspace : ∀ b, (value.dropWhile fun b => b = 32).head? = some b → b ≠ 32 := by
    intro b hb
    have := List.head?_dropWhile_not (fun b : UInt8 => decide (b = 32)) value
    rw [hb] at this
    simpa using this
  generalize (value.dropWhile fun b => b = 32) = text at *
  have hfirst : text.dropWhile isBlank = text := by
    cases text with
    | nil => rfl
    | cons b text =>
      refine List.dropWhile_cons_of_neg fun hb => ?_
      rcases isBlank_iff.mp hb with rfl | rfl
      · exact hspace 32 rfl rfl
      · exact hhead rfl
  rw [hfirst, List.rdropWhile_eq_self_iff]
  intro hne
  rw [hlast _ (List.getLast?_eq_getLast_of_ne_nil hne)]
  simp

/-! ## Numbers -/

theorem wholeNumber_digits {base : Nat} {text : List UInt8} {n : Nat} (h : wholeNumber (fromChars base text) = some n) :
    text ≠ [] ∧ ∀ b ∈ text, (digit base b).isSome = true := by
  unfold fromChars at h
  dsimp only at h
  split_ifs at h with hnone
  · cases h
  · have hsplit := List.takeWhile_append_dropWhile (p := fun b => (digit base b).isSome) (l := text)
    cases hrest : text.drop (text.takeWhile fun b => (digit base b).isSome).length with
    | cons b rest => rw [hrest] at h; cases h
    | nil =>
      have hall : text.takeWhile (fun b => (digit base b).isSome) = text :=
        (List.takeWhile_prefix _).eq_of_length (le_antisymm (List.takeWhile_prefix _).length_le
          (by simpa using List.drop_eq_nil_iff.mp hrest))
      refine ⟨fun hnil => hnone (Or.inl (by rw [hall, hnil])), fun b hb => ?_⟩
      rw [← hall] at hb
      exact List.mem_takeWhile_imp (p := fun b => (digit base b).isSome) hb

theorem wholeNumber_blank {value : List UInt8} (h : ¬SpacedOnly value) :
    wholeNumber (fromChars 10 (value.dropWhile fun b => b = 32)) = none := by
  cases hn : wholeNumber (fromChars 10 (value.dropWhile fun b => b = 32)) with
  | none => rfl
  | some n =>
    obtain ⟨-, hdigits⟩ := wholeNumber_digits hn
    have hblank : ∀ b ∈ value.dropWhile (fun b => b = 32), isBlank b = false := by
      intro b hb
      by_contra hblank
      rcases isBlank_iff.mp (by simpa using hblank) with rfl | rfl
      · exact absurd (hdigits _ hb) (by decide)
      · exact absurd (hdigits _ hb) (by decide)
    refine absurd ⟨fun hhead => ?_, fun b hb => hblank b (List.mem_of_getLast? hb)⟩ h
    exact absurd (hblank 9 (List.mem_of_head? hhead)) (by decide)

/-! ## One line -/

def HttpHeaders.framing (headers : HttpHeaders) : Framing := ⟨headers.chunked, headers.contentLength⟩

theorem framing_line {l : List UInt8} {headers headers' : HttpHeaders} (hline : headers.line l = .ok headers') :
    (SpacedLength l → headers.framing.line l = .ok headers'.framing) ∧
      (¬SpacedLength l → ∀ framing : Framing, framing.line l = .error "invalid HTTP content length") := by
  unfold HttpHeaders.line at hline
  unfold Framing.line
  cases hfield : headerField l with
  | none =>
    simp only [hfield] at hline
    cases hline
    exact ⟨fun _ => rfl, fun hno => absurd (fun name value h => by rw [hfield] at h; cases h) hno⟩
  | some field =>
    obtain ⟨name, value⟩ := field
    simp only [hfield] at hline
    dsimp only
    have hword := @find_word_strip (ascii "chunked") (by decide +kernel) (value.dropWhile fun b => b = 32)
    rw [dropWhile_isBlank] at hword
    have hspaced : SpacedLength l ↔ (name = ascii "content-length" → SpacedOnly value) := by
      refine ⟨fun h => h name value hfield, fun h name' value' hfield' => ?_⟩
      rw [hfield] at hfield'
      cases hfield'
      exact h
    rw [hspaced]
    by_cases hlength : name = ascii "content-length"
    · -- the number is read from the stripped value
      subst hlength
      have hother : ascii "content-length" ≠ ascii "transfer-encoding" := by decide +kernel
      simp only [hother, false_and, if_false, if_true] at hline ⊢
      refine ⟨fun h => ?_, fun h framing => ?_⟩
      · rw [strip_eq (h trivial)] at hline
        cases hnumber : wholeNumber (fromChars 10 (value.dropWhile fun b => b = 32)) with
        | none => rw [hnumber] at hline; cases hline
        | some n =>
          rw [hnumber] at hline
          cases hline
          rfl
      · rw [wholeNumber_blank fun hspaced => h fun _ => hspaced]
    · simp only [hlength, if_false, false_imp_iff, forall_const, not_true_eq_false, and_true] at hline ⊢
      by_cases hchunked : name = ascii "transfer-encoding" ∧
          find (ascii "chunked") (lower (value.dropWhile fun b => b = 32)) ≠ none
      · rw [if_pos ⟨hchunked.1, hword.mpr hchunked.2⟩] at hline
        rw [if_pos hchunked]
        cases hline
        rfl
      · rw [if_neg fun h => hchunked ⟨h.1, hword.mp h.2⟩] at hline
        rw [if_neg hchunked]
        split_ifs at hline <;> cases hline <;> rfl

/-! ## All lines -/

theorem framing_lines {lines : List (List UInt8)} {headers headers' : HttpHeaders}
    (h : lines.foldlM (fun headers l => headers.line l) headers = .ok headers') :
    ((∀ l ∈ lines, SpacedLength l) →
      lines.foldlM (fun framing l => framing.line l) headers.framing = .ok headers'.framing) ∧
    ((∃ l ∈ lines, ¬SpacedLength l) →
      lines.foldlM (fun framing l => framing.line l) headers.framing = .error "invalid HTTP content length") := by
  induction lines generalizing headers with
  | nil =>
    cases h
    exact ⟨fun _ => rfl, fun ⟨l, hl, _⟩ => by cases hl⟩
  | cons l lines ih =>
    rw [List.foldlM_cons] at h
    cases hline : headers.line l with
    | error message => rw [hline] at h; cases h
    | ok next =>
      rw [hline] at h
      obtain ⟨hall, hsome⟩ := ih h
      obtain ⟨hok, herr⟩ := framing_line hline
      rw [List.foldlM_cons]
      by_cases hspaced : SpacedLength l
      · rw [hok hspaced]
        refine ⟨fun h => hall fun l hl => h l (List.mem_cons_of_mem _ hl), ?_⟩
        rintro ⟨k, hk, hno⟩
        rcases List.mem_cons.mp hk with rfl | hk
        · exact absurd hspaced hno
        · exact hsome ⟨k, hk, hno⟩
      · rw [herr hspaced]
        exact ⟨fun h => absurd (h l List.mem_cons_self) hspaced, fun _ => rfl⟩

theorem headerEnd_line {l : List UInt8} {headers headers' : HttpHeaders} (h : headers.line l = .ok headers') :
    headers'.headerEnd = headers.headerEnd := by
  unfold HttpHeaders.line at h
  cases hfield : headerField l with
  | none =>
    simp only [hfield] at h
    cases h
    rfl
  | some field =>
    simp only [hfield] at h
    split_ifs at h
    · cases h
      rfl
    · split at h
      · cases h
      · cases h
        rfl
    · cases h
      rfl
    · cases h
      rfl

theorem headerEnd_lines {lines : List (List UInt8)} {headers headers' : HttpHeaders}
    (h : lines.foldlM (fun headers l => headers.line l) headers = .ok headers') :
    headers'.headerEnd = headers.headerEnd := by
  induction lines generalizing headers with
  | nil =>
    cases h
    rfl
  | cons l lines ih =>
    rw [List.foldlM_cons] at h
    cases hline : headers.line l with
    | error message => rw [hline] at h; cases h
    | ok next =>
      rw [hline] at h
      exact (ih h).trans (headerEnd_line hline)

/-! ## The two readers -/

def headerLinesOf (response : List UInt8) : List (List UInt8) :=
  match find (crlf ++ crlf) response, find crlf response with
  | some headerEnd, some statusEnd => headerLines response headerEnd (statusEnd + 2)
  | _, _ => []

theorem parseHttpHeaders_ok {headers : HttpHeaders} (h : parseHttpHeaders response = .ok headers) :
    find (crlf ++ crlf) response = some headers.headerEnd ∧
      ∃ statusEnd, find crlf response = some statusEnd ∧ statusEnd ≤ headers.headerEnd ∧
        (headerLines response headers.headerEnd (statusEnd + 2)).foldlM (fun (headers : HttpHeaders) l => headers.line l)
          ({ headerEnd := headers.headerEnd } : HttpHeaders) = .ok headers := by
  unfold parseHttpHeaders at h
  cases hheader : find (crlf ++ crlf) response with
  | none => simp only [hheader] at h; cases h
  | some headerEnd =>
    cases hstatus : find crlf response with
    | none => simp only [hheader, hstatus] at h; cases h
    | some statusEnd =>
      simp only [hheader, hstatus, headerLoop_eq _ _ hheader] at h
      split_ifs at h with hgt
      cases hfold : (headerLines response headerEnd (statusEnd + 2)).foldlM (fun (headers : HttpHeaders) l => headers.line l)
          ({ headerEnd } : HttpHeaders) with
      | error message => rw [hfold] at h; cases h
      | ok last =>
        simp only [hfold] at h
        split_ifs at h
        cases h
        have hend := headerEnd_lines hfold
        dsimp only at hend
        subst hend
        exact ⟨rfl, statusEnd, rfl, by omega, hfold⟩

/-- `ParseHttpResponse` gets the framing that `ParseHttpHeaders` found, and does not complain about it. -/
structure FramedAlike (isRpcError : List UInt8 → Bool) (headers : HttpHeaders) (complete : List UInt8) : Prop where
  framing : ∃ statusEnd, find (crlf ++ crlf) complete = some headers.headerEnd ∧ find crlf complete = some statusEnd ∧
    responseFraming complete headers.headerEnd statusEnd = .ok headers.framing
  accepted : parseHttpResponse isRpcError complete ≠ .error "invalid HTTP content length"

theorem decodeChunkedFrom_error {output rest : List UInt8} {message : String}
    (h : decodeChunkedFrom output rest = .error message) : message ≠ "invalid HTTP content length" := by
  fun_induction decodeChunkedFrom output rest with
  | case1 => cases h; decide
  | case2 => cases h; decide
  | case3 => cases h
  | case4 => cases h; decide
  | case5 => cases h; decide
  | case6 _ _ _ _ _ _ _ _ _ _ ih => exact ih h

theorem framedBody_error {framing : Framing} {body : List UInt8} {message : String}
    (h : framedBody framing body = .error message) : message ≠ "invalid HTTP content length" := by
  unfold framedBody at h
  split_ifs at h
  · exact decodeChunkedFrom_error h
  · split at h
    · cases h
    · split_ifs at h
      cases h
      decide

theorem statusCode_error {status : List UInt8} {message : String} (h : statusCode status = .error message) :
    message ≠ "invalid HTTP content length" := by
  unfold statusCode at h
  split at h
  · cases h
    decide
  · split_ifs at h
    · cases h
      decide
    · split at h
      · cases h
        decide
      · cases h

def HttpHeaders.complete (headers : HttpHeaders) (response body : List UInt8) : List UInt8 :=
  response.take (headers.headerEnd + 4) ++ body

theorem complete_framing {headers : HttpHeaders} (hparse : parseHttpHeaders response = .ok headers) (body : List UInt8) :
    ∃ statusEnd, find (crlf ++ crlf) (headers.complete response body) = some headers.headerEnd ∧
      find crlf (headers.complete response body) = some statusEnd ∧
      responseFraming (headers.complete response body) headers.headerEnd statusEnd =
        (headerLinesOf response).foldlM (fun (framing : Framing) l => framing.line l) ({} : Framing) := by
  obtain ⟨hheader, statusEnd, hstatus, hle, -⟩ := parseHttpHeaders_ok hparse
  have hheader' : find (crlf ++ crlf) (headers.complete response body) = some headers.headerEnd :=
    find_append (find_take hheader (le_refl _)) body
  refine ⟨statusEnd, hheader', find_append (find_take hstatus ?_) body, ?_⟩
  · rw [show crlf.length = 2 from rfl]
    omega
  · rw [responseFraming, headerLoop_eq _ _ hheader', HttpHeaders.complete, headerLines_block hheader, headerLinesOf, hheader,
      hstatus]

/-- **Framing.** Both readers derive the same framing from one header block exactly if `ParseHttpResponse` strips every
content length as `ParseHttpHeaders` does. -/
theorem framedAlike_iff (isRpcError : List UInt8 → Bool) {headers : HttpHeaders}
    (hparse : parseHttpHeaders response = .ok headers) (body : List UInt8) :
    FramedAlike isRpcError headers (headers.complete response body) ↔ ∀ l ∈ headerLinesOf response, SpacedLength l := by
  obtain ⟨hheader, statusEnd, hstatus, hle, hfold⟩ := parseHttpHeaders_ok hparse
  obtain ⟨statusEnd', hheader', hstatus', hframing⟩ := complete_framing hparse body
  have hlines : headerLinesOf response = headerLines response headers.headerEnd (statusEnd + 2) := by
    rw [headerLinesOf, hheader, hstatus]
  rw [← hlines] at hfold
  obtain ⟨hall, hsome⟩ := framing_lines hfold
  constructor
  · rintro ⟨⟨statusEnd'', -, hfound, hok⟩, -⟩
    rw [hstatus'] at hfound
    cases hfound
    by_contra hno
    push Not at hno
    have herr := hframing.trans (hsome hno)
    rw [hok] at herr
    cases herr
  · intro hspaced
    have hok := hframing.trans (hall hspaced)
    refine ⟨⟨statusEnd', hheader', hstatus', hok⟩, fun hreject => ?_⟩
    rw [parseHttpResponse] at hreject
    simp only [hheader', hstatus', hok] at hreject
    cases hcode : statusCode ((headers.complete response body).take statusEnd') with
    | error message =>
      simp only [hcode, HttpResult.error.injEq] at hreject
      exact statusCode_error hcode hreject
    | ok code =>
      simp only [hcode] at hreject
      cases hbody : framedBody headers.framing ((headers.complete response body).drop (headers.headerEnd + 4)) with
      | error message =>
        simp only [hbody, HttpResult.error.injEq] at hreject
        exact framedBody_error hbody hreject
      | ok body =>
        simp only [hbody, deliver] at hreject
        split_ifs at hreject

/-- A blank after the content length. -/
def trailingBlank : List UInt8 := ascii "HTTP/1.1 200 OK\r\nContent-Length: 5 \r\n\r\nhello"

theorem framedAlike_iff_trailingBlank :
    parseHttpHeaders trailingBlank = .ok ⟨35, false, false, some 5⟩ ∧
    (FramedAlike (fun _ => false) ⟨35, false, false, some 5⟩
        (HttpHeaders.complete ⟨35, false, false, some 5⟩ trailingBlank (ascii "hello")) ↔
      ∀ l ∈ headerLinesOf trailingBlank, SpacedLength l) :=
  ⟨by decide +kernel, framedAlike_iff _ (by decide +kernel) _⟩

/-- The client reads the whole response and then refuses it. -/
theorem trailingBlank_refused :
    ¬∀ (response : List UInt8) (headers : HttpHeaders) (body : List UInt8),
      parseHttpHeaders response = .ok headers →
        FramedAlike (fun _ => false) headers (headers.complete response body) := by
  intro h
  refine (h trailingBlank ⟨35, false, false, some 5⟩ (ascii "hello") (by decide +kernel)).accepted ?_
  decide +kernel

end UtreexoBridge.Rpc
