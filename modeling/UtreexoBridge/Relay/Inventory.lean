import UtreexoBridge.Relay.Spec

/-!
# The text of an inventory

The scan accepts the JSON arrays whose elements are ids between quotes, and
visits the ids in their order.
-/

namespace UtreexoBridge

open Rpc JsonCursor

variable {P H : Type} [DecidableEq H] [PreparedProof P H] [StoredHash H]

/-- The text is a JSON array of these ids, each written with its 64 digits, in between any whitespace of JSON. -/
def IsInventory (json : List UInt8) (ids : List H) : Prop :=
  ∃ before text after hexes, json = before ++ (text ++ after) ∧ Blank before ∧ Blank after ∧
    JsonText some (.value (.arr (hexes.map .str))) text ∧ List.Forall₂ (fun hex id => fromBitcoinHex hex = .ok id) hexes ids

namespace TransactionRelay

variable {batchSize scanCursor fuel : Nat} {delay : Nat → Nat} {s : RecoveryScan P H} {hex tail : List UInt8} {id : H}

/-! ## Digits -/

theorem stringText_of_hex {raw : List UInt8} (h : ∀ b ∈ raw, (hexDigit b).isSome) : StringText raw := by
  induction raw with
  | nil => exact .nil
  | cons b raw ih =>
    have hb := h b List.mem_cons_self
    have hdigit : (48 ≤ b ∧ b ≤ 57) ∨ (97 ≤ b ∧ b ≤ 102) ∨ (65 ≤ b ∧ b ≤ 70) := by
      unfold hexDigit at hb
      split_ifs at hb with h1 h2 h3
      · exact .inl h1
      · exact .inr (.inl h2)
      · exact .inr (.inr h3)
      · cases hb
    simp only [UInt8.le_iff_toNat_le] at hdigit
    refine .byte ?_ ?_ ?_ (ih fun b hb => h b (List.mem_cons_of_mem _ hb))
    · rw [UInt8.lt_iff_toNat_lt]
      simp at hdigit ⊢
      omega
    · rintro rfl
      simp at hdigit
    · rintro rfl
      simp at hdigit

theorem hexDigit_of_hexBytes {raw bytes : List UInt8} (h : hexBytes raw = some bytes) (heven : raw.length % 2 = 0) :
    ∀ b ∈ raw, (hexDigit b).isSome := by
  fun_induction hexBytes raw generalizing bytes with
  | case1 high low rest ih =>
    obtain ⟨x, hx, h⟩ := Option.bind_eq_some_iff.mp h
    obtain ⟨y, hy, h⟩ := Option.bind_eq_some_iff.mp h
    obtain ⟨back, hback, -⟩ := Option.bind_eq_some_iff.mp h
    intro b hb
    rcases List.mem_cons.mp hb with rfl | hb
    · rw [hx]
      rfl
    · rcases List.mem_cons.mp hb with rfl | hb
      · rw [hy]
        rfl
      · rw [List.length_cons, List.length_cons] at heven
        exact ih hback (by omega) b hb
  | case2 raw hshort =>
    match raw with
    | [] => simp
    | [_] => simp at heven
    | high :: low :: rest => exact absurd rfl (hshort high low rest)

omit [DecidableEq H] in
theorem fromBitcoinHex_ok (h : (fromBitcoinHex hex : Except String H) = .ok id) : hex.length = 64 ∧ StringText hex := by
  unfold fromBitcoinHex at h
  split_ifs at h with hlength
  rw [not_not] at hlength
  refine ⟨hlength, stringText_of_hex ?_⟩
  cases hbytes : hexBytes hex with
  | none =>
    rw [hbytes] at h
    cases h
  | some bytes => exact hexDigit_of_hexBytes hbytes (by rw [hlength])

/-! ## One element -/

theorem scanLoop_item (h : (fromBitcoinHex hex : Except String H) = .ok id) :
    scanLoop batchSize scanCursor delay (fuel + 1) (34 :: (hex ++ 34 :: tail)) s =
      match visit batchSize scanCursor delay s id with
      | .error fault => .error fault
      | .ok s =>
        match whitespace tail with
        | [] => .ok (.error "truncated Core mempool inventory", s)
        | b :: rest =>
          if b = 93 then .ok (.ok (b :: rest), s)
          else if b ≠ 44 then .ok (.error "invalid Core mempool inventory separator", s)
          else scanLoop batchSize scanCursor delay fuel (whitespace rest) s := by
  obtain ⟨hlength, -⟩ := fromBitcoinHex_ok h
  have hquote : (34 :: (hex ++ 34 :: tail))[65]? = some 34 := by
    rw [List.getElem?_cons_succ, List.getElem?_append_right (by omega), hlength]
    rfl
  have htake : ((34 :: (hex ++ 34 :: tail)).drop 1).take 64 = hex := by
    rw [List.drop_one, List.tail_cons, List.take_left' hlength]
  have hdrop : (34 :: (hex ++ 34 :: tail)).drop 66 = tail := by
    have hsplit : 34 :: (hex ++ 34 :: tail) = (34 :: (hex ++ [34])) ++ tail := by simp
    rw [hsplit, List.drop_left' (by simp [hlength])]
  have hscan : ¬((34 :: (hex ++ 34 :: tail)).length < 66 ∨ (34 :: (hex ++ 34 :: tail))[0]? ≠ some 34 ∨
      (34 :: (hex ++ 34 :: tail))[65]? ≠ some 34) := by
    rw [hquote, List.length_cons, List.length_append, List.length_cons, hlength]
    simp only [List.getElem?_cons_zero, ne_eq, not_true_eq_false, or_self, or_false]
    omega
  rewrite [scanLoop, if_neg hscan, htake, hdrop, h]
  rfl

theorem item_of_scanned {json : List UInt8} (hlength : ¬(json.length < 66 ∨ json[0]? ≠ some 34 ∨ json[65]? ≠ some 34)) :
    json = 34 :: ((json.drop 1).take 64 ++ 34 :: json.drop 66) := by
  rw [not_or, not_or, not_not, not_not] at hlength
  obtain ⟨hlength, hopen, hclose⟩ := hlength
  obtain ⟨h65, hclose⟩ := List.getElem?_eq_some_iff.mp hclose
  obtain ⟨h0, hopen⟩ := List.getElem?_eq_some_iff.mp hopen
  have hfirst : json = 34 :: json.drop 1 := by
    conv_lhs => rw [← List.drop_zero (l := json), List.drop_eq_getElem_cons h0, hopen]
  have hlast : (json.drop 1).drop 64 = 34 :: json.drop 66 := by
    rw [List.drop_drop, List.drop_eq_getElem_cons h65, hclose]
  conv_lhs => rw [hfirst, ← List.take_append_drop 64 (json.drop 1), hlast]

/-! ## All elements -/

def visitAll (batchSize scanCursor : Nat) (delay : Nat → Nat) (s : RecoveryScan P H) :
    List H → Except Fault (RecoveryScan P H)
  | [] => .ok s
  | id :: ids =>
    match visit batchSize scanCursor delay s id with
    | .error fault => .error fault
    | .ok s => visitAll batchSize scanCursor delay s ids

theorem blank_nil : Blank [] := by rintro b ⟨⟩

omit [StoredHash H] [DecidableEq H] [PreparedProof P H] in
theorem exists_blank (json : List UInt8) : ∃ blank, Blank blank ∧ json = blank ++ whitespace json :=
  ⟨json.takeWhile isSpace, fun _ hb => List.mem_takeWhile_imp hb, (List.takeWhile_append_dropWhile).symm⟩

theorem elements_blank {values : List UniValue} {blank text : List UInt8} (hblank : Blank blank)
    (h : JsonText some (.elements values) text) : JsonText some (.elements values) (blank ++ text) := by
  have hboth : ∀ {before : List UInt8}, Blank before → Blank (blank ++ before) := by
    intro before hbefore b hb
    exact (List.mem_append.mp hb).elim (hblank b) (hbefore b)
  cases h with
  | lastElement hbefore hafter h =>
    rw [← List.append_assoc]
    exact .lastElement (hboth hbefore) hafter h
  | element hbefore hafter h hrest =>
    rw [← List.append_assoc]
    exact .element (hboth hbefore) hafter h hrest

theorem text_of_str {raw text : List UInt8} (h : JsonText some (.value (.str raw)) text) : text = 34 :: (raw ++ [34]) := by
  cases h with
  | strText h hdecode =>
    cases hdecode
    rfl

theorem elements_head {hexes : List (List UInt8)} {text : List UInt8}
    (h : JsonText some (.elements (hexes.map .str)) text) (tail : List UInt8) :
    ∃ rest, whitespace (text ++ tail) = 34 :: rest := by
  generalize hvalues : List.map UniValue.str hexes = values at h
  cases h with
  | @lastElement value before item after hbefore hafter hitem =>
    obtain ⟨hex, -, rfl⟩ := List.mem_map.mp (hvalues ▸ List.mem_cons_self)
    rw [text_of_str hitem, List.append_assoc, whitespace_blank hbefore]
    exact ⟨_, whitespace_of_not_space (by decide) _⟩
  | @element value values before item after behind hbefore hafter hitem hrest =>
    obtain ⟨hex, -, rfl⟩ := List.mem_map.mp (hvalues ▸ List.mem_cons_self)
    rw [text_of_str hitem, List.append_assoc, whitespace_blank hbefore]
    exact ⟨_, whitespace_of_not_space (by decide) _⟩

theorem scanLoop_elements {hexes : List (List UInt8)} {ids : List H} {text : List UInt8}
    (h : JsonText some (.elements (hexes.map .str)) text)
    (hids : List.Forall₂ (fun hex id => fromBitcoinHex hex = .ok id) hexes ids) (rest : List UInt8)
    (hfuel : (whitespace (text ++ 93 :: rest)).length ≤ fuel) :
    scanLoop batchSize scanCursor delay fuel (whitespace (text ++ 93 :: rest)) s =
      match visitAll batchSize scanCursor delay s ids with
      | .error fault => .error fault
      | .ok s => .ok (.ok (93 :: rest), s) := by
  induction hids generalizing text fuel s with
  | nil => cases h
  | @cons hex id hexes ids hid hids ih =>
    obtain ⟨front, hfront⟩ := elements_head h (93 :: rest)
    obtain ⟨fuel, rfl⟩ : ∃ left, fuel = left + 1 := by
      rw [hfront, List.length_cons] at hfuel
      exact ⟨fuel - 1, by omega⟩
    generalize hvalues : List.map UniValue.str (hex :: hexes) = values at h
    rw [List.map_cons] at hvalues
    cases h with
    | @lastElement value before item after hbefore hafter hitem =>
      obtain ⟨rfl, hnil⟩ := List.cons.inj hvalues
      obtain rfl := List.map_eq_nil_iff.mp hnil
      cases hids
      have htext : before ++ (item ++ after) ++ 93 :: rest = before ++ 34 :: (hex ++ 34 :: (after ++ 93 :: rest)) := by
        rw [text_of_str hitem]
        simp
      rw [htext, whitespace_blank hbefore, whitespace_of_not_space (by decide), scanLoop_item hid,
        whitespace_blank hafter, whitespace_of_not_space (by decide), visitAll]
      cases visit batchSize scanCursor delay s id <;> rfl
    | @element value values before item after behind hbefore hafter hitem hrest =>
      obtain ⟨rfl, rfl⟩ := List.cons.inj hvalues
      have htext : before ++ (item ++ (after ++ 44 :: behind)) ++ 93 :: rest =
          before ++ 34 :: (hex ++ 34 :: (after ++ 44 :: (behind ++ 93 :: rest))) := by
        rw [text_of_str hitem]
        simp
      rw [htext, whitespace_blank hbefore, whitespace_of_not_space (by decide)] at hfuel
      rw [htext, whitespace_blank hbefore, whitespace_of_not_space (by decide), scanLoop_item hid,
        whitespace_blank hafter, whitespace_of_not_space (by decide), visitAll]
      cases hvisit : visit batchSize scanCursor delay s id with
      | error fault => rfl
      | ok s =>
        refine ih hrest ((List.length_dropWhile_le _ _).trans ?_)
        simp only [List.length_append, List.length_cons] at hfuel ⊢
        omega

/-- Whatever the text is, the loop visits some ids. If it gets to a closing bracket, these are the elements. -/
theorem scanLoop_spec (json : List UInt8) (hfuel : json.length ≤ fuel)
    (hvisits : ∀ ids, ∃ s', visitAll batchSize scanCursor delay s ids = .ok s') :
    ∃ ids s', visitAll batchSize scanCursor delay s ids = .ok s' ∧
      ((∃ message, scanLoop batchSize scanCursor delay fuel json s = .ok (.error message, s')) ∨
        ∃ hexes text rest, scanLoop batchSize scanCursor delay fuel json s = .ok (.ok (93 :: rest), s') ∧
          json = text ++ 93 :: rest ∧ JsonText some (.elements (hexes.map .str)) text ∧
          List.Forall₂ (fun hex id => fromBitcoinHex hex = .ok id) hexes ids) := by
  induction fuel generalizing json s with
  | zero => exact ⟨[], s, rfl, .inl ⟨_, rfl⟩⟩
  | succ fuel ih =>
    by_cases hitem : json.length < 66 ∨ json[0]? ≠ some 34 ∨ json[65]? ≠ some 34
    · exact ⟨[], s, rfl, .inl ⟨_, by rw [scanLoop, if_pos hitem]⟩⟩
    · have hjson := item_of_scanned hitem
      rcases hhex : (fromBitcoinHex ((json.drop 1).take 64) : Except String H) with message | id
      · exact ⟨[], s, rfl, .inl ⟨message, by rw [scanLoop, if_neg hitem, hhex]⟩⟩
      · generalize (json.drop 1).take 64 = hex at hjson hhex
        generalize json.drop 66 = tail at hjson
        subst hjson
        obtain ⟨-, hhexText⟩ := fromBitcoinHex_ok hhex
        have hitemText : JsonText some (.value (.str hex)) (34 :: (hex ++ [34])) := .strText hhexText rfl
        obtain ⟨s1, hs1⟩ := hvisits [id]
        obtain hvisit : visit batchSize scanCursor delay s id = .ok s1 := by
          rw [visitAll] at hs1
          cases hvisit : visit batchSize scanCursor delay s id with
          | error fault =>
            rw [hvisit] at hs1
            cases hs1
          | ok s' =>
            rw [hvisit] at hs1
            exact hs1
        have hall : ∀ ids, visitAll batchSize scanCursor delay s (id :: ids) = visitAll batchSize scanCursor delay s1 ids := by
          intro ids
          rw [visitAll, hvisit]
        obtain ⟨blank, hblank, htail⟩ := exists_blank tail
        rw [scanLoop_item hhex, hvisit]
        dsimp only
        rcases hwhite : whitespace tail with _ | ⟨b, rest⟩
        · exact ⟨[id], s1, hs1, .inl ⟨_, rfl⟩⟩
        · dsimp only
          rw [hwhite] at htail
          by_cases hclose : b = 93
          · subst hclose
            refine ⟨[id], s1, hs1, .inr ⟨[hex], 34 :: (hex ++ [34]) ++ blank, rest, if_pos rfl, ?_, ?_, .cons hhex .nil⟩⟩
            · rw [htail]
              simp
            · exact .lastElement blank_nil hblank hitemText
          · by_cases hcomma : b = 44
            · subst hcomma
              rw [if_neg (by decide), if_neg (by decide)]
              obtain ⟨front, hfront, hrest⟩ := exists_blank rest
              have hleft : (whitespace rest).length ≤ fuel := by
                have h1 := congrArg List.length htail
                have h2 := congrArg List.length hrest
                simp only [List.length_append, List.length_cons] at h1 h2 hfuel
                omega
              obtain ⟨ids, s', hids, hresult⟩ := ih (whitespace rest) hleft fun ids => by
                rw [← hall]
                exact hvisits (id :: ids)
              refine ⟨id :: ids, s', (hall ids).trans hids, ?_⟩
              rcases hresult with ⟨message, herror⟩ | ⟨hexes, text, behind, hok, hwhole, helements, hforall⟩
              · exact .inl ⟨message, herror⟩
              · refine .inr ⟨hex :: hexes, 34 :: (hex ++ [34]) ++ (blank ++ 44 :: (front ++ text)), behind, hok, ?_, ?_,
                  .cons hhex hforall⟩
                · rw [htail, hrest, hwhole]
                  simp
                · exact .element blank_nil hblank hitemText (elements_blank hfront helements)
            · rw [if_neg hclose, if_pos hcomma]
              exact ⟨[id], s1, hs1, .inl ⟨_, rfl⟩⟩

/-! ## The whole text -/

def startScan (relay : TransactionRelay P H) (delay : Nat → Nat) : RecoveryScan P H :=
  ⟨(relay.cache.elapse (delay 0)).txids.2, (relay.cache.elapse (delay 0)).txids.1, [], 0, relay.scanCursor⟩

variable {relay : TransactionRelay P H} {json : List UInt8} {ids : List H}

omit [StoredHash H] in
theorem finishScan_blank {after : List UInt8} (hafter : Blank after) :
    relay.finishScan (93 :: after) s =
      match eraseAll s.cache s.missing with
      | .error fault => .error fault
      | .ok cache =>
        .ok (.ok s.candidates,
          { relay with cache, scanCursor := if s.nextCursor ≥ s.count then 0 else s.nextCursor }) := by
  have hwhite : whitespace after = [] := by
    have := whitespace_blank hafter []
    rwa [List.append_nil] at this
  rewrite [finishScan, if_neg (by decide), if_neg (by rw [hwhite]; simp)]
  rfl

omit [StoredHash H] in
variable (relay s) in
theorem finishScan_other {after : List UInt8} (hafter : ¬Blank after) :
    ∃ message, relay.finishScan (93 :: after) s = .ok (.error message, { relay with cache := s.cache }) := by
  have hwhite : whitespace after ≠ [] := fun hnil => hafter (by simpa [whitespace, Blank] using hnil)
  exact ⟨"trailing Core mempool inventory data", by rw [finishScan, if_neg (by decide), if_pos hwhite]⟩

theorem recoveryCandidates_array {rest : List UInt8} (h : whitespace json = 91 :: rest) :
    relay.recoveryCandidates delay (.ok json) =
      match scanIds relay.batchSize relay.scanCursor delay (whitespace rest) (relay.startScan delay) with
      | .error fault => .error fault
      | .ok (.error message, s) => .ok (.error message, { relay with cache := s.cache })
      | .ok (.ok rest, s) => relay.finishScan rest s := by
  rw [recoveryCandidates]
  simp only [h]
  rfl

theorem recoveryCandidates_inventory (h : IsInventory json ids) :
    relay.recoveryCandidates delay (.ok json) =
      match visitAll relay.batchSize relay.scanCursor delay (relay.startScan delay) ids with
      | .error fault => .error fault
      | .ok s =>
        match eraseAll s.cache s.missing with
        | .error fault => .error fault
        | .ok cache =>
          .ok (.ok s.candidates,
            { relay with cache, scanCursor := if s.nextCursor ≥ s.count then 0 else s.nextCursor }) := by
  obtain ⟨before, text, after, hexes, rfl, hbefore, hafter, htext, hids⟩ := h
  generalize hvalues : List.map UniValue.str hexes = values at htext
  cases htext with
  | @emptyArr blank hblank =>
    obtain rfl := List.map_eq_nil_iff.mp hvalues
    cases hids
    have hopen : whitespace (before ++ (91 :: (blank ++ [93]) ++ after)) = 91 :: (blank ++ 93 :: after) := by
      rw [whitespace_blank hbefore, List.cons_append, whitespace_of_not_space (by decide), List.append_assoc]
      rfl
    have hclose : whitespace (blank ++ 93 :: after) = 93 :: after := by
      rw [whitespace_blank hblank, whitespace_of_not_space (by decide)]
    rw [recoveryCandidates_array hopen, hclose, scanIds, if_pos rfl]
    exact finishScan_blank hafter
  | @arr values text htext =>
    subst hvalues
    have hopen : whitespace (before ++ (91 :: (text ++ [93]) ++ after)) = 91 :: (text ++ 93 :: after) := by
      rw [whitespace_blank hbefore, List.cons_append, whitespace_of_not_space (by decide), List.append_assoc]
      rfl
    obtain ⟨rest, hhead⟩ := elements_head htext (93 :: after)
    rw [recoveryCandidates_array hopen, hhead, scanIds, if_neg (by decide), ← hhead,
      scanLoop_elements htext hids after le_rfl]
    cases visitAll relay.batchSize relay.scanCursor delay (relay.startScan delay) ids with
    | error fault => rfl
    | ok s => exact finishScan_blank hafter

theorem recoveryCandidates_other (delay : Nat → Nat)
    (hvisits : ∀ ids, ∃ s', visitAll relay.batchSize relay.scanCursor delay (relay.startScan delay) ids = .ok s')
    (h : ¬∃ ids : List H, IsInventory json ids) :
    ∃ ids s' message, visitAll relay.batchSize relay.scanCursor delay (relay.startScan delay) ids = .ok s' ∧
      relay.recoveryCandidates delay (.ok json) = .ok (.error message, { relay with cache := s'.cache }) := by
  obtain ⟨before, hbefore, hjson⟩ := exists_blank json
  rcases hopen : whitespace json with _ | ⟨b, text⟩
  · refine ⟨[], _, "Core mempool inventory is not an array", rfl, ?_⟩
    rw [recoveryCandidates]
    simp only [hopen]
    rfl
  · by_cases harray : b = 91
    · subst harray
      rw [hopen] at hjson
      obtain ⟨front, hfront, htext⟩ := exists_blank text
      rw [recoveryCandidates_array hopen]
      rcases hids : whitespace text with _ | ⟨c, rest⟩
      · exact ⟨[], _, "truncated Core mempool inventory", rfl, rfl⟩
      · rw [hids] at htext
        by_cases hempty : c = 93
        · subst hempty
          obtain ⟨message, herror⟩ := relay.finishScan_other (relay.startScan delay) fun hafter => by
            refine h ⟨[], before, 91 :: (front ++ [93]), rest, [], ?_, hbefore, hafter, .emptyArr hfront, .nil⟩
            rw [hjson, htext]
            simp
          exact ⟨[], _, message, rfl, herror⟩
        · rw [scanIds, if_neg hempty]
          obtain ⟨ids, s', hvisit, hresult⟩ := scanLoop_spec (c :: rest) le_rfl hvisits
          rcases hresult with ⟨message, herror⟩ | ⟨hexes, inner, after, hok, hwhole, helements, hforall⟩
          · exact ⟨ids, s', message, hvisit, by rw [herror]⟩
          · obtain ⟨message, herror⟩ := relay.finishScan_other s' fun hafter => by
              refine h ⟨ids, before, 91 :: (front ++ inner ++ [93]), after, hexes, ?_, hbefore, hafter,
                .arr (elements_blank hfront helements), hforall⟩
              rw [hjson, htext, hwhole]
              simp
            exact ⟨ids, s', message, hvisit, by rw [hok]; exact herror⟩
    · refine ⟨[], _, "Core mempool inventory is not an array", rfl, ?_⟩
      rw [recoveryCandidates]
      simp only [hopen, ne_eq, harray, not_false_eq_true, if_true]
      rfl

end TransactionRelay

end UtreexoBridge
