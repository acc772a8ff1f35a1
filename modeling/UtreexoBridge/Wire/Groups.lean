import UtreexoBridge.Bytes.ByteHash
import UtreexoBridge.Bytes.CompactSize
import UtreexoBridge.Bytes.Parser

/-!
# Transaction inventory (`ParseGroups`, `SerializeGroups`)

A group is an inventory vector with a txid and, behind it, vectors that hold
four positions each. The last one is padded with a value that is no position.
-/

namespace UtreexoBridge.Wire

open Bytes

def padding : Nat := 2 ^ 64 - 1

def msgTx : Nat := 1

def msgUtreexoProofHash : Nat := 6

def msgUtreexoTx : Nat := msgTx + 2 ^ 24

def msgWitnessUtreexoTx : Nat := msgUtreexoTx + 2 ^ 30

def maxInventory : Nat := 50000

def maxInventoryPayload : Nat := 9 + maxInventory * 36

def maxTxPayload : Nat := 4000000

def maxInputs : Nat := maxTxPayload / 41

def maxHashes : Nat := maxTxPayload / 32

def isRequestType (type : Nat) : Bool := type = msgUtreexoTx || type = msgWitnessUtreexoTx

def uniquePositions (positions : List Nat) : Bool := padding ∉ positions && decide positions.Nodup

structure TransactionAnnouncement (H : Type) where
  txid : H
  confirmedTargets : List Nat
  deriving DecidableEq

structure TransactionProofRequest (H : Type) where
  txid : H
  inventoryType : Nat
  proofPositions : List Nat
  deriving DecidableEq

/-- What the two templates ask of their type parameter. -/
class InventoryGroup (T : Type) (H : outParam Type) where
  txid : T → H
  inventoryType : T → Nat
  positions : T → List Nat
  /-- A group from the type and the hash of its first vector, and its positions. -/
  make : Nat → H → List Nat → T
  /-- The types that start a group. -/
  attachable : Nat → Bool
  positionLimit : Nat
  make_fields : ∀ g, make (inventoryType g) (txid g) (positions g) = g
  positions_make : ∀ type txid ps, positions (make type txid ps) = ps
  make_make : ∀ type t ps qs,
    make (inventoryType (make type t ps)) (txid (make type t ps)) qs = make type t qs
  attachable_ne : ∀ type, attachable type = true → type ≠ msgUtreexoProofHash ∧ type < 2 ^ 32

variable {H : Type}

instance : InventoryGroup (TransactionAnnouncement H) H where
  txid := TransactionAnnouncement.txid
  inventoryType _ := msgTx
  positions := TransactionAnnouncement.confirmedTargets
  make _ txid positions := ⟨txid, positions⟩
  attachable type := type = msgTx
  positionLimit := maxInputs
  make_fields _ := rfl
  positions_make _ _ _ := rfl
  make_make _ _ _ _ := rfl
  attachable_ne type h := by
    rw [decide_eq_true_eq] at h
    subst h
    decide

instance : InventoryGroup (TransactionProofRequest H) H where
  txid := TransactionProofRequest.txid
  inventoryType := TransactionProofRequest.inventoryType
  positions := TransactionProofRequest.proofPositions
  make type txid positions := ⟨txid, type, positions⟩
  attachable := isRequestType
  positionLimit := maxHashes
  make_fields _ := rfl
  positions_make _ _ _ := rfl
  make_make _ _ _ _ := rfl
  attachable_ne type h := by
    simp only [isRequestType, Bool.or_eq_true, decide_eq_true_eq] at h
    rcases h with rfl | rfl <;> decide

open InventoryGroup

variable {T : Type} [InventoryGroup T H]

/-! ## Parsing -/

/-- `groups`, the last one first, and the flags of the loop. -/
structure GroupState (T : Type) where
  groups : List T
  attachable : Bool
  padded : Bool

/-- The loop over the four slots of a vector, from `slot` on. -/
def takeSlots : Nat → List Nat → GroupState T → Except String (GroupState T)
  | _, [], s => .ok s
  | slot, pos :: rest, s =>
    if pos = padding then
      if slot = 0 then .error "redundant empty proof inventory vector"
      else takeSlots (slot + 1) rest { s with padded := true }
    else if s.padded then .error "non-padding position after padding"
    else
      match s.groups with
      -- never taken: a vector of positions stands behind a group
      | [] => .error "misplaced or over-padded proof inventory vector"
      | group :: groups =>
        if (positions group).length ≥ positionLimit T then .error "too many packed positions"
        else
          takeSlots (slot + 1) rest
            { s with groups := make (inventoryType group) (txid group) (positions group ++ [pos]) :: groups }

/-- A hash read as four positions. -/
def packedPositions (hash : List UInt8) : List Nat :=
  [valueOf (hash.take 8), valueOf ((hash.drop 8).take 8), valueOf ((hash.drop 16).take 8), valueOf ((hash.drop 24).take 8)]

def lift {α : Type} (result : Except String α) : Parser α := fun bytes => result.map fun value => (value, bytes)

variable [StoredHash H]

/-- The body of the loop over the vectors. -/
def takeVector (type : Nat) (hash : List UInt8) (s : GroupState T) : Except String (GroupState T) :=
  if type = msgUtreexoProofHash then
    if !s.attachable || s.padded then .error "misplaced or over-padded proof inventory vector"
    else takeSlots 0 (packedPositions hash) s
  else if attachable T type then .ok ⟨make type (StoredHash.ofBytes hash) [] :: s.groups, true, false⟩
  else .ok ⟨s.groups, false, false⟩

def parseVectors : Nat → GroupState T → Parser (GroupState T)
  | 0, s => pure s
  | count + 1, s => do
    let type ← reading "truncated inventory vector" (readUnsigned 4)
    let hash ← reading "truncated inventory vector" (readBytes 32)
    let s ← lift (takeVector type hash s)
    parseVectors count s

def parseGroups (payload : List UInt8) (maxPayloadBytes : Nat) : Except String (List T) :=
  if payload.length > min maxPayloadBytes maxInventoryPayload then
    .error "transaction inventory payload exceeds maximum"
  else
    match readCompactSize payload with
    | none => .error "invalid transaction inventory count, length, or CompactSize"
    | some (count, rest) =>
      if count > maxInventory ∨ rest.length ≠ count * 36 then
        .error "invalid transaction inventory count, length, or CompactSize"
      else
        match parseVectors count ⟨[], false, false⟩ rest with
        | .error message => .error message
        | .ok (s, _) =>
          if s.groups.all fun g => uniquePositions (positions g) then .ok s.groups.reverse
          else .error "duplicate packed positions"

/-! ## Serializing -/

/-- The positions four by four, the last ones padded. -/
def packedVectors : List Nat → List (List Nat)
  | [] => []
  | [a] => [[a, padding, padding, padding]]
  | [a, b] => [[a, b, padding, padding]]
  | [a, b, c] => [[a, b, c, padding]]
  | a :: b :: c :: d :: rest => [a, b, c, d] :: packedVectors rest

def appendVector (slots : List Nat) : List UInt8 :=
  appendUnsigned 4 msgUtreexoProofHash ++ slots.flatMap (appendUnsigned 8)

def appendGroup (group : T) : List UInt8 :=
  appendUnsigned 4 (inventoryType group) ++ (StoredHash.bytes (txid group) ++
    (packedVectors (positions group)).flatMap appendVector)

/-- The vectors of the groups so far and of those to come, or the check that failed. -/
def countVectors : Nat → List T → Except String Nat
  | count, [] => .ok count
  | count, group :: groups =>
    if !attachable T (inventoryType group) then .error "invalid Utreexo transaction request type"
    else if (positions group).length > positionLimit T then .error "too many packed positions"
    else
      let count := count + (1 + ((positions group).length + 3) / 4)
      if count > maxInventory then .error "too many transaction inventory vectors" else countVectors count groups

def serializeGroups (groups : List T) (maxPayloadBytes : Nat) : Except String (List UInt8) :=
  if groups.length > maxInventory then .error "too many transaction inventory groups"
  else
    match countVectors 0 groups with
    | .error message => .error message
    | .ok count =>
      if compactSizeBytes count + count * 36 > min maxPayloadBytes maxInventoryPayload then
        .error "transaction inventory payload exceeds maximum"
      else if groups.all fun g => uniquePositions (positions g) then
        .ok (appendCompactSize count ++ groups.flatMap appendGroup)
      else .error "duplicate or reserved packed position"

/-! ## The round trip -/

omit [StoredHash H] in
theorem countVectors_eq {count total : Nat} {groups : List T} (h : countVectors count groups = .ok total) :
    total = count + (groups.map fun g => 1 + ((positions g).length + 3) / 4).sum ∧
      ∀ g ∈ groups, attachable T (inventoryType g) = true ∧ (positions g).length ≤ positionLimit T := by
  induction groups generalizing count with
  | nil =>
    cases h
    simp
  | cons group groups ih =>
    rw [countVectors] at h
    by_cases htype : attachable T (inventoryType group) = true
    swap
    · simp [htype] at h
    rw [if_neg (by simpa using htype)] at h
    split_ifs at h with hlen
    simp only at h
    split_ifs at h with hcount
    obtain ⟨htotal, hall⟩ := ih h
    refine ⟨by rw [htotal, List.map_cons, List.sum_cons]; omega, fun g hg => ?_⟩
    rcases List.mem_cons.mp hg with rfl | hg
    · exact ⟨htype, by omega⟩
    · exact hall g hg

theorem parses_lift {α : Type} {result : Except String α} {value : α} (h : result = .ok value) :
    Parses (lift result) [] value := by
  intro rest
  rw [h]
  rfl

omit [StoredHash H] in
theorem packedPositions_append {a b c d : Nat} (ha : a < 2 ^ 64) (hb : b < 2 ^ 64) (hc : c < 2 ^ 64) (hd : d < 2 ^ 64) :
    packedPositions ([a, b, c, d].flatMap (appendUnsigned 8)) = [a, b, c, d] := by
  have hvalue : ∀ x, x < 2 ^ 64 → valueOf (appendUnsigned 8 x) = x := fun x hx =>
    valueOf_appendUnsigned 8 x (by omega)
  have hlen : ∀ x, (appendUnsigned 8 x).length = 8 := fun x => length_appendUnsigned 8 x
  have htake : ∀ (x : Nat) (rest : List UInt8), (appendUnsigned 8 x ++ rest).take 8 = appendUnsigned 8 x :=
    fun x rest => List.take_left' (hlen x)
  have hdrop : ∀ (x : Nat) (rest : List UInt8), (appendUnsigned 8 x ++ rest).drop 8 = rest :=
    fun x rest => List.drop_left' (hlen x)
  have hdrop2 : ∀ l : List UInt8, l.drop 16 = (l.drop 8).drop 8 := fun l => by rw [List.drop_drop]
  have hdrop3 : ∀ l : List UInt8, l.drop 24 = ((l.drop 8).drop 8).drop 8 := fun l => by rw [List.drop_drop, List.drop_drop]
  have hlast : (appendUnsigned 8 d).take 8 = appendUnsigned 8 d := List.take_of_length_le (by rw [hlen])
  simp only [packedPositions, List.flatMap_cons, List.flatMap_nil, List.append_nil, hdrop2, hdrop3, hdrop, htake, hlast,
    hvalue a ha, hvalue b hb, hvalue c hc, hvalue d hd]

theorem parses_vector {count : Nat} {s s' : GroupState T} {a b c d : Nat} (hattach : s.attachable = true)
    (hpad : s.padded = false) (ha : a < 2 ^ 64) (hb : b < 2 ^ 64) (hc : c < 2 ^ 64) (hd : d < 2 ^ 64)
    (htake : takeSlots 0 [a, b, c, d] s = .ok s') {bytes : List UInt8} {result : GroupState T}
    (hrest : Parses (parseVectors count s') bytes result) :
    Parses (parseVectors (count + 1) s) (appendVector [a, b, c, d] ++ bytes) result := by
  have hlen : ([a, b, c, d].flatMap (appendUnsigned 8)).length = 32 := by simp
  have hslots : Reads (readBytes 32) ([a, b, c, d].flatMap (appendUnsigned 8)) ([a, b, c, d].flatMap (appendUnsigned 8)) := by
    have := reads_bytes ([a, b, c, d].flatMap (appendUnsigned 8))
    rwa [hlen] at this
  rw [parseVectors, appendVector, List.append_assoc]
  refine (parses_reading (reads_unsigned (by decide))).bind ?_
  refine (parses_reading hslots).bind ?_
  refine (parses_lift ?_).bind_nil hrest
  rw [takeVector, if_pos rfl, hattach, hpad, packedPositions_append ha hb hc hd]
  exact htake

omit [StoredHash H] in
theorem takeSlots_position {slot pos : Nat} {rest : List Nat} {g : T} {gs : List T} {type : Nat} {id : H} {ps : List Nat}
    (hg : g = make type id ps) (hpos : pos ≠ padding) (hroom : ps.length < positionLimit T) :
    takeSlots slot (pos :: rest) ⟨g :: gs, true, false⟩ =
      takeSlots (slot + 1) rest ⟨make type id (ps ++ [pos]) :: gs, true, false⟩ := by
  subst hg
  rw [takeSlots, if_neg hpos]
  simp only [Bool.false_eq_true, if_false, positions_make]
  rw [if_neg (by omega), make_make]

omit [StoredHash H] in
theorem takeSlots_padding {slot : Nat} (hslot : slot ≠ 0) (rest : List Nat) (gs : List T) (p : Bool) :
    takeSlots slot (padding :: rest) ⟨gs, true, p⟩ = takeSlots (slot + 1) rest ⟨gs, true, true⟩ := by
  rw [takeSlots, if_pos rfl, if_neg hslot]

theorem parses_positions (qs : List Nat) {count : Nat} {type : Nat} {id : H} {ps : List Nat} {gs : List T}
    (hfits : ∀ q ∈ qs, q < 2 ^ 64) (hpos : ∀ q ∈ qs, q ≠ padding) (hroom : ps.length + qs.length ≤ positionLimit T)
    {bytes : List UInt8} {result : GroupState T}
    (hrest : Parses (parseVectors count ⟨make type id (ps ++ qs) :: gs, true, qs.length % 4 ≠ 0⟩) bytes result) :
    Parses (parseVectors (count + (qs.length + 3) / 4) ⟨make type id ps :: gs, true, false⟩)
      ((packedVectors qs).flatMap appendVector ++ bytes) result := by
  have hpad : padding < 2 ^ 64 := by decide
  induction qs using packedVectors.induct generalizing ps with
  | case1 => simpa [packedVectors] using hrest
  | case2 a =>
    rw [show count + ([a].length + 3) / 4 = count + 1 from by simp]
    simp only [packedVectors, List.flatMap_cons, List.flatMap_nil, List.append_nil]
    refine parses_vector rfl rfl (hfits a (by simp)) hpad hpad hpad ?_ hrest
    rw [takeSlots_position rfl (hpos a (by simp)) (by simp at hroom; omega), takeSlots_padding (by omega),
      takeSlots_padding (by omega), takeSlots_padding (by omega)]
    rfl
  | case3 a b =>
    rw [show count + ([a, b].length + 3) / 4 = count + 1 from by simp]
    simp only [packedVectors, List.flatMap_cons, List.flatMap_nil, List.append_nil]
    refine parses_vector rfl rfl (hfits a (by simp)) (hfits b (by simp)) hpad hpad ?_ hrest
    rw [takeSlots_position rfl (hpos a (by simp)) (by simp at hroom; omega),
      takeSlots_position rfl (hpos b (by simp)) (by simp at hroom ⊢; omega), takeSlots_padding (by omega),
      takeSlots_padding (by omega)]
    simp [takeSlots]
  | case4 a b c =>
    rw [show count + ([a, b, c].length + 3) / 4 = count + 1 from by simp]
    simp only [packedVectors, List.flatMap_cons, List.flatMap_nil, List.append_nil]
    refine parses_vector rfl rfl (hfits a (by simp)) (hfits b (by simp)) (hfits c (by simp)) hpad ?_ hrest
    rw [takeSlots_position rfl (hpos a (by simp)) (by simp at hroom; omega),
      takeSlots_position rfl (hpos b (by simp)) (by simp at hroom ⊢; omega),
      takeSlots_position rfl (hpos c (by simp)) (by simp at hroom ⊢; omega), takeSlots_padding (by omega)]
    simp [takeSlots]
  | case5 a b c d rest ih =>
    have hlen : count + ((a :: b :: c :: d :: rest).length + 3) / 4 = count + (rest.length + 3) / 4 + 1 := by
      simp only [List.length_cons]
      omega
    rw [packedVectors, List.flatMap_cons, List.append_assoc, hlen]
    have htake : takeSlots 0 [a, b, c, d] ⟨make type id ps :: gs, true, false⟩ =
        .ok (⟨make type id (ps ++ [a, b, c, d]) :: gs, true, false⟩ : GroupState T) := by
      rw [takeSlots_position rfl (hpos a (by simp)) (by simp at hroom; omega),
        takeSlots_position rfl (hpos b (by simp)) (by simp at hroom ⊢; omega),
        takeSlots_position rfl (hpos c (by simp)) (by simp at hroom ⊢; omega),
        takeSlots_position rfl (hpos d (by simp)) (by simp at hroom ⊢; omega)]
      simp [takeSlots]
    refine parses_vector rfl rfl (hfits a (by simp)) (hfits b (by simp)) (hfits c (by simp)) (hfits d (by simp)) htake ?_
    refine ih (fun q hq => hfits q (by simp [hq])) (fun q hq => hpos q (by simp [hq])) ?_ ?_
    · simp only [List.length_append, List.length_cons, List.length_nil] at hroom ⊢
      omega
    · have hmod : (a :: b :: c :: d :: rest).length % 4 = rest.length % 4 := by
        simp only [List.length_cons]
        omega
      rw [hmod] at hrest
      simpa using hrest

theorem parses_group {count : Nat} {g : T} {s : GroupState T} (htype : attachable T (inventoryType g) = true)
    (hfits : ∀ q ∈ positions g, q < 2 ^ 64) (hpos : ∀ q ∈ positions g, q ≠ padding)
    (hroom : (positions g).length ≤ positionLimit T) {bytes : List UInt8} {result : GroupState T}
    (hrest : Parses (parseVectors count ⟨g :: s.groups, true, (positions g).length % 4 ≠ 0⟩) bytes result) :
    Parses (parseVectors (count + ((positions g).length + 3) / 4 + 1) s) (appendGroup g ++ bytes) result := by
  obtain ⟨hne, hlt⟩ := attachable_ne (T := T) (inventoryType g) htype
  have hhash : Reads (readBytes 32) (StoredHash.bytes (txid g)) (StoredHash.bytes (txid g)) := by
    have := reads_bytes (StoredHash.bytes (txid g))
    rwa [StoredHash.length_bytes] at this
  have hstart : takeVector (inventoryType g) (StoredHash.bytes (txid g)) s =
      .ok ⟨make (inventoryType g) (txid g) [] :: s.groups, true, false⟩ := by
    rw [takeVector, if_neg hne, if_pos htype, StoredHash.ofBytes_bytes]
  rw [parseVectors, appendGroup, List.append_assoc, List.append_assoc]
  refine (parses_reading (reads_unsigned (by omega))).bind ?_
  refine (parses_reading hhash).bind ?_
  refine (parses_lift hstart).bind_nil ?_
  refine parses_positions (positions g) hfits hpos (by simpa using hroom) ?_
  rw [List.nil_append, make_fields]
  exact hrest

theorem parses_groups (groups : List T) {s : GroupState T}
    (hall : ∀ g ∈ groups, attachable T (inventoryType g) = true ∧ (positions g).length ≤ positionLimit T)
    (hfits : ∀ g ∈ groups, ∀ q ∈ positions g, q < 2 ^ 64) (hpos : ∀ g ∈ groups, ∀ q ∈ positions g, q ≠ padding) :
    ∃ s', Parses (parseVectors (groups.map fun g => 1 + ((positions g).length + 3) / 4).sum s)
      (groups.flatMap appendGroup) s' ∧ s'.groups = groups.reverse ++ s.groups := by
  induction groups generalizing s with
  | nil => exact ⟨s, parses_pure s, rfl⟩
  | cons g groups ih =>
    obtain ⟨htype, hroom⟩ := hall g (by simp)
    obtain ⟨s', hparses, hgroups⟩ := ih (s := ⟨g :: s.groups, true, (positions g).length % 4 ≠ 0⟩)
      (fun x hx => hall x (by simp [hx])) (fun x hx => hfits x (by simp [hx])) fun x hx => hpos x (by simp [hx])
    refine ⟨s', ?_, by rw [hgroups, List.reverse_cons, List.append_assoc, List.singleton_append]⟩
    rw [List.flatMap_cons, List.map_cons, List.sum_cons, Nat.add_comm (1 + _), Nat.add_comm 1, ← Nat.add_assoc]
    exact parses_group htype (hfits g (by simp)) (hpos g (by simp)) hroom hparses

theorem length_appendGroup (g : T) : (appendGroup g).length = 36 * (1 + ((positions g).length + 3) / 4) := by
  have hvectors : ∀ qs, ((packedVectors qs).flatMap appendVector).length = 36 * ((qs.length + 3) / 4) := by
    intro qs
    induction qs using packedVectors.induct with
    | case1 => rfl
    | case5 a b c d rest ih =>
      rw [packedVectors, List.flatMap_cons, List.length_append, ih]
      simp only [appendVector, List.length_append, List.flatMap_cons, List.flatMap_nil, length_appendUnsigned,
        List.length_cons, List.length_nil]
      omega
    | _ => simp [packedVectors, appendVector]
  rw [appendGroup, List.length_append, List.length_append, length_appendUnsigned, StoredHash.length_bytes, hvectors]
  omega

theorem length_appendGroups (groups : List T) : (groups.flatMap appendGroup).length =
    (groups.map fun g => 1 + ((positions g).length + 3) / 4).sum * 36 := by
  induction groups with
  | nil => rfl
  | cons g groups ih =>
    rw [List.flatMap_cons, List.length_append, length_appendGroup, ih, List.map_cons, List.sum_cons]
    omega

theorem parseGroups_serializeGroups {groups : List T} {maxPayloadBytes : Nat} {payload : List UInt8}
    (hfits : ∀ g ∈ groups, ∀ q ∈ positions g, q < 2 ^ 64) (h : serializeGroups groups maxPayloadBytes = .ok payload) :
    parseGroups payload maxPayloadBytes = .ok groups := by
  rw [serializeGroups] at h
  cases htotal : countVectors 0 groups with
  | error message =>
    rw [htotal] at h
    split_ifs at h
  | ok total =>
    rw [htotal] at h
    simp only at h
    split_ifs at h with hcount hbytes hunique
    cases h
    obtain ⟨hsum, hall⟩ := countVectors_eq htotal
    rw [Nat.zero_add] at hsum
    have hpos : ∀ g ∈ groups, ∀ q ∈ positions g, q ≠ padding := by
      intro g hg q hq hpad
      have := List.all_eq_true.mp hunique g hg
      simp only [uniquePositions, Bool.and_eq_true, decide_eq_true_eq] at this
      exact this.1 (hpad ▸ hq)
    obtain ⟨s, hparses, hgroups⟩ := parses_groups groups (s := ⟨[], false, false⟩) hall hfits hpos
    rw [List.append_nil] at hgroups
    have hlen : (groups.flatMap appendGroup).length = total * 36 := by rw [length_appendGroups, hsum]
    have hinventory : total ≤ maxInventory := by
      rw [maxInventoryPayload] at hbytes
      have := le_min_iff.mp (Nat.le_of_not_lt hbytes)
      have hpos : 0 < compactSizeBytes total := by unfold compactSizeBytes; split_ifs <;> omega
      omega
    rw [parseGroups, if_neg, reads_compactSize (by have : maxInventory = 50000 := rfl; omega)]
    · simp only
      rw [if_neg (by rw [hlen]; omega), hsum, ← List.append_nil (groups.flatMap appendGroup), hparses []]
      simp only [hgroups, List.reverse_reverse]
      rw [if_pos (by simpa using hunique)]
    · rw [List.length_append, length_appendCompactSize, hlen]
      exact hbytes

/-- The fields have the widths of their types. -/
def TransactionAnnouncement.Fits (g : TransactionAnnouncement H) : Prop := ∀ pos ∈ g.confirmedTargets, pos < 2 ^ 64

def TransactionProofRequest.Fits (g : TransactionProofRequest H) : Prop := ∀ pos ∈ g.proofPositions, pos < 2 ^ 64

/-- **Round trip.** Announcements and requests that are serialized within a limit are parsed back within it. -/
theorem inventory_round_trip (maxPayloadBytes : Nat) (payload : List UInt8) :
    (∀ announcements : List (TransactionAnnouncement H), (∀ g ∈ announcements, g.Fits) →
      serializeGroups announcements maxPayloadBytes = .ok payload →
        parseGroups payload maxPayloadBytes = .ok announcements) ∧
    ∀ requests : List (TransactionProofRequest H), (∀ g ∈ requests, g.Fits) →
      serializeGroups requests maxPayloadBytes = .ok payload →
        parseGroups payload maxPayloadBytes = .ok requests :=
  ⟨fun _ hfits h => parseGroups_serializeGroups hfits h, fun _ hfits h => parseGroups_serializeGroups hfits h⟩

/-- Two groups of one txid, the first with five positions and the second with none. -/
def twoRequests : List (TransactionProofRequest ByteHash) :=
  [⟨leafHash 1, msgUtreexoTx, [7, 0, 5, 2, 9]⟩, ⟨leafHash 1, msgWitnessUtreexoTx, []⟩]

def twoRequestsPayload : List UInt8 := appendCompactSize 4 ++ twoRequests.flatMap appendGroup

theorem inventory_round_trip_two :
    serializeGroups twoRequests 1000 = .ok twoRequestsPayload ∧
      parseGroups twoRequestsPayload 1000 = .ok twoRequests :=
  ⟨by decide +kernel,
    (inventory_round_trip 1000 twoRequestsPayload).2 twoRequests (by simp [twoRequests, TransactionProofRequest.Fits])
      (by decide +kernel)⟩

end UtreexoBridge.Wire
