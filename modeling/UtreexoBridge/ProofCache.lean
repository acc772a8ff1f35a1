import Mathlib.Algebra.Order.BigOperators.Group.List
import Mathlib.Algebra.Order.Ring.Nat
import Mathlib.Data.List.AList
import UtreexoBridge.Archive.Payload
import UtreexoBridge.TxCache.Spec

/-!
# Recent proofs in memory (`RecentProofCache`)

Every member function holds the mutex while it runs, so a call is one step. The
queue `order` has the keys of the map from the oldest on, and `bytes` counts
what the records take.
-/

namespace UtreexoBridge

structure RecordSizes where
  cachedBlockProof : Nat
  compactLeafData : Nat

/-- `a + b` on `uint64_t`. -/
def add64 (a b : Nat) : Nat := (a + b) % 2 ^ 64

/-- `add` and `add_product` of `ProofBytes`. -/
def addSaturating (bytes amount : Nat) : Nat := if amount > 2 ^ 64 - 1 - bytes then 2 ^ 64 - 1 else bytes + amount

def proofBytes {H : Type} (sizes : RecordSizes) (proof : Proof H) (leaves : List CompactLeafData) : Nat :=
  let bytes := addSaturating sizes.cachedBlockProof (proof.targets.length * 8)
  let bytes := addSaturating bytes (proof.hashes.length * 32)
  let bytes := addSaturating bytes (leaves.length * sizes.compactLeafData)
  leaves.foldl (fun bytes leaf => addSaturating bytes leaf.script.length) bytes

structure RecentProofCache (H : Type) where
  maxBlocks : Nat
  maxBytes : Nat
  order : List H
  entries : AList fun _ : H => CachedBlockProof H
  bytes : Nat
  oversizedSkips : Nat
  tipHeight : Nat

namespace RecentProofCache

variable {H : Type} {sizes : RecordSizes}

def new (maxBlocks maxBytes : Nat) : RecentProofCache H := ⟨maxBlocks, maxBytes, [], ∅, 0, 0, 0⟩

variable (sizes) in
def recordBytes (record : CachedBlockProof H) : Nat := proofBytes sizes record.proof record.leaves

variable (sizes) in
def memory (entries : AList fun _ : H => CachedBlockProof H) : Nat :=
  (entries.entries.map fun e => recordBytes sizes e.2).sum

section Ops

variable [DecidableEq H]

variable (sizes) in
/-- The eviction loop of `Publish`. Each round takes a key off the queue. -/
def evict : Nat → RecentProofCache H → RecentProofCache H
  | 0, c => c
  | fuel + 1, c =>
    match c.order with
    | [] => c
    | oldest :: order =>
      if c.entries.keys.length > c.maxBlocks ∨ c.bytes > c.maxBytes then
        match c.entries.lookup oldest with
        | none => evict fuel { c with order := order }
        | some record =>
          evict fuel { c with
            order := order, bytes := sub64 c.bytes (recordBytes sizes record), entries := c.entries.erase oldest }
      else c

variable (sizes) in
def store (c : RecentProofCache H) (record : CachedBlockProof H) : RecentProofCache H :=
  let hash := record.point.blockHash
  match c.entries.lookup hash with
  | some existing =>
    { c with
      order := c.order.erase hash ++ [hash]
      bytes := add64 (sub64 c.bytes (recordBytes sizes existing)) (recordBytes sizes record)
      entries := c.entries.insert hash record }
  | none =>
    { c with
      order := c.order ++ [hash]
      bytes := add64 c.bytes (recordBytes sizes record)
      entries := c.entries.insert hash record }

variable (sizes) in
/-- `Publish`. `proofLeaves` is a field of the delta. The live records have memory of their own, so there is none for a
record that the address space has no room for beside them. `allocated` is whether it is there otherwise. -/
def publish (c : RecentProofCache H) (delta : BlockDelta H) (proofLeaves : List CompactLeafData) (proof : Proof H)
    (numLeavesBefore : Nat) (allocated : Bool) : Except String Unit × RecentProofCache H :=
  if proof.targets.length ≠ delta.deletions.length ∨ proofLeaves.length ≠ delta.deletions.length then
    (.error "block proof does not align with its deletion leaves", c)
  else if proofBytes sizes proof proofLeaves > c.maxBytes then
    (.ok (), { c with tipHeight := delta.point.height, oversizedSkips := c.oversizedSkips + 1 })
  else if !allocated ∨ memory sizes c.entries + proofBytes sizes proof proofLeaves ≥ 2 ^ 64 then
    (.error "proof cache allocation failed", c)
  else
    let c := c.store sizes ⟨delta.point, proof, proofLeaves, some numLeavesBefore⟩
    let c := { c with tipHeight := delta.point.height }
    (.ok (), c.evict sizes c.order.length)

variable (sizes) in
/-- The loop of `DiscardAfter` over the queue, with the keys that stay in it. -/
def discardOrder (height : Nat) : List H → AList (fun _ : H => CachedBlockProof H) → Nat →
    List H × AList (fun _ : H => CachedBlockProof H) × Nat
  | [], entries, bytes => ([], entries, bytes)
  | hash :: order, entries, bytes =>
    match entries.lookup hash with
    | some record =>
      if record.point.height > height then
        discardOrder height order (entries.erase hash) (sub64 bytes (recordBytes sizes record))
      else
        let (kept, rest) := discardOrder height order entries bytes
        (hash :: kept, rest)
    | none =>
      let (kept, rest) := discardOrder height order entries bytes
      (hash :: kept, rest)

variable (sizes) in
def discardAfter (c : RecentProofCache H) (height : Nat) : RecentProofCache H :=
  let (order, entries, bytes) := discardOrder sizes height c.order c.entries c.bytes
  { c with order := order, entries := entries, bytes := bytes, tipHeight := height }

def setTip (c : RecentProofCache H) (height : Nat) : RecentProofCache H := { c with tipHeight := height }

/-! ## Runs -/

end Ops

inductive Call (H : Type)
  | publish (delta : BlockDelta H) (proofLeaves : List CompactLeafData) (proof : Proof H) (numLeavesBefore : Nat)
      (allocated : Bool)
  | discardAfter (height : Nat)
  | setTip (height : Nat)

section Runs

variable [DecidableEq H]

variable (sizes) in
def call (c : RecentProofCache H) : Call H → RecentProofCache H
  | .publish delta proofLeaves proof numLeavesBefore allocated =>
    (c.publish sizes delta proofLeaves proof numLeavesBefore allocated).2
  | .discardAfter height => c.discardAfter sizes height
  | .setTip height => c.setTip height

variable (sizes) in
/-- The record that each block was last published with, by the callers' count. A block that is skipped as oversized is
not published. -/
def published (c : RecentProofCache H) (latest : H → Option (CachedBlockProof H)) :
    Call H → H → Option (CachedBlockProof H)
  | .publish delta proofLeaves proof numLeavesBefore allocated =>
    match (c.publish sizes delta proofLeaves proof numLeavesBefore allocated).1 with
    | .error _ => latest
    | .ok _ =>
      if proofBytes sizes proof proofLeaves > c.maxBytes then latest
      else Function.update latest delta.point.blockHash (some ⟨delta.point, proof, proofLeaves, some numLeavesBefore⟩)
  | _ => latest

variable (sizes) in
def run : RecentProofCache H → (H → Option (CachedBlockProof H)) → List (Call H) →
    RecentProofCache H × (H → Option (CachedBlockProof H))
  | c, latest, [] => (c, latest)
  | c, latest, e :: calls => run (c.call sizes e) (c.published sizes latest e) calls

end Runs

/-! ## The invariant -/

variable (sizes) in
/-- The queue, the map and the counter agree, and each record is the latest of its block. -/
structure Agrees (c : RecentProofCache H) [DecidableEq H] (latest : H → Option (CachedBlockProof H)) : Prop where
  nodup : c.order.Nodup
  mem_order : ∀ hash, hash ∈ c.order ↔ hash ∈ c.entries
  bytes_eq : c.bytes = memory sizes c.entries
  latest : ∀ hash record, c.entries.lookup hash = some record → latest hash = some record

variable (sizes) in
structure Valid (c : RecentProofCache H) [DecidableEq H] (latest : H → Option (CachedBlockProof H)) : Prop
    extends Agrees sizes c latest where
  bytes_le : c.bytes ≤ c.maxBytes
  count_le : c.entries.keys.length ≤ c.maxBlocks

section Preserved

variable [DecidableEq H] {c : RecentProofCache H} {latest : H → Option (CachedBlockProof H)}
  {entries : AList fun _ : H => CachedBlockProof H} {hash : H} {record : CachedBlockProof H}

variable (sizes) in
theorem memory_erase (h : entries.lookup hash = some record) :
    memory sizes entries = recordBytes sizes record + memory sizes (entries.erase hash) := by
  have hmem : hash ∈ entries.entries.keys := by
    rw [← AList.keys, ← AList.mem_keys, ← AList.lookup_isSome, h]
    rfl
  obtain ⟨found, front, back, -, hentries, herase⟩ := List.exists_of_kerase hmem
  have hfound : found = record := by
    have hin : (⟨hash, found⟩ : Sigma fun _ : H => CachedBlockProof H) ∈ entries.entries := by
      rw [hentries]
      exact List.mem_append_right _ List.mem_cons_self
    have hlookup := (List.mem_dlookup_iff entries.nodupKeys).mpr hin
    rw [← AList.lookup, h] at hlookup
    exact (Option.some.inj hlookup).symm
  show (entries.entries.map fun e => recordBytes sizes e.2).sum =
    recordBytes sizes record + ((entries.entries.kerase hash).map fun e => recordBytes sizes e.2).sum
  rw [herase, hentries, hfound]
  simp only [List.map_append, List.map_cons, List.sum_append, List.sum_cons]
  omega

theorem memory_insert :
    memory sizes (entries.insert hash record) = recordBytes sizes record + memory sizes (entries.erase hash) := rfl

theorem memory_erase_of_lookup_eq_none (h : entries.lookup hash = none) :
    memory sizes (entries.erase hash) = memory sizes entries := by
  show ((entries.entries.kerase hash).map fun e => recordBytes sizes e.2).sum = _
  rw [List.kerase_of_notMem_keys (AList.lookup_eq_none.mp h), memory]

theorem mem_of_lookup (h : entries.lookup hash = some record) : hash ∈ entries := by
  rw [← AList.lookup_isSome, h]
  rfl

theorem sub64_add (a b : Nat) : sub64 (a + b) a = b := by
  rw [sub64, if_pos (by omega), Nat.add_sub_cancel_left]

/-! ### Publish -/

theorem store_of_some {existing : CachedBlockProof H} (h : c.entries.lookup record.point.blockHash = some existing) :
    c.store sizes record = { c with
      order := c.order.erase record.point.blockHash ++ [record.point.blockHash]
      bytes := add64 (sub64 c.bytes (recordBytes sizes existing)) (recordBytes sizes record)
      entries := c.entries.insert record.point.blockHash record } := by
  simp only [store, h]

theorem store_of_none (h : c.entries.lookup record.point.blockHash = none) :
    c.store sizes record = { c with
      order := c.order ++ [record.point.blockHash]
      bytes := add64 c.bytes (recordBytes sizes record)
      entries := c.entries.insert record.point.blockHash record } := by
  simp only [store, h]

theorem store_maxBlocks (record : CachedBlockProof H) : (c.store sizes record).maxBlocks = c.maxBlocks := by
  cases h : c.entries.lookup record.point.blockHash with
  | some existing => rw [store_of_some h]
  | none => rw [store_of_none h]

theorem store_maxBytes (record : CachedBlockProof H) : (c.store sizes record).maxBytes = c.maxBytes := by
  cases h : c.entries.lookup record.point.blockHash with
  | some existing => rw [store_of_some h]
  | none => rw [store_of_none h]

theorem Agrees.store (h : Agrees sizes c latest) (record : CachedBlockProof H)
    (hroom : memory sizes c.entries + recordBytes sizes record < 2 ^ 64) :
    Agrees sizes (c.store sizes record) (Function.update latest record.point.blockHash (some record)) := by
  have hlatest : ∀ hash found, (c.entries.insert record.point.blockHash record).lookup hash = some found →
      Function.update latest record.point.blockHash (some record) hash = some found := by
    intro hash found hfound
    by_cases hhash : hash = record.point.blockHash
    · subst hhash
      rw [AList.lookup_insert] at hfound
      rw [Function.update_self, hfound]
    · rw [AList.lookup_insert_ne hhash] at hfound
      rw [Function.update_of_ne hhash]
      exact h.latest hash found hfound
  cases hlookup : c.entries.lookup record.point.blockHash with
  | some existing =>
    have hmemory := memory_erase sizes hlookup
    rw [store_of_some hlookup]
    refine ⟨?_, fun hash => ?_, ?_, hlatest⟩
    · refine List.nodup_append.mpr ⟨h.nodup.erase _, List.nodup_singleton _, ?_⟩
      rintro a ha b hb rfl
      rw [List.mem_singleton] at hb
      exact ((h.nodup.mem_erase_iff.mp ha).1) hb
    · rw [AList.mem_insert, List.mem_append, List.mem_singleton, h.nodup.mem_erase_iff, h.mem_order]
      have hmem := mem_of_lookup hlookup
      constructor
      · rintro (⟨-, hin⟩ | rfl)
        · exact .inr hin
        · exact .inl rfl
      · rintro (rfl | hin)
        · exact .inr rfl
        · by_cases heq : hash = record.point.blockHash
          · exact .inr heq
          · exact .inl ⟨heq, hin⟩
    · show add64 (sub64 c.bytes (recordBytes sizes existing)) (recordBytes sizes record) = _
      rw [memory_insert, h.bytes_eq, hmemory, sub64_add, add64, Nat.mod_eq_of_lt (by omega), Nat.add_comm]
  | none =>
    have hnew : record.point.blockHash ∉ c.order := by
      rw [h.mem_order]
      exact AList.lookup_eq_none.mp hlookup
    rw [store_of_none hlookup]
    refine ⟨?_, fun hash => ?_, ?_, hlatest⟩
    · refine List.nodup_append.mpr ⟨h.nodup, List.nodup_singleton _, ?_⟩
      rintro a ha b hb rfl
      rw [List.mem_singleton] at hb
      exact hnew (hb ▸ ha)
    · rw [AList.mem_insert, List.mem_append, List.mem_singleton, h.mem_order, or_comm]
    · show add64 c.bytes (recordBytes sizes record) = _
      rw [memory_insert, memory_erase_of_lookup_eq_none hlookup, h.bytes_eq, add64, Nat.mod_eq_of_lt hroom,
        Nat.add_comm]

theorem Agrees.pop (h : Agrees sizes c latest) {order : List H} (horder : c.order = hash :: order)
    (hlookup : c.entries.lookup hash = some record) :
    Agrees sizes { c with
      order := order, bytes := sub64 c.bytes (recordBytes sizes record), entries := c.entries.erase hash } latest := by
  have hnodup := h.nodup
  rw [horder] at hnodup
  obtain ⟨hnotin, hnodup⟩ := List.nodup_cons.mp hnodup
  refine ⟨hnodup, fun key => ?_, ?_, fun key found hfound => ?_⟩
  · rw [AList.mem_erase, ← h.mem_order, horder, List.mem_cons]
    constructor
    · intro hin
      exact ⟨fun heq => hnotin (heq ▸ hin), .inr hin⟩
    · rintro ⟨hne, rfl | hin⟩
      · exact absurd rfl hne
      · exact hin
  · show sub64 c.bytes (recordBytes sizes record) = _
    rw [h.bytes_eq, memory_erase sizes hlookup, sub64_add]
  · apply h.latest key found
    by_cases hkey : key = hash
    · rw [hkey, AList.lookup_erase] at hfound
      cases hfound
    · rwa [AList.lookup_erase_ne hkey] at hfound

theorem Agrees.valid_of_order_nil (h : Agrees sizes c latest) (horder : c.order = []) : Valid sizes c latest := by
  have hentries : c.entries.entries = [] := by
    apply List.map_eq_nil_iff.mp
    apply List.eq_nil_iff_forall_not_mem.mpr
    intro hash hin
    have hqueued := (h.mem_order hash).mpr hin
    rw [horder] at hqueued
    cases hqueued
  refine ⟨h, ?_, ?_⟩
  · rw [h.bytes_eq, memory, hentries]
    exact Nat.zero_le _
  · rw [AList.keys, hentries]
    exact Nat.zero_le _

/-- Every key is in the queue, so the bounds are reached before it is empty. -/
theorem Agrees.evict (h : Agrees sizes c latest) {fuel : Nat} (hfuel : c.order.length ≤ fuel) :
    Valid sizes (c.evict sizes fuel) latest ∧ (c.evict sizes fuel).maxBytes = c.maxBytes ∧
      (c.evict sizes fuel).maxBlocks = c.maxBlocks := by
  induction fuel generalizing c with
  | zero => exact ⟨h.valid_of_order_nil (List.length_eq_zero_iff.mp (by omega)), rfl, rfl⟩
  | succ fuel ih =>
    rw [RecentProofCache.evict]
    split
    · rename_i horder
      exact ⟨h.valid_of_order_nil horder, rfl, rfl⟩
    · rename_i oldest order horder
      split_ifs with hover
      · have hin : oldest ∈ c.entries := by
          rw [← h.mem_order, horder]
          exact List.mem_cons_self
        obtain ⟨record, hlookup⟩ := Option.isSome_iff_exists.mp (AList.lookup_isSome.mpr hin)
        rw [hlookup]
        rw [horder, List.length_cons] at hfuel
        exact ih (h.pop horder hlookup) (by simpa using hfuel)
      · exact ⟨⟨h, by omega, by omega⟩, rfl, rfl⟩

/-! ### Discarding -/

variable (entries) in
def Above (height : Nat) (hash : H) : Prop := ∃ record, entries.lookup hash = some record ∧ height < record.point.height

theorem discardOrder_spec (height : Nat) {order : List H} (hnodup : order.Nodup) {bytes : Nat}
    (hbytes : bytes = memory sizes entries) :
    ∃ order' entries' bytes', discardOrder sizes height order entries bytes = (order', entries', bytes') ∧
      order'.Sublist order ∧ (∀ hash, hash ∈ order' ↔ hash ∈ order ∧ ¬Above entries height hash) ∧
      bytes' = memory sizes entries' ∧ entries'.entries.Sublist entries.entries ∧
      ∀ hash record, entries'.lookup hash = some record ↔
        entries.lookup hash = some record ∧ ¬(hash ∈ order ∧ Above entries height hash) := by
  induction order generalizing entries bytes with
  | nil => exact ⟨[], entries, bytes, rfl, List.Sublist.refl _, by simp, hbytes, List.Sublist.refl _, by simp⟩
  | cons first order ih =>
    obtain ⟨hnotin, hnodup⟩ := List.nodup_cons.mp hnodup
    by_cases habove : Above entries height first
    · obtain ⟨record, hlookup, hlt⟩ := habove
      have hsame : ∀ hash, hash ≠ first → (Above (entries.erase first) height hash ↔ Above entries height hash) := by
        intro hash hne
        rw [Above, Above, AList.lookup_erase_ne hne]
      have herased : sub64 bytes (recordBytes sizes record) = memory sizes (entries.erase first) := by
        rw [hbytes, memory_erase sizes hlookup, sub64_add]
      obtain ⟨order', entries', bytes', hrun, hsub, hmem, hbytes', hless, hentries⟩ := ih hnodup herased
      refine ⟨order', entries', bytes', ?_, hsub.cons _, fun hash => ?_, hbytes', hless.trans (List.kerase_sublist _ _), fun hash found => ?_⟩
      · rw [discardOrder, hlookup]
        exact (if_pos hlt).trans hrun
      · rw [hmem, List.mem_cons]
        by_cases hhash : hash = first
        · subst hhash
          exact ⟨fun hin => absurd hin.1 hnotin, fun hin => absurd ⟨record, hlookup, hlt⟩ hin.2⟩
        · rw [hsame hash hhash, or_iff_right hhash]
      · rw [hentries, List.mem_cons]
        by_cases hhash : hash = first
        · subst hhash
          rw [AList.lookup_erase]
          exact ⟨fun hin => absurd hin.1 nofun, fun hin => absurd ⟨.inl rfl, record, hlookup, hlt⟩ hin.2⟩
        · rw [AList.lookup_erase_ne hhash, hsame hash hhash, or_iff_right hhash]
    · obtain ⟨order', entries', bytes', hrun, hsub, hmem, hbytes', hless, hentries⟩ := ih hnodup hbytes
      refine ⟨first :: order', entries', bytes', ?_, hsub.cons_cons _, fun hash => ?_, hbytes', hless, fun hash found => ?_⟩
      · rw [discardOrder, hrun]
        split
        · rename_i record hlookup
          exact if_neg fun hlt => habove ⟨record, hlookup, hlt⟩
        · rfl
      · rw [List.mem_cons, hmem, List.mem_cons]
        constructor
        · rintro (rfl | ⟨hin, hnot⟩)
          · exact ⟨.inl rfl, habove⟩
          · exact ⟨.inr hin, hnot⟩
        · rintro ⟨rfl | hin, hnot⟩
          · exact .inl rfl
          · exact .inr ⟨hin, hnot⟩
      · rw [hentries, List.mem_cons]
        have hiff : (hash = first ∨ hash ∈ order) ∧ Above entries height hash ↔
            hash ∈ order ∧ Above entries height hash := by
          constructor
          · rintro ⟨rfl | hin, hup⟩
            · exact absurd hup habove
            · exact ⟨hin, hup⟩
          · rintro ⟨hin, hup⟩
            exact ⟨.inr hin, hup⟩
        rw [hiff]

theorem Agrees.discardAfter (h : Agrees sizes c latest) (height : Nat) :
    Agrees sizes (c.discardAfter sizes height) latest ∧
      (c.discardAfter sizes height).entries.entries.Sublist c.entries.entries ∧
      ∀ hash record, (c.discardAfter sizes height).entries.lookup hash = some record ↔
        c.entries.lookup hash = some record ∧ record.point.height ≤ height := by
  obtain ⟨order, entries, bytes, hrun, hsub, hmem, hbytes, hless, hentries⟩ := discardOrder_spec height h.nodup h.bytes_eq
  have hdiscard : c.discardAfter sizes height =
      { c with order := order, entries := entries, bytes := bytes, tipHeight := height } := by
    rw [RecentProofCache.discardAfter, hrun]
  have hlookup : ∀ hash record, entries.lookup hash = some record ↔
      c.entries.lookup hash = some record ∧ record.point.height ≤ height := by
    intro hash record
    rw [hentries]
    apply and_congr_right
    intro hrecord
    have hin := (h.mem_order hash).mpr (mem_of_lookup hrecord)
    constructor
    · intro hkept
      by_contra hup
      exact hkept ⟨hin, record, hrecord, by omega⟩
    · rintro hle ⟨-, found, hfound, hlt⟩
      rw [hrecord] at hfound
      cases hfound
      omega
  rw [hdiscard]
  refine ⟨⟨h.nodup.sublist hsub, fun hash => ?_, hbytes, fun hash record hrecord => ?_⟩, hless, hlookup⟩
  · rw [hmem, h.mem_order, ← AList.lookup_isSome, ← AList.lookup_isSome, Option.isSome_iff_exists,
      Option.isSome_iff_exists]
    constructor
    · rintro ⟨⟨record, hrecord⟩, hnot⟩
      refine ⟨record, (hlookup hash record).mpr ⟨hrecord, ?_⟩⟩
      by_contra hup
      exact hnot ⟨record, hrecord, by omega⟩
    · rintro ⟨record, hrecord⟩
      obtain ⟨hold, hle⟩ := (hlookup hash record).mp hrecord
      refine ⟨⟨record, hold⟩, ?_⟩
      rintro ⟨found, hfound, hlt⟩
      rw [hold] at hfound
      cases hfound
      omega
  · exact h.latest hash record ((hlookup hash record).mp hrecord).1

/-! ### Runs -/

theorem Valid.discardAfter (h : Valid sizes c latest) (height : Nat) :
    Valid sizes (c.discardAfter sizes height) latest := by
  obtain ⟨hagrees, hless, -⟩ := h.toAgrees.discardAfter height
  refine ⟨hagrees, ?_, ?_⟩
  · refine le_trans ?_ h.bytes_le
    rw [hagrees.bytes_eq, h.bytes_eq]
    exact (hless.map _).sum_le_sum fun _ _ => Nat.zero_le _
  · refine le_trans ?_ h.count_le
    exact (hless.map _).length_le

variable (sizes) in
theorem publish_cases (c : RecentProofCache H) (delta : BlockDelta H) (proofLeaves : List CompactLeafData)
    (proof : Proof H) (numLeavesBefore : Nat) (allocated : Bool) :
    (∃ message, c.publish sizes delta proofLeaves proof numLeavesBefore allocated = (.error message, c)) ∨
    (proofBytes sizes proof proofLeaves > c.maxBytes ∧
      c.publish sizes delta proofLeaves proof numLeavesBefore allocated =
        (.ok (), { c with tipHeight := delta.point.height, oversizedSkips := c.oversizedSkips + 1 })) ∨
    (¬proofBytes sizes proof proofLeaves > c.maxBytes ∧
      memory sizes c.entries + proofBytes sizes proof proofLeaves < 2 ^ 64 ∧
      c.publish sizes delta proofLeaves proof numLeavesBefore allocated =
        (.ok (), evict sizes (c.store sizes ⟨delta.point, proof, proofLeaves, some numLeavesBefore⟩).order.length
          { c.store sizes ⟨delta.point, proof, proofLeaves, some numLeavesBefore⟩ with tipHeight := delta.point.height })) := by
  unfold RecentProofCache.publish
  split_ifs with halign hover hroom
  · exact .inl ⟨_, rfl⟩
  · exact .inr (.inl ⟨hover, rfl⟩)
  · exact .inl ⟨_, rfl⟩
  · exact .inr (.inr ⟨hover, by omega, rfl⟩)

theorem Agrees.setTip (h : Agrees sizes c latest) (height : Nat) : Agrees sizes (c.setTip height) latest :=
  ⟨h.nodup, h.mem_order, h.bytes_eq, h.latest⟩

theorem Valid.publish (h : Valid sizes c latest) (delta : BlockDelta H) (proofLeaves : List CompactLeafData)
    (proof : Proof H) (numLeavesBefore : Nat) (allocated : Bool) :
    Valid sizes (c.publish sizes delta proofLeaves proof numLeavesBefore allocated).2
        (c.published sizes latest (.publish delta proofLeaves proof numLeavesBefore allocated)) ∧
      (c.publish sizes delta proofLeaves proof numLeavesBefore allocated).2.maxBlocks = c.maxBlocks ∧
      (c.publish sizes delta proofLeaves proof numLeavesBefore allocated).2.maxBytes = c.maxBytes := by
  rw [RecentProofCache.published]
  obtain ⟨message, heq⟩ | ⟨hover, heq⟩ | ⟨hover, hroom, heq⟩ :=
    c.publish_cases sizes delta proofLeaves proof numLeavesBefore allocated
  · rw [heq]
    exact ⟨h, rfl, rfl⟩
  · rw [heq]
    simp only [if_pos hover]
    exact ⟨⟨⟨h.nodup, h.mem_order, h.bytes_eq, h.latest⟩, h.bytes_le, h.count_le⟩, trivial, trivial⟩
  · rw [heq]
    simp only [if_neg hover]
    have hstored := (h.toAgrees.store ⟨delta.point, proof, proofLeaves, some numLeavesBefore⟩ hroom).setTip delta.point.height
    obtain ⟨hvalid, hbytes, hblocks⟩ := hstored.evict le_rfl
    exact ⟨hvalid, hblocks.trans (store_maxBlocks _), hbytes.trans (store_maxBytes _)⟩

theorem Valid.call (h : Valid sizes c latest) (e : Call H) :
    Valid sizes (c.call sizes e) (c.published sizes latest e) ∧ (c.call sizes e).maxBlocks = c.maxBlocks ∧
      (c.call sizes e).maxBytes = c.maxBytes := by
  cases e with
  | publish delta proofLeaves proof numLeavesBefore allocated =>
    exact h.publish delta proofLeaves proof numLeavesBefore allocated
  | discardAfter height => exact ⟨h.discardAfter height, rfl, rfl⟩
  | setTip height => exact ⟨⟨⟨h.nodup, h.mem_order, h.bytes_eq, h.latest⟩, h.bytes_le, h.count_le⟩, rfl, rfl⟩

variable (sizes) in
theorem valid_new (maxBlocks maxBytes : Nat) : Valid sizes (new maxBlocks maxBytes : RecentProofCache H) fun _ => none where
  nodup := List.nodup_nil
  mem_order _ := by simp [new]
  bytes_eq := rfl
  latest hash record hrecord := by simp [new] at hrecord
  bytes_le := Nat.zero_le _
  count_le := Nat.zero_le _

theorem Valid.run (h : Valid sizes c latest) (calls : List (Call H)) :
    Valid sizes (run sizes c latest calls).1 (run sizes c latest calls).2 ∧
      (run sizes c latest calls).1.maxBlocks = c.maxBlocks ∧ (run sizes c latest calls).1.maxBytes = c.maxBytes := by
  induction calls generalizing c latest with
  | nil => exact ⟨h, rfl, rfl⟩
  | cons e calls ih =>
    obtain ⟨hvalid, hblocks, hbytes⟩ := h.call e
    obtain ⟨hrun, hrunBlocks, hrunBytes⟩ := ih hvalid
    exact ⟨hrun, hrunBlocks.trans hblocks, hrunBytes.trans hbytes⟩

/-- **The cache in every run.** The queue has each key of the map once. The counter is what the records take and stays
within the bound, as their number does. A record is the one that its block was last published with. Directly after
`DiscardAfter` no record is above the height. -/
theorem run_agrees (sizes : RecordSizes) (maxBlocks maxBytes : Nat) (calls : List (Call H)) :
    let (c, latest) := run sizes (new maxBlocks maxBytes : RecentProofCache H) (fun _ => none) calls
    c.order.Perm c.entries.keys ∧ c.order.Nodup ∧
      c.bytes = (c.entries.entries.map fun e => proofBytes sizes e.2.proof e.2.leaves).sum ∧ c.bytes ≤ maxBytes ∧
      c.entries.keys.length ≤ maxBlocks ∧
      (∀ hash record, c.entries.lookup hash = some record → latest hash = some record) ∧
      ∀ height hash record, (c.discardAfter sizes height).entries.lookup hash = some record →
        record.point.height ≤ height := by
  obtain ⟨hvalid, hblocks, hbytes⟩ := (valid_new sizes maxBlocks maxBytes).run calls
  generalize run sizes (new maxBlocks maxBytes : RecentProofCache H) (fun _ => none) calls = s at *
  obtain ⟨c, latest⟩ := s
  refine ⟨?_, hvalid.nodup, hvalid.bytes_eq, hvalid.bytes_le.trans_eq hbytes, hvalid.count_le.trans_eq hblocks,
    hvalid.latest, fun height hash record hrecord => ?_⟩
  · rw [List.perm_ext_iff_of_nodup hvalid.nodup c.entries.keys_nodup]
    intro hash
    rw [hvalid.mem_order, AList.mem_keys]
  · exact (((hvalid.toAgrees.discardAfter height).2.2 hash record).mp hrecord).2

end Preserved

end RecentProofCache

end UtreexoBridge
