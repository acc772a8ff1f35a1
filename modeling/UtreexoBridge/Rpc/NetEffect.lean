import Mathlib.Data.Set.Image
import UtreexoBridge.Bytes.ByteHash
import UtreexoBridge.Rpc.VerboseBlock
import UtreexoBridge.Wire.Uproof

/-!
# The net effect of a block

What a block does to the set of unspent leaves, transaction by transaction, and
that `ParseVerboseBlock` gives the same effect as one list of deletions and one
of additions.
-/

namespace UtreexoBridge.Rpc

open Wire (OutPoint except_bind_iff)

/-! ## Blocks as spends and outputs -/

structure BlockTransaction (H : Type) where
  txid : H
  spends : List (LeafData H)
  outputs : List (Nat × TxOut)

structure UtxoBlock (H : Type) where
  hash : H
  height : Nat
  previous : H
  transactions : List (BlockTransaction H)

section Block

variable {H : Type}

namespace UtxoBlock

variable (block : UtxoBlock H)

/-- The leaf of an output. An output that cannot be spent has none. -/
def outputLeaf (txid : H) (coinbase : Bool) (output : Nat × TxOut) : Option (LeafData H) :=
  if isProvablyUnspendable output.2 then none else some ⟨block.hash, ⟨txid, output.1⟩, block.height, coinbase, output.2⟩

/-- The spendable outputs that a transaction creates. Those of the genesis block are not spendable. -/
def created (coinbase : Bool) (tx : BlockTransaction H) : List (LeafData H) :=
  if block.height = 0 then [] else tx.outputs.filterMap (block.outputLeaf tx.txid coinbase)

/-- A coinbase spends nothing. -/
def spent (coinbase : Bool) (tx : BlockTransaction H) : List (LeafData H) := if coinbase then [] else tx.spends

/-- In creation order. Only the first transaction of a block is a coinbase. -/
def createdBy : Bool → List (BlockTransaction H) → List (LeafData H)
  | _, [] => []
  | coinbase, tx :: txs => block.created coinbase tx ++ createdBy false txs

/-- In input order. -/
def spentBy : Bool → List (BlockTransaction H) → List (LeafData H)
  | _, [] => []
  | coinbase, tx :: txs => spent coinbase tx ++ spentBy false txs

/-- The transactions one by one: each removes its inputs and adds its spendable outputs. -/
def applyTransactions : Bool → List (BlockTransaction H) → Set (LeafData H) → Set (LeafData H)
  | _, [], leaves => leaves
  | coinbase, tx :: txs, leaves =>
    applyTransactions false txs ((leaves \ {leaf | leaf ∈ spent coinbase tx}) ∪ {leaf | leaf ∈ block.created coinbase tx})

def allCreated : List (LeafData H) := block.createdBy true block.transactions

def allSpent : List (LeafData H) := spentBy true block.transactions

def apply (leaves : Set (LeafData H)) : Set (LeafData H) := block.applyTransactions true block.transactions leaves

variable [DecidableEq H]

def unspent : List (LeafData H) := block.allCreated.filter (· ∉ block.allSpent)

def existing : List (LeafData H) := block.allSpent.filter (· ∉ block.allCreated)

/-- Outpoints are distinct. An input spends an output of an earlier transaction, each at most once, or an output that
the block does not create. -/
structure Valid : Prop where
  distinct : (block.allCreated.map (·.outpoint)).Nodup
  spends : ∀ front tx back, block.transactions = front ++ tx :: back → ∀ leaf ∈ spent front.isEmpty tx,
    leaf ∈ block.createdBy true front ∨ leaf.outpoint ∉ block.allCreated.map (·.outpoint)
  once : (block.allSpent.filter (· ∈ block.allCreated)).Nodup

end UtxoBlock

end Block

/-! ## Blocks as JSON -/

section Json

variable {H : Type} [StoredHash H] [DecidableEq H]

/-- The `prevout` of an input that spends an output from before the block. -/
structure DescribesPrevout (resolve : Nat → Except String H) (prevout : UniValue) (leaf : LeafData H) : Prop where
  object : prevout.isObject = true
  height : (prevout.findValue "height").getUint32 = .ok leaf.blockHeight
  height_pos : leaf.blockHeight ≠ 0
  hash : resolve leaf.blockHeight = .ok leaf.blockHash
  output : jsonTxOut prevout = .ok leaf.output
  generated : (prevout.findValue "generated").getBool = .ok leaf.coinbase
  spendable : isBip30UnspendableLeaf leaf.leafHash = false

structure DescribesInput (resolve : Nat → Except String H) (created : List (LeafData H)) (json : UniValue)
    (leaf : LeafData H) : Prop where
  txid : jsonBitcoinHash (json.findValue "txid") "input txid" = .ok leaf.outpoint.txid
  index : (json.findValue "vout").getUint32 = .ok leaf.outpoint.index
  prevout : leaf ∉ created → DescribesPrevout resolve (json.findValue "prevout") leaf

structure DescribesOutput (json : UniValue) (output : Nat × TxOut) : Prop where
  index : (json.findValue "n").getUint32 = .ok output.1
  output : jsonTxOut json = .ok output.2

/-- The inputs of a coinbase are not read. -/
structure DescribesTransaction (resolve : Nat → Except String H) (created : List (LeafData H)) (coinbase : Bool)
    (json : UniValue) (tx : BlockTransaction H) : Prop where
  txid : jsonBitcoinHash (json.findValue "txid") "transaction id" = .ok tx.txid
  inputs : ∃ inputs, json.findValue "vin" = .arr inputs ∧
    (coinbase = false → List.Forall₂ (DescribesInput resolve created) inputs tx.spends)
  outputs : ∃ outputs, json.findValue "vout" = .arr outputs ∧ List.Forall₂ DescribesOutput outputs tx.outputs

def DescribesTransactions (resolve : Nat → Except String H) (created : List (LeafData H)) :
    Bool → List UniValue → List (BlockTransaction H) → Prop
  | _, [], [] => True
  | coinbase, json :: jsons, tx :: txs =>
    DescribesTransaction resolve created coinbase json tx ∧ DescribesTransactions resolve created false jsons txs
  | _, _, _ => False

/-- The value is a well-formed `getblock` result of verbosity 3 for the block. -/
structure DescribesBlock (resolve : Nat → Except String H) (json : UniValue) (block : UtxoBlock H) : Prop where
  object : json.isObject = true
  hash : jsonBitcoinHash (json.findValue "hash") "block hash" = .ok block.hash
  height : (json.findValue "height").getUint32 = .ok block.height
  previous : previousHash json block.height = .ok block.previous
  transactions : ∃ first rest, json.findValue "tx" = .arr (first :: rest) ∧
    DescribesTransactions resolve block.allCreated true (first :: rest) block.transactions

/-! ## One input, one output -/

/-- The projection after `created` and `spent`, in a block that creates `all`. -/
structure Projected (all created spent : List (LeafData H)) (state : Projection H) : Prop where
  additions : state.additions = created.map fun leaf => if leaf ∈ spent then none else some leaf.leafHash
  outputs : ∀ outpoint i, state.sameBlockOutputs outpoint = some i ↔
    ∃ leaf, created[i]? = some leaf ∧ leaf.outpoint = outpoint ∧ leaf ∉ spent
  deletions : state.deletions = (spent.filter (· ∉ all)).map LeafData.leafHash
  proofLeaves : state.proofLeaves = (spent.filter (· ∉ all)).map compactLeaf

variable {resolve : Nat → Except String H} {all created spent : List (LeafData H)} {state : Projection H}

omit [StoredHash H] [DecidableEq H] in
theorem place_unique {leaf leaf' : LeafData H} (h : (created.map (·.outpoint)).Nodup) {i j : Nat}
    (hi : created[i]? = some leaf) (hj : created[j]? = some leaf') (heq : leaf.outpoint = leaf'.outpoint) : i = j := by
  obtain ⟨hlt, -⟩ := List.getElem?_eq_some_iff.mp hi
  refine (List.getElem?_inj (by rwa [List.length_map]) h).mp ?_
  rw [List.getElem?_map, List.getElem?_map, hi, hj, Option.map_some, Option.map_some, heq]

theorem Projected.spendLocal (h : Projected all created spent state) (hdistinct : (created.map (·.outpoint)).Nodup)
    {leaf : LeafData H} {place : Nat} (hleaf : created[place]? = some leaf) (hall : leaf ∈ all) :
    Projected all created (spent ++ [leaf]) { state with
      additions := state.additions.set place none
      sameBlockOutputs := Function.update state.sameBlockOutputs leaf.outpoint none } := by
  have hsame : ∀ {i : Nat} {other : LeafData H}, created[i]? = some other → other = leaf → i = place := by
    intro i other hi heq
    exact place_unique hdistinct hi hleaf (by rw [heq])
  have hfilter : (spent ++ [leaf]).filter (· ∉ all) = spent.filter (· ∉ all) := by
    rw [List.filter_append, List.filter_singleton, decide_eq_false (not_not.mpr hall), cond_false, List.append_nil]
  refine ⟨?_, ?_, ?_, ?_⟩
  · rw [h.additions]
    apply List.ext_getElem?
    intro i
    rw [List.getElem?_set, List.length_map]
    have hlt := (List.getElem?_eq_some_iff.mp hleaf).1
    by_cases hi : place = i
    · subst hi
      rw [if_pos rfl, if_pos hlt, List.getElem?_map, hleaf, Option.map_some, if_pos (List.mem_append_right _ (List.mem_singleton_self _))]
    · rw [if_neg hi, List.getElem?_map, List.getElem?_map]
      rcases hother : created[i]? with _ | other
      · rfl
      · have hne : other ≠ leaf := fun heq => hi (hsame hother heq).symm
        simp only [Option.map_some, List.mem_append, List.mem_singleton, hne, or_false]
  · intro outpoint i
    simp only [Function.update_apply, List.mem_append, List.mem_singleton, not_or]
    split_ifs with ho
    · refine iff_of_false (by simp) ?_
      rintro ⟨other, hother, houtpoint, -, hne⟩
      have hi := place_unique hdistinct hother hleaf (by rw [houtpoint, ho])
      rw [hi, hleaf] at hother
      exact hne (Option.some.inj hother).symm
    · rw [h.outputs]
      refine exists_congr fun other => and_congr_right fun _ => and_congr_right fun houtpoint => ?_
      exact ⟨fun hspent => ⟨hspent, fun heq => ho (by rw [← houtpoint, heq])⟩, fun hspent => hspent.1⟩
  · rw [hfilter]
    exact h.deletions
  · rw [hfilter]
    exact h.proofLeaves

theorem Projected.spendExisting (h : Projected all created spent state) {leaf : LeafData H} (hcreated : leaf ∉ created)
    (hall : leaf ∉ all) :
    Projected all created (spent ++ [leaf]) { state with
      deletions := state.deletions ++ [leaf.leafHash], proofLeaves := state.proofLeaves ++ [compactLeaf leaf] } := by
  have hmem : ∀ other ∈ created, (other ∈ spent ++ [leaf] ↔ other ∈ spent) := by
    intro other hother
    rw [List.mem_append, List.mem_singleton]
    exact or_iff_left fun heq => hcreated (heq ▸ hother)
  have hfilter : (spent ++ [leaf]).filter (· ∉ all) = spent.filter (· ∉ all) ++ [leaf] := by
    rw [List.filter_append, List.filter_singleton, decide_eq_true hall, cond_true]
  refine ⟨?_, ?_, ?_, ?_⟩
  · rw [h.additions]
    refine List.map_congr_left fun other hother => ?_
    simp only [hmem other hother]
  · intro outpoint i
    rw [h.outputs]
    refine exists_congr fun other => and_congr_right fun hother => and_congr_right fun _ => not_congr ?_
    exact (hmem other (List.mem_of_getElem? hother)).symm
  · rw [hfilter, List.map_append, h.deletions]
    rfl
  · rw [hfilter, List.map_append, h.proofLeaves]
    rfl

theorem prevoutLeaf_eq {prevout : UniValue} {leaf : LeafData H} (h : DescribesPrevout resolve prevout leaf) :
    prevoutLeaf resolve leaf.outpoint prevout = .ok leaf := by
  unfold prevoutLeaf
  rw [h.object, h.height, h.generated, h.output]
  simp only [Bool.not_true, Bool.false_eq_true, if_false, catching, Except.mapError, bind, Except.bind, pure, Except.pure,
    h.height_pos, h.hash]

theorem Projected.spendInput (h : Projected all created spent state) (hdistinct : (created.map (·.outpoint)).Nodup)
    (hall : ∀ leaf ∈ created, leaf ∈ all) {input : UniValue} {leaf : LeafData H} (hinput : DescribesInput resolve all input leaf)
    (hspends : leaf ∈ created ∧ leaf ∉ spent ∨ leaf.outpoint ∉ all.map (·.outpoint)) :
    ∃ state', spendInput resolve state input = .ok state' ∧ Projected all created (spent ++ [leaf]) state' := by
  unfold Rpc.spendInput
  rw [hinput.txid, hinput.index]
  simp only [bind, Except.bind, catching, Except.mapError]
  rcases hspends with ⟨hcreated, hunspent⟩ | houtpoint
  · obtain ⟨place, hplace⟩ := List.mem_iff_getElem?.mp hcreated
    have hlocal := (h.outputs leaf.outpoint place).mpr ⟨leaf, hplace, rfl, hunspent⟩
    rw [hlocal]
    exact ⟨_, rfl, h.spendLocal hdistinct hplace (hall leaf hcreated)⟩
  · have hnew : leaf ∉ all := fun hmem => houtpoint (List.mem_map_of_mem hmem)
    have hnone : state.sameBlockOutputs leaf.outpoint = none := by
      rcases hlocal : state.sameBlockOutputs leaf.outpoint with _ | place
      · rfl
      · obtain ⟨other, hother, heq, -⟩ := (h.outputs _ _).mp hlocal
        exact absurd (List.mem_map.mpr ⟨other, hall other (List.mem_of_getElem? hother), heq⟩) houtpoint
    have hprevout := hinput.prevout hnew
    rw [hnone]
    simp only [prevoutLeaf_eq hprevout, hprevout.spendable, Bool.false_eq_true, if_false]
    exact ⟨_, rfl, h.spendExisting (fun hmem => hnew (hall leaf hmem)) hnew⟩

theorem Projected.createLeaf (h : Projected all created spent state) {leaf : LeafData H}
    (hnew : leaf.outpoint ∉ created.map (·.outpoint)) (hunspent : leaf ∉ spent) :
    Projected all (created ++ [leaf]) spent { state with
      additions := state.additions ++ [some leaf.leafHash]
      sameBlockOutputs :=
        if (state.sameBlockOutputs leaf.outpoint).isSome then state.sameBlockOutputs
        else Function.update state.sameBlockOutputs leaf.outpoint (some state.additions.length) } := by
  have hnone : state.sameBlockOutputs leaf.outpoint = none := by
    rcases hlocal : state.sameBlockOutputs leaf.outpoint with _ | place
    · rfl
    · obtain ⟨other, hother, heq, -⟩ := (h.outputs _ _).mp hlocal
      exact absurd (List.mem_map.mpr ⟨other, List.mem_of_getElem? hother, heq⟩) hnew
  have hlength : state.additions.length = created.length := by rw [h.additions, List.length_map]
  refine ⟨?_, ?_, h.deletions, h.proofLeaves⟩
  · rw [h.additions, List.map_append, List.map_singleton, if_neg hunspent]
  · intro outpoint i
    simp only [hnone, Option.isSome_none, Bool.false_eq_true, if_false, Function.update_apply]
    split_ifs with ho
    · subst ho
      rw [Option.some.injEq, hlength]
      constructor
      · rintro rfl
        exact ⟨leaf, List.getElem?_concat_length, rfl, hunspent⟩
      · rintro ⟨other, hother, heq, -⟩
        rcases Nat.lt_or_ge i created.length with hlt | hge
        · rw [List.getElem?_append_left hlt] at hother
          exact absurd (List.mem_map.mpr ⟨other, List.mem_of_getElem? hother, heq⟩) hnew
        · have hi := (List.getElem?_eq_some_iff.mp hother).1
          rw [List.length_append, List.length_singleton] at hi
          omega
    · rw [h.outputs]
      refine exists_congr fun other => ?_
      rcases Nat.lt_or_ge i created.length with hlt | hge
      · rw [List.getElem?_append_left hlt]
      · refine iff_of_false ?_ ?_
        · rintro ⟨hother, -⟩
          rw [List.getElem?_eq_none hge] at hother
          cases hother
        · rintro ⟨hother, heq, -⟩
          have hi := (List.getElem?_eq_some_iff.mp hother).1
          rw [List.length_append, List.length_singleton] at hi
          rw [show i = created.length by omega, List.getElem?_concat_length] at hother
          cases hother
          exact ho heq.symm

/-! ## One transaction -/

theorem Projected.spendInputs {inputs : List UniValue} {leaves : List (LeafData H)} (h : Projected all created spent state)
    (hdistinct : (created.map (·.outpoint)).Nodup) (hall : ∀ leaf ∈ created, leaf ∈ all)
    (hinputs : List.Forall₂ (DescribesInput resolve all) inputs leaves)
    (hspends : ∀ leaf ∈ leaves, leaf ∈ created ∨ leaf.outpoint ∉ all.map (·.outpoint))
    (honce : ((spent ++ leaves).filter (· ∈ all)).Nodup) :
    ∃ state', inputs.foldlM (Rpc.spendInput resolve) state = .ok state' ∧ Projected all created (spent ++ leaves) state' := by
  induction hinputs generalizing spent state with
  | nil => exact ⟨state, rfl, by rwa [List.append_nil]⟩
  | @cons input leaf inputs leaves hinput _ ih =>
    have hcase : leaf ∈ created ∧ leaf ∉ spent ∨ leaf.outpoint ∉ all.map (·.outpoint) := by
      refine (hspends leaf List.mem_cons_self).imp_left fun hcreated => ⟨hcreated, fun hspent => ?_⟩
      -- it would be spent twice
      rw [List.filter_append, List.nodup_append] at honce
      have hleaf : leaf ∈ all := hall leaf hcreated
      exact honce.2.2 leaf (List.mem_filter.mpr ⟨hspent, by simpa using hleaf⟩) leaf
        (List.mem_filter.mpr ⟨List.mem_cons_self, by simpa using hleaf⟩) rfl
    obtain ⟨next, hstep, hnext⟩ := h.spendInput hdistinct hall hinput hcase
    obtain ⟨last, hrest, hlast⟩ := ih hnext (fun other hother => hspends other (List.mem_cons_of_mem _ hother))
      (by rwa [List.append_assoc, List.singleton_append])
    rw [List.append_assoc, List.singleton_append] at hlast
    refine ⟨last, ?_, hlast⟩
    rw [List.foldlM_cons, hstep]
    exact hrest

theorem Projected.createOutputs (block : UtxoBlock H) (txid : H) (coinbase : Bool) {jsons : List UniValue}
    {outputs : List (Nat × TxOut)} (h : Projected all created spent state)
    (houtputs : List.Forall₂ DescribesOutput jsons outputs)
    (hdistinct : ((created ++ outputs.filterMap (block.outputLeaf txid coinbase)).map (·.outpoint)).Nodup)
    (hunspent : ∀ leaf ∈ outputs.filterMap (block.outputLeaf txid coinbase), leaf ∉ spent) :
    ∃ state', jsons.foldlM (createOutput block.hash txid block.height coinbase) state = .ok state' ∧
      Projected all (created ++ outputs.filterMap (block.outputLeaf txid coinbase)) spent state' := by
  induction houtputs generalizing created state with
  | nil => exact ⟨state, rfl, by rwa [List.filterMap_nil, List.append_nil]⟩
  | @cons json output jsons outputs hjson _ ih =>
    rw [List.foldlM_cons]
    unfold createOutput
    rw [hjson.index, hjson.output]
    simp only [bind, Except.bind, catching, Except.mapError]
    by_cases hspendable : isProvablyUnspendable output.2 = true
    · have hleaf : block.outputLeaf txid coinbase output = none := if_pos hspendable
      rw [List.filterMap_cons_none hleaf] at hdistinct hunspent ⊢
      rw [if_pos hspendable]
      exact ih h hdistinct hunspent
    · have hleaf : block.outputLeaf txid coinbase output =
          some ⟨block.hash, ⟨txid, output.1⟩, block.height, coinbase, output.2⟩ := if_neg hspendable
      rw [List.filterMap_cons_some hleaf] at hdistinct hunspent ⊢
      rw [if_neg hspendable]
      have hnew : (⟨txid, output.1⟩ : OutPoint H) ∉ created.map (·.outpoint) := by
        rw [List.map_append, List.nodup_append] at hdistinct
        exact fun hmem => hdistinct.2.2 _ hmem _ List.mem_cons_self rfl
      have hnext := @Projected.createLeaf H _ _ all created spent state h
        ⟨block.hash, ⟨txid, output.1⟩, block.height, coinbase, output.2⟩ hnew (hunspent _ List.mem_cons_self)
      obtain ⟨last, hrest, hlast⟩ := ih hnext (by rwa [List.append_assoc, List.singleton_append])
        (fun other hother => hunspent other (List.mem_cons_of_mem _ hother))
      rw [List.append_assoc, List.singleton_append] at hlast
      exact ⟨last, hrest, hlast⟩

theorem Projected.transaction (block : UtxoBlock H) {coinbase : Bool} {json : UniValue} {tx : BlockTransaction H}
    (h : Projected all created spent state) (hjson : DescribesTransaction resolve all coinbase json tx)
    (hdistinct : ((created ++ block.created coinbase tx).map (·.outpoint)).Nodup)
    (hall : ∀ leaf ∈ created ++ block.created coinbase tx, leaf ∈ all)
    (hbefore : ∀ leaf ∈ spent, leaf ∈ created ∨ leaf.outpoint ∉ all.map (·.outpoint))
    (hspends : ∀ leaf ∈ UtxoBlock.spent coinbase tx, leaf ∈ created ∨ leaf.outpoint ∉ all.map (·.outpoint))
    (honce : ((spent ++ UtxoBlock.spent coinbase tx).filter (· ∈ all)).Nodup) :
    ∃ state', projectTransaction resolve block.hash block.height coinbase state json = .ok state' ∧
      Projected all (created ++ block.created coinbase tx) (spent ++ UtxoBlock.spent coinbase tx) state' := by
  obtain ⟨inputs, hvin, hinputs⟩ := hjson.inputs
  obtain ⟨outputs, hvout, houtputs⟩ := hjson.outputs
  have hold : ((created.map (·.outpoint))).Nodup := by
    rw [List.map_append, List.nodup_append] at hdistinct
    exact hdistinct.1
  have hspent : ∃ next, Rpc.spendInputs resolve coinbase state inputs = .ok next ∧
      Projected all created (spent ++ UtxoBlock.spent coinbase tx) next := by
    cases coinbase with
    | true => exact ⟨state, rfl, by rwa [UtxoBlock.spent, if_pos rfl, List.append_nil]⟩
    | false =>
      exact h.spendInputs hold (fun leaf hleaf => hall leaf (List.mem_append_left _ hleaf)) (hinputs rfl) hspends honce
  obtain ⟨next, hnext, hprojected⟩ := hspent
  unfold projectTransaction
  rw [hjson.txid, hvin, hvout]
  simp only [bind, Except.bind, hnext]
  by_cases hgenesis : block.height = 0
  · rw [if_pos hgenesis, UtxoBlock.created, if_pos hgenesis, List.append_nil]
    exact ⟨next, rfl, hprojected⟩
  · rw [UtxoBlock.created, if_neg hgenesis] at hdistinct hall ⊢
    rw [if_neg hgenesis]
    refine hprojected.createOutputs block tx.txid coinbase houtputs hdistinct fun leaf hleaf hmem => ?_
    -- what is spent so far was created before, or is not of this block
    have hcase : leaf ∈ created ∨ leaf.outpoint ∉ all.map (·.outpoint) :=
      (List.mem_append.mp hmem).elim (hbefore leaf) (hspends leaf)
    rcases hcase with hcreated | hother
    · rw [List.map_append, List.nodup_append] at hdistinct
      exact hdistinct.2.2 _ (List.mem_map_of_mem hcreated) _ (List.mem_map_of_mem hleaf) rfl
    · exact hother (List.mem_map_of_mem (hall leaf (List.mem_append_right _ hleaf)))

/-! ## All transactions -/

theorem Projected.transactions (block : UtxoBlock H) {coinbase : Bool} {jsons : List UniValue}
    {txs : List (BlockTransaction H)} (h : Projected all created spent state)
    (hjsons : DescribesTransactions resolve all coinbase jsons txs) (hall : all = created ++ block.createdBy coinbase txs)
    (hdistinct : (all.map (·.outpoint)).Nodup)
    (hbefore : ∀ leaf ∈ spent, leaf ∈ created ∨ leaf.outpoint ∉ all.map (·.outpoint))
    (hspends : ∀ front tx back, txs = front ++ tx :: back → ∀ leaf ∈ UtxoBlock.spent (coinbase && front.isEmpty) tx,
      leaf ∈ created ++ block.createdBy coinbase front ∨ leaf.outpoint ∉ all.map (·.outpoint))
    (honce : ((spent ++ UtxoBlock.spentBy coinbase txs).filter (· ∈ all)).Nodup) :
    ∃ state', projectTransactions resolve block.hash block.height coinbase state jsons = .ok state' ∧
      Projected all all (spent ++ UtxoBlock.spentBy coinbase txs) state' := by
  induction txs generalizing coinbase jsons created spent state with
  | nil =>
    cases jsons with
    | nil =>
      rw [UtxoBlock.createdBy, List.append_nil] at hall
      refine ⟨state, rfl, ?_⟩
      rw [UtxoBlock.spentBy, List.append_nil, hall]
      rwa [hall] at h
    | cons json jsons => exact hjsons.elim
  | cons tx txs ih =>
    cases jsons with
    | nil => exact hjsons.elim
    | cons json jsons =>
      obtain ⟨hjson, hrest⟩ := hjsons
      rw [UtxoBlock.createdBy, ← List.append_assoc] at hall
      rw [UtxoBlock.spentBy, ← List.append_assoc] at honce ⊢
      have hfirst : ∀ leaf ∈ UtxoBlock.spent coinbase tx, leaf ∈ created ∨ leaf.outpoint ∉ all.map (·.outpoint) := by
        have hhead := hspends [] tx txs rfl
        rw [UtxoBlock.createdBy, List.append_nil, List.isEmpty_nil, Bool.and_true] at hhead
        exact hhead
      have hnow : ((created ++ block.created coinbase tx).map (·.outpoint)).Nodup := by
        rw [hall, List.map_append, List.nodup_append] at hdistinct
        exact hdistinct.1
      have honceNow : ((spent ++ UtxoBlock.spent coinbase tx).filter (· ∈ all)).Nodup := by
        rw [List.filter_append, List.nodup_append] at honce
        exact honce.1
      obtain ⟨next, hstep, hnext⟩ := h.transaction block hjson hnow
        (fun leaf hleaf => by rw [hall]; exact List.mem_append_left _ hleaf) hbefore hfirst honceNow
      have hlater : ∀ front found back, txs = front ++ found :: back →
          ∀ leaf ∈ UtxoBlock.spent (false && front.isEmpty) found,
            leaf ∈ created ++ block.created coinbase tx ++ block.createdBy false front ∨
              leaf.outpoint ∉ all.map (·.outpoint) := by
        intro front found back hsplit leaf hleaf
        rw [Bool.false_and] at hleaf
        have hall := hspends (tx :: front) found back (by rw [hsplit, List.cons_append]) leaf
        rw [List.isEmpty_cons, Bool.and_false] at hall
        rw [List.append_assoc]
        exact hall hleaf
      obtain ⟨last, hlast, hprojected⟩ := ih hnext hrest hall
        (fun leaf hleaf => ((List.mem_append.mp hleaf).elim (hbefore leaf) (hfirst leaf)).imp_left
          (List.mem_append_left _)) hlater honce
      refine ⟨last, ?_, hprojected⟩
      rw [projectTransactions, hstep]
      exact hlast

/-! ## The set of leaves -/

omit [StoredHash H] in
/-- After a part of the block: what was there or was created, and is not spent. -/
theorem applyTransactions_eq (block : UtxoBlock H) {coinbase : Bool} {txs : List (BlockTransaction H)}
    (leaves : Set (LeafData H)) (hall : all = created ++ block.createdBy coinbase txs)
    (hdistinct : (all.map (·.outpoint)).Nodup)
    (hbefore : ∀ leaf ∈ spent, leaf ∈ created ∨ leaf.outpoint ∉ all.map (·.outpoint))
    (hspends : ∀ front tx back, txs = front ++ tx :: back → ∀ leaf ∈ UtxoBlock.spent (coinbase && front.isEmpty) tx,
      leaf ∈ created ++ block.createdBy coinbase front ∨ leaf.outpoint ∉ all.map (·.outpoint)) :
    block.applyTransactions coinbase txs {leaf | (leaf ∈ leaves ∨ leaf ∈ created) ∧ leaf ∉ spent} =
      {leaf | (leaf ∈ leaves ∨ leaf ∈ all) ∧ leaf ∉ spent ++ UtxoBlock.spentBy coinbase txs} := by
  induction txs generalizing coinbase created spent with
  | nil =>
    rw [UtxoBlock.createdBy, List.append_nil] at hall
    rw [UtxoBlock.applyTransactions, UtxoBlock.spentBy, List.append_nil, hall]
  | cons tx txs ih =>
    rw [UtxoBlock.createdBy, ← List.append_assoc] at hall
    rw [UtxoBlock.applyTransactions, UtxoBlock.spentBy, ← List.append_assoc]
    have hfirst : ∀ leaf ∈ UtxoBlock.spent coinbase tx, leaf ∈ created ∨ leaf.outpoint ∉ all.map (·.outpoint) := by
      have hhead := hspends [] tx txs rfl
      rw [UtxoBlock.createdBy, List.append_nil, List.isEmpty_nil, Bool.and_true] at hhead
      exact hhead
    have hnext : ∀ leaf ∈ spent ++ UtxoBlock.spent coinbase tx,
        leaf ∈ created ∨ leaf.outpoint ∉ all.map (·.outpoint) :=
      fun leaf hleaf => (List.mem_append.mp hleaf).elim (hbefore leaf) (hfirst leaf)
    -- a leaf that is created now is not spent yet
    have hfresh : ∀ leaf ∈ block.created coinbase tx, leaf ∉ spent ++ UtxoBlock.spent coinbase tx := by
      intro leaf hleaf hmem
      have hin : leaf ∈ all := by
        rw [hall]
        exact List.mem_append_left _ (List.mem_append_right _ hleaf)
      rcases hnext leaf hmem with hcreated | hother
      · rw [hall, List.map_append, List.nodup_append, List.map_append, List.nodup_append] at hdistinct
        exact hdistinct.1.2.2 _ (List.mem_map_of_mem hcreated) _ (List.mem_map_of_mem hleaf) rfl
      · exact hother (List.mem_map_of_mem hin)
    have hstep : ({leaf | (leaf ∈ leaves ∨ leaf ∈ created) ∧ leaf ∉ spent} \ {leaf | leaf ∈ UtxoBlock.spent coinbase tx}) ∪
        {leaf | leaf ∈ block.created coinbase tx} =
        {leaf | (leaf ∈ leaves ∨ leaf ∈ created ++ block.created coinbase tx) ∧
          leaf ∉ spent ++ UtxoBlock.spent coinbase tx} := by
      ext leaf
      have hnew := hfresh leaf
      simp only [Set.mem_union, Set.mem_sdiff, Set.mem_ofPred_eq, List.mem_append] at hnew ⊢
      tauto
    rw [hstep]
    refine ih hall (fun leaf hleaf => (hnext leaf hleaf).imp_left (List.mem_append_left _)) ?_
    intro front found back hsplit leaf hleaf
    rw [Bool.false_and] at hleaf
    have hlater := hspends (tx :: front) found back (by rw [hsplit, List.cons_append]) leaf
    rw [List.isEmpty_cons, Bool.and_false] at hlater
    rw [List.append_assoc]
    exact hlater hleaf

omit [StoredHash H] in
theorem apply_eq {block : UtxoBlock H} (hvalid : block.Valid) {leaves : Set (LeafData H)}
    (hnew : ∀ leaf ∈ block.allCreated, leaf ∉ leaves) :
    block.apply leaves = (leaves \ {leaf | leaf ∈ block.existing}) ∪ {leaf | leaf ∈ block.unspent} := by
  have hnothing : {leaf | (leaf ∈ leaves ∨ leaf ∈ ([] : List (LeafData H))) ∧ leaf ∉ ([] : List (LeafData H))} = leaves := by
    ext leaf
    simp
  have happly := @applyTransactions_eq H _ block.allCreated [] [] block true block.transactions leaves
    (List.nil_append _).symm hvalid.distinct (fun leaf hleaf => absurd hleaf List.not_mem_nil)
    (fun front tx back hsplit leaf hleaf => hvalid.spends front tx back hsplit leaf (by rwa [Bool.true_and] at hleaf))
  rw [hnothing, List.nil_append] at happly
  rw [UtxoBlock.apply, happly]
  ext leaf
  have hleaf := hnew leaf
  simp only [UtxoBlock.existing, UtxoBlock.unspent, Set.mem_union, Set.mem_sdiff, Set.mem_ofPred_eq, List.mem_filter,
    decide_eq_true_eq] at hleaf ⊢
  show (leaf ∈ leaves ∨ leaf ∈ block.allCreated) ∧ leaf ∉ block.allSpent ↔ _
  tauto

/-! ## The block -/

/-- **Net effect.** For every well-formed block of valid spends: the additions are the outputs that are created and not
spent in it, the deletions the outputs from before it that it spends, with their compact leaves beside them, and on a
set without the block's own outputs they have the effect of the transactions one by one. On the hashes they have the
same effect unless two of these leaves share a hash. -/
theorem verboseBlock_netEffect {H : Type} [StoredHash H] [DecidableEq H] {resolve : Nat → Except String H}
    {json : UniValue} {block : UtxoBlock H} (hjson : DescribesBlock resolve json block) (hvalid : block.Valid) :
    ∃ delta, parseVerboseBlock json resolve = .ok delta ∧ delta.point = ⟨block.height, block.hash⟩ ∧
      delta.previousBlockHash = block.previous ∧ delta.additions = block.unspent.map LeafData.leafHash ∧
      delta.deletions = block.existing.map LeafData.leafHash ∧ delta.proofLeaves = block.existing.map compactLeaf ∧
      ∀ leaves : Set (LeafData H), (∀ leaf ∈ block.existing, leaf ∈ leaves) → (∀ leaf ∈ block.allCreated, leaf ∉ leaves) →
        (leaves \ {leaf | leaf ∈ block.existing}) ∪ {leaf | leaf ∈ block.unspent} = block.apply leaves ∧
        (Set.InjOn LeafData.leafHash (leaves ∪ {leaf | leaf ∈ block.allCreated}) →
          ((LeafData.leafHash '' leaves) \ {hash | hash ∈ delta.deletions}) ∪ {hash | hash ∈ delta.additions} =
            LeafData.leafHash '' block.apply leaves) := by
  obtain ⟨first, rest, htx, htransactions⟩ := hjson.transactions
  have hstart : Projected block.allCreated [] [] (⟨[], [], [], fun _ => none⟩ : Projection H) := by
    refine ⟨rfl, fun outpoint i => iff_of_false (by simp) ?_, rfl, rfl⟩
    rintro ⟨leaf, hleaf, -⟩
    cases hleaf
  obtain ⟨state, hstate, hprojected⟩ := hstart.transactions block htransactions (List.nil_append _).symm hvalid.distinct
    (fun leaf hleaf => absurd hleaf List.not_mem_nil)
    (fun front tx back hsplit leaf hleaf => hvalid.spends front tx back hsplit leaf (by rwa [Bool.true_and] at hleaf))
    hvalid.once
  rw [List.nil_append] at hprojected
  have hadditions : state.additions.filterMap id = block.unspent.map LeafData.leafHash := by
    rw [hprojected.additions, UtxoBlock.unspent, List.filterMap_map, ← List.filterMap_eq_map, List.filterMap_filter]
    refine List.filterMap_congr fun leaf _ => ?_
    show (if leaf ∈ block.allSpent then none else some leaf.leafHash) = _
    by_cases hspent : leaf ∈ block.allSpent <;> simp [hspent]
  refine ⟨⟨⟨⟨block.height, block.hash⟩, block.previous, state.additions.filterMap id, state.deletions⟩,
    state.proofLeaves⟩, ?_, rfl, rfl, hadditions, hprojected.deletions, hprojected.proofLeaves, ?_⟩
  · unfold parseVerboseBlock
    rw [hjson.object, hjson.hash, hjson.height, htx]
    simp only [Bool.not_true, Bool.false_eq_true, if_false, bind, Except.bind, catching, Except.mapError, hjson.previous,
      hstate]
    rfl
  · intro leaves hexisting hnew
    refine ⟨(apply_eq hvalid hnew).symm, fun hinj => ?_⟩
    rw [apply_eq hvalid hnew, hadditions, hprojected.deletions]
    have hunspent : ∀ leaf ∈ block.unspent, leaf ∈ block.allCreated := fun leaf hleaf => (List.mem_filter.mp hleaf).1
    ext hash
    simp only [Set.mem_union, Set.mem_sdiff, Set.mem_image, Set.mem_ofPred_eq, List.mem_map]
    constructor
    · rintro (⟨⟨leaf, hleaf, rfl⟩, hkept⟩ | ⟨leaf, hleaf, rfl⟩)
      · exact ⟨leaf, Or.inl ⟨hleaf, fun hdeleted => hkept ⟨leaf, hdeleted, rfl⟩⟩, rfl⟩
      · exact ⟨leaf, Or.inr hleaf, rfl⟩
    · rintro ⟨leaf, ⟨hleaf, hkept⟩ | hleaf, rfl⟩
      · refine Or.inl ⟨⟨leaf, hleaf, rfl⟩, ?_⟩
        rintro ⟨other, hother, heq⟩
        have hsame := hinj (Or.inl (hexisting other hother)) (Or.inl hleaf) heq
        exact hkept (hsame ▸ hother)
      · exact Or.inr ⟨leaf, hleaf, rfl⟩

end Json

/-! ## A block that spends its own output and an older one -/

def bitcoinHex (n : Nat) : UniValue := .str (List.replicate 63 48 ++ [UInt8.ofNat (48 + n)])

def sampleOut (amount : String) (members : List (List UInt8 × UniValue)) : UniValue :=
  .obj (members ++ [(ascii "value", .num (ascii amount)), (ascii "scriptPubKey", .obj [(ascii "hex", .str (ascii "51"))])])

def sampleInput (txid : Nat) (members : List (List UInt8 × UniValue)) : UniValue :=
  .obj ([(ascii "txid", bitcoinHex txid), (ascii "vout", .num (ascii "0"))] ++ members)

def samplePrevout : UniValue :=
  sampleOut "0.5" [(ascii "generated", .bool false), (ascii "height", .num (ascii "1"))]

def sampleCoinbase : UniValue := .obj [
  (ascii "txid", bitcoinHex 3), (ascii "vin", .arr [.obj []]),
  (ascii "vout", .arr [sampleOut "1.0" [(ascii "n", .num (ascii "0"))]])]

def sampleSpend : UniValue := .obj [
  (ascii "txid", bitcoinHex 4), (ascii "vin", .arr [sampleInput 3 [], sampleInput 5 [(ascii "prevout", samplePrevout)]]),
  (ascii "vout", .arr [sampleOut "1.5" [(ascii "n", .num (ascii "0"))]])]

def sampleJson : UniValue := .obj [
  (ascii "hash", bitcoinHex 2), (ascii "height", .num (ascii "2")), (ascii "previousblockhash", bitcoinHex 1),
  (ascii "tx", .arr [sampleCoinbase, sampleSpend])]

def sampleResolve : Nat → Except String ByteHash := fun height => .ok (leafHash height)

def coinbaseLeaf : LeafData ByteHash := ⟨leafHash 2, ⟨leafHash 3, 0⟩, 2, true, ⟨100000000, [0x51]⟩⟩

def olderLeaf : LeafData ByteHash := ⟨leafHash 1, ⟨leafHash 5, 0⟩, 1, false, ⟨50000000, [0x51]⟩⟩

def sampleBlock : UtxoBlock ByteHash where
  hash := leafHash 2
  height := 2
  previous := leafHash 1
  transactions := [⟨leafHash 3, [], [(0, ⟨100000000, [0x51]⟩)]⟩,
    ⟨leafHash 4, [coinbaseLeaf, olderLeaf], [(0, ⟨150000000, [0x51]⟩)]⟩]

theorem valid_sampleBlock : sampleBlock.Valid where
  distinct := by decide
  once := by decide
  spends front tx back h leaf hleaf := by
    match front with
    | [] =>
      cases hleaf
    | [first] =>
      simp only [sampleBlock, List.cons_append, List.nil_append, List.cons.injEq] at h
      obtain ⟨rfl, rfl, -⟩ := h
      revert leaf
      decide
    | _ :: _ :: _ => simp [sampleBlock] at h

theorem describes_sampleJson : DescribesBlock sampleResolve sampleJson sampleBlock where
  object := rfl
  hash := by decide +kernel
  height := by decide +kernel
  previous := by decide +kernel
  transactions := by
    refine ⟨sampleCoinbase, [sampleSpend], rfl, ⟨by decide +kernel, ⟨_, rfl, fun h => nomatch h⟩, ⟨_, rfl, ?_⟩⟩,
      ⟨by decide +kernel, ⟨_, rfl, fun _ => ?_⟩, ⟨_, rfl, ?_⟩⟩, trivial⟩
    · exact .cons ⟨by decide +kernel, by decide +kernel⟩ .nil
    · refine .cons ⟨by decide +kernel, by decide +kernel, fun hnew => absurd (by decide) hnew⟩
        (.cons ⟨by decide +kernel, by decide +kernel, fun _ => ?_⟩ .nil)
      exact ⟨rfl, by decide +kernel, by decide, rfl, by decide +kernel, rfl, by decide +kernel⟩
    · exact .cons ⟨by decide +kernel, by decide +kernel⟩ .nil

/-- One output is added and one is deleted, the coinbase's own is neither. -/
theorem netEffect_sampleBlock : ∃ delta, parseVerboseBlock sampleJson sampleResolve = .ok delta ∧
    delta.additions.length = 1 ∧ delta.proofLeaves = [compactLeaf olderLeaf] := by
  obtain ⟨delta, hdelta, -, -, hadditions, -, hleaves, -⟩ := verboseBlock_netEffect describes_sampleJson valid_sampleBlock
  refine ⟨delta, hdelta, ?_, ?_⟩
  · rw [hadditions, List.length_map]
    decide
  · rw [hleaves, show sampleBlock.existing = [olderLeaf] by decide]
    rfl

def spendingLeaf : LeafData ByteHash := ⟨leafHash 2, ⟨leafHash 4, 0⟩, 2, false, ⟨150000000, [0x51]⟩⟩

theorem parse_sampleJson : ∃ delta, parseVerboseBlock sampleJson sampleResolve = .ok delta ∧
    delta.deletions = [olderLeaf].map LeafData.leafHash ∧ delta.additions = [spendingLeaf].map LeafData.leafHash := by
  have hparse : ((parseVerboseBlock sampleJson sampleResolve).toOption.map fun delta => (delta.deletions, delta.additions)) =
      some ([olderLeaf].map LeafData.leafHash, [spendingLeaf].map LeafData.leafHash) := by decide +kernel
  obtain ⟨delta, hdelta, heq⟩ := Option.map_eq_some_iff.mp hparse
  obtain ⟨hdeletions, hadditions⟩ := Prod.mk.inj heq
  refine ⟨delta, ?_, hdeletions, hadditions⟩
  cases hresult : parseVerboseBlock sampleJson sampleResolve with
  | error message =>
    rw [hresult] at hdelta
    cases hdelta
  | ok delta' =>
    rw [hresult] at hdelta
    exact congrArg Except.ok (Option.some.inj hdelta)

theorem apply_sampleBlock : sampleBlock.apply {coinbaseLeaf, olderLeaf} = {spendingLeaf} := by
  have hfirst : sampleBlock.created true ⟨leafHash 3, [], [(0, ⟨100000000, [0x51]⟩)]⟩ = [coinbaseLeaf] := by decide
  have hsecond : sampleBlock.created false
      ⟨leafHash 4, [coinbaseLeaf, olderLeaf], [(0, ⟨150000000, [0x51]⟩)]⟩ = [spendingLeaf] := by decide
  unfold UtxoBlock.apply
  rw [show sampleBlock.transactions = [⟨leafHash 3, [], [(0, ⟨100000000, [0x51]⟩)]⟩,
    ⟨leafHash 4, [coinbaseLeaf, olderLeaf], [(0, ⟨150000000, [0x51]⟩)]⟩] from rfl]
  simp only [UtxoBlock.applyTransactions, UtxoBlock.spent]
  rw [hfirst, hsecond]
  ext leaf
  simp
  tauto

/-- In a set that has the coinbase's output already, the second transaction spends it, and the lists leave it. -/
theorem netEffect_recreated : DescribesBlock sampleResolve sampleJson sampleBlock ∧ sampleBlock.Valid ∧
    (∀ leaf ∈ sampleBlock.existing, leaf ∈ ({coinbaseLeaf, olderLeaf} : Set (LeafData ByteHash))) ∧
    ∃ delta, parseVerboseBlock sampleJson sampleResolve = .ok delta ∧
      delta.deletions = sampleBlock.existing.map LeafData.leafHash ∧
      delta.additions = sampleBlock.unspent.map LeafData.leafHash ∧
      ({coinbaseLeaf, olderLeaf} \ {leaf | leaf ∈ sampleBlock.existing}) ∪ {leaf | leaf ∈ sampleBlock.unspent} ≠
        sampleBlock.apply {coinbaseLeaf, olderLeaf} := by
  have hexisting : sampleBlock.existing = [olderLeaf] := by decide
  have hunspent : sampleBlock.unspent = [spendingLeaf] := by decide
  obtain ⟨delta, hdelta, hdeletions, hadditions⟩ := parse_sampleJson
  rw [hexisting, hunspent]
  refine ⟨describes_sampleJson, valid_sampleBlock, by simp, delta, hdelta, hdeletions, hadditions, fun heq => ?_⟩
  have hleft : coinbaseLeaf ∈ sampleBlock.apply {coinbaseLeaf, olderLeaf} := by
    rw [← heq]
    refine Or.inl ⟨Or.inl rfl, ?_⟩
    rw [Set.mem_ofPred_eq, List.mem_singleton]
    decide
  rw [apply_sampleBlock, Set.mem_singleton_iff] at hleft
  revert hleft
  decide

end UtreexoBridge.Rpc
