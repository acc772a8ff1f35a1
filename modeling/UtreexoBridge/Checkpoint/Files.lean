import UtreexoBridge.Checkpoint.Spec
import UtreexoBridge.Online.Sections

/-!
# The bytes of a checkpoint that is read

The header with its chain hashes, the header of the forest and its nodes. The
compactor's own parser takes the same bytes.
-/

namespace UtreexoBridge

open Bytes

variable {H : Type} [StoredHash H] {bytes body rest : List UInt8} {leaves slots : Nat} {roots : List Nat}

/-! ## Nodes with their hashes as bytes -/

abbrev RawNode := NodeRecord (List UInt8)

namespace RawNode

def encode (r : RawNode) : List UInt8 :=
  appendUnsigned 1 r.type.code ++ (r.hash ++ (appendUnsigned 4 r.parent ++ (appendUnsigned 4 r.left ++
    appendUnsigned 4 r.right)))

def value (r : RawNode) : NodeRecord H := ⟨StoredHash.ofBytes r.hash, r.parent, r.left, r.right, r.type⟩

structure Valid (slots : Nat) (r : RawNode) : Prop where
  hash : r.hash.length = 32
  links : linkValid slots r.parent ∧ linkValid slots r.left ∧ linkValid slots r.right
  type : r.type = .free ∨ r.type = .leaf ∨ r.type = .branch

variable {r : RawNode}

theorem Valid.code (h : Valid slots r) : r.type.code < 256 ^ 1 ∧ NodeType.ofCode r.type.code = some r.type := by
  rcases h.type with ht | ht | ht <;> rw [ht] <;> decide

theorem Valid.length_encode (h : Valid slots r) : r.encode.length = recordBytes := by
  simp only [encode, List.length_append, length_appendUnsigned, h.hash]
  rfl

theorem Valid.reads (hslots : slots < noNode) (h : Valid slots r) : Parses (readNode (H := H) slots) r.encode r.value := by
  have hbytes := reads_bytes r.hash
  rw [h.hash] at hbytes
  unfold readNode encode
  refine (parses_reading (reads_unsigned h.code.1)).bind ?_
  refine (parses_reading hbytes).bind ?_
  refine (parses_reading (reads_unsigned (h.links.1.lt hslots))).bind ?_
  refine (parses_reading (reads_unsigned (h.links.2.1.lt hslots))).bind ?_
  refine (parses_reading (reads_unsigned (h.links.2.2.lt hslots))).bind_last ?_
  refine (parses_reading (reads_lift h.code.2)).bind_nil ?_
  exact (parses_require h.links).bind_nil (parses_pure _)

end RawNode

theorem NodeType.code_ofCode {code : Nat} {type : NodeType} (h : NodeType.ofCode code = some type) : type.code = code := by
  unfold NodeType.ofCode at h
  split at h <;> cases h <;> rfl

theorem scans_node (hslots : slots < noNode) :
    Scans (readNode (H := H) slots) (RawNode.Valid slots) RawNode.encode fun r _ => r.value := by
  intro bytes v rest
  constructor
  · intro h
    unfold readNode at h
    obtain ⟨code, more, hcode, h⟩ := Parser.bind_eq_ok.mp h
    obtain ⟨hash, more, hhash, h⟩ := Parser.bind_eq_ok.mp h
    obtain ⟨parent, more, hparent, h⟩ := Parser.bind_eq_ok.mp h
    obtain ⟨left, more, hleft, h⟩ := Parser.bind_eq_ok.mp h
    obtain ⟨right, more, hright, h⟩ := Parser.bind_eq_ok.mp h
    obtain ⟨type, more, htype, h⟩ := Parser.bind_eq_ok.mp h
    obtain ⟨⟨⟩, more, hlinks, h⟩ := Parser.bind_eq_ok.mp h
    cases Parser.pure_eq_ok.mp h
    obtain ⟨-, rfl⟩ := readUnsigned_iff.mp (reading_eq_ok.mp hcode)
    obtain ⟨hlength, rfl⟩ := readBytes_iff.mp (reading_eq_ok.mp hhash)
    obtain ⟨-, rfl⟩ := readUnsigned_iff.mp (reading_eq_ok.mp hparent)
    obtain ⟨-, rfl⟩ := readUnsigned_iff.mp (reading_eq_ok.mp hleft)
    obtain ⟨-, rfl⟩ := readUnsigned_iff.mp (reading_eq_ok.mp hright)
    obtain ⟨hknown, rfl⟩ := lift_eq_some.mp (reading_eq_ok.mp htype)
    obtain ⟨hvalid, hend⟩ := require_eq_ok.mp hlinks
    cases hend
    refine ⟨⟨hash, parent, left, right, type⟩, ⟨hlength, hvalid, ofCode_cases hknown⟩, ?_, rfl⟩
    simp only [RawNode.encode, NodeType.code_ofCode hknown, List.append_assoc]
  · rintro ⟨r, hr, rfl, rfl⟩
    exact hr.reads hslots rest

theorem exists_rawNodes (hslots : slots < noNode) {records : List (NodeRecord H)}
    (h : parseMany (readNode slots) slots body = .ok (records, rest)) :
    ∃ nodes : List RawNode, nodes.length = slots ∧ (∀ r ∈ nodes, r.Valid slots) ∧
      body = nodes.flatMap RawNode.encode ++ rest ∧ records = nodes.map RawNode.value := by
  obtain ⟨nodes, ⟨hlength, hvalid⟩, hbody, hvalues⟩ := ((scans_node hslots).many slots _ _ _).mp h
  rw [valuesOf_const] at hvalues
  exact ⟨nodes, hlength, hvalid, hbody, hvalues⟩

theorem parses_rawNodes (hslots : slots < noNode) {nodes : List RawNode} (hvalid : ∀ r ∈ nodes, r.Valid slots) :
    Parses (parseMany (readNode (H := H) slots) nodes.length) (nodes.flatMap RawNode.encode) (nodes.map RawNode.value) := by
  intro rest
  rw [(scans_node hslots).many nodes.length]
  exact ⟨nodes, ⟨rfl, hvalid⟩, rfl, (valuesOf_const _ _ _).symm⟩

/-! ## The header of the forest -/

def forestHeader (leaves slots : Nat) (roots : List Nat) : List UInt8 :=
  forestMagic ++ (appendUnsigned 4 forestFormatVersion ++ (appendUnsigned 8 leaves ++ (appendUnsigned 8 slots ++
    roots.flatMap (appendUnsigned 4))))

structure ForestHeaderValid (leaves slots : Nat) (roots : List Nat) : Prop where
  leaves_lt : leaves < 256 ^ 8
  slots_lt : slots < noNode
  length_roots : roots.length = 64
  roots_valid : ∀ root ∈ roots, linkValid slots root

theorem readForestRoots_spec (count : Nat) (h : readForestRoots slots count bytes = .ok (roots, rest)) :
    roots.length = count ∧ (∀ root ∈ roots, linkValid slots root) ∧ bytes = roots.flatMap (appendUnsigned 4) ++ rest := by
  induction count generalizing bytes roots with
  | zero =>
    cases Parser.pure_eq_ok.mp h
    exact ⟨rfl, by simp, rfl⟩
  | succ count ih =>
    rw [readForestRoots, Parser.bind_eq_ok] at h
    obtain ⟨root, more, hroot, h⟩ := h
    obtain ⟨⟨⟩, more', hvalid, h⟩ := Parser.bind_eq_ok.mp h
    obtain ⟨others, end', hothers, hpure⟩ := Parser.bind_eq_ok.mp h
    cases Parser.pure_eq_ok.mp hpure
    obtain ⟨hlink, hend⟩ := require_eq_ok.mp hvalid
    cases hend
    obtain ⟨-, rfl⟩ := readUnsigned_iff.mp (reading_eq_ok.mp hroot)
    obtain ⟨hlength, hall, rfl⟩ := ih hothers
    refine ⟨congrArg (· + 1) hlength, List.forall_mem_cons.mpr ⟨hlink, hall⟩, ?_⟩
    rw [List.flatMap_cons, List.append_assoc]

theorem readForestHeader_spec (h : readForestHeader bytes = .ok ((leaves, slots, roots), body)) :
    ForestHeaderValid leaves slots roots ∧ bytes = forestHeader leaves slots roots ++ body := by
  unfold readForestHeader at h
  obtain ⟨magic, more, hmagic, h⟩ := Parser.bind_eq_ok.mp h
  obtain ⟨⟨⟩, more, hknown, h⟩ := Parser.bind_eq_ok.mp h
  obtain ⟨version, more, hversion, h⟩ := Parser.bind_eq_ok.mp h
  obtain ⟨leaves', more, hleaves, h⟩ := Parser.bind_eq_ok.mp h
  obtain ⟨slots', more, hslots, h⟩ := Parser.bind_eq_ok.mp h
  obtain ⟨⟨⟩, more, hsupported, h⟩ := Parser.bind_eq_ok.mp h
  obtain ⟨⟨⟩, more, hfits, h⟩ := Parser.bind_eq_ok.mp h
  obtain ⟨roots', more, hroots, h⟩ := Parser.bind_eq_ok.mp h
  cases Parser.pure_eq_ok.mp h
  obtain ⟨-, rfl⟩ := readBytes_iff.mp (reading_eq_ok.mp hmagic)
  obtain ⟨rfl, hend⟩ := require_eq_ok.mp hknown
  cases hend
  obtain ⟨-, rfl⟩ := readUnsigned_iff.mp (reading_eq_ok.mp hversion)
  obtain ⟨hleaves', rfl⟩ := readUnsigned_iff.mp (reading_eq_ok.mp hleaves)
  obtain ⟨-, rfl⟩ := readUnsigned_iff.mp (reading_eq_ok.mp hslots)
  obtain ⟨rfl, hend⟩ := require_eq_ok.mp hsupported
  cases hend
  obtain ⟨hslots', hend⟩ := require_eq_ok.mp hfits
  cases hend
  obtain ⟨hlength, hvalid, rfl⟩ := readForestRoots_spec 64 hroots
  exact ⟨⟨hleaves', hslots', hlength, hvalid⟩, by simp only [forestHeader, List.append_assoc]⟩

theorem parses_forestHeader (h : ForestHeaderValid leaves slots roots) :
    Parses readForestHeader (forestHeader leaves slots roots) (leaves, slots, roots) := by
  have hroots := reads_forestRoots h.slots_lt h.roots_valid
  rw [h.length_roots] at hroots
  have := h.slots_lt
  have := noNode_lt
  unfold readForestHeader forestHeader
  refine (parses_reading (reads_bytes forestMagic)).bind ?_
  refine (parses_require rfl).bind_nil ?_
  refine (parses_reading (reads_unsigned (by decide))).bind ?_
  refine (parses_reading (reads_unsigned h.leaves_lt)).bind ?_
  refine (parses_reading (reads_unsigned (by norm_num at this ⊢; omega))).bind ?_
  refine (parses_require rfl).bind_nil ?_
  refine (parses_require h.slots_lt).bind_nil ?_
  exact hroots.bind_last (parses_pure _)

/-! ## The header of the checkpoint -/

def rawHeader (height : Nat) (blockHash : List UInt8) (chains : Nat) (chainBytes : List UInt8) : List UInt8 :=
  checkpointMagic ++ (appendUnsigned 4 checkpointFormatVersion ++ (appendUnsigned 4 height ++
    (blockHash ++ (appendUnsigned 8 chains ++ chainBytes))))

structure RawHeaderValid (height : Nat) (blockHash : List UInt8) (chains : Nat) (chainBytes : List UInt8) : Prop where
  height_lt : height < 256 ^ 4
  length_hash : blockHash.length = 32
  chains_lt : chains < 256 ^ 8
  chains_le : chains ≤ height + 1
  length_chains : chainBytes.length = chains * 32

theorem readHash_fixedSize (message : String) : FixedSize (reading message (readHash (H := H))) 32 := by
  intro bytes value rest h
  have hread := reading_eq_ok.mp h
  unfold readHash at hread
  obtain ⟨front, back, hfront, hpure⟩ := Reader.bind_eq_some.mp hread
  cases Reader.pure_eq_some.mp hpure
  obtain ⟨hlength, rfl⟩ := readBytes_iff.mp hfront
  refine ⟨front, hlength, rfl, parses_reading ?_⟩
  have hbytes := reads_bytes front
  rw [hlength] at hbytes
  unfold readHash
  exact hbytes.bind_last (reads_pure _)

variable [DecidableEq H] {point : ChainPoint H} {chainHashes : List H}

theorem readCheckpointHeader_spec (h : readCheckpointHeader bytes = .ok ((point, chainHashes), body)) :
    ∃ height blockHash chains chainBytes, RawHeaderValid height blockHash chains chainBytes ∧
      bytes = rawHeader height blockHash chains chainBytes ++ body ∧
      Parses readCheckpointHeader (rawHeader height blockHash chains chainBytes) (point, chainHashes) := by
  unfold readCheckpointHeader at h
  obtain ⟨magic, more, hmagic, h⟩ := Parser.bind_eq_ok.mp h
  obtain ⟨⟨⟩, more, hknown, h⟩ := Parser.bind_eq_ok.mp h
  obtain ⟨version, more, hversion, h⟩ := Parser.bind_eq_ok.mp h
  obtain ⟨height, more, hheight, h⟩ := Parser.bind_eq_ok.mp h
  obtain ⟨⟨⟩, more, hsupported, h⟩ := Parser.bind_eq_ok.mp h
  obtain ⟨blockHash, more, hhash, h⟩ := Parser.bind_eq_ok.mp h
  obtain ⟨chains, more, hchains, h⟩ := Parser.bind_eq_ok.mp h
  obtain ⟨⟨⟩, more, hcount, h⟩ := Parser.bind_eq_ok.mp h
  obtain ⟨hashes, more, hhashes, h⟩ := Parser.bind_eq_ok.mp h
  obtain ⟨⟨⟩, more, hmatches, h⟩ := Parser.bind_eq_ok.mp h
  cases Parser.pure_eq_ok.mp h
  obtain ⟨hmagicLength, rfl⟩ := readBytes_iff.mp (reading_eq_ok.mp hmagic)
  obtain ⟨rfl, hend⟩ := require_eq_ok.mp hknown
  cases hend
  obtain ⟨-, rfl⟩ := readUnsigned_iff.mp (reading_eq_ok.mp hversion)
  obtain ⟨hheightLt, rfl⟩ := readUnsigned_iff.mp (reading_eq_ok.mp hheight)
  obtain ⟨rfl, hend⟩ := require_eq_ok.mp hsupported
  cases hend
  obtain ⟨hashBytes, hlength, rfl, hhashParses⟩ := readHash_fixedSize _ _ _ _ hhash
  obtain ⟨hchainsLt, rfl⟩ := readUnsigned_iff.mp (reading_eq_ok.mp hchains)
  obtain ⟨hchainsLe, hend⟩ := require_eq_ok.mp hcount
  cases hend
  obtain ⟨chainBytes, hchainLength, rfl, hchainParses⟩ := (readHash_fixedSize _).many _ _ _ _ hhashes
  obtain ⟨hindex, hend⟩ := require_eq_ok.mp hmatches
  cases hend
  refine ⟨height, hashBytes, chains, chainBytes, ⟨hheightLt, hlength, hchainsLt, hchainsLe, hchainLength⟩,
    by simp only [rawHeader, List.append_assoc], ?_⟩
  unfold readCheckpointHeader rawHeader
  refine (parses_reading (reads_bytes checkpointMagic)).bind ?_
  refine (parses_require rfl).bind_nil ?_
  refine (parses_reading (reads_unsigned (by decide))).bind ?_
  refine (parses_reading (reads_unsigned hheightLt)).bind ?_
  refine (parses_require rfl).bind_nil ?_
  refine hhashParses.bind ?_
  refine (parses_reading (reads_unsigned hchainsLt)).bind ?_
  refine (parses_require hchainsLe).bind_nil ?_
  refine hchainParses.bind_last ?_
  exact (parses_require hindex).bind_nil (parses_pure _)

end UtreexoBridge
