import UtreexoBridge.Online.Sealing

/-!
# A forest and its directory

As long as its calls succeed, what an online forest has in memory is what its
directory stands for. A flush may stop anywhere.
-/

namespace UtreexoBridge

open Bytes

section Recoverable

variable {H : Type} [StoredHash H] [DecidableEq H] {base : OnlineBase H} {config : OnlineForestConfig} {highest : Nat}
  {f f' : OpenForest H} {s s' : OpenStore H} {runs : List (DeltaRun H)} {run : DeltaRun H} {files : List (WalFile H)}

/-! ## The invariant -/

def OpenForest.view (f : OpenForest H) (s : OpenStore H) : ForestView H := .of f.toPackedForest s s.currentLsn

/-- Bytes of the log that are whole records. -/
def WholeRecords (H : Type) [StoredHash H] (bytes : List UInt8) : Prop :=
  ∃ records : List (WalTransaction H), (∀ t ∈ records, t.Storable) ∧ bytes = records.flatMap serializeWal

def OpenStore.Whole (s : OpenStore H) : Prop := ∀ segment ∈ s.directory.segments, WholeRecords H segment.2

/-- The directory of `s` stands for `f`. -/
structure Recoverable (base : OnlineBase H) (config : OnlineForestConfig) (highest : Nat) (f : OpenForest H)
    (s : OpenStore H) (files : List (WalFile H)) : Prop where
  online : f.online = some s
  configured : s.config = config
  superblock : s.base = base.superblock
  arena : f.arena.Over base
  durable : Durable base config.undoDepth highest s.directory f.arena.deltaRuns s.deltaGeneration s.durableLsn files
    (f.view s)
  opened : ∀ start, s.walFd = some start → ∃ front file, files = front ++ [file] ∧ file.start = start
  whole : s.Whole

/-- The directory stands for `v`, up to what is in free slots. -/
def Stands (base : OnlineBase H) (config : OnlineForestConfig) (highest : Nat) (d : Directory H) (v : ForestView H) : Prop :=
  ∃ runs generation durable files v',
    Durable base config.undoDepth highest d runs generation durable files v' ∧ v.Same v'

theorem Recoverable.stands (h : Recoverable base config highest f s files) :
    Stands base config highest s.directory (f.view s) := ⟨_, _, _, _, _, h.durable, .refl _⟩

omit [StoredHash H] [DecidableEq H] in
theorem ForestView.Same.trans {v v' v'' : ForestView H} (h : v.Same v') (h' : v'.Same v'') : v.Same v'' := by
  refine ⟨h'.next.trans h.next, h'.roots.trans h.roots, h'.numLeaves.trans h.numLeaves, h'.point.trans h.point,
    h'.chainHashes.trans h.chainHashes, h'.lsn.trans h.lsn, fun id hid => ?_⟩
  rcases h'.read id (by rwa [h.next]) with heq | ⟨hfree, hfree'⟩
  · rw [heq]
    exact h.read id hid
  · rcases h.read id hid with heq | ⟨-, hfree''⟩
    · exact Or.inr ⟨hfree, by rw [← heq]; exact hfree'⟩
    · exact Or.inr ⟨hfree, hfree''⟩

theorem Recoverable.mono (h : Recoverable base config highest f s files) {highest' : Nat} (hle : highest ≤ highest') :
    Recoverable base config highest' f s files :=
  ⟨h.online, h.configured, h.superblock, h.arena, h.durable.mono hle, h.opened, h.whole⟩

/-! ## Runs of the forest -/

theorem Recoverable.baseLsn_le (h : Recoverable base config highest f s files) :
    base.superblock.baseLsn ≤ s.durableLsn := by
  have hchained := h.durable.stacked.chained
  rcases hchained.getLast? with ⟨hnil, -⟩ | ⟨front, run, hruns, -⟩
  · have hlsn := hchained.lsn_eq
    rw [hnil] at hlsn
    exact le_of_eq hlsn
  · have hlsn := hchained.lsn_eq
    have hrun := (hchained.anchored run (by rw [hruns]; exact List.mem_append_right _ (List.mem_singleton.mpr rfl))).endLsn
    rw [hruns, sealedView_last] at hlsn
    exact hlsn ▸ hrun

theorem Recoverable.chain_eq (h : Recoverable base config highest f s files) (hbase : base.Sound) :
    base.chain ++ s.chainHashes.drop base.superblock.chainHashCount = s.chainHashes := by
  have hchain := List.prefix_iff_eq_take.mp h.durable.chain
  rw [hbase.length_chain] at hchain
  conv_lhs => rw [hchain]
  exact List.take_append_drop _ _

theorem Recoverable.describes (h : Recoverable base config highest f s files) (hbase : base.Sound) {snapshot : Bool}
    {count : Nat} {fingerprint : H}
    (hstate : run.state = s.deltaState snapshot s.currentLsn count fingerprint f.arena f.roots f.numLeaves)
    (hsuffix : run.chainSuffix = s.chainHashes.drop run.state.baseChainCount) : run.Describes base (f.view s) := by
  have hnext : f.arena.next < 2 ^ 32 := Nat.lt_of_le_of_lt h.durable.next (by decide)
  have hchain := h.chain_eq hbase
  rw [hstate] at hsuffix
  refine ⟨?_, ?_, ?_, ?_, ?_, ?_⟩
  · rw [hstate]
    exact Nat.mod_eq_of_lt hnext
  · rw [hstate]
    rfl
  · rw [hstate]
    rfl
  · rw [hstate]
    rfl
  · rw [hsuffix]
    unfold OpenStore.deltaState
    rw [h.superblock]
    exact hchain
  · rw [hstate]
    rfl

theorem Recoverable.anchored (h : Recoverable base config highest f s files) (hbase : base.Sound) {snapshot : Bool}
    {count : Nat} {fingerprint : H} (hfingerprint : onlineBaseFingerprint s.base f.arena = .ok fingerprint)
    (hstate : run.state = s.deltaState snapshot s.currentLsn count fingerprint f.arena f.roots f.numLeaves)
    (hsuffix : run.chainSuffix = s.chainHashes.drop run.state.baseChainCount)
    (hparses : run.state.parseError run.records = none) : Anchored base run := by
  have hchain := (h.describes hbase hstate hsuffix).chainHashes
  have htip := h.durable.tip
  have hreached : s.durableLsn ≤ s.currentLsn := by
    have hcovers := h.durable.covers.reached_le
    rw [show (ForestView.redo H).reached (base.sealedView f.arena.deltaRuns) = s.durableLsn from
      h.durable.stacked.chained.lsn_eq] at hcovers
    exact hcovers
  refine ⟨hparses, ?_, ?_, ?_, ?_, ?_, ?_, ?_⟩
  · rw [hstate, ← h.superblock]
    rfl
  · rw [hstate, ← h.superblock]
    rfl
  · rw [hstate]
    exact Nat.le_trans h.baseLsn_le hreached
  · rw [hstate, ← h.arena.fingerprint, ← h.superblock]
    exact hfingerprint
  · rw [hstate, ← h.superblock]
    rfl
  · rw [hchain, hstate]
    exact htip.2
  · intro hcount
    -- the chain is that of the base
    rw [hstate] at hcount ⊢
    have hlength : s.chainHashes.length = base.superblock.chainHashCount := by
      rw [← h.superblock]
      exact hcount
    have hsame : s.chainHashes = base.chain := by
      refine (h.durable.chain.eq_of_length ?_).symm
      rw [hbase.length_chain]
      exact hlength.symm
    have htip' : ChainMatches s.point s.chainHashes := htip
    rw [hsame] at htip'
    show s.point = base.superblock.point
    have hheight : s.point.height = base.superblock.point.height := by
      have := htip'.1.symm.trans hbase.tip.1
      omega
    have hhash : s.point.blockHash = base.superblock.point.blockHash :=
      Option.some.inj (htip'.2.symm.trans hbase.tip.2)
    cases hpoint : s.point
    cases hpoint' : base.superblock.point
    rw [hpoint, hpoint'] at hheight hhash
    dsimp only at hheight hhash
    rw [hheight, hhash]

omit [DecidableEq H] in
theorem view_eq_sealed (hover : f'.arena.Over base) (hruns : f'.arena.deltaRuns = runs ++ [run])
    (hdirty : f'.arena.dirty = ∅) {v : ForestView H} (hrun : run.Describes base v) (hnext : f'.arena.next = v.next)
    (hroots : f'.roots = v.roots) (hleaves : f'.numLeaves = v.numLeaves) (hpoint : s'.point = v.point)
    (hchain : s'.chainHashes = v.chainHashes) (hlsn : s'.currentLsn = v.lsn) :
    f'.view s' = base.sealedView (runs ++ [run]) := by
  rw [sealedView_last]
  unfold OpenForest.view ForestView.of
  rw [hnext, hroots, hleaves, hpoint, hchain, hlsn, hrun.next, hrun.roots, hrun.numLeaves, hrun.point, hrun.chainHashes,
    hrun.endLsn]
  congr 1
  refine (base.overlaid_over (runs ++ [run])).read_eq hover hruns ?_
  rw [hdirty]
  rfl

end Recoverable

end UtreexoBridge
