import UtreexoBridge.Online.Replay

/-!
# The sealed runs of a directory

Each run extends the one before it, and a snapshot stands for all that came
before. Runs that a snapshot replaced may still be there.
-/

namespace UtreexoBridge

/-! ## From the latest snapshot on -/

section Latest

variable {H : Type} {runs : List (DeltaRun H)} {run : DeltaRun H}

theorem fromLatestSnapshot_snapshot (h : run.state.snapshot = true) : fromLatestSnapshot (runs ++ [run]) = [run] := by
  induction runs with
  | nil => rfl
  | cons first runs ih =>
    rw [List.cons_append, fromLatestSnapshot, if_pos]
    · exact ih
    · rw [List.any_append, Bool.or_eq_true]
      exact Or.inr (by rw [List.any_cons, h]; rfl)

theorem fromLatestSnapshot_push (h : run.state.snapshot = false) :
    fromLatestSnapshot (runs ++ [run]) = fromLatestSnapshot runs ++ [run] := by
  induction runs with
  | nil => rfl
  | cons first runs ih =>
    have hany : (runs ++ [run]).any (·.state.snapshot) = runs.any (·.state.snapshot) := by
      rw [List.any_append, List.any_cons, h, List.any_nil, Bool.or_false, Bool.or_false]
    rw [List.cons_append, fromLatestSnapshot, fromLatestSnapshot, hany]
    split_ifs
    · exact ih
    · rfl

theorem fromLatestSnapshot_ne_nil (h : runs ≠ []) : fromLatestSnapshot runs ≠ [] := by
  induction runs with
  | nil => exact absurd rfl h
  | cons first runs ih =>
    rw [fromLatestSnapshot]
    split_ifs with hany
    · refine ih ?_
      rintro rfl
      cases hany
    · exact List.cons_ne_nil _ _

end Latest

/-! ## Runs that follow one another -/

section Chained

variable {H : Type} [StoredHash H] [DecidableEq H] {base : OnlineBase H} {runs : List (DeltaRun H)} {run : DeltaRun H}
  {deltas : List (Nat × DeltaRun H)} {generation lsn : Nat}

def OnlineBase.chain (base : OnlineBase H) : List H := base.chainHashes.take base.superblock.chainHashCount

/-- The checks of `RecoverDeltas` on one run alone. -/
structure Anchored (base : OnlineBase H) (run : DeltaRun H) : Prop where
  parses : run.state.parseError run.records = none
  generation : run.state.baseGeneration = base.superblock.generation
  physicalBaseLsn : run.state.physicalBaseLsn = base.superblock.baseLsn
  endLsn : base.superblock.baseLsn ≤ run.state.endLsn
  fingerprint : onlineBaseFingerprint base.superblock base.forest.arena = .ok run.state.baseFingerprint
  baseChainCount : run.state.baseChainCount = base.superblock.chainHashCount
  chain : (base.chain ++ run.chainSuffix).getLast? = some run.state.point.blockHash
  based : run.state.chainHashCount = run.state.baseChainCount → run.state.point = base.superblock.point

/-- Runs that lead from the base to a generation and a number of the log. -/
inductive Chained (base : OnlineBase H) : List (DeltaRun H) → Nat → Nat → Prop
  | base : Chained base [] 0 base.superblock.baseLsn
  | snapshot {run : DeltaRun H} (anchored : Anchored base run) (isSnapshot : run.state.snapshot = true) :
      Chained base [run] run.state.generation run.state.endLsn
  | push {runs : List (DeltaRun H)} {generation lsn : Nat} {run : DeltaRun H} (chained : Chained base runs generation lsn)
      (anchored : Anchored base run) (isSnapshot : run.state.snapshot = false)
      (previousGeneration : run.state.previousGeneration = generation)
      (next : run.state.generation = word (generation + 1)) (previousLsn : run.state.previousLsn = lsn) :
      Chained base (runs ++ [run]) run.state.generation run.state.endLsn

/-- The runs over the base. -/
def OnlineBase.overlaid (base : OnlineBase H) (runs : List (DeltaRun H)) : NodeArena H :=
  { base.forest.arena with deltaRuns := runs }

/-- What the runs make of the base. -/
def OnlineBase.sealedView (base : OnlineBase H) (runs : List (DeltaRun H)) : ForestView H :=
  let read := (base.overlaid runs).read
  match runs.getLast? with
  | none => ⟨read, base.superblock.next, base.superblock.roots, base.superblock.numLeaves, base.superblock.point,
      base.chain, base.superblock.baseLsn⟩
  | some run => ⟨read, run.state.next, run.state.roots, run.state.numLeaves, run.state.point,
      base.chain ++ run.chainSuffix, run.state.endLsn⟩

omit [DecidableEq H] in
theorem sealedView_last : base.sealedView (runs ++ [run]) =
    ⟨(base.overlaid (runs ++ [run])).read, run.state.next, run.state.roots, run.state.numLeaves,
      run.state.point, base.chain ++ run.chainSuffix, run.state.endLsn⟩ := by
  unfold OnlineBase.sealedView
  rw [List.getLast?_concat]

omit [DecidableEq H] in
theorem Chained.lsn_eq (h : Chained base runs generation lsn) : (base.sealedView runs).lsn = lsn := by
  cases h with
  | base => rfl
  | snapshot anchored isSnapshot => rfl
  | push chained anchored isSnapshot previousGeneration next previousLsn => rw [sealedView_last]

omit [DecidableEq H] in
theorem Chained.getLast? (h : Chained base runs generation lsn) :
    runs = [] ∧ generation = 0 ∨ ∃ front run, runs = front ++ [run] ∧ run.state.generation = generation := by
  cases h with
  | base => exact Or.inl ⟨rfl, rfl⟩
  | @snapshot run anchored isSnapshot => exact Or.inr ⟨[], run, rfl, rfl⟩
  | @push runs generation lsn run chained anchored isSnapshot previousGeneration next previousLsn =>
    exact Or.inr ⟨runs, run, rfl, rfl⟩

omit [DecidableEq H] in
theorem Chained.anchored (h : Chained base runs generation lsn) : ∀ run ∈ runs, Anchored base run := by
  induction h with
  | base => exact fun run hrun => absurd hrun List.not_mem_nil
  | snapshot anchored isSnapshot =>
    intro other hother
    rw [List.mem_singleton.mp hother]
    exact anchored
  | push chained anchored isSnapshot previousGeneration next previousLsn ih =>
    intro other hother
    rcases List.mem_append.mp hother with hmem | hlast
    · exact ih other hmem
    · rw [List.mem_singleton.mp hlast]
      exact anchored

/-! ## Recovering them -/

def DeltaScan.start (base : OnlineBase H) (s : OpenStore H) : DeltaScan H :=
  ⟨s, base.forest, 0, base.superblock.baseLsn, false⟩

structure DeltaScan.At (base : OnlineBase H) (s : OpenStore H) (runs : List (DeltaRun H)) (generation lsn : Nat)
    (scan : DeltaScan H) : Prop where
  store : ∃ point chainHashes durableLiveNodes,
    scan.store = { s with
      point := point
      chainHashes := chainHashes
      currentLsn := lsn
      durableLsn := lsn
      durableLiveNodes := durableLiveNodes
      deltaGeneration := generation }
  forest : ∃ next roots numLeaves,
    scan.forest = { base.forest with
      arena := { base.forest.arena with next := next, deltaRuns := runs }, roots := roots, numLeaves := numLeaves }
  chain : scan.store.chainHashes.take base.superblock.chainHashCount = base.chain
  view : ForestView.of scan.forest scan.store lsn = base.sealedView runs
  expectedGeneration : scan.expectedGeneration = generation
  expectedLsn : scan.expectedLsn = lsn
  started : scan.started = true ↔ runs ≠ []

omit [StoredHash H] [DecidableEq H] in
theorem take_chain_append (hcount : base.superblock.chainHashCount ≤ base.chainHashes.length) (suffix : List H) :
    (base.chain ++ suffix).take base.superblock.chainHashCount = base.chain :=
  List.take_left' (by rw [OnlineBase.chain, List.length_take, Nat.min_eq_left hcount])

omit [DecidableEq H] in
theorem DeltaScan.at_start (config : OnlineForestConfig) (directory : Directory H) :
    (DeltaScan.start base (base.store config directory)).At base (base.store config directory) [] 0
      base.superblock.baseLsn := by
  refine ⟨⟨_, _, _, rfl⟩, ⟨_, _, _, rfl⟩, ?_, rfl, rfl, rfl, ?_⟩
  · show base.chain.take _ = base.chain
    rw [OnlineBase.chain, List.take_take, Nat.min_self]
  · exact ⟨fun h => absurd h Bool.false_ne_true, fun h => absurd rfl h⟩

omit [DecidableEq H] in
theorem DeltaScan.At.push {s : OpenStore H} {scan : DeltaScan H} (h : scan.At base s runs generation lsn)
    (hcount : base.superblock.chainHashCount ≤ base.chainHashes.length) (hbase : s.base = base.superblock) :
    (scan.push run).At base s (runs ++ [run]) run.state.generation run.state.endLsn := by
  obtain ⟨_, _, _, hstore⟩ := h.store
  obtain ⟨_, _, _, hforest⟩ := h.forest
  have hscan : scan.store.base = base.superblock := by
    rw [hstore]
    exact hbase
  have hchain : scan.recoveredChain run = base.chain ++ run.chainSuffix := by
    rw [DeltaScan.recoveredChain, hscan, h.chain]
  refine ⟨⟨run.state.point, scan.recoveredChain run, run.state.liveNodes, ?_⟩,
    ⟨run.state.next, run.state.roots, run.state.numLeaves, ?_⟩, ?_, ?_, rfl, rfl, ?_⟩
  · unfold DeltaScan.push
    rw [hstore]
  · unfold DeltaScan.push NodeArena.setRecoveredNext NodeArena.appendDeltaRun
    rw [hforest]
  · show (scan.recoveredChain run).take _ = _
    rw [hchain]
    exact take_chain_append hcount _
  · rw [sealedView_last]
    unfold ForestView.of DeltaScan.push NodeArena.setRecoveredNext NodeArena.appendDeltaRun
    rw [hforest, hchain]
    rfl
  · exact ⟨fun _ => by simp, fun _ => rfl⟩

theorem recoverRun_anchored {s : OpenStore H} {scan : DeltaScan H} (h : scan.At base s runs generation lsn)
    (hbase : s.base = base.superblock) (hrun : Anchored base run)
    (hfollows : runs = [] ∧ run.state.snapshot = true ∨
      run.state.snapshot = false ∧ run.state.previousGeneration = generation ∧
        run.state.generation = word (generation + 1) ∧ run.state.previousLsn = lsn) :
    recoverRun run.state.baseFingerprint scan run = .ok (scan.push run) := by
  obtain ⟨_, _, _, hstore⟩ := h.store
  have hscan : scan.store.base = base.superblock := by
    rw [hstore]
    exact hbase
  have hchain : scan.recoveredChain run = base.chain ++ run.chainSuffix := by
    rw [DeltaScan.recoveredChain, hscan, h.chain]
  unfold recoverRun
  dsimp only
  rw [hscan, h.expectedGeneration, h.expectedLsn, hchain, if_neg, if_neg, if_neg, if_neg]
  · rintro (hlast | ⟨hcount, hpoint⟩)
    · exact hlast hrun.chain
    · exact hpoint (hrun.based hcount)
  · rintro ⟨hstarted, hsnapshot⟩
    rcases hfollows with ⟨hnil, -⟩ | ⟨hnot, -⟩
    · exact h.started.mp hstarted hnil
    · rw [hnot] at hsnapshot
      cases hsnapshot
  · rintro ⟨hnot, hbad⟩
    rcases hfollows with ⟨hnil, hsnapshot⟩ | ⟨-, hprevious, hnext, hlsn⟩
    · refine hnot ⟨?_, hsnapshot⟩
      exact Bool.eq_false_iff.mpr fun hstarted => h.started.mp hstarted hnil
    · rcases hbad with hbad | hbad | hbad
      · exact hbad hprevious
      · exact hbad hnext
      · exact hbad hlsn
  · rintro (hbad | hbad | hbad | hbad | hbad)
    · exact hbad hrun.generation
    · exact hbad hrun.physicalBaseLsn
    · exact absurd hrun.endLsn (Nat.not_le_of_lt hbad)
    · exact hbad rfl
    · exact hbad hrun.baseChainCount

theorem Chained.recover (h : Chained base runs generation lsn)
    (hcount : base.superblock.chainHashCount ≤ base.chainHashes.length) {fingerprint : H}
    (hfingerprint : onlineBaseFingerprint base.superblock base.forest.arena = .ok fingerprint)
    (config : OnlineForestConfig) (directory : Directory H) :
    ∃ scan, runs.foldlM (recoverRun fingerprint) (.start base (base.store config directory)) = .ok scan ∧
      scan.At base (base.store config directory) runs generation lsn := by
  have hsame : ∀ {run : DeltaRun H}, Anchored base run → run.state.baseFingerprint = fingerprint := by
    intro run hrun
    have heq := hrun.fingerprint
    rw [hfingerprint] at heq
    exact (Except.ok.inj heq).symm
  induction h with
  | base => exact ⟨_, rfl, DeltaScan.at_start config directory⟩
  | @snapshot run anchored isSnapshot =>
    have hstart : (DeltaScan.start base (base.store config directory)).At base (base.store config directory) [] 0
        base.superblock.baseLsn := DeltaScan.at_start config directory
    have hrun := recoverRun_anchored hstart rfl anchored (Or.inl ⟨rfl, isSnapshot⟩)
    rw [hsame anchored] at hrun
    refine ⟨_, ?_, hstart.push hcount rfl⟩
    rw [List.foldlM_cons, hrun]
    rfl
  | @push runs generation lsn run chained anchored isSnapshot previousGeneration next previousLsn ih =>
    obtain ⟨scan, hscan, hat⟩ := ih
    have hrun := recoverRun_anchored hat rfl anchored (Or.inr ⟨isSnapshot, previousGeneration, next, previousLsn⟩)
    rw [hsame anchored] at hrun
    refine ⟨_, ?_, hat.push hcount rfl⟩
    rw [List.foldlM_append, hscan]
    show (recoverRun fingerprint scan run >>= pure) = _
    rw [hrun]
    rfl

/-! ## Directories -/

/-- The files of a directory are the runs, and what a snapshot among them replaced. -/
structure Stacked (base : OnlineBase H) (deltas : List (Nat × DeltaRun H)) (runs : List (DeltaRun H))
    (generation lsn : Nat) : Prop where
  files : ∃ stale, deltas = (stale ++ runs).map (fun run => (run.state.generation, run)) ∧
    fromLatestSnapshot (stale ++ runs) = runs ∧ ∀ run ∈ stale ++ runs, run.state.parseError run.records = none
  sorted : deltas.Pairwise fun x y => x.1 < y.1
  chained : Chained base runs generation lsn

omit [StoredHash H] [DecidableEq H] in
theorem generation_lt_of_parses {state : DeltaState H} {records : List (Nat × NodeRecord H)}
    (h : state.parseError records = none) : state.previousGeneration < state.generation := by
  unfold DeltaState.parseError at h
  split_ifs at h with hfields
  by_contra hle
  exact hfields (Or.inr (Or.inl (Nat.le_of_not_lt hle)))

omit [DecidableEq H] in
theorem Stacked.generation_le (h : Stacked base deltas runs generation lsn) : ∀ entry ∈ deltas, entry.1 ≤ generation := by
  obtain ⟨stale, rfl, hlatest, -⟩ := h.files
  have hsorted := h.sorted
  rcases h.chained.getLast? with ⟨rfl, rfl⟩ | ⟨front, run, rfl, rfl⟩
  · rw [List.append_nil] at hlatest ⊢
    have hnil : stale = [] := by
      by_contra hne
      exact fromLatestSnapshot_ne_nil hne hlatest
    rw [hnil]
    exact fun entry hentry => absurd hentry List.not_mem_nil
  · rw [← List.append_assoc, List.map_append] at hsorted ⊢
    intro entry hentry
    rcases List.mem_append.mp hentry with hmem | hlast
    · exact Nat.le_of_lt ((List.pairwise_append.mp hsorted).2.2 entry hmem _ (List.mem_singleton.mpr rfl))
    · rw [List.mem_singleton.mp hlast]

omit [StoredHash H] [DecidableEq H] in
theorem openRuns_sorted (directory : Directory H) {prior : Nat} {runs : List (DeltaRun H)}
    (hsorted : (runs.map fun run => (run.state.generation, run)).Pairwise fun x y => x.1 < y.1)
    (hprior : ∀ run ∈ runs, prior < run.state.generation)
    (hparses : ∀ run ∈ runs, run.state.parseError run.records = none) :
    openRuns directory prior (runs.map fun run => (run.state.generation, run)) = .ok runs := by
  induction runs generalizing prior with
  | nil => rfl
  | cons run runs ih =>
    have hlt := hprior run List.mem_cons_self
    rw [List.map_cons] at hsorted ⊢
    obtain ⟨hfirst, hrest⟩ := List.pairwise_cons.mp hsorted
    have hopen : openRuns directory run.state.generation (runs.map fun run => (run.state.generation, run)) = .ok runs :=
      ih hrest (fun other hother => hfirst _ (List.mem_map.mpr ⟨other, hother, rfl⟩))
        fun other hother => hparses other (List.mem_cons_of_mem _ hother)
    rw [openRuns, if_neg (Nat.ne_of_gt hlt), hparses run List.mem_cons_self]
    dsimp only
    rw [if_neg (not_not.mpr rfl), hopen]

omit [DecidableEq H] in
theorem Stacked.assign_eq (h : Stacked base deltas runs generation lsn) (hnew : generation < run.state.generation) :
    OrderedMap.assign deltas run.state.generation run = deltas ++ [(run.state.generation, run)] :=
  OrderedMap.assign_back (fun entry hentry => Nat.lt_of_le_of_lt (h.generation_le entry hentry) hnew) run

omit [DecidableEq H] in
theorem Stacked.sorted_push (h : Stacked base deltas runs generation lsn) (hnew : generation < run.state.generation) :
    (deltas ++ [(run.state.generation, run)]).Pairwise fun x y => x.1 < y.1 := by
  refine List.pairwise_append.mpr ⟨h.sorted, List.pairwise_singleton _ _, fun entry hentry last hlast => ?_⟩
  rw [List.mem_singleton.mp hlast]
  exact Nat.lt_of_le_of_lt (h.generation_le entry hentry) hnew

omit [StoredHash H] [DecidableEq H] in
theorem parses_push {all : List (DeltaRun H)} (h : ∀ other ∈ all, other.state.parseError other.records = none)
    (hrun : run.state.parseError run.records = none) :
    ∀ other ∈ all ++ [run], other.state.parseError other.records = none := by
  intro other hother
  rcases List.mem_append.mp hother with hmem | hlast
  · exact h other hmem
  · rw [List.mem_singleton.mp hlast]
    exact hrun

omit [DecidableEq H] in
theorem Stacked.push (h : Stacked base deltas runs generation lsn) (hrun : Anchored base run)
    (hsnapshot : run.state.snapshot = false) (hprevious : run.state.previousGeneration = generation)
    (hnext : run.state.generation = word (generation + 1)) (hlsn : run.state.previousLsn = lsn) :
    Stacked base (OrderedMap.assign deltas run.state.generation run) (runs ++ [run]) run.state.generation
      run.state.endLsn := by
  have hnew : generation < run.state.generation := hprevious ▸ generation_lt_of_parses hrun.parses
  obtain ⟨stale, hdeltas, hlatest, hparses⟩ := h.files
  rw [h.assign_eq hnew]
  refine ⟨⟨stale, ?_, ?_, ?_⟩, h.sorted_push hnew, h.chained.push hrun hsnapshot hprevious hnext hlsn⟩
  · simp only [hdeltas, List.map_append, List.map_cons, List.map_nil, List.append_assoc]
  · rw [← List.append_assoc, fromLatestSnapshot_push hsnapshot, hlatest]
  · rw [← List.append_assoc]
    exact parses_push hparses hrun.parses

omit [DecidableEq H] in
theorem Stacked.snapshot (h : Stacked base deltas runs generation lsn) (hrun : Anchored base run)
    (hsnapshot : run.state.snapshot = true) (hnew : generation < run.state.generation) :
    Stacked base (OrderedMap.assign deltas run.state.generation run) [run] run.state.generation run.state.endLsn := by
  obtain ⟨stale, hdeltas, -, hparses⟩ := h.files
  rw [h.assign_eq hnew]
  refine ⟨⟨stale ++ runs, ?_, fromLatestSnapshot_snapshot hsnapshot, parses_push hparses hrun.parses⟩,
    h.sorted_push hnew, .snapshot hrun hsnapshot⟩
  simp only [hdeltas, List.map_append, List.map_cons, List.map_nil]

omit [DecidableEq H] in
theorem Stacked.remove (h : Stacked base deltas [run] run.state.generation run.state.endLsn)
    (hsnapshot : run.state.snapshot = true) {obsolete : Nat} (hne : run.state.generation ≠ obsolete) :
    Stacked base (deltas.filter fun entry => entry.1 ≠ obsolete) [run] run.state.generation run.state.endLsn := by
  obtain ⟨stale, hdeltas, -, hparses⟩ := h.files
  refine ⟨⟨stale.filter fun other => other.state.generation ≠ obsolete, ?_, fromLatestSnapshot_snapshot hsnapshot, ?_⟩,
    h.sorted.filter _, h.chained⟩
  · rw [hdeltas, List.map_append, List.map_append, List.filter_append, List.filter_map]
    congr 1
    rw [List.map_singleton, List.filter_cons_of_pos (by simpa using hne), List.filter_nil]
  · intro other hother
    rcases List.mem_append.mp hother with hmem | hlast
    · exact hparses other (List.mem_append_left _ (List.mem_filter.mp hmem).1)
    · exact hparses other (List.mem_append_right _ hlast)

theorem recoverDeltas_stacked {directory : Directory H} (h : Stacked base directory.deltas runs generation lsn)
    (hcount : base.superblock.chainHashCount ≤ base.chainHashes.length) (config : OnlineForestConfig) :
    ∃ s f, recoverDeltas (base.store config directory) base.forest = .ok (s, f) ∧
      (∃ point chainHashes durableLiveNodes, s = { base.store config directory with
        point := point
        chainHashes := chainHashes
        currentLsn := lsn
        durableLsn := lsn
        durableLiveNodes := durableLiveNodes
        deltaGeneration := generation }) ∧
      (∃ next roots numLeaves, f = { base.forest with
        arena := { base.forest.arena with next := next, deltaRuns := runs }, roots := roots, numLeaves := numLeaves }) ∧
      ForestView.of f s lsn = base.sealedView runs := by
  obtain ⟨stale, hdeltas, hlatest, hparses⟩ := h.files
  have hsorted := h.sorted
  rw [hdeltas] at hsorted
  have hpositive : ∀ run ∈ stale ++ runs, 0 < run.state.generation := fun run hrun =>
    Nat.zero_lt_of_lt (generation_lt_of_parses (hparses run hrun))
  have hnames : (base.store config directory).directory.deltas.any (fun entry => entry.1 = 0) = false := by
    show directory.deltas.any _ = false
    rw [hdeltas, List.any_eq_false]
    intro entry hentry
    obtain ⟨run, hrun, rfl⟩ := List.mem_map.mp hentry
    have := hpositive run hrun
    simpa using Nat.ne_of_gt this
  have hopen : openRuns (base.store config directory).directory 0 (base.store config directory).directory.deltas =
      .ok (stale ++ runs) := by
    show openRuns directory 0 directory.deltas = _
    rw [hdeltas]
    exact openRuns_sorted directory hsorted hpositive hparses
  unfold recoverDeltas
  rw [if_neg (by rw [hnames]; decide), hopen]
  cases hall : stale ++ runs with
  | nil =>
    -- nothing was sealed
    obtain ⟨-, rfl⟩ := List.append_eq_nil_iff.mp hall
    obtain ⟨rfl, rfl⟩ : generation = 0 ∧ lsn = base.superblock.baseLsn := by
      rcases h.chained.getLast? with ⟨-, hzero⟩ | ⟨front, run, hruns, -⟩
      · exact ⟨hzero, h.chained.lsn_eq.symm⟩
      · exact absurd hruns.symm (by simp)
    exact ⟨_, _, rfl, ⟨_, _, _, rfl⟩, ⟨_, _, _, rfl⟩, rfl⟩
  | cons first rest =>
    have hne : runs ≠ [] := by
      rw [← hlatest, hall]
      exact fromLatestSnapshot_ne_nil (List.cons_ne_nil _ _)
    obtain ⟨run, hrun⟩ := List.exists_mem_of_ne_nil runs hne
    have hfingerprint := (h.chained.anchored run hrun).fingerprint
    obtain ⟨scan, hscan, hat⟩ := h.chained.recover hcount hfingerprint config directory
    have hprint : onlineBaseFingerprint (base.store config directory).base base.forest.arena =
        .ok run.state.baseFingerprint := hfingerprint
    have hstart : (⟨base.store config directory, base.forest, 0, (base.store config directory).base.baseLsn, false⟩ :
        DeltaScan H) = .start base (base.store config directory) := rfl
    dsimp only
    rw [hprint, ← hall, hlatest, hstart]
    dsimp only
    rw [hscan]
    exact ⟨_, _, rfl, hat.store, hat.forest, hat.view⟩

end Chained

end UtreexoBridge
