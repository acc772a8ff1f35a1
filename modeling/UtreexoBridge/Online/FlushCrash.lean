import UtreexoBridge.Online.Recoverable

/-!
# A flush that stops anywhere

`SealDelta` publishes the dirty records, `CompactDeltas` a snapshot, then
obsolete runs and segments go. Behind each step the directory stands for the
forest that was flushed.
-/

namespace UtreexoBridge

open Bytes

section Flush

variable {H : Type} [StoredHash H] [DecidableEq H] {base : OnlineBase H} {config : OnlineForestConfig} {highest : Nat}
  {f f' : OpenForest H} {s s' : OpenStore H} {run : DeltaRun H} {files : List (WalFile H)}
  {a a' : NodeArena H} {roots : Vector Nat 64} {numLeaves : Nat}

/-! ## Runs that a file system which works would publish -/

omit [StoredHash H] in
theorem writeDeltaRun_ok {directory directory' : Directory H} {state : DeltaState H} {chainHashes : List H}
    {records : List (Nat × NodeRecord H)} {io : DeltaIo}
    (hok : writeDeltaRun directory state chainHashes records io = (.ok run, directory')) :
    (run.state = state ∧ run.records = records ∧ run.chainSuffix = chainHashes.drop state.baseChainCount) ∧
      directory' = { directory with deltas := OrderedMap.assign directory.deltas state.generation run } ∧
        state.parseError records = none := by
  have hleft := writeDeltaRun_left directory state chainHashes records io
  rw [hok] at hleft
  cases hleft with
  | published hstate hrecords suffix last confirmed =>
    rcases confirmed with ⟨message, hbad⟩ | ⟨hrun, hparses⟩
    · cases hbad
    · cases hrun
      exact ⟨⟨hstate, hrecords, suffix⟩, rfl, hparses⟩

omit [StoredHash H] [DecidableEq H] in
theorem DeltaRun.eq_of_fields {run run' : DeltaRun H} (hstate : run.state = run'.state)
    (hrecords : run.records = run'.records) (hsuffix : run.chainSuffix = run'.chainSuffix) : run = run' := by
  cases run
  cases run'
  dsimp only at hstate hrecords hsuffix
  subst hstate hrecords hsuffix
  rfl

omit [StoredHash H] in
/-- A run is the same whatever the file system does. -/
theorem writeDeltaRun_unique {directory : Directory H} {state : DeltaState H} {chainHashes : List H}
    {records : List (Nat × NodeRecord H)} {io io' : DeltaIo} {run' : DeltaRun H} {d d' : Directory H}
    (hok : writeDeltaRun directory state chainHashes records io = (.ok run, d))
    (hok' : writeDeltaRun directory state chainHashes records io' = (.ok run', d')) : run = run' ∧ d = d' := by
  obtain ⟨⟨hstate, hrecords, hsuffix⟩, hd, -⟩ := writeDeltaRun_ok hok
  obtain ⟨⟨hstate', hrecords', hsuffix'⟩, hd', -⟩ := writeDeltaRun_ok hok'
  have hrun : run = run' := DeltaRun.eq_of_fields (hstate.trans hstate'.symm) (hrecords.trans hrecords'.symm)
    (hsuffix.trans hsuffix'.symm)
  exact ⟨hrun, by rw [hd, hd', hrun]⟩

def OpenStore.SealParses (s : OpenStore H) (a : NodeArena H) (roots : Vector Nat 64) (numLeaves : Nat) : Prop :=
  ∀ fingerprint, onlineBaseFingerprint s.base a = .ok fingerprint →
    (s.deltaState false s.currentLsn a.sealRecords.length fingerprint a roots numLeaves).parseError a.sealRecords = none

def OpenStore.SnapshotParses (s : OpenStore H) (a : NodeArena H) (roots : Vector Nat 64) (numLeaves : Nat) : Prop :=
  ∀ fingerprint, onlineBaseFingerprint s.base a = .ok fingerprint →
    (s.deltaState true s.durableLsn a.compactRecords.length fingerprint a roots numLeaves).parseError a.compactRecords =
      none

theorem sealDirty_parses {io : DeltaIo} (hok : (s.sealDirty a roots numLeaves io).1 = .ok ()) :
    s.SealParses a roots numLeaves := by
  intro fingerprint hfingerprint
  unfold OpenStore.sealDirty at hok
  rw [hfingerprint] at hok
  dsimp only at hok
  split at hok
  · cases hok
  · rename_i run directory hwrite
    exact (writeDeltaRun_ok hwrite).2.2

theorem sealDirty_unique {io io' : DeltaIo} (hok : (s.sealDirty a roots numLeaves io).1 = .ok ())
    (hok' : (s.sealDirty a roots numLeaves io').1 = .ok ()) :
    s.sealDirty a roots numLeaves io = s.sealDirty a roots numLeaves io' := by
  unfold OpenStore.sealDirty at hok hok' ⊢
  cases hfingerprint : onlineBaseFingerprint s.base a with
  | error message => rfl
  | ok fingerprint =>
    rw [hfingerprint] at hok hok'
    dsimp only at hok hok' ⊢
    split at hok
    · cases hok
    · rename_i run directory hwrite
      split at hok'
      · cases hok'
      · rename_i run' directory' hwrite'
        obtain ⟨rfl, rfl⟩ := writeDeltaRun_unique hwrite hwrite'
        rfl

theorem compactIfDue_parses {io : FlushIo} (hok : (s.compactIfDue a roots numLeaves io).1 = .ok ())
    (hdue : s.compactionDue a = true) : s.SnapshotParses a roots numLeaves := by
  intro fingerprint hfingerprint
  unfold OpenStore.compactIfDue at hok
  rw [if_pos hdue] at hok
  unfold OpenStore.compactDeltas at hok
  rw [hfingerprint] at hok
  dsimp only at hok
  split at hok
  · cases hok
  · rename_i run directory hwrite
    exact (writeDeltaRun_ok hwrite).2.2

/-! ## The seal -/

def OpenForest.flushed (f : OpenForest H) (s : OpenStore H) (a : NodeArena H) : OpenForest H :=
  { f with arena := a, online := some s }

structure Recoverable.Clean (s : OpenStore H) (a : NodeArena H) : Prop where
  dirty : a.dirty = ∅
  durable : s.durableLsn = s.currentLsn

theorem Recoverable.seal (h : Recoverable base config highest f s files) (hbase : base.Sound)
    (hparses : s.SealParses f.arena f.roots f.numLeaves) (io : DeltaIo) :
    Stands base config highest (s.sealDirty f.arena f.roots f.numLeaves io).2.1.directory (f.view s) ∧
      ((s.sealDirty f.arena f.roots f.numLeaves io).1 = .ok () → ∃ s' a',
        s.sealDirty f.arena f.roots f.numLeaves io = (.ok (), s', a') ∧ Recoverable.Clean s' a' ∧
          Recoverable base config highest (f.flushed s' a') s' files ∧ (f.view s).Same ((f.flushed s' a').view s')) := by
  unfold OpenStore.sealDirty
  cases hfingerprint : onlineBaseFingerprint s.base f.arena with
  | error message => exact ⟨h.stands, fun hok => nomatch hok⟩
  | ok fingerprint =>
    dsimp only
    have hparse := hparses fingerprint hfingerprint
    generalize hstate : s.deltaState false s.currentLsn f.arena.sealRecords.length fingerprint f.arena f.roots
      f.numLeaves = state at hparse ⊢
    have hleft := writeDeltaRun_left s.directory state s.chainHashes f.arena.sealRecords io
    generalize writeDeltaRun s.directory state s.chainHashes f.arena.sealRecords io = written at hleft
    cases hleft with
    | refused message => exact ⟨h.stands, fun hok => nomatch hok⟩
    | @published run result hrun hrecords suffix last confirmed =>
      obtain rfl := hrun
      have hdescribes := h.describes hbase hstate.symm suffix
      have hanchored := h.anchored hbase hfingerprint hstate.symm suffix (by rw [hrecords]; exact hparse)
      have hstacked := h.durable.stacked.push hanchored (by rw [← hstate]; rfl) (by rw [← hstate]; rfl)
        (by rw [← hstate]; rfl) (by rw [← hstate]; rfl)
      have hdurable := h.durable.sealed hstacked hdescribes
      have hover : ((f.arena.appendDeltaRun run).clearDirty).Over base := ⟨h.arena.mapped, h.arena.files, h.arena.capacity,
        h.arena.baseNext⟩
      have hsame : (f.view s).Same (base.sealedView (f.arena.deltaRuns ++ [run])) := by
        refine hdescribes.same fun id hid => Or.inl ?_
        have hread : (base.overlaid (f.arena.deltaRuns ++ [run])).read = ((f.arena.appendDeltaRun run).clearDirty).read :=
          hover.read_eq (base.overlaid_over _) rfl rfl
        rw [hread]
        exact NodeArena.read_sealed h.arena.mapped hrecords hid
      have hview : ∀ s' : OpenStore H, s'.point = s.point → s'.chainHashes = s.chainHashes →
          s'.currentLsn = s.currentLsn → (f.flushed s' ((f.arena.appendDeltaRun run).clearDirty)).view s' =
            base.sealedView (f.arena.deltaRuns ++ [run]) := fun s' hpoint hchain hlsn =>
        view_eq_sealed hover rfl rfl hdescribes rfl rfl rfl hpoint hchain hlsn
      rcases confirmed with ⟨message, rfl⟩ | ⟨rfl, -⟩
      · exact ⟨⟨_, _, _, _, _, hdurable, hsame⟩, fun hok => nomatch hok⟩
      · refine ⟨⟨_, _, _, _, _, hdurable, hsame⟩, fun _ => ⟨_, _, rfl, ⟨rfl, hdescribes.endLsn⟩, ⟨rfl, h.configured,
          h.superblock, hover, ?_, h.opened, h.whole⟩, ?_⟩⟩
        · rw [hview]
          · exact hdurable
          all_goals rfl
        · rw [hview]
          · exact hsame
          all_goals rfl

/-! ## The snapshot -/

omit [DecidableEq H] in
theorem removeRuns_stacked (unlinked : Nat → Res) {generations : List Nat} (removed : Bool)
    (hstacked : Stacked base s.directory.deltas [run] run.state.generation run.state.endLsn)
    (hsnapshot : run.state.snapshot = true) (hobsolete : ∀ generation ∈ generations, run.state.generation ≠ generation) :
    ∃ deltas, (s.removeRuns unlinked generations removed).2 = { s with directory := { s.directory with deltas } } ∧
      Stacked base deltas [run] run.state.generation run.state.endLsn := by
  induction generations generalizing s removed with
  | nil => exact ⟨s.directory.deltas, rfl, hstacked⟩
  | cons generation generations ih =>
    rw [OpenStore.removeRuns]
    split
    · exact ⟨s.directory.deltas, rfl, hstacked⟩
    · obtain ⟨deltas, heq, hstacked'⟩ := @ih { s with directory := { s.directory with
        deltas := s.directory.deltas.filter fun run => run.1 ≠ generation } } true
        (hstacked.remove hsnapshot (hobsolete generation List.mem_cons_self))
        fun other hother => hobsolete other (List.mem_cons_of_mem _ hother)
      exact ⟨deltas, heq, hstacked'⟩

theorem Recoverable.compact (h : Recoverable base config highest f s files) (hbase : base.Sound)
    (hclean : Recoverable.Clean s f.arena) (hparses : s.SnapshotParses f.arena f.roots f.numLeaves) (io : FlushIo) :
    Stands base config highest (s.compactDeltas f.arena f.roots f.numLeaves io).2.1.directory (f.view s) ∧
      ((s.compactDeltas f.arena f.roots f.numLeaves io).1 = .ok () → ∃ s' a',
        s.compactDeltas f.arena f.roots f.numLeaves io = (.ok (), s', a') ∧
          Recoverable base config highest (f.flushed s' a') s' files ∧ (f.view s).Same ((f.flushed s' a').view s')) := by
  unfold OpenStore.compactDeltas
  cases hfingerprint : onlineBaseFingerprint s.base f.arena with
  | error message => exact ⟨h.stands, fun hok => nomatch hok⟩
  | ok fingerprint =>
    dsimp only
    have hparse := hparses fingerprint hfingerprint
    rw [hclean.durable] at hparse ⊢
    generalize hstate : s.deltaState true s.currentLsn f.arena.compactRecords.length fingerprint f.arena f.roots
      f.numLeaves = state at hparse ⊢
    have hleft := writeDeltaRun_left s.directory state s.chainHashes f.arena.compactRecords io.compacted
    generalize writeDeltaRun s.directory state s.chainHashes f.arena.compactRecords io.compacted = written at hleft
    cases hleft with
    | refused message => exact ⟨h.stands, fun hok => nomatch hok⟩
    | @published run result hrun hrecords suffix last confirmed =>
      obtain rfl := hrun
      have hdescribes := h.describes hbase hstate.symm suffix
      have hanchored := h.anchored hbase hfingerprint hstate.symm suffix (by rw [hrecords]; exact hparse)
      have hsnapshot : run.state.snapshot = true := by rw [← hstate]; rfl
      have hnew : s.deltaGeneration < run.state.generation := by
        have hlt := generation_lt_of_parses hanchored.parses
        rw [← hstate] at hlt ⊢
        exact hlt
      have hstacked := h.durable.stacked.snapshot hanchored hsnapshot hnew
      have hover : (f.arena.replaceDeltaRuns run).Over base := ⟨h.arena.mapped, h.arena.files, h.arena.capacity,
        h.arena.baseNext⟩
      have hsame : (f.view s).Same (base.sealedView ([] ++ [run])) := by
        refine hdescribes.same fun id hid => ?_
        have hread : (base.overlaid ([] ++ [run])).read = (f.arena.replaceDeltaRuns run).read :=
          hover.read_eq (base.overlaid_over _) rfl hclean.dirty.symm
        rw [hread]
        exact NodeArena.read_compacted h.arena.mapped hrecords hid
      have hview : ∀ s' : OpenStore H, s'.point = s.point → s'.chainHashes = s.chainHashes →
          s'.currentLsn = s.currentLsn → (f.flushed s' (f.arena.replaceDeltaRuns run)).view s' =
            base.sealedView ([] ++ [run]) := fun s' hpoint hchain hlsn =>
        view_eq_sealed hover rfl hclean.dirty hdescribes rfl rfl rfl hpoint hchain hlsn
      rcases confirmed with ⟨message, rfl⟩ | ⟨rfl, -⟩
      · have hdurable := h.durable.sealed (show Stacked base _ ([] ++ [run]) _ _ from hstacked) hdescribes
        exact ⟨⟨_, _, _, _, _, hdurable, hsame⟩, fun hok => nomatch hok⟩
      · have hobsolete : ∀ generation ∈ f.arena.deltaRuns.map (·.state.generation), run.state.generation ≠ generation := by
          intro generation hgeneration
          obtain ⟨other, hother, rfl⟩ := List.mem_map.mp hgeneration
          obtain ⟨stale, hdeltas, -⟩ := h.durable.stacked.files
          have hmem : (other.state.generation, other) ∈ s.directory.deltas := by
            rw [hdeltas]
            exact List.mem_map.mpr ⟨other, List.mem_append_right _ hother, rfl⟩
          exact Nat.ne_of_gt (Nat.lt_of_le_of_lt (h.durable.stacked.generation_le _ hmem) hnew)
        dsimp only
        obtain ⟨deltas, heq, hremoved⟩ := removeRuns_stacked (s := { s with
          directory := { s.directory with deltas := OrderedMap.assign s.directory.deltas run.state.generation run }
          deltaGeneration := run.state.generation }) io.unlinked false hstacked hsnapshot hobsolete
        have hdurable := h.durable.sealed (show Stacked base _ ([] ++ [run]) _ _ from hremoved) hdescribes
        split
        all_goals
          rename_i hremove
          have hstore := congrArg Prod.snd hremove
          rw [heq] at hstore
          dsimp only at hstore
          rw [← hstore]
        · exact ⟨⟨_, _, _, _, _, hdurable, hsame⟩, fun hok => nomatch hok⟩
        · refine ⟨⟨_, _, _, _, _, hdurable, hsame⟩, fun hok => ⟨_, _, Prod.ext hok rfl, ⟨rfl, h.configured, h.superblock,
            hover, ?_, h.opened, h.whole⟩, ?_⟩⟩
          · rw [hview]
            · have hlsn : s.durableLsn = run.state.endLsn := hclean.durable.trans hdescribes.endLsn.symm
              show Durable base _ _ _ _ _ s.durableLsn _ _
              rw [hlsn]
              exact hdurable
            all_goals rfl
          · rw [hview]
            · exact hsame
            all_goals rfl

/-! ## The flush -/

omit [DecidableEq H] in
theorem pruneWal_eq (io : PruneIo) : ∃ segments, (∀ segment ∈ segments, segment ∈ s.directory.segments) ∧
    (s.pruneWal io).2 = { s with directory := { s.directory with segments } } := by
  unfold OpenStore.pruneWal
  dsimp only
  have hsub : ∀ segment ∈ s.directory.segments.filter
      (fun segment => !(s.obsoleteSegment segment && io.removable segment.1)), segment ∈ s.directory.segments :=
    fun segment hsegment => (List.mem_filter.mp hsegment).1
  split
  · exact ⟨_, hsub, rfl⟩
  · split_ifs
    all_goals exact ⟨_, hsub, rfl⟩

theorem Recoverable.prune (h : Recoverable base config highest f s files) (hsync : config.syncWal = true) (io : PruneIo) :
    ∃ files', Recoverable base config (max highest s.point.height) (f.flushed (s.pruneWal io).2 f.arena)
        (s.pruneWal io).2 files' ∧
      (f.flushed (s.pruneWal io).2 f.arena).view (s.pruneWal io).2 = f.view s := by
  have hdurable := h.durable
  rw [← h.configured] at hdurable hsync
  obtain ⟨keep, hkept, hpruned⟩ := hdurable.prune hsync io
  obtain ⟨segments, hsub, heq⟩ := pruneWal_eq (s := s) io
  have hview : (f.flushed (s.pruneWal io).2 f.arena).view (s.pruneWal io).2 = f.view s := by
    rw [heq]
    rfl
  refine ⟨files.filter keep, ⟨rfl, ?_, ?_, h.arena, ?_, ?_, ?_⟩, hview⟩
  · rw [heq]
    exact h.configured
  · rw [heq]
    exact h.superblock
  · rw [hview, ← h.configured]
    rw [heq] at hpruned ⊢
    exact hpruned
  · intro start hstart
    rw [heq] at hstart
    obtain ⟨front, file, rfl, rfl⟩ := h.opened start hstart
    have hback := hkept file (List.mem_append_right _ (List.mem_singleton.mpr rfl)) hstart
    exact ⟨front.filter keep, file, by rw [List.filter_append, List.filter_cons_of_pos hback, List.filter_nil], rfl⟩
  · intro segment hsegment
    rw [heq] at hsegment
    exact h.whole segment (hsub segment hsegment)

/-- **A flush.** It may stop at any step of the file system, if one that works would complete it. -/
theorem Recoverable.sealDelta (h : Recoverable base config highest f s files) (hbase : base.Sound)
    (hsync : config.syncWal = true) {io' : FlushIo} (hgood : (s.sealDelta f.arena f.roots f.numLeaves io').1 = .ok ())
    (io : FlushIo) :
    Stands base config (max highest s.point.height) (s.sealDelta f.arena f.roots f.numLeaves io).2.1.directory (f.view s) ∧
      ((s.sealDelta f.arena f.roots f.numLeaves io).1 = .ok () → ∃ s' a' files',
        s.sealDelta f.arena f.roots f.numLeaves io = (.ok (), s', a') ∧
          Recoverable base config (max highest s.point.height) (f.flushed s' a') s' files' ∧
            (f.view s).Same ((f.flushed s' a').view s')) := by
  have hmax : highest ≤ max highest s.point.height := le_max_left _ _
  unfold OpenStore.sealDelta at hgood
  cases hseal' : s.sealDirty f.arena f.roots f.numLeaves io'.sealed with
  | mk res' sealed' =>
    rw [hseal'] at hgood
    cases res' with
    | error message => cases hgood
    | ok u =>
      have hok' : (s.sealDirty f.arena f.roots f.numLeaves io'.sealed).1 = .ok () := by rw [hseal']
      obtain ⟨hstands, hsealed⟩ := h.seal hbase (sealDirty_parses hok') io.sealed
      unfold OpenStore.sealDelta
      cases hseal : s.sealDirty f.arena f.roots f.numLeaves io.sealed with
      | mk res sealed =>
        rw [hseal] at hstands
        cases res with
        | error message =>
          obtain ⟨_, _, _, _, _, hdurable, hsame⟩ := hstands
          exact ⟨⟨_, _, _, _, _, hdurable.mono hmax, hsame⟩, fun hok => nomatch hok⟩
        | ok u =>
          have hok : (s.sealDirty f.arena f.roots f.numLeaves io.sealed).1 = .ok () := by rw [hseal]
          have hunique := sealDirty_unique hok hok'
          rw [hseal, hseal'] at hunique
          obtain ⟨s1, a1, hresult, hclean, h1, hsame1⟩ := hsealed hok
          rw [hseal] at hresult
          cases hresult
          cases hunique
          dsimp only at hgood ⊢
          have hpoint1 : s1.point = s.point := hsame1.point
          -- the snapshot, if it is due
          have hcompact : Stands base config highest (s1.compactIfDue a1 f.roots f.numLeaves io).2.1.directory
              ((f.flushed s1 a1).view s1) ∧
              ((s1.compactIfDue a1 f.roots f.numLeaves io).1 = .ok () → ∃ s2 a2,
                s1.compactIfDue a1 f.roots f.numLeaves io = (.ok (), s2, a2) ∧
                  Recoverable base config highest (f.flushed s2 a2) s2 files ∧
                    ((f.flushed s1 a1).view s1).Same ((f.flushed s2 a2).view s2)) := by
            by_cases hdue : s1.compactionDue a1 = true
            · have hparses : s1.SnapshotParses a1 f.roots f.numLeaves := by
                refine @compactIfDue_parses _ _ _ s1 a1 f.roots f.numLeaves io' ?_ hdue
                split at hgood
                · cases hgood
                · rename_i hrun
                  rw [hrun]
              unfold OpenStore.compactIfDue
              rw [if_pos hdue]
              exact h1.compact hbase hclean hparses io
            · unfold OpenStore.compactIfDue
              rw [if_neg hdue]
              exact ⟨h1.stands, fun _ => ⟨s1, a1, rfl, h1, .refl _⟩⟩
          obtain ⟨hstands2, hcompacted⟩ := hcompact
          cases hrun : s1.compactIfDue a1 f.roots f.numLeaves io with
          | mk res compacted =>
            rw [hrun] at hstands2 hcompacted
            cases res with
            | error message =>
              obtain ⟨_, _, _, _, _, hdurable, hsame⟩ := hstands2
              exact ⟨⟨_, _, _, _, _, hdurable.mono hmax, hsame1.trans hsame⟩, fun hok => nomatch hok⟩
            | ok u =>
              obtain ⟨s2, a2, hresult, h2, hsame2⟩ := hcompacted rfl
              cases hresult
              have hpoint2 : s2.point = s.point := hsame2.point.trans hpoint1
              obtain ⟨files', hpruned, hview⟩ := h2.prune hsync io.pruned
              rw [hpoint2] at hpruned
              have hsame := hsame1.trans hsame2
              refine ⟨?_, fun hok => ⟨_, _, files', Prod.ext hok rfl, hpruned, ?_⟩⟩
              · obtain ⟨_, _, _, _, _, hdurable, hsame'⟩ := hpruned.stands
                exact ⟨_, _, _, _, _, hdurable, hsame.trans (by rw [← hview]; exact hsame')⟩
              · have hview' : (f.flushed (s2.pruneWal io.pruned).2 a2).view (s2.pruneWal io.pruned).2 =
                    (f.flushed s2 a2).view s2 := hview
                rw [hview']
                exact hsame

end Flush

end UtreexoBridge
