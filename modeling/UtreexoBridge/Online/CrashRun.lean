import UtreexoBridge.Online.BlockCrash

/-!
# Every call keeps the directory recoverable

A block, a block that is taken back and a flush: wherever they stop, the
directory stands for the forest in front of the call or behind its record. After
success it stands for the forest in memory.
-/

namespace UtreexoBridge

open Bytes

section Calls

variable {H : Type} [StoredHash H] [DecidableEq H] {base : OnlineBase H} {config : OnlineForestConfig} {highest : Nat}
  {f f' : OpenForest H} {s s' : OpenStore H} {files : List (WalFile H)} {t : WalTransaction H}

/-! ## A block -/

/-- What `offer` leaves of a forest that is in `s`, whether the call returns in success or not. -/
structure OfferStands (base : OnlineBase H) (config : OnlineForestConfig) (highest : Nat) (f : OpenForest H)
    (s : OpenStore H) (offer : Option (WalTransaction H)) (f' : OpenForest H) (ok : Bool) (s' : OpenStore H) : Prop where
  online : f'.online = some s'
  stands : ∃ runs generation durable files v,
    Durable base config.undoDepth highest s'.directory runs generation durable files v ∧
      (v = f.view s ∨ ∃ t, offer = some t ∧ v = (f.view s).apply (s.numbered t))
  done : ok = true → (∃ files, Recoverable base config highest f' s' files) ∧
    ∃ t, offer = some t ∧ f'.view s' = (f.view s).apply (s.numbered t)

theorem Recoverable.offerStands (h : Recoverable base config highest f s files) (offer : Option (WalTransaction H))
    (honline : f'.online = some s) : OfferStands base config highest f s offer f' false s :=
  ⟨honline, ⟨_, _, _, _, _, h.durable, Or.inl rfl⟩, fun hok => nomatch hok⟩

theorem Recoverable.committed (h : Recoverable base config highest f s files) {a : NodeArena H} {g : PackedForest H}
    (hbegin : f.arena.beginTransaction = .ok a) (hundo : a.Undoable g.arena)
    (hread : g.arena.read =
      t.changes.foldl (fun read change => Function.update read change.id change.after) f.arena.read)
    (hnext : g.arena.next = t.afterNext) (hroots : g.roots = t.afterRoots) (hleaves : g.numLeaves = t.afterNumLeaves)
    (hruns : s.SameRuns s') (happended : Appended s t s') (hwhole : s'.Whole) {files' : List (WalFile H)}
    (hopened : ∀ start, s'.walFd = some start → ∃ front file, files' = front ++ [file] ∧ file.start = start)
    (hdurable : Durable base config.undoDepth highest s'.directory f.arena.deltaRuns s.deltaGeneration s.durableLsn files'
      ((f.view s).apply (s.numbered t))) :
    OpenForest.view { g with arena := g.arena.commitTransaction, online := some s' } s' =
        (f.view s).apply (s.numbered t) ∧
      Recoverable base config highest { g with arena := g.arena.commitTransaction, online := some s' } s' files' := by
  obtain ⟨_, _, _, _, rfl⟩ := (NodeArena.beginTransaction_eq h.arena.mapped hbegin).1.eq
  have hview : OpenForest.view { g with arena := g.arena.commitTransaction, online := some s' } s' =
      (f.view s).apply (s.numbered t) := by
    unfold OpenForest.view ForestView.of ForestView.apply
    ext1
    · exact hread
    · exact hnext
    · exact hroots
    · exact hleaves
    · exact happended.point
    · exact happended.chainHashes
    · exact happended.currentLsn
  refine ⟨hview, ⟨rfl, happended.config.trans h.configured, happended.base.trans h.superblock, ?_, ?_, hopened, hwhole⟩⟩
  · exact ⟨hundo.mapped, hundo.files.trans h.arena.files, hundo.capacity.trans h.arena.capacity,
      hundo.baseNext.trans h.arena.baseNext⟩
  · rw [hview, hruns.deltaGeneration, hruns.durableLsn]
    show Durable _ _ _ _ g.arena.deltaRuns _ _ _ _
    rw [hundo.deltaRuns]
    exact hdurable

theorem Recoverable.offered (h : Recoverable base config highest f s files) (hbase : base.Sound)
    (hsync : config.syncWal = true) (ht : s.Offers t) (hleaves : t.beforeNumLeaves = f.numLeaves)
    (hback : TakesBack config.undoDepth highest files (f.view s) t) {io : AppendIo} {res : Res}
    (happend : s.append t io = (res, s')) :
    (res.isOk = false → f'.online = some s' → OfferStands base config highest f s (some t) f' false s') ∧
    (res = .ok () → ∀ a (g : PackedForest H), f.arena.beginTransaction = .ok a → a.Undoable g.arena →
      g.arena.read = t.changes.foldl (fun read change => Function.update read change.id change.after) f.arena.read →
      g.arena.next = t.afterNext → g.roots = t.afterRoots → g.numLeaves = t.afterNumLeaves →
        OfferStands base config highest f s (some t)
          { g with arena := g.arena.commitTransaction, online := some s' } true s') := by
  obtain ⟨files', v, hdurable, hwhich, hdone⟩ := h.append hbase hsync ht hleaves hback io
  have hruns : s.SameRuns (s.append t io).2 := append_sameRuns
  have happended : (s.append t io).1 = .ok () → Appended s t (s.append t io).2 := append_appended
  rw [happend] at hdurable hdone hruns happended
  have hstands : ∃ runs generation durable files v,
      Durable base config.undoDepth highest s'.directory runs generation durable files v ∧
        (v = f.view s ∨ ∃ u, some t = some u ∧ v = (f.view s).apply (s.numbered u)) :=
    ⟨_, _, _, _, _, hdurable, hwhich.imp_right fun heq => ⟨t, rfl, heq⟩⟩
  refine ⟨fun _ honline => ⟨honline, hstands, fun hok => nomatch hok⟩, ?_⟩
  intro hok a g hbegin hundo hread hnext hroots hleaves'
  obtain ⟨rfl, hwhole, hopened⟩ := hdone hok
  obtain ⟨hview, hrecoverable⟩ := h.committed hbegin hundo hread hnext hroots hleaves' hruns (happended hok) hwhole hopened
    hdurable
  exact ⟨rfl, hstands, fun _ => ⟨⟨files', hrecoverable⟩, t, rfl, hview⟩⟩

theorem Recoverable.connectBlock (h : Recoverable base config highest f s files) (hbase : base.Sound)
    (hsync : config.syncWal = true) {additions deletions : List H} {point : ChainPoint H} {io : BlockIo H}
    (hoffer : ∀ t, f.connectOffer s additions deletions point = some t → s.Offers t) {res : Res}
    (hrun : f.connectBlock s additions deletions point io = .ok (res, f')) :
    ∃ s', OfferStands base config highest f s (f.connectOffer s additions deletions point) f' res.isOk s' := by
  unfold OpenForest.connectBlock at hrun
  unfold OpenForest.connectOffer at hoffer ⊢
  cases hbegin : f.arena.beginTransaction with
  | error what =>
    rw [hbegin] at hrun
    cases hrun
  | ok a =>
    rw [hbegin] at hrun hoffer
    dsimp only at hrun hoffer ⊢
    cases hmodify : ({ f with arena := a } : OpenForest H).toPackedForest.modify additions deletions with
    | error fault =>
      rw [hmodify] at hrun
      cases hrun
    | ok result =>
      rw [hmodify] at hrun hoffer
      obtain ⟨message | u, g⟩ := result
      · obtain ⟨hres, honline⟩ := abandonBlock_online hrun
        rw [hres]
        exact ⟨s, h.offerStands _ (honline.trans h.online)⟩
      · dsimp only at hrun hoffer ⊢
        generalize ht : OpenForest.blockTransaction ({ f with arena := a } : OpenForest H)
          { f with toPackedForest := g } s point = t at hrun hoffer ⊢
        have hoffers := hoffer t rfl
        have hleaves : t.beforeNumLeaves = f.numLeaves := by rw [← ht]; rfl
        have hkind : t.kind = .connect := by rw [← ht]; rfl
        have hback : TakesBack config.undoDepth highest files (f.view s) t := by
          intro hdisconnect
          rw [hkind] at hdisconnect
          cases hdisconnect
        cases happend : s.append t io.append with
        | mk res' s' =>
          rw [happend] at hrun
          obtain ⟨hfailed, hdone⟩ := h.offered hbase hsync hoffers hleaves hback happend
          cases res' with
          | error message =>
            obtain ⟨hres, honline⟩ := abandonBlock_online hrun
            rw [hres]
            exact ⟨s', hfailed rfl honline⟩
          | ok u =>
            cases hrun
            have hsame := (NodeArena.beginTransaction_eq h.arena.mapped hbegin).1
            have hmapped : a.mapped = true := by
              obtain ⟨_, _, _, _, rfl⟩ := hsame.eq
              exact h.arena.mapped
            have hundo : a.Undoable g.arena :=
              modify_stable (stableAlloc_undoable a) (NodeArena.undoable_begin h.arena.mapped hbegin) hmodify
            have hread : g.arena.read =
                t.changes.foldl (fun read change => Function.update read change.id change.after) f.arena.read := by
              have hsync' : s.config.syncWal = true := by rw [h.configured]; exact hsync
              have hchanges : t.changes = g.arena.transactionChanges := by
                rw [← ht]
                exact if_pos hsync'
              have hbefore : a.read = f.arena.read := by
                obtain ⟨_, _, _, _, rfl⟩ := hsame.eq
                rfl
              rw [hchanges, ← hbefore]
              exact hundo.read_changes hmapped
            have hnext : g.arena.next = t.afterNext := by
              have hle : a.next ≤ noNode := by
                obtain ⟨_, _, _, _, rfl⟩ := hsame.eq
                exact h.durable.next
              have hle' : g.arena.next ≤ noNode := modify_stable stableAlloc_next hle hmodify
              rw [← ht]
              exact (Nat.mod_eq_of_lt (Nat.lt_of_le_of_lt hle' (by decide))).symm
            exact ⟨s', hdone rfl a g hbegin hundo hread hnext (by rw [← ht]; rfl) (by rw [← ht]; rfl)⟩

/-! ## A block that is taken back -/

theorem Recoverable.disconnectBlock (h : Recoverable base config highest f s files) (hbase : base.Sound)
    (hsync : config.syncWal = true) (hdepth : highest ≤ s.point.height + config.undoDepth)
    {original : WalTransaction H} (horiginal : latestConnect s.point (allRecords files) = some original)
    {io : BlockIo H}
    (hoffer : ∀ t, f.disconnectOffer (original.stored.rollback s.point) = some t → s.Offers t)
    {res : Except String (ChainPoint H)}
    (hrun : f.disconnectBlock s (original.stored.rollback s.point) io = .ok (res, f')) :
    ∃ s', OfferStands base config highest f s (f.disconnectOffer (original.stored.rollback s.point)) f' res.isOk s' := by
  -- the record of the tip tells the leaves on both sides of it
  have hleaves : original.afterNumLeaves = f.numLeaves := by
    obtain ⟨counts, hnow, hcounts⟩ := h.durable.counted
    have htip : ChainMatches s.point s.chainHashes := h.durable.tip
    have hactive : s.chainHashes[s.point.height]? = some s.point.blockHash := by
      rw [← htip.2, List.getLast?_eq_getElem?, htip.1, Nat.add_sub_cancel]
    exact (hcounts s.point original hactive hdepth horiginal).1.trans hnow
  unfold OpenForest.disconnectBlock at hrun
  unfold OpenForest.disconnectOffer at hoffer ⊢
  generalize ht : original.stored.rollback s.point = t at hrun hoffer ⊢
  have hbefore : t.beforeNumLeaves = f.numLeaves := by
    rw [← ht]
    exact hleaves
  have hback : TakesBack config.undoDepth highest files (f.view s) t := by
    intro _
    refine ⟨hdepth, original, horiginal, ?_⟩
    rw [← ht]
    rfl
  cases hbegin : f.arena.beginTransaction with
  | error what =>
    rw [hbegin] at hrun
    cases hrun
  | ok a =>
    rw [hbegin] at hrun hoffer
    dsimp only at hrun hoffer ⊢
    unfold PackedForest.applyPhysicalChanges at hrun hoffer ⊢
    cases happly : PackedForest.applyChanges true t.changes ({ f.toPackedForest with arena := a } : PackedForest H) with
    | error fault =>
      rw [happly] at hrun
      cases hrun
    | ok result =>
      rw [happly] at hrun hoffer
      obtain ⟨message | u, g⟩ := result
      · obtain ⟨hres, honline⟩ := abandonRollback_online hrun
        rw [hres]
        exact ⟨s, h.offerStands _ (honline.trans h.online)⟩
      · dsimp only at hrun hoffer ⊢
        cases happend : s.append t io.append with
        | mk res' s' =>
          rw [happend] at hrun
          obtain ⟨hfailed, hdone⟩ := h.offered hbase hsync (hoffer t rfl) hbefore hback happend
          cases res' with
          | error message =>
            obtain ⟨hres, honline⟩ := abandonRollback_online hrun
            rw [hres]
            exact ⟨s', hfailed rfl honline⟩
          | ok u =>
            cases hrun
            obtain ⟨hundo, hread⟩ := applyChanges_undoable (NodeArena.undoable_begin h.arena.mapped hbegin) happly
            have hundo' : a.Undoable (g.arena.setRuntimeNext t.afterNext t.changes) :=
              hundo.congr rfl rfl rfl rfl rfl rfl rfl rfl rfl rfl
            have hread' : (g.arena.setRuntimeNext t.afterNext t.changes).read =
                t.changes.foldl (fun read change => Function.update read change.id change.after) f.arena.read := by
              obtain ⟨_, _, _, _, rfl⟩ := (NodeArena.beginTransaction_eq h.arena.mapped hbegin).1.eq
              exact hread
            exact ⟨s', hdone rfl a { g with
              arena := g.arena.setRuntimeNext t.afterNext t.changes
              roots := t.afterRoots
              numLeaves := t.afterNumLeaves } hbegin hundo' hread' rfl rfl rfl⟩

theorem Recoverable.rollbackOnlineBlock (h : Recoverable base config highest f s files) (hbase : base.Sound)
    (hsync : config.syncWal = true) (hdepth : highest ≤ s.point.height + config.undoDepth) {io : BlockIo H}
    (hoffer : ∀ store t, (Request.rollbackOnlineBlock io).offer f = some (store, t) → store.Offers t)
    {res : Except String (ChainPoint H)} (hrun : f.rollbackOnlineBlock io = .ok (res, f')) :
    ∃ s' offer, (Request.rollbackOnlineBlock io).offer f = offer.map (s, ·) ∧
      OfferStands base config highest f s offer f' res.isOk s' := by
  have hsync' : s.config.syncWal = true := by
    rw [h.configured]
    exact hsync
  unfold OpenForest.rollbackOnlineBlock at hrun
  unfold Request.offer at hoffer ⊢
  rw [h.online] at hrun hoffer ⊢
  dsimp only at hrun hoffer ⊢
  by_cases hpending : s.pending = true
  · rw [if_pos hpending] at hrun
    rw [if_pos (Or.inl hpending)]
    cases hrun
    exact ⟨s, none, rfl, h.offerStands none h.online⟩
  rw [if_neg hpending, if_neg (by rw [hsync']; decide)] at hrun
  by_cases hheight : s.point.height = 0
  · rw [if_pos hheight] at hrun
    rw [if_pos (Or.inr (Or.inr hheight))]
    cases hrun
    exact ⟨s, none, rfl, h.offerStands none h.online⟩
  have hgo : ¬(s.pending = true ∨ s.config.syncWal = false ∨ s.point.height = 0) := by
    rw [hsync']
    exact not_or.mpr ⟨hpending, not_or.mpr ⟨by decide, hheight⟩⟩
  rw [if_neg hheight] at hrun
  rw [if_neg hgo] at hoffer ⊢
  have hread : s.readConnectTransaction s.point = match latestConnect s.point (allRecords files) with
      | none => .error "tip before-images are outside the retained WAL window"
      | some original => .ok original.stored := by
    rw [OpenStore.readConnectTransaction, h.laid.segments, readSegments_files h.laid.wellFormed]
    cases latestConnect s.point (allRecords files) with
    | none => rfl
    | some original => rfl
  rw [hread] at hrun hoffer ⊢
  cases hlatest : latestConnect s.point (allRecords files) with
  | none =>
    rw [hlatest] at hrun
    cases hrun
    exact ⟨s, none, rfl, h.offerStands none h.online⟩
  | some original =>
    rw [hlatest] at hrun hoffer
    dsimp only at hrun hoffer ⊢
    by_cases hpoint : original.stored.point ≠ s.point
    · rw [if_pos hpoint] at hrun ⊢
      cases hrun
      exact ⟨s, none, rfl, h.offerStands none h.online⟩
    · rw [if_neg hpoint] at hrun hoffer ⊢
      obtain ⟨s', hstands⟩ := h.disconnectBlock hbase hsync hdepth hlatest
        (fun t ht => hoffer s t (by rw [ht]; rfl)) hrun
      exact ⟨s', _, rfl, hstands⟩

/-! ## A flush -/

theorem Recoverable.flushOnline (h : Recoverable base config highest f s files) (hbase : base.Sound)
    (hsync : config.syncWal = true) (hgood : ∃ io, (f.flushOnline io).1 = .ok ()) (io : FlushIo) :
    ∃ s', (f.flushOnline io).2.online = some s' ∧
      Stands base config (max highest f.flushHeight) s'.directory (f.view s) ∧
      ((f.flushOnline io).1 = .ok () → ∃ files',
        Recoverable base config (max highest f.flushHeight) (f.flushOnline io).2 s' files' ∧
          (f.view s).Same ((f.flushOnline io).2.view s')) := by
  obtain ⟨io', hgood⟩ := hgood
  unfold OpenForest.flushOnline at hgood ⊢
  unfold OpenForest.flushHeight
  rw [h.online] at hgood ⊢
  dsimp only at hgood ⊢
  by_cases hpending : s.pending = true
  · rw [if_pos hpending] at hgood
    cases hgood
  rw [if_neg hpending] at hgood ⊢
  by_cases hclean : f.arena.dirty.size = 0 ∧ s.durableLsn = s.currentLsn
  · have hmono := h.mono (le_max_left highest 0)
    rw [if_pos hclean, if_pos (Or.inr hclean)]
    exact ⟨s, h.online, hmono.stands, fun _ => ⟨files, hmono, .refl _⟩⟩
  · rw [if_neg hclean] at hgood ⊢
    rw [if_neg (not_or.mpr ⟨hpending, hclean⟩)]
    obtain ⟨hstands, hdone⟩ := h.sealDelta hbase hsync hgood io
    refine ⟨_, rfl, hstands, fun hok => ?_⟩
    obtain ⟨s', a', files', hresult, hrecoverable, hsame⟩ := hdone hok
    rw [hresult]
    exact ⟨files', hrecoverable, hsame⟩

end Calls

/-! ## Requests -/

section Requests

variable {H : Type} [StoredHash H] [DecidableEq H] {base : OnlineBase H} {config : OnlineForestConfig} {highest : Nat}
  {f f' : OpenForest H} {s s' : OpenStore H} {files : List (WalFile H)} {request : Request H}

def Request.seals (f : OpenForest H) : Request H → Bool
  | .modifyBlock _ _ _ _ => f.online.any f.sealDue
  | .rollbackOnlineBlock _ => false
  | .flushOnline _ => true

def Request.rollsBack : Request H → Bool
  | .rollbackOnlineBlock _ => true
  | _ => false

/-- The fields of what is appended fit, no block is taken back that a flush may have pruned, and a flush would succeed
if the file system did. -/
structure Request.Admitted (request : Request H) (highest : Nat) (f : OpenForest H) : Prop where
  offers : ∀ s t, request.offer f = some (s, t) → s.Offers t
  within : request.rollsBack = true → ∀ s, f.online = some s → highest ≤ s.point.height + s.config.undoDepth
  seals : request.seals f = true → ∃ io, (f.flushOnline io).1 = .ok ()

/-- What the request makes of the forest, as far as it gets. Free slots do not count. -/
def Request.LeadsTo (request : Request H) (f : OpenForest H) (s : OpenStore H) (v : ForestView H) : Prop :=
  ∃ w, (f.view s).Same w ∧ (v = w ∨ ∃ store t, request.offer f = some (store, t) ∧ v = w.apply (store.numbered t))

structure Request.Left (request : Request H) (base : OnlineBase H) (config : OnlineForestConfig) (highest : Nat)
    (f : OpenForest H) (s : OpenStore H) (f' : OpenForest H) (ok : Bool) (s' : OpenStore H) : Prop where
  online : f'.online = some s'
  stands : ∃ runs generation durable files v,
    Durable base config.undoDepth highest s'.directory runs generation durable files v ∧ request.LeadsTo f s v
  done : ok = true → ∃ files, Recoverable base config highest f' s' files

theorem Stands.left (h : Stands base config highest s'.directory (f.view s)) (honline : f'.online = some s') :
    request.Left base config highest f s f' false s' := by
  obtain ⟨_, _, _, _, v, hdurable, hsame⟩ := h
  exact ⟨honline, ⟨_, _, _, _, v, hdurable, v, hsame, Or.inl rfl⟩, fun hok => nomatch hok⟩

theorem OfferStands.left {f1 : OpenForest H} {s1 : OpenStore H} {offer : Option (WalTransaction H)} {ok : Bool}
    (h : OfferStands base config highest f1 s1 offer f' ok s') (hsame : (f.view s).Same (f1.view s1))
    (hoffer : request.offer f = offer.map (s1, ·)) : request.Left base config highest f s f' ok s' := by
  obtain ⟨_, _, _, _, v, hdurable, hwhich⟩ := h.stands
  refine ⟨h.online, ⟨_, _, _, _, v, hdurable, f1.view s1, hsame, ?_⟩, fun hok => (h.done hok).1⟩
  rcases hwhich with hold | ⟨t, ht, hnew⟩
  · exact Or.inl hold
  · refine Or.inr ⟨s1, t, ?_, hnew⟩
    rw [hoffer, ht]
    rfl

theorem Recoverable.modifyBlock (h : Recoverable base config highest f s files) (hbase : base.Sound)
    (hsync : config.syncWal = true) {additions deletions : List H} {point : ChainPoint H} {io : BlockIo H}
    (hadmitted : (Request.modifyBlock additions deletions point io).Admitted highest f) {res : Res}
    (hrun : f.modifyBlock additions deletions point io = .ok (res, f')) :
    ∃ s', (Request.modifyBlock additions deletions point io).Left base config
      (max highest ((Request.modifyBlock additions deletions point io).sealHeight f)) f s f' res.isOk s' := by
  have hoffers := hadmitted.offers
  have hseals := hadmitted.seals
  have hunchanged : ∀ res' : Res, res'.isOk = false → f.online = some s →
      (Request.modifyBlock additions deletions point io).Left base config (max highest 0) f s f res'.isOk s := by
    intro res' hres honline
    rw [hres]
    exact (h.mono (le_max_left highest 0)).stands.left honline
  unfold OpenForest.modifyBlock at hrun
  unfold Request.seals at hseals
  unfold Request.sealHeight
  rw [h.online] at hrun hseals ⊢
  dsimp only at hrun ⊢
  by_cases hpending : s.pending = true
  · rw [if_pos hpending] at hrun
    rw [if_pos (Or.inl hpending)]
    cases hrun
    exact ⟨s, hunchanged _ rfl h.online⟩
  rw [if_neg hpending] at hrun
  by_cases hheight : point.height ≠ add32 s.point.height 1
  · rw [if_pos hheight] at hrun
    rw [if_pos (Or.inr hheight)]
    cases hrun
    exact ⟨s, hunchanged _ rfl h.online⟩
  have hgo : ¬(s.pending = true ∨ point.height ≠ add32 s.point.height 1) := not_or.mpr ⟨hpending, hheight⟩
  rw [if_neg hheight] at hrun
  rw [if_neg hgo]
  have hoffer : ∀ f1 s1, f.sealBeforeBlock s io.flush = (.ok (), f1) → f1.online = some s1 →
      (Request.modifyBlock additions deletions point io).offer f =
        (f1.connectOffer s1 additions deletions point).map (s1, ·) := by
    intro f1 s1 hsealed honline
    unfold Request.offer
    rw [h.online]
    dsimp only
    rw [if_neg hgo, hsealed]
    dsimp only
    rw [honline]
    rfl
  -- the flush in front of the block
  have hsealed : ∃ s1, (f.sealBeforeBlock s io.flush).2.online = some s1 ∧
      Stands base config (max highest (if f.sealDue s then f.flushHeight else 0)) s1.directory (f.view s) ∧
      ((f.sealBeforeBlock s io.flush).1 = .ok () → ∃ files1,
        Recoverable base config (max highest (if f.sealDue s then f.flushHeight else 0))
          (f.sealBeforeBlock s io.flush).2 s1 files1 ∧ (f.view s).Same ((f.sealBeforeBlock s io.flush).2.view s1)) := by
    unfold OpenForest.sealBeforeBlock
    by_cases hdue : f.sealDue s = true
    · rw [if_pos hdue, if_pos hdue]
      obtain ⟨s1, honline, hstands, hdone⟩ := h.flushOnline hbase hsync (hseals hdue) io.flush
      generalize f.flushOnline io.flush = flushed at honline hdone ⊢
      obtain ⟨message | u, f1⟩ := flushed
      · exact ⟨s1, honline, hstands, fun hok => nomatch hok⟩
      · exact ⟨s1, honline, hstands, fun _ => hdone rfl⟩
    · have hmono := h.mono (le_max_left highest 0)
      rw [if_neg hdue, if_neg hdue]
      exact ⟨s, h.online, hmono.stands, fun _ => ⟨files, hmono, .refl _⟩⟩
  obtain ⟨s1, honline, hstands, hdone⟩ := hsealed
  generalize f.sealBeforeBlock s io.flush = sealed at hrun hoffer honline hdone
  obtain ⟨message | u, f1⟩ := sealed
  · cases hrun
    exact ⟨s1, hstands.left honline⟩
  · obtain ⟨files1, h1, hsame⟩ := hdone rfl
    dsimp only at hrun honline h1 hsame
    rw [honline] at hrun
    have hoffer' := hoffer f1 s1 rfl honline
    obtain ⟨s', hleft⟩ := h1.connectBlock hbase hsync (fun t ht => hoffers s1 t (by rw [hoffer', ht]; rfl)) hrun
    exact ⟨s', hleft.left hsame hoffer'⟩

/-- **A call.** Wherever it stops, the directory stands for the forest before its record or behind it. -/
theorem Recoverable.perform (h : Recoverable base config highest f s files) (hbase : base.Sound)
    (hsync : config.syncWal = true) (hadmitted : request.Admitted highest f) {ok : Bool}
    (hrun : request.perform f = .ok (ok, f')) :
    ∃ s', request.Left base config (max highest (request.sealHeight f)) f s f' ok s' := by
  cases request with
  | modifyBlock additions deletions point io =>
    cases hcall : f.modifyBlock additions deletions point io with
    | error fault =>
      rw [Request.perform, hcall] at hrun
      cases hrun
    | ok result =>
      rw [Request.perform, hcall] at hrun
      cases hrun
      exact h.modifyBlock hbase hsync hadmitted hcall
  | rollbackOnlineBlock io =>
    cases hcall : f.rollbackOnlineBlock io with
    | error fault =>
      rw [Request.perform, hcall] at hrun
      cases hrun
    | ok result =>
      rw [Request.perform, hcall] at hrun
      cases hrun
      have hmono := h.mono (le_max_left highest 0)
      have hdepth : max highest 0 ≤ s.point.height + config.undoDepth := by
        rw [Nat.max_zero, ← h.configured]
        exact hadmitted.within rfl s h.online
      obtain ⟨s', offer, hoffer, hleft⟩ := hmono.rollbackOnlineBlock hbase hsync hdepth hadmitted.offers hcall
      exact ⟨s', hleft.left (.refl _) hoffer⟩
  | flushOnline io =>
    cases hrun
    obtain ⟨s', honline, hstands, hdone⟩ := h.flushOnline hbase hsync (hadmitted.seals rfl) io
    obtain ⟨_, _, _, _, v, hdurable, hsame⟩ := hstands
    refine ⟨s', honline, ⟨_, _, _, _, v, hdurable, v, hsame, Or.inl rfl⟩, fun hok => ?_⟩
    cases hres : (f.flushOnline io).1 with
    | error message =>
      rw [hres] at hok
      cases hok
    | ok u =>
      obtain ⟨files', hrecoverable, -⟩ := hdone hres
      exact ⟨files', hrecoverable⟩

end Requests

end UtreexoBridge
