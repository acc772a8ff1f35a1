import UtreexoBridge.Accumulator.Spec

/-!
# Trees in the arena

An `IdTree` is a tree of the accumulator with the node ids that hold it.
`Linked` says that the records of these ids are the tree, link by link and
hash by hash.
-/

namespace UtreexoBridge

inductive IdTree (H : Type)
  | leaf (id : Nat) (hash : H)
  | node (id : Nat) (left right : IdTree H)

namespace IdTree

variable {H : Type}

def id : IdTree H → Nat
  | .leaf id _ => id
  | .node id _ _ => id

def toTree : IdTree H → Tree H
  | .leaf _ h => .leaf h
  | .node _ l r => .node l.toTree r.toTree

def ids : IdTree H → List Nat
  | .leaf id _ => [id]
  | .node id l r => id :: (l.ids ++ r.ids)

def leaves : IdTree H → List (Nat × H)
  | .leaf id h => [(id, h)]
  | .node _ l r => l.leaves ++ r.leaves

def height : IdTree H → Nat
  | .leaf _ _ => 0
  | .node _ l r => max l.height r.height + 1

variable [ForestHash H]

def hash : IdTree H → H
  | .leaf _ h => h
  | .node _ l r => parentHash l.hash r.hash

/-- The records of the tree below `parent`. -/
def Linked (read : Nat → NodeRecord H) : IdTree H → Nat → Prop
  | .leaf id h, parent => read id = ⟨h, parent, noNode, noNode, .leaf⟩
  | .node id l r, parent =>
    read id = ⟨parentHash l.hash r.hash, parent, l.id, r.id, .branch⟩ ∧ Linked read l id ∧ Linked read r id

theorem hash_toTree (t : IdTree H) : t.toTree.hash = t.hash := by
  induction t with
  | leaf => rfl
  | node id l r ihl ihr => rw [toTree, Tree.hash, ihl, ihr]; rfl

omit [ForestHash H] in
theorem leaves_toTree (t : IdTree H) : t.toTree.leaves = t.leaves.map (·.2) := by
  induction t with
  | leaf => rfl
  | node id l r ihl ihr => rw [toTree, Tree.leaves, ihl, ihr, leaves, List.map_append]

omit [ForestHash H] in
theorem id_mem_ids (t : IdTree H) : t.id ∈ t.ids := by cases t <;> simp [id, ids]

variable {read read' : Nat → NodeRecord H} {t : IdTree H} {parent : Nat}

omit [ForestHash H] in
theorem leaf_mem_ids {x : Nat} {h : H} (hx : (x, h) ∈ t.leaves) : x ∈ t.ids := by
  induction t with
  | leaf id h' =>
    obtain ⟨rfl, -⟩ : x = id ∧ h = h' := by simpa [leaves] using hx
    simp [ids]
  | node id l r ihl ihr =>
    rw [leaves, List.mem_append] at hx
    rw [ids, List.mem_cons, List.mem_append]
    exact Or.inr (hx.imp ihl ihr)

omit [ForestHash H] in
theorem leaf_ids_sublist (t : IdTree H) : (t.leaves.map (·.1)).Sublist t.ids := by
  induction t with
  | leaf id h => exact .refl _
  | node id l r ihl ihr =>
    rw [leaves, ids, List.map_append]
    exact (ihl.append ihr).cons id

/-! ## What linked records say -/

theorem Linked.hash_eq (h : Linked read t parent) : (read t.id).hash = t.hash := by
  cases t with
  | leaf id x => exact congrArg NodeRecord.hash h
  | node id l r => exact congrArg NodeRecord.hash h.1

theorem Linked.parent_eq (h : Linked read t parent) : (read t.id).parent = parent := by
  cases t with
  | leaf id x => exact congrArg NodeRecord.parent h
  | node id l r => exact congrArg NodeRecord.parent h.1

theorem Linked.mem_leaves_iff (h : Linked read t parent) {x : Nat} {v : H} :
    (x, v) ∈ t.leaves ↔ x ∈ t.ids ∧ (read x).type = .leaf ∧ (read x).hash = v := by
  induction t generalizing parent with
  | leaf id w =>
    rw [leaves, ids, List.mem_singleton, List.mem_singleton, Prod.mk.injEq]
    constructor
    · rintro ⟨rfl, rfl⟩
      rw [show read x = _ from h]; simp
    · rintro ⟨rfl, -, hv⟩
      rw [show read x = _ from h] at hv
      exact ⟨rfl, hv.symm⟩
  | node id l r ihl ihr =>
    rw [leaves, ids, List.mem_append, List.mem_cons, List.mem_append, ihl h.2.1, ihr h.2.2]
    constructor
    · rintro (⟨hx, hrest⟩ | ⟨hx, hrest⟩)
      · exact ⟨Or.inr (Or.inl hx), hrest⟩
      · exact ⟨Or.inr (Or.inr hx), hrest⟩
    · rintro ⟨rfl | hx | hx, htype, hv⟩
      · rw [h.1] at htype; cases htype
      · exact Or.inl ⟨hx, htype, hv⟩
      · exact Or.inr ⟨hx, htype, hv⟩

theorem Linked.congr (hsame : ∀ x ∈ t.ids, read' x = read x) (h : Linked read t parent) : Linked read' t parent := by
  induction t generalizing parent with
  | leaf id v => exact (hsame id (by simp [ids])).trans h
  | node id l r ihl ihr =>
    refine ⟨(hsame id (by simp [ids])).trans h.1, ihl (fun x hx => hsame x ?_) h.2.1, ihr (fun x hx => hsame x ?_) h.2.2⟩
    · simp [ids, hx]
    · simp [ids, hx]

theorem Linked.reparent (hnodup : t.ids.Nodup) (h : Linked read t parent) (new : Nat) :
    Linked (Function.update read t.id { read t.id with parent := new }) t new := by
  cases t with
  | leaf id v =>
    simp only [Linked, IdTree.id, Function.update_self]
    rw [show read id = _ from h]
  | node id l r =>
    rw [ids, List.nodup_cons] at hnodup
    have hout : ∀ s : IdTree H, id ∉ s.ids → Linked read s id →
        Linked (Function.update read id { read id with parent := new }) s id := by
      intro s hs
      apply Linked.congr
      intro x hx
      exact Function.update_of_ne (fun he : x = id => hs (he ▸ hx)) _ _
    refine ⟨?_, hout l ?_ h.2.1, hout r ?_ h.2.2⟩
    · show Function.update read id { read id with parent := new } id = _
      rw [Function.update_self, h.1]
    · exact fun hm => hnodup.1 (List.mem_append_left _ hm)
    · exact fun hm => hnodup.1 (List.mem_append_right _ hm)

/-! ## A place in a tree -/

/-- A node with a hole for one child. -/
structure Frame (H : Type) where
  id : Nat
  /-- The hole is on the left. -/
  left : Bool
  sibling : IdTree H

omit [ForestHash H] in
def Frame.fill (f : Frame H) (t : IdTree H) : IdTree H :=
  if f.left then .node f.id t f.sibling else .node f.id f.sibling t

omit [ForestHash H] in
/-- Fill the innermost frame first. -/
def plug : List (Frame H) → IdTree H → IdTree H
  | [], t => t
  | f :: fs, t => plug fs (f.fill t)

omit [ForestHash H] in
theorem plug_append (fs gs : List (Frame H)) (t : IdTree H) : plug (fs ++ gs) t = plug gs (plug fs t) := by
  induction fs generalizing t with
  | nil => rfl
  | cons f fs ih => exact ih (f.fill t)

omit [ForestHash H] in
theorem exists_plug {x : Nat} {v : H} (h : (x, v) ∈ t.leaves) : ∃ fs, t = plug fs (.leaf x v) := by
  induction t with
  | leaf id w =>
    rw [leaves, List.mem_singleton, Prod.mk.injEq] at h
    exact ⟨[], by rw [h.1, h.2]; rfl⟩
  | node id l r ihl ihr =>
    rw [leaves, List.mem_append] at h
    rcases h with h | h
    · obtain ⟨fs, hfs⟩ := ihl h
      exact ⟨fs ++ [⟨id, true, r⟩], by rw [plug_append, ← hfs]; rfl⟩
    · obtain ⟨fs, hfs⟩ := ihr h
      exact ⟨fs ++ [⟨id, false, l⟩], by rw [plug_append, ← hfs]; rfl⟩

omit [ForestHash H] in
def frameIds : List (Frame H) → List Nat
  | [] => []
  | f :: fs => f.id :: (f.sibling.ids ++ frameIds fs)

omit [ForestHash H] in
theorem ids_plug (fs : List (Frame H)) (t : IdTree H) : (plug fs t).ids.Perm (t.ids ++ frameIds fs) := by
  induction fs generalizing t with
  | nil => rw [plug, frameIds, List.append_nil]
  | cons f fs ih =>
    refine (ih (f.fill t)).trans ?_
    rw [frameIds]
    have hfill : (f.fill t).ids.Perm (f.id :: (t.ids ++ f.sibling.ids)) := by
      unfold Frame.fill
      split_ifs
      · exact .refl _
      · exact List.Perm.cons _ List.perm_append_comm
    refine (hfill.append_right _).trans ?_
    rw [List.cons_append, List.append_assoc]
    exact List.perm_middle.symm

/-- The parent of the tree in the hole, below `parent`. -/
def holeParent (parent : Nat) : List (Frame H) → Nat
  | [] => parent
  | f :: _ => f.id

def Frame.hash (f : Frame H) (h : H) : H :=
  if f.left then parentHash h f.sibling.hash else parentHash f.sibling.hash h

/-- The record of a frame: its hash, its parent, and `child` in the hole. -/
def Frame.record (f : Frame H) (hash : H) (parent child : Nat) : NodeRecord H :=
  if f.left then ⟨hash, parent, child, f.sibling.id, .branch⟩ else ⟨hash, parent, f.sibling.id, child, .branch⟩

/-- The frames are in memory around a hole that holds node `child` with hash `h`. -/
def LinkedFrames (read : Nat → NodeRecord H) (parent : Nat) : List (Frame H) → Nat → H → Prop
  | [], _, _ => True
  | f :: fs, child, h =>
    read f.id = f.record (f.hash h) (holeParent parent fs) child ∧ Linked read f.sibling f.id ∧
      LinkedFrames read parent fs f.id (f.hash h)

omit [ForestHash H] in
theorem fill_id (f : Frame H) (t : IdTree H) : (f.fill t).id = f.id := by
  unfold Frame.fill; split_ifs <;> rfl

theorem fill_hash (f : Frame H) (t : IdTree H) : (f.fill t).hash = f.hash t.hash := by
  unfold Frame.fill Frame.hash; split_ifs <;> rfl

theorem linked_fill (f : Frame H) (t : IdTree H) :
    Linked read (f.fill t) parent ↔
      Linked read t f.id ∧ read f.id = f.record (f.hash t.hash) parent t.id ∧ Linked read f.sibling f.id := by
  unfold Frame.fill Frame.hash Frame.record
  split_ifs <;> simp only [Linked] <;> tauto

theorem linked_plug (fs : List (Frame H)) (t : IdTree H) :
    Linked read (plug fs t) parent ↔ Linked read t (holeParent parent fs) ∧ LinkedFrames read parent fs t.id t.hash := by
  induction fs generalizing t with
  | nil => simp [plug, holeParent, LinkedFrames]
  | cons f fs ih =>
    rw [plug, ih, linked_fill, LinkedFrames, fill_id, fill_hash, holeParent]
    tauto

/-! ## Pruning -/

omit [ForestHash H] in
theorem prune_all (keep : H → Bool) (t : Tree H) (h : ∀ v ∈ t.leaves, keep v = true) : t.prune keep = some t := by
  induction t with
  | leaf v => simp [Tree.prune, h v (by simp [Tree.leaves])]
  | node l r ihl ihr =>
    rw [Tree.prune, ihl fun v hv => h v (by simp [Tree.leaves, hv]), ihr fun v hv => h v (by simp [Tree.leaves, hv])]
    rfl

omit [ForestHash H] in
theorem prune_plug (keep : H → Bool) (fs : List (Frame H)) (t t' : IdTree H)
    (hkeep : ∀ f ∈ fs, ∀ v ∈ f.sibling.toTree.leaves, keep v = true) (ht : t.toTree.prune keep = some t'.toTree) :
    (plug fs t).toTree.prune keep = some (plug fs t').toTree := by
  induction fs generalizing t t' with
  | nil => exact ht
  | cons f fs ih =>
    apply ih _ _ fun g hg => hkeep g (by simp [hg])
    have hsib := prune_all keep f.sibling.toTree (hkeep f (by simp))
    unfold Frame.fill
    split_ifs
    · simp only [toTree, Tree.prune, ht, hsib, Tree.join]
    · simp only [toTree, Tree.prune, ht, hsib, Tree.join]

end IdTree

end UtreexoBridge
