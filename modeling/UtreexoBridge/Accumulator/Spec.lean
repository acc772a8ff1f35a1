import UtreexoBridge.Forest.Spec

/-!
# The accumulator

What the forest is for: a leaf count and, for each row with a set bit, a
binary tree unless all its leaves are deleted. There are no ids, links or
indexes here.
-/

namespace UtreexoBridge

inductive Tree (H : Type)
  | leaf (hash : H)
  | node (left right : Tree H)
  deriving DecidableEq, Repr

namespace Tree

variable {H : Type}

def hash [ForestHash H] : Tree H → H
  | .leaf h => h
  | .node l r => parentHash l.hash r.hash

def leaves : Tree H → List H
  | .leaf h => [h]
  | .node l r => l.leaves ++ r.leaves

/-- A parent with one child left is replaced by that child. -/
def join : Option (Tree H) → Option (Tree H) → Option (Tree H)
  | some l, some r => some (.node l r)
  | some l, none => some l
  | none, r => r

def prune (keep : H → Bool) : Tree H → Option (Tree H)
  | .leaf h => if keep h then some (.leaf h) else none
  | .node l r => join (l.prune keep) (r.prune keep)

end Tree

structure Accumulator (H : Type) where
  numLeaves : Nat
  tree : Nat → Option (Tree H)

namespace Accumulator

variable {H : Type}

def empty : Accumulator H := ⟨0, fun _ => none⟩

def Mem (m : Accumulator H) (h : H) : Prop := ∃ row t, m.tree row = some t ∧ h ∈ t.leaves

/-- Carry `t` from `row` up through the consecutive set bits. An emptied row passes it on as it is. -/
def carry (leaves row : Nat) (t : Tree H) (tree : Nat → Option (Tree H)) : Nat → Option (Tree H) :=
  if leaves % 2 = 1 then
    carry (leaves / 2) (row + 1) (match tree row with | some l => .node l t | none => t)
      (Function.update tree row none)
  else Function.update tree row (some t)
termination_by leaves
decreasing_by omega

def add (m : Accumulator H) (h : H) : Accumulator H := ⟨m.numLeaves + 1, carry m.numLeaves 0 (.leaf h) m.tree⟩

variable [DecidableEq H]

def delete (m : Accumulator H) (h : H) : Accumulator H :=
  { m with tree := fun row => (m.tree row).bind (Tree.prune (· ≠ h)) }

open Classical in
/-- The deletions of a block are distinct and live, checked in order. -/
noncomputable def checkDeletions (m : Accumulator H) : List H → List H → Res
  | _, [] => .ok ()
  | deleting, h :: rest =>
    if h ∈ deleting then .error "duplicate deletion"
    else if m.Mem h then checkDeletions m (h :: deleting) rest
    else .error "deletion is not in forest"

noncomputable def modify (m : Accumulator H) (additions deletions : List H) : Res × Accumulator H :=
  match m.checkDeletions [] deletions with
  | .error message => (.error message, m)
  | .ok () => (.ok (), additions.foldl add (deletions.foldl delete m))

noncomputable def call (m : Accumulator H) : Call H → Res × Accumulator H
  | .add h => (.ok (), m.add h)
  | .modify additions deletions => m.modify additions deletions

noncomputable def run (m : Accumulator H) : List (Call H) → List Res × Accumulator H
  | [] => ([], m)
  | c :: calls =>
    let rest := run (m.call c).2 calls
    ((m.call c).1 :: rest.1, rest.2)

/-- No hash is added while it is live. The deletions of a block come before its additions. -/
def FreshCall (m : Accumulator H) : Call H → Prop
  | .add h => ¬ m.Mem h
  | .modify additions deletions => m.checkDeletions [] deletions = .ok () →
      additions.Nodup ∧ ∀ h ∈ additions, m.Mem h → h ∈ deletions

def FreshRun (m : Accumulator H) : List (Call H) → Prop
  | [] => True
  | c :: calls => m.FreshCall c ∧ FreshRun (m.call c).2 calls

def roots [ForestHash H] (m : Accumulator H) : List (Option H) :=
  (setRows m.numLeaves (Position.treeRows m.numLeaves)).map fun row => (m.tree row).map Tree.hash

end Accumulator

end UtreexoBridge
