import UtreexoBridge.Validate.Spec

/-!
# What a window is shown

A list of children is accepted exactly if every parent is a branch of the
window that lists its child, no child comes twice, and the hashes of two
children make that of their parent.
-/

namespace UtreexoBridge

variable {H : Type} [ForestHash H]

def inWindow (first : Nat) (records : List (NodeRecord H)) (id : Nat) : NodeRecord H := records.getD (id - first) .blank

def sideOf (parent : NodeRecord H) (child : Nat) : Nat :=
  if parent.left = child then 1 else if parent.right = child then 2 else 0

omit [ForestHash H] in
theorem sideOf_cases (parent : NodeRecord H) (child : Nat) :
    sideOf parent child = 1 ∧ parent.left = child ∨
      sideOf parent child = 2 ∧ parent.left ≠ child ∧ parent.right = child ∨
      sideOf parent child = 0 ∧ parent.left ≠ child ∧ parent.right ≠ child := by
  unfold sideOf
  by_cases hl : parent.left = child
  · simp [hl]
  · by_cases hr : parent.right = child
    · simp [hl, hr]
    · simp [hl, hr]

omit [ForestHash H] in
theorem sideOf_of_ne {parent : NodeRecord H} {child : Nat} (h : sideOf parent child ≠ 0) :
    sideOf parent child = 1 ∨ sideOf parent child = 2 := by
  rcases sideOf_cases parent child with ⟨h1, -⟩ | ⟨h1, -⟩ | ⟨h1, -⟩
  · exact Or.inl h1
  · exact Or.inr h1
  · exact absurd h1 h

omit [ForestHash H] in
theorem sideOf_inj {parent : NodeRecord H} {x y : Nat} (hx : sideOf parent x ≠ 0) (h : sideOf parent x = sideOf parent y) :
    x = y := by
  rcases sideOf_cases parent x with ⟨h1, h2⟩ | ⟨h1, -, h2⟩ | ⟨h1, -⟩ <;>
    rcases sideOf_cases parent y with ⟨h3, h4⟩ | ⟨h3, -, h4⟩ | ⟨h3, -⟩ <;> omega

/-- The hash of a parent from its later child and the hash of the other one. -/
def combine (parent : NodeRecord H) (e : Edge H) (other : H) : H :=
  if sideOf parent e.child = 1 then parentHash e.hash other else parentHash other e.hash

section Window

variable (first : Nat) (records : List (NodeRecord H))

/-- The parent of the edge is a branch of the window that lists the child. -/
structure EdgeFits (e : Edge H) : Prop where
  ge : first ≤ e.parent
  lt : e.parent < first + records.length
  branch : (inWindow first records e.parent).type = .branch
  listed : sideOf (inWindow first records e.parent) e.child ≠ 0

/-- Two children of one parent, the earlier one first. -/
def EdgesMeet (e e' : Edge H) : Prop :=
  e.parent = e'.parent → e.child ≠ e'.child ∧
    combine (inWindow first records e'.parent) e' e.hash = (inWindow first records e'.parent).hash

/-- The children seen so far, as bits. -/
def SeenBits (shown : List (Edge H)) (p bits : Nat) : Prop :=
  (bits = 0 ∨ bits = 1 ∨ bits = 2 ∨ bits = 3) ∧
    (bits &&& 1 ≠ 0 ↔ ∃ e ∈ shown, e.parent = p ∧ sideOf (inWindow first records p) e.child = 1) ∧
    (bits &&& 2 ≠ 0 ↔ ∃ e ∈ shown, e.parent = p ∧ sideOf (inWindow first records p) e.child = 2)

/-- The window after `shown`. -/
structure Shown (shown : List (Edge H)) (w : Seen H) : Prop where
  bits : ∀ p, first ≤ p → SeenBits first records shown p (w.seen (p - first))
  pending : ∀ e ∈ shown, (∀ e' ∈ shown, e'.parent = e.parent → e' = e) → w.pending (e.parent - first) = e.hash

/-- What makes a list of children acceptable. -/
structure Showable (shown : List (Edge H)) : Prop where
  fits : ∀ e ∈ shown, EdgeFits first records e
  meet : shown.Pairwise (EdgesMeet first records)

end Window

variable {first : Nat} {records : List (NodeRecord H)} {shown : List (Edge H)} {w : Seen H}

theorem shown_start (pending : Nat → H) : Shown first records [] ⟨pending, fun _ => 0⟩ := by
  refine ⟨fun p _ => ⟨Or.inl rfl, ?_, ?_⟩, by simp⟩ <;> simp

theorem Showable.eq_of_same (h : Showable first records shown) {e e' : Edge H} (he : e ∈ shown) (he' : e' ∈ shown)
    (hparent : e.parent = e'.parent) (hchild : e.child = e'.child) : e = e' := by
  by_contra hne
  have hdiff : shown.Pairwise fun e e' => e.parent = e'.parent → e.child ≠ e'.child := h.meet.imp fun h hp => (h hp).1
  have : Std.Symm fun e e' : Edge H => e.parent = e'.parent → e.child ≠ e'.child :=
    ⟨fun _ _ h hp hc => h hp.symm hc.symm⟩
  exact hdiff.forall he he' hne hparent hchild

theorem showable_append {e : Edge H} : Showable first records (shown ++ [e]) ↔
    Showable first records shown ∧ EdgeFits first records e ∧ ∀ e' ∈ shown, EdgesMeet first records e' e := by
  constructor
  · intro h
    obtain ⟨hmeet, -, hlast⟩ := List.pairwise_append.mp h.meet
    exact ⟨⟨fun e he => h.fits e (by simp [he]), hmeet⟩, h.fits e (by simp), fun e' he' => hlast e' he' e (by simp)⟩
  · rintro ⟨h, hfits, hlast⟩
    refine ⟨fun e' he' => ?_, List.pairwise_append.mpr ⟨h.meet, by simp, by simpa using hlast⟩⟩
    rcases List.mem_append.mp he' with he' | he'
    · exact h.fits e' he'
    · rw [List.mem_singleton.mp he']
      exact hfits

theorem bits_or {bits side : Nat} (hbits : bits = 0 ∨ bits = 1 ∨ bits = 2 ∨ bits = 3) (hside : side = 1 ∨ side = 2) :
    (bits ||| side = 0 ∨ bits ||| side = 1 ∨ bits ||| side = 2 ∨ bits ||| side = 3) ∧
      ((bits ||| side) &&& 1 ≠ 0 ↔ bits &&& 1 ≠ 0 ∨ side = 1) ∧ ((bits ||| side) &&& 2 ≠ 0 ↔ bits &&& 2 ≠ 0 ∨ side = 2) := by
  rcases hbits with rfl | rfl | rfl | rfl <;> rcases hside with rfl | rfl <;> decide

omit [ForestHash H] in
theorem exists_shown_append {e : Edge H} {P : Edge H → Prop} :
    (∃ e' ∈ shown ++ [e], P e') ↔ (∃ e' ∈ shown, P e') ∨ P e := by
  simp only [List.mem_append, List.mem_singleton, or_and_right, exists_or, exists_eq_left]

theorem seenBits_append {p bits : Nat} {e : Edge H} (h : SeenBits first records shown p bits)
    (hside : sideOf (inWindow first records e.parent) e.child ≠ 0) :
    SeenBits first records (shown ++ [e]) p
      (if e.parent = p then bits ||| sideOf (inWindow first records e.parent) e.child else bits) := by
  obtain ⟨h1, h2, h3⟩ := h
  unfold SeenBits
  simp only [exists_shown_append]
  by_cases hp : e.parent = p
  · subst hp
    obtain ⟨b1, b2, b3⟩ := bits_or h1 (sideOf_of_ne hside)
    rw [if_pos rfl, b2, b3, h2, h3]
    exact ⟨b1, by simp, by simp⟩
  · rw [if_neg hp, h2, h3]
    simp [h1, hp]

/-! ## One child -/

theorem Shown.bit_iff (h : Shown first records shown w) {e : Edge H} (hfits : EdgeFits first records e) :
    w.seen (e.parent - first) &&& sideOf (inWindow first records e.parent) e.child ≠ 0 ↔
      ∃ e' ∈ shown, e'.parent = e.parent ∧ e'.child = e.child := by
  obtain ⟨-, h1, h2⟩ := h.bits e.parent hfits.ge
  have hsame : ∀ e' : Edge H, sideOf (inWindow first records e.parent) e'.child =
      sideOf (inWindow first records e.parent) e.child ↔ e'.child = e.child :=
    fun e' => ⟨fun h => (sideOf_inj hfits.listed h.symm).symm, fun h => by rw [h]⟩
  rcases sideOf_of_ne hfits.listed with hside | hside
  · rw [hside, h1]
    simp only [← hsame, hside]
  · rw [hside, h2]
    simp only [← hsame, hside]

theorem Shown.seen_eq_zero_iff (h : Shown first records shown w) (hshow : Showable first records shown) {p : Nat}
    (hp : first ≤ p) : w.seen (p - first) = 0 ↔ ∀ e ∈ shown, e.parent ≠ p := by
  obtain ⟨h0, h1, h2⟩ := h.bits p hp
  constructor
  · rintro hzero e he rfl
    rw [hzero] at h1 h2
    rcases sideOf_of_ne (hshow.fits e he).listed with hside | hside
    · exact h1.mpr ⟨e, he, rfl, hside⟩ rfl
    · exact h2.mpr ⟨e, he, rfl, hside⟩ rfl
  · intro hnone
    have hno : ∀ side, ¬∃ e ∈ shown, e.parent = p ∧ sideOf (inWindow first records p) e.child = side :=
      fun side ⟨e, he, hparent, _⟩ => hnone e he hparent
    have hz1 := not_not.mp (mt h1.mp (hno 1))
    have hz2 := not_not.mp (mt h2.mp (hno 2))
    rcases h0 with h0 | h0 | h0 | h0
    · exact h0
    all_goals
      rw [h0] at hz1 hz2
      simp at hz1 hz2

theorem Showable.other_eq (hshow : Showable first records shown) {e x y : Edge H} (hfits : EdgeFits first records e)
    (hx : x ∈ shown) (hy : y ∈ shown) (hxp : x.parent = e.parent) (hyp : y.parent = e.parent) (hxc : x.child ≠ e.child)
    (hyc : y.child ≠ e.child) : x = y := by
  apply hshow.eq_of_same hx hy (hxp.trans hyp.symm)
  have hxs := sideOf_of_ne (hshow.fits x hx).listed
  have hys := sideOf_of_ne (hshow.fits y hy).listed
  rw [hxp] at hxs
  rw [hyp] at hys
  have hxe : sideOf (inWindow first records e.parent) x.child ≠ sideOf (inWindow first records e.parent) e.child :=
    fun h => hxc (sideOf_inj hfits.listed h.symm).symm
  have hye : sideOf (inWindow first records e.parent) y.child ≠ sideOf (inWindow first records e.parent) e.child :=
    fun h => hyc (sideOf_inj hfits.listed h.symm).symm
  have hes := sideOf_of_ne hfits.listed
  exact sideOf_inj (show sideOf (inWindow first records e.parent) x.child ≠ 0 by omega) (by omega)

theorem Shown.append (h : Shown first records shown w) (hshow : Showable first records shown) {e : Edge H}
    (hfits : EdgeFits first records e) (hnew : ∀ e' ∈ shown, e'.parent = e.parent → e'.child ≠ e.child) (pending : Nat → H)
    (hother : ∀ i ≠ e.parent - first, pending i = w.pending i)
    (hpending : w.seen (e.parent - first) = 0 → pending (e.parent - first) = e.hash) :
    Shown first records (shown ++ [e]) ⟨pending, Function.update w.seen (e.parent - first)
      (w.seen (e.parent - first) ||| sideOf (inWindow first records e.parent) e.child)⟩ := by
  have hge := hfits.ge
  refine ⟨fun p hp => ?_, fun x hx hone => ?_⟩
  · have hbits := seenBits_append (h.bits p hp) hfits.listed
    by_cases hsame : e.parent = p
    · subst hsame
      simpa using hbits
    · rw [if_neg hsame] at hbits
      have hne : p - first ≠ e.parent - first := by omega
      simpa [Function.update_of_ne hne] using hbits
  · by_cases hsame : x.parent = e.parent
    · obtain rfl : e = x := hone e (by simp) hsame.symm
      apply hpending
      rw [h.seen_eq_zero_iff hshow hge]
      intro e' he' hparent
      exact hnew e' he' hparent (by rw [hone e' (by simp [he']) hparent])
    · have hmem : x ∈ shown := by
        rcases List.mem_append.mp hx with hx | hx
        · exact hx
        · exact absurd (by rw [List.mem_singleton.mp hx]) hsame
      have hxge := (hshow.fits x hmem).ge
      show pending (x.parent - first) = x.hash
      rw [hother _ (by omega)]
      exact h.pending x hmem fun e' he' => hone e' (by simp [he'])

variable [DecidableEq H]

omit [DecidableEq H] in
theorem Shown.pending_eq (h : Shown first records shown w) (hshow : Showable first records shown) {e e' : Edge H}
    (hfits : EdgeFits first records e) (he' : e' ∈ shown) (hparent : e'.parent = e.parent)
    (hnew : ∀ x ∈ shown, x.parent = e.parent → x.child ≠ e.child) : w.pending (e.parent - first) = e'.hash := by
  rw [← hparent]
  apply h.pending e' he'
  intro x hx hxp
  exact hshow.other_eq hfits hx he' (hxp.trans hparent) hparent (hnew x hx (hxp.trans hparent)) (hnew e' he' hparent)

theorem showChild_eq (w : Seen H) (e : Edge H) : showChild first records w e =
    if e.parent < first ∨ e.parent ≥ first + records.length then
      .error "forest validation scratch parent is out of range"
    else if (inWindow first records e.parent).type ≠ .branch ∨
        sideOf (inWindow first records e.parent) e.child = 0 ∨
        w.seen (e.parent - first) &&& sideOf (inWindow first records e.parent) e.child ≠ 0 then
      .error "online branch child has an inconsistent parent"
    else if w.seen (e.parent - first) = 0 then
      .ok ⟨Function.update w.pending (e.parent - first) e.hash, Function.update w.seen (e.parent - first)
        (w.seen (e.parent - first) ||| sideOf (inWindow first records e.parent) e.child)⟩
    else if combine (inWindow first records e.parent) e (w.pending (e.parent - first)) ≠
        (inWindow first records e.parent).hash then
      .error "online branch hash does not match its children"
    else
      .ok ⟨w.pending, Function.update w.seen (e.parent - first)
        (w.seen (e.parent - first) ||| sideOf (inWindow first records e.parent) e.child)⟩ := rfl

theorem showChild_ok (h : Shown first records shown w) (hshow : Showable first records shown) {e : Edge H} {w' : Seen H}
    (hrun : showChild first records w e = .ok w') :
    Showable first records (shown ++ [e]) ∧ Shown first records (shown ++ [e]) w' := by
  rw [showChild_eq] at hrun
  split_ifs at hrun with hrange hfit hzero hhash
  · have hfits : EdgeFits first records e :=
      ⟨by omega, by omega, by_contra fun h => hfit (Or.inl h), fun h => hfit (Or.inr (Or.inl h))⟩
    have hnone := (h.seen_eq_zero_iff hshow hfits.ge).mp hzero
    refine ⟨showable_append.mpr ⟨hshow, hfits, fun e' he' hp => absurd hp (hnone e' he')⟩, ?_⟩
    obtain rfl := Except.ok.inj hrun
    apply h.append hshow hfits fun e' he' hp => absurd hp (hnone e' he')
    · intro i hi
      exact Function.update_of_ne hi _ _
    · intro _
      exact Function.update_self _ _ _
  · have hfits : EdgeFits first records e :=
      ⟨by omega, by omega, by_contra fun h => hfit (Or.inl h), fun h => hfit (Or.inr (Or.inl h))⟩
    have hnew : ∀ e' ∈ shown, e'.parent = e.parent → e'.child ≠ e.child := fun e' he' hp hc =>
      hfit (Or.inr (Or.inr ((h.bit_iff hfits).mpr ⟨e', he', hp, hc⟩)))
    refine ⟨showable_append.mpr ⟨hshow, hfits, fun e' he' hp => ?_⟩, ?_⟩
    · rw [h.pending_eq hshow hfits he' hp hnew] at hhash
      exact ⟨hnew e' he' hp, not_not.mp hhash⟩
    · obtain rfl := Except.ok.inj hrun
      exact h.append hshow hfits hnew w.pending (fun _ _ => rfl) fun h0 => absurd h0 hzero

theorem showChild_of_showable (h : Shown first records shown w) {e : Edge H}
    (hshow : Showable first records (shown ++ [e])) : ∃ w', showChild first records w e = .ok w' := by
  obtain ⟨hshow, hfits, hmeet⟩ := showable_append.mp hshow
  have hnew : ∀ e' ∈ shown, e'.parent = e.parent → e'.child ≠ e.child := fun e' he' hp => (hmeet e' he' hp).1
  have hge := hfits.ge
  have hlt := hfits.lt
  have hbit : w.seen (e.parent - first) &&& sideOf (inWindow first records e.parent) e.child = 0 := by
    by_contra hne
    obtain ⟨e', he', hp, hc⟩ := (h.bit_iff hfits).mp hne
    exact hnew e' he' hp hc
  have hfit : ¬((inWindow first records e.parent).type ≠ .branch ∨
      sideOf (inWindow first records e.parent) e.child = 0 ∨
      w.seen (e.parent - first) &&& sideOf (inWindow first records e.parent) e.child ≠ 0) := by
    simp [hfits.branch, hfits.listed, hbit]
  rw [showChild_eq, if_neg (by omega), if_neg hfit]
  by_cases hzero : w.seen (e.parent - first) = 0
  · rw [if_pos hzero]
    exact ⟨_, rfl⟩
  · have hsome : ¬∀ e' ∈ shown, e'.parent ≠ e.parent := fun hnone =>
      hzero ((h.seen_eq_zero_iff hshow hge).mpr hnone)
    push Not at hsome
    obtain ⟨e', he', hp⟩ := hsome
    have hcombined := (hmeet e' he' hp).2
    rw [← h.pending_eq hshow hfits he' hp hnew] at hcombined
    rw [if_neg hzero, if_neg (not_not.mpr hcombined)]
    exact ⟨_, rfl⟩

/-! ## A list of children -/

theorem foldlM_showChild_ok (events : List (Edge H)) (h : Shown first records shown w)
    (hshow : Showable first records shown) {w' : Seen H} (hrun : events.foldlM (showChild first records) w = .ok w') :
    Showable first records (shown ++ events) ∧ Shown first records (shown ++ events) w' := by
  induction events generalizing shown w with
  | nil =>
    obtain rfl := Except.ok.inj hrun
    rw [List.append_nil]
    exact ⟨hshow, h⟩
  | cons e events ih =>
    rw [List.foldlM_cons] at hrun
    cases hstep : showChild first records w e with
    | error message =>
      rw [hstep] at hrun
      cases hrun
    | ok w1 =>
      rw [hstep] at hrun
      obtain ⟨hshow1, h1⟩ := showChild_ok h hshow hstep
      have := ih h1 hshow1 hrun
      rwa [List.append_assoc] at this

theorem foldlM_showChild_of_showable (events : List (Edge H)) (h : Shown first records shown w)
    (hshow : Showable first records (shown ++ events)) : ∃ w', events.foldlM (showChild first records) w = .ok w' := by
  induction events generalizing shown w with
  | nil => exact ⟨w, rfl⟩
  | cons e events ih =>
    have hassoc : shown ++ e :: events = shown ++ [e] ++ events := by simp
    rw [hassoc] at hshow
    have hprefix : Showable first records (shown ++ [e]) :=
      ⟨fun x hx => hshow.fits x (List.mem_append_left _ hx), (List.pairwise_append.mp hshow.meet).1⟩
    obtain ⟨w1, hstep⟩ := showChild_of_showable h hprefix
    obtain ⟨hfront, -⟩ := showable_append.mp hprefix
    obtain ⟨w', hrest⟩ := ih (showChild_ok h hfront hstep).2 hshow
    refine ⟨w', ?_⟩
    rw [List.foldlM_cons, hstep]
    exact hrest

end UtreexoBridge
