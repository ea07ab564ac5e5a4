import Kalisto.Lib.RedBlack

/-!
# Bottom-up rebalancing after a deletion

`fixDelete k t` repairs a tree in which the subtree `t` has one black node too few on every path.
A red sibling is rotated away first; a black sibling without red children is painted red and the
deficit moves up; a red child of the sibling allows the rotation that ends the repair.

* `redBlack_fixDelete`, `toList_fixDelete` — the repaired tree is red-black, in the same order;
* `removeAt k c l r` — the whole deletion of the node between `l` and `r`: a node with two
  children is replaced by the leftmost node of its right subtree;
* `redBlack_removeAt`, `toList_removeAt` — it keeps the properties and removes exactly that node.
-/

universe u

namespace Ctx

open CTree

variable {α : Type u}

/-! ### The repair -/

/-- The end of the repair when the sibling `y` of the short subtree `t` is black, `a` its subtree
next to `t` and `b` the one away from `t`.  `up` goes on with the parent `p`. -/
def fixSibling (s : Side) (c : Color) (p : α) (a : CTree α) (y : α) (b : CTree α) (k : Ctx α)
    (t : CTree α) (up : CTree α → CTree α) : CTree α :=
  if a.isRed = false ∧ b.isRed = false then up (join s c t p (join s .red a y b))
  else if b.isRed then (plug k (join s c (join s .black t p a) y b.blacken)).blacken
  else
    match a.split s with
    | some (_, a₁, z, a₂) =>
      (plug k (join s c (join s .black t p a₁) z (join s .black a₂ y b))).blacken
    | none => plug k (join s c t p (join s .black a y b))

/-- Repair a tree in which every path through `t` is one black node short. -/
def fixDelete : Ctx α → CTree α → CTree α
  | [], t => t.blacken
  | ⟨s, c, p, b⟩ :: k, t =>
    if t.isRed then plug (⟨s, c, p, b⟩ :: k) t.blacken
    else
      match b.split s with
      | some (.black, b₁, y, b₂) => fixSibling s c p b₁ y b₂ k t (fixDelete k)
      | some (.red, b₁, y, b₂) =>
        match b₁.split s with
        | some (_, a₁, z, a₂) =>
          fixSibling s .red p a₁ z a₂ (⟨s, .black, y, b₂⟩ :: k) t
            fun u => plug (⟨s, .black, y, b₂⟩ :: k) u.blacken
        | none => plug (⟨s, c, p, b⟩ :: k) t
      | none => plug (⟨s, c, p, b⟩ :: k) t

theorem toList_fixSibling (s : Side) (c : Color) (p : α) (a : CTree α) (y : α) (b : CTree α)
    (k : Ctx α) (t : CTree α) (up : CTree α → CTree α)
    (hup : ∀ u, (up u).toList = (plug k u).toList) :
    (fixSibling s c p a y b k t up).toList =
      before k ++ (join s c t p (join s .black a y b)).toList ++ after k := by
  simp only [fixSibling]
  split
  · rw [hup, toList_plug]
    cases s <;> rfl
  split
  · rw [toList_blacken, toList_plug]
    cases s <;> simp [join, toList]
  split
  · rename_i c' a₁ z a₂ ha
    rw [eq_join_of_split ha, toList_blacken, toList_plug]
    cases s <;> simp [join, toList]
  · rw [toList_plug]

/-- **Rebalancing after a deletion keeps the in-order sequence.** -/
theorem toList_fixDelete (k : Ctx α) (t : CTree α) :
    (fixDelete k t).toList = (plug k t).toList := by
  induction k generalizing t with
  | nil => simp [fixDelete, plug]
  | cons f k ih =>
    obtain ⟨s, c, p, b⟩ := f
    simp only [fixDelete]
    split
    · simp [toList_plug]
    split
    · rename_i b₁ y b₂ hb
      rw [toList_fixSibling _ _ _ _ _ _ _ _ _ ih, eq_join_of_split hb, plug, toList_plug]
      rfl
    · rename_i b₁ y b₂ hb
      split
      · rename_i c' a₁ z a₂ ha
        rw [toList_fixSibling _ _ _ _ _ _ _ _ _ (fun u => by simp [toList_plug]),
          eq_join_of_split hb, eq_join_of_split ha, toList_plug]
        cases s <;> simp [join, toList, before, after, Frame.before, Frame.after]
      · rfl
    · rfl

/-- What is known about the sibling of a subtree that is one black node short: it is a black node, or
a red node below a black one whose subtree next to the hole has a black root. -/
theorem sibling_cases {s : Side} {c : Color} {p : α} {b : CTree α} {k : Ctx α} {n : ℕ}
    (hk : Colored (⟨s, c, p, b⟩ :: k)) (hkb : Balanced (⟨s, c, p, b⟩ :: k) (n + 1)) :
    (∃ b₁ y b₂, b = join s .black b₁ y b₂ ∧ (b₁.NoRedRed ∧ b₁.Balanced n) ∧
      b₂.NoRedRed ∧ b₂.Balanced n) ∨
    ∃ a₁ z a₂ y b₂, b = join s .red (join s .black a₁ z a₂) y b₂ ∧ c = .black ∧
      (a₁.NoRedRed ∧ a₁.Balanced n) ∧ (a₂.NoRedRed ∧ a₂.Balanced n) ∧
      b₂.NoRedRed ∧ b₂.Balanced (n + 1) := by
  obtain ⟨hbn, hbc, -⟩ := hk
  obtain ⟨hbb, -⟩ := hkb
  obtain rfl | ⟨cb, b₁, y, b₂, rfl⟩ := eq_nil_or_join s b
  · -- its paths have at least one black node, so it is not empty
    simp at hbb
  obtain ⟨m, hm, hb1, hb2⟩ := balanced_join.mp hbb
  obtain ⟨hbred, hb1n, hb2n⟩ := noRedRed_join.mp hbn
  cases cb with
  | black =>
    simp only [weight, Nat.add_right_cancel_iff] at hm
    subst hm
    exact Or.inl ⟨b₁, y, b₂, rfl, ⟨hb1n, hb1⟩, hb2n, hb2⟩
  | red =>
    simp only [weight, Nat.add_zero] at hm
    subst hm
    have hc : c = .black := by
      cases c with
      | black => rfl
      | red => simpa using (hbc rfl).1
    obtain rfl | ⟨ca, a₁, z, a₂, rfl⟩ := eq_nil_or_join s b₁
    · simp at hb1
    have hca : ca = .black := by
      cases ca with
      | black => rfl
      | red => simpa using (hbred rfl).1
    subst hca
    obtain ⟨m, hm, ha1, ha2⟩ := balanced_join.mp hb1
    simp only [weight, Nat.add_right_cancel_iff] at hm
    subst hm
    obtain ⟨-, ha1n, ha2n⟩ := noRedRed_join.mp hb1n
    exact Or.inr ⟨a₁, z, a₂, y, b₂, rfl, hc, ⟨ha1n, ha1⟩, ⟨ha2n, ha2⟩, hb2n, hb2⟩

/-- A sibling painted red makes the paths through it as short as those through `t`. -/
theorem recolored_ok {s : Side} {c : Color} {p y : α} {a b t : CTree α} {n : ℕ}
    (ht : t.NoRedRed ∧ t.Balanced n) (ha : a.NoRedRed ∧ a.Balanced n)
    (hb : b.NoRedRed ∧ b.Balanced n) (har : a.isRed = false) (hbr : b.isRed = false) :
    (join s c t p (join s .red a y b)).blacken.NoRedRed ∧
      (join s c t p (join s .red a y b)).Balanced (n + weight c) := by
  constructor
  · simp [ht.1, ha.1, hb.1, har, hbr]
  · simp [ht.2, ha.2, hb.2, weight]

/-- The last part of the repair, for a black sibling. -/
theorem redBlack_fixSibling {s : Side} {c : Color} {p y : α} {a b t : CTree α} {k : Ctx α}
    {up : CTree α → CTree α} {n : ℕ} (ht : t.NoRedRed ∧ t.Balanced n)
    (ha : a.NoRedRed ∧ a.Balanced n) (hb : b.NoRedRed ∧ b.Balanced n)
    (hk : k.Colored) (hkc : c = .red → topColor k = some .black)
    (hkb : k.Balanced (n + 1 + weight c))
    (hup : ∀ u, u.blacken.NoRedRed → u.Balanced (n + weight c) → u.isRed = (c == .red) →
      (up u).RedBlack) :
    (fixSibling s c p a y b k t up).RedBlack := by
  simp only [fixSibling]
  split
  · rename_i hab
    obtain ⟨h1, h2⟩ := recolored_ok (s := s) (c := c) (p := p) (y := y) ht ha hb hab.1 hab.2
    exact hup _ h1 h2 (by simp)
  split
  · rename_i hbr
    have hb' : b.blacken.Balanced (n + 1) := Balanced.blacken hb.2 hbr
    refine RedBlack.blacken ((redBlack_plug _ _).mpr ⟨hk, ?_, ?_, n + 1 + weight c, ?_, hkb⟩)
    · simp [ht.1, ha.1, hb.1.blacken]
    · intro h
      exact hkc (by simpa using h)
    · simp [ht.2, ha.2, hb', weight]
  · rename_i hnot hbr
    -- the sibling has a red child, so it is the one next to `t`
    have har : a.isRed = true := by
      by_contra h
      exact hnot ⟨by simpa using h, by simpa using hbr⟩
    obtain rfl | ⟨c', a₁, z, a₂, rfl⟩ := eq_nil_or_join s a
    · simp at har
    · simp only [isRed_join, beq_iff_eq] at har
      subst har
      obtain ⟨m, hm, h1, h2⟩ := balanced_join.mp ha.2
      simp only [weight, Nat.add_zero] at hm
      subst hm
      obtain ⟨-, ha1, ha2⟩ := noRedRed_join.mp ha.1
      simp only [split_join]
      refine RedBlack.blacken ((redBlack_plug _ _).mpr ⟨hk, ?_, ?_, n + 1 + weight c, ?_, hkb⟩)
      · simp [ht.1, ha1, ha2, hb.1]
      · intro h
        exact hkc (by simpa using h)
      · simp [ht.2, h1, h2, hb.2, weight]

/-- **Rebalancing after a deletion.**  Everything is right except that the paths through `t` have
one black node too few and the root of `t` may be red below a red node, or above one. -/
theorem redBlack_fixDelete (k : Ctx α) (t : CTree α) {n : ℕ} (htn : t.blacken.NoRedRed)
    (htb : t.Balanced n) (hk : k.Colored) (hkb : k.Balanced (n + 1)) :
    (fixDelete k t).RedBlack := by
  induction k generalizing t n with
  | nil => exact NoRedRed.redBlack htn htb
  | cons f k ih =>
    obtain ⟨s, c, p, b⟩ := f
    cases htr : t.isRed with
    | true =>
      simp only [fixDelete, htr, if_true]
      exact redBlack_plug_black hk hkb htn (htb.blacken htr) (isRed_blacken t)
    | false =>
      rw [blacken_of_not_isRed htr] at htn
      simp only [fixDelete, htr, Bool.false_eq_true, if_false]
      rcases sibling_cases hk hkb with ⟨b₁, y, b₂, rfl, hb1, hb2⟩ |
        ⟨a₁, z, a₂, y, b₂, rfl, rfl, ha1, ha2, hb2n, hb2⟩
      · simp only [split_join]
        refine redBlack_fixSibling ⟨htn, htb⟩ hb1 hb2 hk.2.2 (fun hc => (hk.2.1 hc).2) hkb.2 ?_
        intro u hun hub hur
        refine ih u hun hub hk.2.2 ?_
        simpa [Nat.add_right_comm] using hkb.2
      · simp only [split_join]
        -- after the rotation the parent is red and the black sibling is above it
        have hk₁ : Colored (⟨s, .black, y, b₂⟩ :: k : Ctx α) :=
          ⟨hb2n, fun h => (by cases h), hk.2.2⟩
        refine redBlack_fixSibling ⟨htn, htb⟩ ha1 ha2 hk₁ (fun _ => rfl) ⟨hb2, hkb.2⟩ ?_
        intro u hun hub hur
        simp only [beq_self_eq_true] at hur
        exact redBlack_plug_black hk₁ ⟨hb2, hkb.2⟩ hun (Balanced.blacken hub hur)
          (isRed_blacken u)

/-! ### The whole deletion -/

/-- The leftmost node of a node's subtree: the context of the node, its colour and label, and its
right subtree. -/
def firstOf (c : Color) (l : CTree α) (x : α) (r : CTree α) : Ctx α × Color × α × CTree α :=
  match l with
  | .nil => ([], c, x, r)
  | .node c' l' x' r' =>
    let (k, cy, y, ry) := firstOf c' l' x' r'
    (k ++ [⟨.left, c, x, r⟩], cy, y, ry)

/-- The node is found where `firstOf` says. -/
theorem plug_firstOf (c : Color) (l : CTree α) (x : α) (r : CTree α) :
    plug (firstOf c l x r).1
      (.node (firstOf c l x r).2.1 .nil (firstOf c l x r).2.2.1 (firstOf c l x r).2.2.2) =
        .node c l x r := by
  induction l generalizing c x r with
  | nil => rfl
  | node c' l' x' r' ih _ =>
    simp only [firstOf, plug_append, ih c' x' r']
    rfl

/-- Nothing comes before the leftmost node. -/
theorem before_firstOf (c : Color) (l : CTree α) (x : α) (r : CTree α) :
    before (firstOf c l x r).1 = [] := by
  induction l generalizing c x r with
  | nil => rfl
  | node c' l' x' r' ih _ => simp [firstOf, before_append, ih c' x' r', before, Frame.before]

/-- Close the gap a node of colour `c` left behind, with its only child `t` in its place. -/
def closeGap (k : Ctx α) (c : Color) (t : CTree α) : CTree α :=
  match c with
  | .black => fixDelete k t
  | .red => plug k t

/-- The gap that is left when the node of colour `c` with the subtrees `l` and `r` is taken out of
the context `k`: its context, the colour of the node really taken out, and the child in its place. -/
def gapOf (k : Ctx α) (c : Color) (l : CTree α) (r : CTree α) : Ctx α × Color × CTree α :=
  match l, r with
  | .nil, r => (k, c, r)
  | l, .nil => (k, c, l)
  | l, .node cr lr xr rr =>
    let (kr, cy, y, ry) := firstOf cr lr xr rr
    (kr ++ ⟨.right, c, y, l⟩ :: k, cy, ry)

/-- Delete the node of colour `c` with the subtrees `l` and `r` in the context `k`. -/
def removeAt (k : Ctx α) (c : Color) (l : CTree α) (r : CTree α) : CTree α :=
  closeGap (gapOf k c l r).1 (gapOf k c l r).2.1 (gapOf k c l r).2.2

theorem toList_closeGap (k : Ctx α) (c : Color) (t : CTree α) :
    (closeGap k c t).toList = before k ++ t.toList ++ after k := by
  cases c with
  | black => rw [closeGap, toList_fixDelete, toList_plug]
  | red => rw [closeGap, toList_plug]

/-- **Exactly the node is gone.** -/
theorem toList_removeAt (k : Ctx α) (c : Color) (l r : CTree α) :
    (removeAt k c l r).toList = before k ++ (l.toList ++ r.toList) ++ after k := by
  cases l with
  | nil => simp [removeAt, gapOf, toList_closeGap, toList]
  | node cl ll xl rl =>
    cases r with
    | nil => simp [removeAt, gapOf, toList_closeGap, toList]
    | node cr lr xr rr =>
      have hr := congrArg CTree.toList (plug_firstOf cr lr xr rr)
      rw [toList_plug, before_firstOf] at hr
      simp only [removeAt, gapOf, toList_closeGap, before_append, after_append, before, after,
        Frame.before, Frame.after, before_firstOf, ← hr]
      simp [toList]

/-- Closing a gap: the context expected a node of colour `c` with `t` and a tree like it below. -/
theorem redBlack_closeGap {k : Ctx α} {c : Color} {t : CTree α} {n : ℕ} (hk : k.Colored)
    (hkb : k.Balanced (n + weight c)) (htn : t.NoRedRed) (htb : t.Balanced n)
    (htr : c = .red → t.isRed = false) : (closeGap k c t).RedBlack := by
  cases c with
  | black => exact redBlack_fixDelete k t htn.blacken htb hk hkb
  | red => exact redBlack_plug_black hk hkb htn htb (htr rfl)

/-- What a context knows about a node in its hole. -/
theorem redBlack_plug_node {k : Ctx α} {c : Color} {l r : CTree α} {x : α}
    (h : (plug k (.node c l x r)).RedBlack) :
    ∃ n, k.Colored ∧ k.Balanced (n + weight c) ∧ (l.NoRedRed ∧ l.Balanced n) ∧
      (r.NoRedRed ∧ r.Balanced n) ∧ (c = .red → l.isRed = false ∧ r.isRed = false) := by
  obtain ⟨hk, hn, -, m, hb, hkb⟩ := (redBlack_plug k _).mp h
  obtain ⟨n, rfl, hl, hr⟩ := balanced_node.mp hb
  exact ⟨n, hk, hkb, ⟨hn.2.1, hl⟩, ⟨hn.2.2, hr⟩, hn.1⟩

/-- The properties of a context do not depend on the labels. -/
theorem relabel (kr k : Ctx α) (s : Side) (c : Color) (x y : α) (l : CTree α) :
    ((kr ++ ⟨s, c, x, l⟩ :: k).Colored → Colored (kr ++ ⟨s, c, y, l⟩ :: k)) ∧
      topColor (kr ++ ⟨s, c, y, l⟩ :: k) = topColor (kr ++ ⟨s, c, x, l⟩ :: k) ∧
      ∀ n, (kr ++ ⟨s, c, x, l⟩ :: k).Balanced n → Balanced (kr ++ ⟨s, c, y, l⟩ :: k) n := by
  induction kr with
  | nil => exact ⟨id, rfl, fun n h => h⟩
  | cons f kr ih =>
    obtain ⟨h1, h2, h3⟩ := ih
    refine ⟨fun h => ⟨h.1, fun hc => ⟨(h.2.1 hc).1, ?_⟩, h1 h.2.2⟩, rfl, fun n h => ⟨h.1, h3 _ h.2⟩⟩
    exact h2.trans (h.2.1 hc).2

/-- The gap a node leaves in a red-black tree can be closed. -/
theorem gapOf_ok {k : Ctx α} {c : Color} {l r : CTree α} {x : α}
    (h : (plug k (.node c l x r)).RedBlack) :
    ∃ n, (gapOf k c l r).1.Colored ∧ (gapOf k c l r).1.Balanced (n + weight (gapOf k c l r).2.1) ∧
      (gapOf k c l r).2.2.NoRedRed ∧ (gapOf k c l r).2.2.Balanced n ∧
      ((gapOf k c l r).2.1 = .red → (gapOf k c l r).2.2.isRed = false) := by
  cases l with
  | nil =>
    obtain ⟨n, hk, hkb, -, hr, hc⟩ := redBlack_plug_node h
    exact ⟨n, hk, hkb, hr.1, hr.2, fun hred => (hc hred).2⟩
  | node cl ll xl rl =>
    cases r with
    | nil =>
      obtain ⟨n, hk, hkb, hl, -, hc⟩ := redBlack_plug_node h
      exact ⟨n, hk, hkb, hl.1, hl.2, fun hred => (hc hred).1⟩
    | node cr lr xr rr =>
      -- the node that is really taken out is the leftmost one of the right subtree
      obtain ⟨kr, cy, y, ry, hf⟩ : ∃ kr cy y ry, firstOf cr lr xr rr = (kr, cy, y, ry) :=
        ⟨_, _, _, _, rfl⟩
      have hplug := plug_firstOf cr lr xr rr
      rw [hf] at hplug
      have hwhole : plug k (.node c (.node cl ll xl rl) x (.node cr lr xr rr)) =
          plug (kr ++ ⟨.right, c, x, .node cl ll xl rl⟩ :: k) (.node cy .nil y ry) := by
        rw [plug_append, hplug]
        rfl
      rw [hwhole] at h
      obtain ⟨n, hk, hkb, -, hr, hc⟩ := redBlack_plug_node h
      obtain ⟨h1, -, h3⟩ := relabel kr k .right c x y (.node cl ll xl rl)
      simp only [gapOf, hf]
      exact ⟨n, h1 hk, h3 _ hkb, hr.1, hr.2, fun hred => (hc hred).2⟩

/-- **Deletion keeps the red-black properties.** -/
theorem redBlack_removeAt {k : Ctx α} {c : Color} {l r : CTree α} {x : α}
    (h : (plug k (.node c l x r)).RedBlack) : (removeAt k c l r).RedBlack := by
  obtain ⟨n, hk, hkb, htn, htb, htr⟩ := gapOf_ok h
  exact redBlack_closeGap hk hkb htn htb htr

end Ctx
