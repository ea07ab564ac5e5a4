import Mathlib

/-!
# Coloured binary trees and their contexts

Binary trees with a colour in every node, and one-hole contexts over them, for reasoning about code
that walks up and down a tree.

* `join s c a x b` is a node whose subtree on side `s` is `a`, so that a statement about one side is
  also the statement about its mirror image;
* `Ctx` is the path from a position up to the root, innermost frame first, and `plug k t` puts `t`
  at the hole.  `toList_plug` splits the in-order sequence at the hole and `exists_plug` finds the
  position of any label.
-/

universe u

/-- The colour of a node. -/
inductive Color where
  | black
  | red
  deriving DecidableEq, Repr

/-- One of the two children. -/
inductive Side where
  | left
  | right
  deriving DecidableEq, Repr

/-- The other child. -/
def Side.flip : Side → Side
  | .left => .right
  | .right => .left

@[simp] theorem Side.flip_flip (s : Side) : s.flip.flip = s := by cases s <;> rfl

theorem Side.eq_or_eq_flip (s d : Side) : d = s ∨ d = s.flip := by
  cases s <;> cases d <;> decide

/-- A binary tree whose nodes carry a colour and a label. -/
inductive CTree (α : Type u) where
  | nil
  | node (c : Color) (l : CTree α) (x : α) (r : CTree α)

namespace CTree

variable {α : Type u}

/-- The label at the root. -/
def root : CTree α → Option α
  | nil => none
  | node _ _ x _ => some x

/-- The labels in order. -/
def toList : CTree α → List α
  | nil => []
  | node _ l x r => l.toList ++ x :: r.toList

/-- The root is a red node. -/
def isRed : CTree α → Bool
  | node .red _ _ _ => true
  | _ => false

/-- The root painted black. -/
def blacken : CTree α → CTree α
  | nil => nil
  | node _ l x r => node .black l x r

/-- The node with `a` on side `s` and `b` on the other side. -/
def join (s : Side) (c : Color) (a : CTree α) (x : α) (b : CTree α) : CTree α :=
  match s with
  | .left => node c a x b
  | .right => node c b x a

/-- A node taken apart, the subtree on side `s` first. -/
def split (s : Side) : CTree α → Option (Color × CTree α × α × CTree α)
  | nil => none
  | node c l x r =>
    match s with
    | .left => some (c, l, x, r)
    | .right => some (c, r, x, l)

theorem join_flip (s : Side) (c : Color) (a : CTree α) (x : α) (b : CTree α) :
    join s.flip c a x b = join s c b x a := by cases s <;> rfl

@[simp] theorem split_join (s : Side) (c : Color) (a : CTree α) (x : α) (b : CTree α) :
    split s (join s c a x b) = some (c, a, x, b) := by cases s <;> rfl

theorem eq_join_of_split {s : Side} {t : CTree α} {c : Color} {a b : CTree α} {x : α}
    (h : split s t = some (c, a, x, b)) : t = join s c a x b := by
  cases t with
  | nil => simp [split] at h
  | node c' l y r => cases s <;> simp_all [split, join]

/-- Every tree is empty or a `join` for any side. -/
theorem eq_nil_or_join (s : Side) (t : CTree α) : t = nil ∨ ∃ c a x b, t = join s c a x b := by
  cases t with
  | nil => exact Or.inl rfl
  | node c l x r =>
    cases s with
    | left => exact Or.inr ⟨c, l, x, r, rfl⟩
    | right => exact Or.inr ⟨c, r, x, l, rfl⟩

@[simp] theorem root_nil : (nil : CTree α).root = none := rfl

@[simp] theorem root_node (c : Color) (l : CTree α) (x : α) (r : CTree α) :
    (node c l x r).root = some x := rfl

@[simp] theorem root_join (s : Side) (c : Color) (a : CTree α) (x : α) (b : CTree α) :
    (join s c a x b).root = some x := by cases s <;> rfl

@[simp] theorem isRed_join (s : Side) (c : Color) (a : CTree α) (x : α) (b : CTree α) :
    (join s c a x b).isRed = (c == .red) := by cases s <;> cases c <;> rfl

@[simp] theorem blacken_join (s : Side) (c : Color) (a : CTree α) (x : α) (b : CTree α) :
    (join s c a x b).blacken = join s .black a x b := by cases s <;> rfl

@[simp] theorem root_blacken (t : CTree α) : t.blacken.root = t.root := by cases t <;> rfl

@[simp] theorem toList_blacken (t : CTree α) : t.blacken.toList = t.toList := by cases t <;> rfl

@[simp] theorem isRed_blacken (t : CTree α) : t.blacken.isRed = false := by cases t <;> rfl

@[simp] theorem isRed_nil : (nil : CTree α).isRed = false := rfl

theorem blacken_of_not_isRed {t : CTree α} (h : t.isRed = false) : t.blacken = t := by
  cases t with
  | nil => rfl
  | node c l x r =>
    cases c with
    | black => rfl
    | red => cases h

theorem root_mem {t : CTree α} {x : α} (h : t.root = some x) : x ∈ t.toList := by
  cases t with
  | nil => cases h
  | node c l y r =>
    cases h
    simp [toList]

theorem exists_root_of_isRed {t : CTree α} (h : t.isRed = true) : ∃ x, t.root = some x := by
  cases t with
  | nil => cases h
  | node c l x r => exact ⟨x, rfl⟩

theorem root_eq_none {t : CTree α} : t.root = none ↔ t = nil := by cases t <;> simp [root]

/-- The labels of a node, on whichever sides its subtrees are. -/
theorem toList_join_perm (s : Side) (c : Color) (a : CTree α) (x : α) (b : CTree α) :
    (join s c a x b).toList.Perm (x :: (a.toList ++ b.toList)) := by
  cases s with
  | left => exact List.perm_middle
  | right =>
    refine List.perm_middle.trans ?_
    exact List.Perm.cons x List.perm_append_comm

/-- A rotation keeps the in-order sequence. -/
theorem toList_rotate (s : Side) (c c' d d' : Color) (a : CTree α) (p : α) (b : CTree α) (q : α)
    (e : CTree α) :
    (join s d' (join s d a p b) q e).toList = (join s c a p (join s c' b q e)).toList := by
  cases s <;> simp [join, toList]

end CTree

/-! ### Contexts -/

/-- One step of the path to the root: the side of the hole, the node and its other subtree. -/
structure Frame (α : Type u) where
  side : Side
  color : Color
  node : α
  sibling : CTree α

/-- The path from a hole to the root, innermost frame first. -/
abbrev Ctx (α : Type u) := List (Frame α)

namespace Frame

variable {α : Type u}

/-- The subtree of the frame with `t` in the hole. -/
def fill (f : Frame α) (t : CTree α) : CTree α := t.join f.side f.color f.node f.sibling

/-- The labels of the frame that come before the hole. -/
def before (f : Frame α) : List α :=
  match f.side with
  | .left => []
  | .right => f.sibling.toList ++ [f.node]

/-- The labels of the frame that come after the hole. -/
def after (f : Frame α) : List α :=
  match f.side with
  | .left => f.node :: f.sibling.toList
  | .right => []

theorem toList_fill (f : Frame α) (t : CTree α) :
    (f.fill t).toList = f.before ++ t.toList ++ f.after := by
  obtain ⟨s, c, x, b⟩ := f
  cases s <;> simp [fill, CTree.join, CTree.toList, before, after]

end Frame

namespace Ctx

variable {α : Type u}

/-- The whole tree with `t` in the hole. -/
def plug : Ctx α → CTree α → CTree α
  | [], t => t
  | f :: k, t => plug k (f.fill t)

/-- The node above the hole. -/
def above : Ctx α → Option α
  | [] => none
  | f :: _ => some f.node

/-- The colour of the node above the hole. -/
def topColor : Ctx α → Option Color
  | [] => none
  | f :: _ => some f.color

/-- The root of the whole tree, when `h` is the root of what is in the hole. -/
def topOf : Ctx α → Option α → Option α
  | [], h => h
  | f :: k, _ => topOf k (some f.node)

/-- The labels of the context. -/
def nodes : Ctx α → List α
  | [] => []
  | f :: k => f.node :: (f.sibling.toList ++ nodes k)

/-- The labels before the hole. -/
def before : Ctx α → List α
  | [] => []
  | f :: k => before k ++ f.before

/-- The labels after the hole. -/
def after : Ctx α → List α
  | [] => []
  | f :: k => f.after ++ after k

theorem plug_append (k k' : Ctx α) (t : CTree α) : plug (k ++ k') t = plug k' (plug k t) := by
  induction k generalizing t with
  | nil => rfl
  | cons f k ih => exact ih (f.fill t)

theorem before_append (k k' : Ctx α) : before (k ++ k') = before k' ++ before k := by
  induction k with
  | nil => simp [before]
  | cons f k ih => simp [before, ih]

theorem after_append (k k' : Ctx α) : after (k ++ k') = after k ++ after k' := by
  induction k with
  | nil => simp [after]
  | cons f k ih => simp [after, ih]

theorem nodes_append (k k' : Ctx α) : nodes (k ++ k') = nodes k ++ nodes k' := by
  induction k with
  | nil => rfl
  | cons f k ih => simp [nodes, ih]

theorem root_plug (k : Ctx α) (t : CTree α) : (plug k t).root = topOf k t.root := by
  induction k generalizing t with
  | nil => rfl
  | cons f k ih =>
    rw [plug, ih, Frame.fill, CTree.root_join]
    rfl

/-- Below a frame, the root of the whole tree is a label of the context. -/
theorem topOf_mem (f : Frame α) (k : Ctx α) (h : Option α) :
    ∃ r, topOf (f :: k) h = some r ∧ r ∈ nodes (f :: k) := by
  induction k generalizing f h with
  | nil => exact ⟨f.node, rfl, by simp [nodes]⟩
  | cons f' k ih =>
    obtain ⟨r, hr, hmem⟩ := ih f' (some f.node)
    exact ⟨r, hr, by simp only [nodes, List.mem_cons, List.mem_append] at hmem ⊢; tauto⟩

/-- **The in-order sequence around a hole.** -/
theorem toList_plug (k : Ctx α) (t : CTree α) :
    (plug k t).toList = before k ++ t.toList ++ after k := by
  induction k generalizing t with
  | nil => simp [plug, before, after]
  | cons f k ih => simp [plug, ih, Frame.toList_fill, before, after]

/-- The labels of a tree around a hole, context last. -/
theorem toList_plug_perm (k : Ctx α) (t : CTree α) :
    (plug k t).toList.Perm (t.toList ++ nodes k) := by
  induction k generalizing t with
  | nil => simp [plug, nodes]
  | cons f k ih =>
    refine (ih (f.fill t)).trans ?_
    have h := (CTree.toList_join_perm f.side f.color t f.node f.sibling).append_right (nodes k)
    refine h.trans ?_
    simp only [nodes, List.cons_append, List.append_assoc]
    exact List.perm_middle.symm

theorem nodup_plug {k : Ctx α} {t : CTree α} :
    (plug k t).toList.Nodup ↔ (t.toList ++ nodes k).Nodup :=
  (toList_plug_perm k t).nodup_iff

theorem mem_plug {k : Ctx α} {t : CTree α} {x : α} :
    x ∈ (plug k t).toList ↔ x ∈ t.toList ∨ x ∈ nodes k := by
  rw [(toList_plug_perm k t).mem_iff, List.mem_append]

theorem length_le (k : Ctx α) (t : CTree α) : k.length ≤ (plug k t).toList.length := by
  rw [(toList_plug_perm k t).length_eq, List.length_append]
  suffices h : k.length ≤ (nodes k).length by omega
  induction k with
  | nil => exact le_rfl
  | cons f k ih =>
    simp only [nodes, List.length_cons, List.length_append]
    omega

/-- Every label of a tree is at the root of a subtree in some context. -/
theorem exists_plug {t : CTree α} {x : α} (h : x ∈ t.toList) :
    ∃ k c l r, t = plug k (.node c l x r) := by
  induction t with
  | nil => simp [CTree.toList] at h
  | node c l y r ihl ihr =>
    simp only [CTree.toList, List.mem_append, List.mem_cons] at h
    rcases h with h | rfl | h
    · obtain ⟨k, c', l', r', rfl⟩ := ihl h
      refine ⟨k ++ [⟨.left, c, y, r⟩], c', l', r', ?_⟩
      rw [plug_append]
      rfl
    · exact ⟨[], c, l, r, rfl⟩
    · obtain ⟨k, c', l', r', rfl⟩ := ihr h
      refine ⟨k ++ [⟨.right, c, y, l⟩], c', l', r', ?_⟩
      rw [plug_append]
      rfl

end Ctx

/-! ### The order towards a side -/

namespace CTree

variable {α : Type u}

/-- The labels in the order in which a walk towards side `s` comes to them. -/
def listToward (s : Side) (t : CTree α) : List α :=
  match s with
  | .right => t.toList
  | .left => t.toList.reverse

theorem listToward_flip (s : Side) (t : CTree α) : t.listToward s.flip = (t.listToward s).reverse := by
  cases s <;> simp [listToward, Side.flip]

@[simp] theorem listToward_nil (s : Side) : (nil : CTree α).listToward s = [] := by cases s <;> rfl

theorem mem_listToward {s : Side} {t : CTree α} {x : α} : x ∈ t.listToward s ↔ x ∈ t.toList := by
  cases s <;> simp [listToward]

theorem nodup_listToward {s : Side} {t : CTree α} : (t.listToward s).Nodup ↔ t.toList.Nodup := by
  cases s <;> simp [listToward]

/-- The subtree on side `s` comes last. -/
theorem listToward_join (s : Side) (c : Color) (a : CTree α) (x : α) (b : CTree α) :
    (join s c a x b).listToward s = b.listToward s ++ x :: a.listToward s := by
  cases s <;> simp [join, listToward, toList]

end CTree

namespace Ctx

variable {α : Type u}

/-- The labels that a walk towards side `s` comes to after the hole. -/
def ahead (s : Side) : Ctx α → List α
  | [] => []
  | f :: k => if f.side = s then ahead s k else f.node :: (f.sibling.listToward s ++ ahead s k)

/-- **The order around a hole**, towards either side. -/
theorem listToward_plug (s : Side) (k : Ctx α) (t : CTree α) :
    (plug k t).listToward s = (ahead s.flip k).reverse ++ t.listToward s ++ ahead s k := by
  induction k generalizing t with
  | nil => simp [plug, ahead]
  | cons f k ih =>
    obtain ⟨d, c, x, b⟩ := f
    rw [plug, ih, Frame.fill]
    rcases s.eq_or_eq_flip d with rfl | rfl
    · have hne : d ≠ d.flip := by cases d <;> decide
      simp [ahead, CTree.listToward_join, CTree.listToward_flip, hne]
    · have hne : s.flip ≠ s := by cases s <;> decide
      simp [ahead, CTree.join_flip, CTree.listToward_join, hne]

end Ctx
