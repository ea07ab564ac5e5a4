import Kalisto.Lib.ColoredTree

/-!
# Red-black trees and bottom-up rebalancing

The red-black properties of a coloured tree, what they say about a tree around a hole, and the two
bottom-up rebalancing algorithms as functions on a context and a subtree.

* `RedBlack t` — black root, no red node with a red child, the same number of black nodes on every
  path from the root to an empty tree.  `redBlack_plug` splits it at a hole.
* `fixInsert k t` repairs one red-red violation between `t` and the node above it;
  `redBlack_fixInsert` and `toList_fixInsert` say that it does and keeps the in-order sequence.
* `RedBlack.height_le` — the height of a red-black tree is at most `2 log₂ (n + 1)`.
* `fixDelete k t` repairs a subtree `t` whose paths are one black node short;
  `redBlack_fixDelete` and `toList_fixDelete` are the same two facts.
-/

universe u

namespace CTree

variable {α : Type u}

/-! ### The properties -/

/-- How much a node of this colour adds to the black count of a path. -/
def weight : Color → ℕ
  | .black => 1
  | .red => 0

/-- The number of black nodes on each path from the root to an empty tree. -/
def blackCounts : CTree α → List ℕ
  | nil => [0]
  | node c l _ r => (l.blackCounts ++ r.blackCounts).map (· + weight c)

/-- Every path has `n` black nodes. -/
def Balanced (t : CTree α) (n : ℕ) : Prop := ∀ b ∈ t.blackCounts, b = n

/-- No red node has a red child. -/
def NoRedRed : CTree α → Prop
  | nil => True
  | node c l _ r => (c = .red → l.isRed = false ∧ r.isRed = false) ∧ l.NoRedRed ∧ r.NoRedRed

/-- A red-black tree. -/
structure RedBlack (t : CTree α) : Prop where
  blackRoot : t.isRed = false
  noRedRed : t.NoRedRed
  balanced : ∃ n, t.Balanced n

theorem blackCounts_ne_nil (t : CTree α) : t.blackCounts ≠ [] := by
  induction t with
  | nil => simp [blackCounts]
  | node c l x r ihl _ => simp [blackCounts, ihl]

@[simp] theorem balanced_nil {n : ℕ} : (nil : CTree α).Balanced n ↔ n = 0 := by
  simp [Balanced, blackCounts, eq_comm]

theorem balanced_node {c : Color} {l r : CTree α} {x : α} {n : ℕ} :
    (node c l x r).Balanced n ↔ ∃ m, n = m + weight c ∧ l.Balanced m ∧ r.Balanced m := by
  simp only [Balanced, blackCounts, List.mem_map, List.mem_append]
  constructor
  · intro h
    obtain ⟨b, hb⟩ := List.exists_mem_of_ne_nil _ l.blackCounts_ne_nil
    have hn := h _ ⟨b, Or.inl hb, rfl⟩
    refine ⟨b, hn.symm, fun b' hb' => ?_, fun b' hb' => ?_⟩
    · have := h _ ⟨b', Or.inl hb', rfl⟩
      omega
    · have := h _ ⟨b', Or.inr hb', rfl⟩
      omega
  · rintro ⟨m, rfl, hl, hr⟩ b ⟨b', hb' | hb', rfl⟩
    · rw [hl b' hb']
    · rw [hr b' hb']

@[simp] theorem balanced_join {s : Side} {c : Color} {a b : CTree α} {x : α} {n : ℕ} :
    (join s c a x b).Balanced n ↔ ∃ m, n = m + weight c ∧ a.Balanced m ∧ b.Balanced m := by
  cases s with
  | left => exact balanced_node
  | right =>
    refine balanced_node.trans ?_
    simp only [and_comm (a := a.Balanced _)]

@[simp] theorem noRedRed_nil : (nil : CTree α).NoRedRed := trivial

@[simp] theorem noRedRed_join {s : Side} {c : Color} {a b : CTree α} {x : α} :
    (join s c a x b).NoRedRed ↔
      (c = .red → a.isRed = false ∧ b.isRed = false) ∧ a.NoRedRed ∧ b.NoRedRed := by
  cases s with
  | left => rfl
  | right =>
    simp only [join, NoRedRed]
    rw [and_comm (a := a.isRed = false), and_comm (a := a.NoRedRed)]

theorem NoRedRed.blacken {t : CTree α} (h : t.NoRedRed) : t.blacken.NoRedRed := by
  cases t with
  | nil => trivial
  | node c l x r => exact ⟨fun hc => (by cases hc), h.2⟩

/-- Painting a red root black makes every path longer by one. -/
theorem Balanced.blacken {t : CTree α} {n : ℕ} (h : t.Balanced n) (hr : t.isRed = true) :
    t.blacken.Balanced (n + 1) := by
  cases t with
  | nil => cases hr
  | node c l x r =>
    cases c with
    | black => cases hr
    | red =>
      obtain ⟨m, hm, hl, hr'⟩ := balanced_node.mp h
      exact balanced_node.mpr ⟨m, by rw [hm]; rfl, hl, hr'⟩

/-- Painting the root black is enough when everything else is right. -/
theorem NoRedRed.redBlack {t : CTree α} {n : ℕ} (h : t.blacken.NoRedRed) (hb : t.Balanced n) :
    t.blacken.RedBlack := by
  refine ⟨isRed_blacken t, h, ?_⟩
  cases hr : t.isRed with
  | true => exact ⟨_, hb.blacken hr⟩
  | false =>
    rw [blacken_of_not_isRed hr]
    exact ⟨n, hb⟩

theorem RedBlack.blacken {t : CTree α} (h : t.RedBlack) : t.blacken.RedBlack := by
  rw [blacken_of_not_isRed h.blackRoot]
  exact h

/-! ### The height -/

/-- The number of nodes on the longest path. -/
def height : CTree α → ℕ
  | nil => 0
  | node _ l _ r => max l.height r.height + 1

/-- Two of three nodes in a row on a path are not red. -/
theorem NoRedRed.height_le {t : CTree α} {n : ℕ} (hn : t.NoRedRed) (hb : t.Balanced n) :
    t.height ≤ 2 * n + t.isRed.toNat := by
  induction t generalizing n with
  | nil => simp [height]
  | node c l x r ihl ihr =>
    obtain ⟨m, rfl, hl, hr⟩ := balanced_node.mp hb
    obtain ⟨hred, hnl, hnr⟩ := hn
    have h1 := ihl hnl hl
    have h2 := ihr hnr hr
    have h3 := Bool.toNat_le l.isRed
    have h4 := Bool.toNat_le r.isRed
    simp only [height]
    cases c with
    | black =>
      simp only [weight, isRed]
      omega
    | red =>
      obtain ⟨hlr, hrr⟩ := hred rfl
      rw [hlr, Bool.toNat_false] at h1
      rw [hrr, Bool.toNat_false] at h2
      simp only [weight, isRed, Bool.toNat_true]
      omega

/-- A tree with `n` black nodes on every path has at least `2 ^ n - 1` nodes. -/
theorem Balanced.two_pow_le {t : CTree α} {n : ℕ} (hb : t.Balanced n) :
    2 ^ n ≤ t.toList.length + 1 := by
  induction t generalizing n with
  | nil => simp [balanced_nil.mp hb]
  | node c l x r ihl ihr =>
    obtain ⟨m, rfl, hl, hr⟩ := balanced_node.mp hb
    have h1 := ihl hl
    have h2 := ihr hr
    simp only [toList, List.length_append, List.length_cons]
    cases c with
    | black =>
      simp only [weight, pow_succ]
      omega
    | red =>
      simp only [weight, Nat.add_zero]
      omega

/-- **The height of a red-black tree is logarithmic.** -/
theorem RedBlack.height_le {t : CTree α} (h : t.RedBlack) :
    (t.height : ℝ) ≤ 2 * Real.logb 2 (t.toList.length + 1) := by
  obtain ⟨hroot, hn, n, hb⟩ := h
  have hheight : t.height ≤ 2 * n := by
    simpa [hroot] using hn.height_le hb
  have hpow : (2 : ℝ) ^ n ≤ t.toList.length + 1 := by exact_mod_cast hb.two_pow_le
  have hlog : (n : ℝ) ≤ Real.logb 2 (t.toList.length + 1) := by
    rw [Real.le_logb_iff_rpow_le (by norm_num) (by positivity), Real.rpow_natCast]
    exact hpow
  calc (t.height : ℝ) ≤ 2 * n := by exact_mod_cast hheight
    _ ≤ 2 * Real.logb 2 (t.toList.length + 1) := by gcongr

end CTree

namespace Ctx

open CTree

variable {α : Type u}

/-! ### The properties around a hole -/

/-- Every sibling on the way up has as many black nodes as the hole is expected to have. -/
def Balanced : Ctx α → ℕ → Prop
  | [], _ => True
  | f :: k, n => f.sibling.Balanced n ∧ Balanced k (n + weight f.color)

/-- The colours on the way up are right, for a black subtree in the hole. -/
def Colored : Ctx α → Prop
  | [] => True
  | f :: k => f.sibling.NoRedRed ∧
      (f.color = .red → f.sibling.isRed = false ∧ topColor k = some .black) ∧ Colored k

theorem balanced_plug (k : Ctx α) (t : CTree α) :
    (∃ n, (plug k t).Balanced n) ↔ ∃ n, t.Balanced n ∧ k.Balanced n := by
  induction k generalizing t with
  | nil => simp [plug, Balanced]
  | cons f k ih =>
    rw [plug, ih]
    simp only [Frame.fill, balanced_join, Balanced]
    constructor
    · rintro ⟨n, ⟨m, rfl, ht, hs⟩, hk⟩
      exact ⟨m, ht, hs, hk⟩
    · rintro ⟨m, ht, hs, hk⟩
      exact ⟨_, ⟨m, rfl, ht, hs⟩, hk⟩

theorem colored_plug (k : Ctx α) (t : CTree α) :
    ((plug k t).isRed = false ∧ (plug k t).NoRedRed) ↔
      k.Colored ∧ t.NoRedRed ∧ (t.isRed = true → topColor k = some .black) := by
  induction k generalizing t with
  | nil =>
    simp only [plug, Colored, topColor, true_and, reduceCtorEq, imp_false, Bool.not_eq_true]
    exact and_comm
  | cons f k ih =>
    rw [plug, ih]
    simp only [Frame.fill, noRedRed_join, isRed_join, Colored, topColor, beq_iff_eq,
      Option.some.injEq]
    cases f.color <;> cases t.isRed <;> simp <;> tauto

/-- **The red-black properties, split at a hole.** -/
theorem redBlack_plug (k : Ctx α) (t : CTree α) :
    (plug k t).RedBlack ↔ k.Colored ∧ t.NoRedRed ∧ (t.isRed = true → topColor k = some .black) ∧
      ∃ n, t.Balanced n ∧ k.Balanced n := by
  rw [← balanced_plug]
  constructor
  · rintro ⟨h1, h2, h3⟩
    obtain ⟨hk, ht, hr⟩ := (colored_plug k t).mp ⟨h1, h2⟩
    exact ⟨hk, ht, hr, h3⟩
  · rintro ⟨hk, ht, hr, h3⟩
    obtain ⟨h1, h2⟩ := (colored_plug k t).mpr ⟨hk, ht, hr⟩
    exact ⟨h1, h2, h3⟩

/-- A black subtree of the expected height fits. -/
theorem redBlack_plug_black {k : Ctx α} {t : CTree α} {n : ℕ} (hk : k.Colored) (hb : k.Balanced n)
    (ht : t.NoRedRed) (hn : t.Balanced n) (hr : t.isRed = false) : (plug k t).RedBlack :=
  (redBlack_plug k t).mpr ⟨hk, ht, fun h => (by simp [hr] at h), n, hn, hb⟩

/-! ### Rebalancing after an insertion -/

/-- The tree after the last rotations: `t` is below the red `p` on side `d`, `p` is below the black
`g` on side `s`, and `b` is the other subtree of `g`. -/
def insertRotated (d s : Side) (t : CTree α) (p : α) (a : CTree α) (g : α) (b : CTree α) : CTree α :=
  if d = s then join s .black t p (join s .red a g b)
  else
    match t.split s with
    | some (_, t₁, x, t₂) => join s .black (join s .red a p t₁) x (join s .red t₂ g b)
    | none => join s .black (join d .red t p a) g b

/-- Repair a red-red violation between `t` and the node above it. -/
def fixInsert : Ctx α → CTree α → CTree α
  | ⟨d, .red, p, a⟩ :: ⟨s, _, g, b⟩ :: k, t =>
    if b.isRed then fixInsert k (join s .red (join d .black t p a) g b.blacken)
    else plug k (insertRotated d s t p a g b)
  | k, t => plug k t

theorem toList_insertRotated (d s : Side) (t : CTree α) (p : α) (a : CTree α) (g : α)
    (b : CTree α) :
    (insertRotated d s t p a g b).toList = (join s .black (join d .red t p a) g b).toList := by
  simp only [insertRotated]
  split
  · rename_i hds
    subst hds
    cases d <;> simp [join, toList]
  · rename_i hds
    split
    · rename_i c t₁ x t₂ ht
      rw [eq_join_of_split ht]
      cases d <;> cases s <;> simp_all [join, toList]
    · rfl

/-- **Rebalancing after an insertion keeps the in-order sequence.** -/
theorem toList_fixInsert (k : Ctx α) (t : CTree α) :
    (fixInsert k t).toList = (plug k t).toList := by
  fun_induction fixInsert k t with
  | case1 d p a s c g b k t hb ih =>
    rw [ih]
    simp only [plug, toList_plug, Frame.fill]
    cases d <;> cases s <;> simp [join, toList]
  | case2 d p a s c g b k t hb =>
    simp only [plug, toList_plug, toList_insertRotated, Frame.fill]
    cases d <;> cases s <;> simp [join, toList]
  | case3 k t _ => rfl

/-- The rotated tree is a black node whose two children are red and whose paths are as long as
before. -/
theorem insertRotated_ok {d s : Side} {t a b : CTree α} {p g : α} {n : ℕ} (ht : t.isRed = true)
    (htn : t.NoRedRed) (htb : t.Balanced n) (han : a.NoRedRed) (hab : a.Balanced n)
    (har : a.isRed = false) (hbn : b.NoRedRed) (hbb : b.Balanced n) (hbr : b.isRed = false) :
    (insertRotated d s t p a g b).NoRedRed ∧ (insertRotated d s t p a g b).Balanced (n + 1) ∧
      (insertRotated d s t p a g b).isRed = false := by
  simp only [insertRotated]
  split
  · simp [htn, han, har, hbn, hbr, htb, hab, hbb, weight]
  · obtain rfl | ⟨c, t₁, x, t₂, rfl⟩ := eq_nil_or_join s t
    · simp at ht
    · simp only [isRed_join, beq_iff_eq] at ht
      subst ht
      simp only [noRedRed_join, true_imp_iff] at htn
      obtain ⟨m, hm, h1, h2⟩ := balanced_join.mp htb
      simp only [weight, Nat.add_zero] at hm
      subst hm
      simp [htn, han, har, hbn, hbr, h1, h2, hab, hbb, weight]

/-- **Rebalancing after an insertion.**  `t` is red and everything is right except that the node
above `t` may be red too. -/
theorem redBlack_fixInsert (k : Ctx α) (t : CTree α) {n : ℕ} (ht : t.isRed = true)
    (htn : t.NoRedRed) (htb : t.Balanced n) (hk : k.Colored) (hkb : k.Balanced n) :
    (fixInsert k t).blacken.RedBlack := by
  fun_induction fixInsert k t generalizing n with
  | case1 d p a s c g b k t hb ih =>
    obtain ⟨han, hred, hbn, -, hk'⟩ := hk
    obtain ⟨hab, hbb, hkb'⟩ := hkb
    obtain ⟨har, hc⟩ := hred rfl
    simp only [topColor, Option.some.injEq] at hc
    subst hc
    refine ih (n := n + 1) (by simp) ?_ ?_ hk' hkb'
    · simp [htn, han, hbn.blacken]
    · have h1 : b.blacken.Balanced (n + 1) := Balanced.blacken hbb hb
      simp [weight, htb, hab, h1]
  | case2 d p a s c g b k t hb =>
    obtain ⟨han, hred, hbn, -, hk'⟩ := hk
    obtain ⟨hab, hbb, hkb'⟩ := hkb
    obtain ⟨har, hc⟩ := hred rfl
    simp only [topColor, Option.some.injEq] at hc
    subst hc
    obtain ⟨h1, h2, h3⟩ := insertRotated_ok (d := d) (s := s) (p := p) (g := g) ht htn htb han hab
      har hbn hbb (by simpa using hb)
    exact (redBlack_plug_black hk' hkb' h1 h2 h3).blacken
  | case3 k t hshape =>
    cases k with
    | nil => exact NoRedRed.redBlack htn.blacken htb
    | cons f k =>
      have hf : f.color = .black := by
        obtain ⟨d, c, p, a⟩ := f
        cases c with
        | black => rfl
        | red =>
          obtain ⟨-, hr, -⟩ := hk
          obtain ⟨-, htop⟩ := hr rfl
          cases k with
          | nil => simp [topColor] at htop
          | cons f' k =>
            obtain ⟨s, c', g, b⟩ := f'
            exact (hshape d p a s c' g b k rfl).elim
      refine RedBlack.blacken ((redBlack_plug _ _).mpr ⟨hk, htn, fun _ => ?_, n, htb, hkb⟩)
      simp [topColor, hf]

end Ctx
