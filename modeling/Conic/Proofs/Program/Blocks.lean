import Mathlib.Algebra.GroupWithZero.Nat
import Mathlib.Data.List.Chain
import Mathlib.Data.List.Induction
import Conic.Program.StandardForm

/-!
# Blocks of the standard form

* `Cone.Fills` — neighbouring cones whose rows make up one block.
* `Program.BlockedBy` — the cones in their order, cut into such groups, each as long as it can be.
* `Program.blockedBy_blocks` — **the blocks of a program are those of its groups.**
-/

set_option autoImplicit false

namespace Conic

/-- The rows of these cones make up this block: a run of nonnegative variables, or a single
second-order cone. -/
inductive Cone.Fills : List Cone → Block → Prop
  | run (vs : List VarId) (hne : vs ≠ []) : Fills (vs.map .nonneg) (.nonneg vs.length)
  | single (members : List VarId) : Fills [.secondOrder members] (.secondOrder members.length)

/-- Does the block hold nonnegative variables? -/
def Block.isNonneg : Block → Bool
  | .nonneg _ => true
  | _ => false

/-- The cones in their order, cut into groups of which each fills one block. Neighbouring groups are
not both of nonnegative variables, so that no run could be longer. -/
structure Cone.Groups (cones : List Cone) (groups : List (List Cone × Block)) : Prop where
  order : groups.flatMap Prod.fst = cones
  fills : ∀ g ∈ groups, Fills g.1 g.2
  maximal : groups.IsChain fun g g' => ¬(g.2.isNonneg = true ∧ g'.2.isNonneg = true)

/-- The equalities have a block of their own when there are any, which comes first; behind it stand
the blocks of the groups of cones. -/
structure Program.BlockedBy {α : Type} (p : Program α) (groups : List (List Cone × Block))
    (blocks : List Block) : Prop where
  cones : Cone.Groups p.cones.toList groups
  blocks : blocks =
    (if 0 < p.constraints.size then [.zero p.constraints.size] else []) ++ groups.map Prod.snd

/-! ## Groups -/

namespace Cone

variable {cones : List Cone} {groups : List (List Cone × Block)} {g : List Cone} {b : Block}

theorem Fills.dim_eq (h : Fills g b) : b.dim = (g.flatMap members).length := by
  cases h with
  | run vs => simp [Block.dim, members, List.flatMap_map]
  | single => simp [Block.dim, members]

/-- The blocks have as many rows as the cones have members. -/
theorem Groups.sum_dim (h : Groups cones groups) :
    ((groups.map Prod.snd).map Block.dim).sum = (cones.flatMap members).length := by
  have hdims : (groups.map Prod.snd).map Block.dim =
      groups.map fun g => (g.1.flatMap members).length := by
    rw [List.map_map]
    exact List.map_congr_left fun g hg => (h.fills g hg).dim_eq
  rw [hdims, ← h.order, List.flatMap_assoc, List.length_flatMap]

/-- A group of its own behind the others. -/
theorem Groups.concat (h : Groups cones groups) (hfills : Fills g b)
    (hlast : ∀ g' ∈ groups.getLast?, ¬(g'.2.isNonneg = true ∧ b.isNonneg = true)) :
    Groups (cones ++ g) (groups ++ [(g, b)]) where
  order := by simp [h.order]
  fills g' hg' := by
    rcases List.mem_append.mp hg' with hg' | hg'
    · exact h.fills g' hg'
    · rw [List.mem_singleton.mp hg']
      exact hfills
  maximal := List.isChain_append.mpr ⟨h.maximal, List.isChain_singleton _, by simpa using hlast⟩

/-- A nonnegative variable joins the run behind which it stands. -/
theorem Groups.extend {n : Nat} (h : Groups cones (groups ++ [(g, .nonneg n)])) (v : VarId) :
    Groups (cones ++ [.nonneg v]) (groups ++ [(g ++ [.nonneg v], .nonneg (n + 1))]) := by
  obtain ⟨horder, hfills, hmaximal⟩ := h
  obtain ⟨hbefore, _, hlast⟩ := List.isChain_append.mp hmaximal
  have hlonger : Fills (g ++ [.nonneg v]) (.nonneg (n + 1)) := by
    have hg : Fills g (.nonneg n) := hfills _ (List.mem_append_right _ (List.mem_singleton_self _))
    cases hg with
    | run vs =>
      have hrun := Fills.run (vs ++ [v]) (by simp)
      simpa using hrun
  refine ⟨by simp [← horder], fun g' hg' => ?_, List.isChain_append.mpr ⟨hbefore,
    List.isChain_singleton _, by simpa [Block.isNonneg] using hlast⟩⟩
  rcases List.mem_append.mp hg' with hg' | hg'
  · exact hfills g' (List.mem_append_left _ hg')
  · rw [List.mem_singleton.mp hg']
    exact hlonger

end Cone

/-! ## The blocks of a program -/

namespace Program

open Cone

/-- One more cone extends the last group or begins another one. -/
theorem addBlock_groups {cones : List Cone} {groups : List (List Cone × Block)}
    {equalities : List Block} (h : Groups cones groups)
    (hequalities : ∀ b ∈ equalities, b.isNonneg = false) (k : Cone) :
    ∃ groups', Groups (cones ++ [k]) groups' ∧
      addBlock ((groups.map Prod.snd).reverse ++ equalities) k =
        (groups'.map Prod.snd).reverse ++ equalities := by
  cases k with
  | secondOrder members =>
    refine ⟨groups ++ [([.secondOrder members], .secondOrder members.length)],
      h.concat (.single members) (by simp [Block.isNonneg]), by simp [addBlock]⟩
  | nonneg v =>
    have hone : Fills [.nonneg v] (.nonneg 1) := Fills.run [v] (by simp)
    rcases List.eq_nil_or_concat groups with rfl | ⟨before, ⟨g, b⟩, rfl⟩
    · refine ⟨[([.nonneg v], .nonneg 1)], h.concat hone (by simp), ?_⟩
      cases equalities with
      | nil => rfl
      | cons b rest =>
        have hb := hequalities b List.mem_cons_self
        cases b with
        | nonneg n => cases hb
        | zero n | secondOrder n => rfl
    · rw [List.concat_eq_append] at h ⊢
      cases b with
      | nonneg n => exact ⟨_, h.extend v, by simp [addBlock]⟩
      | zero n | secondOrder n =>
        exact ⟨_, h.concat hone (by simp [Block.isNonneg]), by simp [addBlock]⟩

/-- **The blocks of a program are those of its groups.** -/
theorem blockedBy_blocks {α : Type} (p : Program α) : ∃ groups, p.BlockedBy groups p.blocks := by
  have hfold : ∀ (equalities : List Block), (∀ b ∈ equalities, b.isNonneg = false) →
      ∀ cones : List Cone, ∃ groups, Groups cones groups ∧
        cones.foldl addBlock equalities = (groups.map Prod.snd).reverse ++ equalities := by
    intro equalities hequalities cones
    induction cones using List.reverseRecOn with
    | nil => exact ⟨[], ⟨rfl, by simp, List.isChain_nil⟩, rfl⟩
    | append_singleton cones k ih =>
      obtain ⟨groups, hgroups, hblocks⟩ := ih
      obtain ⟨groups', hgroups', hadded⟩ := addBlock_groups hgroups hequalities k
      refine ⟨groups', hgroups', ?_⟩
      rw [List.foldl_append, hblocks]
      exact hadded
  let equalities := if 0 < p.constraints.size then [Block.zero p.constraints.size] else []
  have hequalities : ∀ b ∈ equalities, b.isNonneg = false := by
    intro b hb
    simp only [equalities] at hb
    split at hb
    · rw [List.mem_singleton.mp hb]
      rfl
    · cases hb
  have hreverse : equalities.reverse = equalities := by
    simp only [equalities]
    split <;> rfl
  obtain ⟨groups, hgroups, hblocks⟩ := hfold equalities hequalities p.cones.toList
  refine ⟨groups, hgroups, ?_⟩
  show (p.cones.toList.foldl addBlock equalities).reverse = equalities ++ _
  rw [hblocks, List.reverse_append, List.reverse_reverse, hreverse]

end Program

end Conic
