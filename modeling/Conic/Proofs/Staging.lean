import Mathlib.Algebra.BigOperators.Group.List.Basic
import Mathlib.Data.List.Basic

/-!
# Folds that are known after every prefix

* `foldl_add_eq_sum` — a sum that is accumulated from the left.
* `foldlM_stages`, `foldlM_zipIdx_stages` — the fold itself, and over a numbered list.
* `notMem_of_split`, `view_foldlM` — what a step has before it, and what no step changes.
* `overwritten` — an array some of whose elements were changed, each once.
* `modify_overwritten` — changing one element more.
-/

set_option autoImplicit false

namespace Conic

/-- A sum that is accumulated from the left. -/
theorem foldl_add_eq_sum {α β : Type} [AddMonoid α] (f : β → α) (l : List β) (b : α) :
    l.foldl (fun sum a => sum + f a) b = b + (l.map f).sum := by
  induction l generalizing b with
  | nil => simp
  | cons a l ih => rw [List.foldl_cons, ih, List.map_cons, List.sum_cons, add_assoc]

/-- A fold whose state is known after every prefix of the list. -/
theorem foldlM_stages {m : Type → Type} [Monad m] [LawfulMonad m] {β γ : Type} {f : β → γ → m β}
    (stage : List γ → β) {l : List γ}
    (hstep : ∀ pre c post, l = pre ++ c :: post → f (stage pre) c = pure (stage (pre ++ [c]))) :
    l.foldlM f (stage []) = pure (stage l) := by
  suffices ∀ suf pre, l = pre ++ suf → suf.foldlM f (stage pre) = pure (stage l) from this l [] rfl
  intro suf
  induction suf with
  | nil => intro pre hl; rw [hl, List.append_nil]; rfl
  | cons c suf ih =>
    intro pre hl
    rw [List.foldlM_cons, hstep pre c suf hl, pure_bind]
    exact ih (pre ++ [c]) (by rw [hl, List.append_assoc]; rfl)

/-- A fold over a numbered list whose state is known after every prefix. -/
theorem foldlM_zipIdx_stages {m : Type → Type} [Monad m] [LawfulMonad m] {β γ : Type}
    {f : β → γ × Nat → m β} (stage : List γ → β) {l : List γ}
    (hstep : ∀ pre c post, l = pre ++ c :: post →
      f (stage pre) (c, pre.length) = pure (stage (pre ++ [c]))) :
    l.zipIdx.foldlM f (stage []) = pure (stage l) := by
  have hfold : l.zipIdx.foldlM f (stage []) = pure (stage (l.zipIdx.map Prod.fst)) := by
    refine foldlM_stages (fun pre => stage (pre.map Prod.fst)) fun pre t post hsplit => ?_
    have hpos : l.zipIdx[pre.length]? = some t := by
      rw [hsplit, List.getElem?_append_right (Nat.le_refl _), Nat.sub_self]
      rfl
    rw [List.getElem?_zipIdx, Option.map_eq_some_iff] at hpos
    obtain ⟨c, _, rfl⟩ := hpos
    have hlist : l = pre.map Prod.fst ++ c :: post.map Prod.fst := by
      rw [← List.zipIdx_map_fst 0 l, hsplit, List.map_append]
      rfl
    have hnext := hstep (pre.map Prod.fst) c (post.map Prod.fst) hlist
    rw [List.length_map] at hnext
    rw [Nat.zero_add, hnext, List.map_append]
    rfl
  rw [hfold, List.zipIdx_map_fst]

/-- An element of a list without repetitions is not among those before it. -/
theorem notMem_of_split {β : Type} {l pre post : List β} {b : β} (hl : l.Nodup)
    (hsplit : l = pre ++ b :: post) : b ∉ pre := by
  rw [hsplit] at hl
  exact fun hb => (List.nodup_append.mp hl).2.2 b hb b List.mem_cons_self rfl

/-- What every step leaves as it is, the fold leaves as it is. -/
theorem view_foldlM {σ β γ : Type} {f : σ → β → Option σ} {l : List β} (view : σ → γ)
    (hf : ∀ {s t b}, b ∈ l → f s b = some t → view t = view s) {s t : σ}
    (ht : l.foldlM f s = some t) : view t = view s := by
  induction l generalizing s with
  | nil =>
    cases ht
    rfl
  | cons b l ih =>
    rw [List.foldlM_cons] at ht
    obtain ⟨r, hr, ht⟩ := Option.bind_eq_some_iff.mp ht
    exact (ih (fun hb => hf (List.mem_cons_of_mem _ hb)) ht).trans (hf List.mem_cons_self hr)

theorem getElem?_concat_of_ne {β : Type} {l : List β} {b : β} {j : Nat} (hj : j ≠ l.length) :
    (l ++ [b])[j]? = l[j]? := by
  rw [List.getElem?_append]
  split
  · rfl
  · rw [List.getElem?_eq_none (by simp; omega), List.getElem?_eq_none (by omega)]

variable {β τ : Type} {write : β → τ → τ} {f g : Nat → Option β} {a : Array τ} {i : Nat} {b : β}

/-- An array whose elements have been changed wherever `f` has a value. -/
def overwritten (write : β → τ → τ) (f : Nat → Option β) (a : Array τ) : Array τ :=
  a.mapIdx fun i x => ((f i).map fun b => write b x).getD x

@[simp] theorem size_overwritten : (overwritten write f a).size = a.size := by
  simp [overwritten]

theorem getElem?_overwritten : (overwritten write f a)[i]? =
    a[i]?.map fun x => ((f i).map fun b => write b x).getD x := by
  rw [overwritten, Array.getElem?_mapIdx]

/-- Nothing was changed. -/
theorem overwritten_none (hf : ∀ i, f i = none) : overwritten write f a = a := by
  apply Array.ext_getElem?
  intro i
  rw [getElem?_overwritten, hf i]
  simp

/-- Values beyond the array do not matter. -/
theorem overwritten_congr (hfg : ∀ i < a.size, f i = g i) :
    overwritten write f a = overwritten write g a := by
  apply Array.ext_getElem?
  intro i
  rw [getElem?_overwritten, getElem?_overwritten]
  by_cases hi : i < a.size
  · rw [hfg i hi]
  · rw [Array.getElem?_eq_none (Nat.le_of_not_lt hi)]
    rfl

/-- One element more is changed. -/
theorem modify_overwritten (hf : f i = none) (hg : g i = some b) (hne : ∀ j, j ≠ i → g j = f j) :
    (overwritten write f a).modify i (write b) = overwritten write g a := by
  apply Array.ext_getElem?
  intro j
  rw [Array.getElem?_modify, getElem?_overwritten, getElem?_overwritten]
  split
  · rename_i hij
    subst hij
    rw [hf, hg]
    cases a[i]? <;> rfl
  · rename_i hij
    rw [hne j (Ne.symm hij)]

/-- Setting an element is changing it. -/
theorem setIfInBounds_overwritten (hf : f i = none) (hg : g i = some b)
    (hne : ∀ j, j ≠ i → g j = f j) {a : Array β} :
    (overwritten (fun b _ => b) f a).setIfInBounds i b = overwritten (fun b _ => b) g a := by
  rw [← modify_overwritten hf hg hne]
  apply Array.ext_getElem?
  intro j
  rw [Array.getElem?_modify, Array.getElem?_setIfInBounds]
  split
  · rename_i hij
    subst hij
    split
    · rename_i hlt
      rw [Array.getElem?_eq_getElem hlt, Option.map_some]
    · rename_i hlt
      rw [Array.getElem?_eq_none (Nat.le_of_not_lt hlt), Option.map_none]
  · rfl

end Conic
