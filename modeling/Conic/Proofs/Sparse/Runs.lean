import Mathlib.Data.List.SplitBy
import Mathlib.Data.List.Pairwise
import Conic.Sparse.Assembly

/-!
# Runs of entries

Sorting brings the entries of one position together without changing their order, so that each run
of entries at one position holds exactly the entries given for it.

* `SparseMatrix.entriesAt`, `SparseMatrix.valueAt` — the entries given for a position and their sum.
* `SparseMatrix.storedEntries_pairwise` — **one stored entry for each position, in order.**
* `SparseMatrix.mem_storedEntries_iff` — **its value is the sum of the entries given for it.**
-/

set_option autoImplicit false

namespace Conic.SparseMatrix

variable {α : Type}

/-! ## Positions -/

/-- The entry stands at the given position. -/
def Entry.standsAt (row col : Nat) (e : Entry α) : Bool :=
  e.row == row && e.col == col

/-- Entry `a` stands at an earlier position than `b`. -/
def Entry.before (a b : Entry α) : Prop :=
  a.col < b.col ∨ a.col = b.col ∧ a.row < b.row

theorem Entry.storedBefore_iff {a b : Entry α} :
    a.storedBefore b = true ↔ a.col < b.col ∨ a.col = b.col ∧ a.row ≤ b.row := by
  simp [storedBefore]

theorem Entry.samePosition_iff {a b : Entry α} :
    a.samePosition b = true ↔ a.row = b.row ∧ a.col = b.col := by
  simp [samePosition]

theorem Entry.standsAt_iff {row col : Nat} {e : Entry α} :
    e.standsAt row col = true ↔ e.row = row ∧ e.col = col := by
  simp [standsAt]

theorem Entry.storedBefore_trans (a b c : Entry α) (hab : a.storedBefore b = true)
    (hbc : b.storedBefore c = true) : a.storedBefore c = true := by
  rw [storedBefore_iff] at *
  omega

theorem Entry.storedBefore_total (a b : Entry α) :
    (a.storedBefore b || b.storedBefore a) = true := by
  rw [Bool.or_eq_true, storedBefore_iff, storedBefore_iff]
  omega

/-- The entries given for a position, in the given order. -/
def entriesAt (entries : List (Entry α)) (row col : Nat) : List (Entry α) :=
  entries.filter (Entry.standsAt row col)

theorem entriesAt_ne_nil_iff {entries : List (Entry α)} {row col : Nat} :
    entriesAt entries row col ≠ [] ↔ ∃ e ∈ entries, e.row = row ∧ e.col = col := by
  simp [entriesAt, Entry.standsAt_iff]

/-- The sum of the values given for a position, from the left and from zero. -/
def valueAt [Scalar α] (entries : List (Entry α)) (row col : Nat) : α :=
  (entriesAt entries row col).foldl (fun sum e => sum + e.value) 0

/-! ## Sorting -/

theorem pairwise_sorted (entries : List (Entry α)) :
    (entries.mergeSort Entry.storedBefore).Pairwise fun a b => a.storedBefore b = true :=
  List.pairwise_mergeSort Entry.storedBefore_trans Entry.storedBefore_total entries

/-- Sorting keeps the order among the entries of one position. -/
theorem entriesAt_sorted (entries : List (Entry α)) (row col : Nat) :
    entriesAt (entries.mergeSort Entry.storedBefore) row col = entriesAt entries row col := by
  have hpairwise : (entriesAt entries row col).Pairwise fun a b => a.storedBefore b = true := by
    refine List.pairwise_of_forall_mem_list fun a ha b hb => ?_
    have ha := Entry.standsAt_iff.mp (List.mem_filter.mp ha).2
    have hb := Entry.standsAt_iff.mp (List.mem_filter.mp hb).2
    rw [Entry.storedBefore_iff]
    omega
  have hsublist : (entriesAt entries row col).Sublist (entries.mergeSort Entry.storedBefore) :=
    List.sublist_mergeSort Entry.storedBefore_trans Entry.storedBefore_total hpairwise
      List.filter_sublist
  have hfilter := hsublist.filter (Entry.standsAt row col)
  rw [entriesAt, List.filter_filter] at hfilter
  simp only [Bool.and_self] at hfilter
  refine (hfilter.eq_of_length ?_).symm
  exact ((List.mergeSort_perm entries Entry.storedBefore).symm.filter _).length_eq

/-! ## Splitting into runs -/

/-- The members of a run stand at one position. -/
theorem position_eq_of_isChain {g : List (Entry α)}
    (hg : g.IsChain fun a b => a.samePosition b = true) :
    ∀ a ∈ g, ∀ b ∈ g, a.row = b.row ∧ a.col = b.col := by
  induction g with
  | nil => exact fun a ha => absurd ha List.not_mem_nil
  | cons e g ih =>
    cases g with
    | nil =>
      intro a ha b hb
      rw [List.mem_singleton.mp ha, List.mem_singleton.mp hb]
      exact ⟨rfl, rfl⟩
    | cons e' g =>
      obtain ⟨hstep, htail⟩ := List.isChain_cons_cons.mp hg
      have hstep := Entry.samePosition_iff.mp hstep
      have hhead : ∀ a ∈ e :: e' :: g, a.row = e'.row ∧ a.col = e'.col := by
        intro a ha
        rcases List.mem_cons.mp ha with rfl | ha
        · exact hstep
        · exact ih htail a ha e' List.mem_cons_self
      intro a ha b hb
      have ha := hhead a ha
      have hb := hhead b hb
      omega

/-- Different runs of a sorted list stand at different positions, in order. -/
theorem runs_pairwise {gs : List (List (Entry α))}
    (hsorted : gs.flatten.Pairwise fun a b => a.storedBefore b = true) (hne : [] ∉ gs)
    (hsame : ∀ g ∈ gs, g.IsChain fun a b => a.samePosition b = true)
    (hchain : gs.IsChain fun g g' =>
      ∃ hg hg', (g.getLast hg).samePosition (g'.head hg') = false) :
    gs.Pairwise fun g g' => ∀ a ∈ g, ∀ b ∈ g', a.before b := by
  induction gs with
  | nil => exact List.Pairwise.nil
  | cons g gs ih =>
    rw [List.flatten_cons, List.pairwise_append] at hsorted
    obtain ⟨_, hrest, hbetween⟩ := hsorted
    refine List.pairwise_cons.mpr ⟨?_, ih hrest (fun h => hne (List.mem_cons_of_mem g h))
      (fun g' hg' => hsame g' (List.mem_cons_of_mem g hg')) hchain.tail⟩
    intro g' hg' a ha b hb
    cases gs with
    | nil => cases hg'
    | cons g₂ gs =>
      obtain ⟨hg, hg₂, hdiffer⟩ := (List.isChain_cons_cons.mp hchain).1
      rw [List.flatten_cons] at hrest hbetween
      -- From `a` through the last entry of its run and the first of the next one to `b`.
      have hfirst : g₂.head hg₂ ∈ g₂ ++ gs.flatten := List.mem_append_left _ (List.head_mem hg₂)
      have hlast := position_eq_of_isChain (hsame g List.mem_cons_self) a ha _ (List.getLast_mem hg)
      have hstep := Entry.storedBefore_iff.mp (hbetween _ (List.getLast_mem hg) _ hfirst)
      have hdiffer : ¬((g.getLast hg).row = (g₂.head hg₂).row ∧
          (g.getLast hg).col = (g₂.head hg₂).col) := by
        rw [← Entry.samePosition_iff, hdiffer]
        simp
      have hb' : b ∈ g₂ ++ gs.flatten := by
        rw [← List.flatten_cons]
        exact List.mem_flatten.mpr ⟨g', hg', hb⟩
      have hnext : (g₂.head hg₂).col < b.col ∨
          (g₂.head hg₂).col = b.col ∧ (g₂.head hg₂).row ≤ b.row := by
        obtain ⟨e, g₂, rfl⟩ := List.exists_cons_of_ne_nil hg₂
        rw [List.head_cons]
        rcases List.mem_cons.mp hb' with rfl | hb'
        · omega
        · exact Entry.storedBefore_iff.mp (List.rel_of_pairwise_cons hrest hb')
      unfold Entry.before
      omega

/-- The runs of the sorted entries. -/
def runs (entries : List (Entry α)) : List (List (Entry α)) :=
  (entries.mergeSort Entry.storedBefore).splitBy Entry.samePosition

theorem runs_before (entries : List (Entry α)) :
    (runs entries).Pairwise fun g g' => ∀ a ∈ g, ∀ b ∈ g', a.before b := by
  have hflatten : (runs entries).flatten = entries.mergeSort Entry.storedBefore :=
    List.flatten_splitBy _ _
  exact runs_pairwise (hflatten ▸ pairwise_sorted entries) (List.nil_notMem_splitBy _ _)
    (fun g hg => List.isChain_of_mem_splitBy hg) (List.isChain_getLast_head_splitBy _ _)

/-- **A run holds the entries given for its position.** -/
theorem run_eq_entriesAt {entries g : List (Entry α)} {e : Entry α} (hg : g ∈ runs entries)
    (he : e ∈ g) : g = entriesAt entries e.row e.col := by
  have hflatten : (runs entries).flatten = entries.mergeSort Entry.storedBefore :=
    List.flatten_splitBy _ _
  obtain ⟨pre, post, hsplit⟩ := List.append_of_mem hg
  have hpairwise := runs_before entries
  rw [hsplit, List.pairwise_append, List.pairwise_cons] at hpairwise
  obtain ⟨_, ⟨hpost, _⟩, hpre⟩ := hpairwise
  have hown : g.filter (Entry.standsAt e.row e.col) = g := by
    refine List.filter_eq_self.mpr fun a ha => Entry.standsAt_iff.mpr ?_
    exact position_eq_of_isChain (List.isChain_of_mem_splitBy hg) a ha e he
  have hother : ∀ gs : List (List (Entry α)), (∀ g' ∈ gs, ∀ a ∈ g', a.before e ∨ e.before a) →
      gs.flatten.filter (Entry.standsAt e.row e.col) = [] := by
    intro gs hgs
    rw [List.filter_eq_nil_iff]
    intro a ha hstands
    obtain ⟨g', hg', ha⟩ := List.mem_flatten.mp ha
    have hposition := Entry.standsAt_iff.mp hstands
    have hbefore := hgs g' hg' a ha
    unfold Entry.before at hbefore
    omega
  rw [← entriesAt_sorted, entriesAt, ← hflatten, hsplit, List.flatten_append, List.flatten_cons,
    List.filter_append, List.filter_append, hown,
    hother pre fun g' hg' a ha => Or.inl (hpre g' hg' g List.mem_cons_self a ha e he),
    hother post fun g' hg' a ha => Or.inr (hpost g' hg' e he a ha), List.nil_append,
    List.append_nil]

/-! ## The stored entries -/

section

variable [Scalar α] {entries : List (Entry α)}

theorem sumOfRun?_eq {g : List (Entry α)} {e : Entry α} (hg : g ∈ runs entries) (he : e ∈ g) :
    sumOfRun? g = some ⟨e.row, e.col, valueAt entries e.row e.col⟩ := by
  have hposition := position_eq_of_isChain (List.isChain_of_mem_splitBy hg)
  have hrun := run_eq_entriesAt hg he
  cases g with
  | nil => cases he
  | cons a g =>
    obtain ⟨hrow, hcol⟩ := hposition a List.mem_cons_self e he
    rw [sumOfRun?, hrow, hcol, valueAt, ← hrun]

theorem exists_mem_run_of_sumOfRun? {g : List (Entry α)} {e : Entry α} (hg : g ∈ runs entries)
    (he : sumOfRun? g = some e) :
    ∃ a ∈ g, e = ⟨a.row, a.col, valueAt entries a.row a.col⟩ := by
  cases g with
  | nil => cases he
  | cons a g =>
    rw [sumOfRun?_eq hg List.mem_cons_self] at he
    exact ⟨a, List.mem_cons_self, (Option.some.inj he).symm⟩

/-- **The stored entries stand at different positions, in order.** -/
theorem storedEntries_pairwise (entries : List (Entry α)) :
    (storedEntries entries).Pairwise Entry.before := by
  rw [storedEntries, List.pairwise_filterMap]
  refine List.Pairwise.imp_of_mem ?_ (runs_before entries)
  intro g g' hg hg' hbefore e he e' he'
  obtain ⟨a, ha, rfl⟩ := exists_mem_run_of_sumOfRun? hg he
  obtain ⟨b, hb, rfl⟩ := exists_mem_run_of_sumOfRun? hg' he'
  exact hbefore a ha b hb

/-- **What is stored at a position is the sum of the entries given for it.** -/
theorem mem_storedEntries_iff {e : Entry α} : e ∈ storedEntries entries ↔
    entriesAt entries e.row e.col ≠ [] ∧ e.value = valueAt entries e.row e.col := by
  have hflatten : (runs entries).flatten = entries.mergeSort Entry.storedBefore :=
    List.flatten_splitBy _ _
  rw [storedEntries, List.mem_filterMap]
  constructor
  · rintro ⟨g, hg, he⟩
    obtain ⟨a, ha, rfl⟩ := exists_mem_run_of_sumOfRun? hg he
    exact ⟨run_eq_entriesAt hg ha ▸ List.ne_nil_of_mem ha, rfl⟩
  · rintro ⟨hne, hvalue⟩
    obtain ⟨a, ha⟩ := List.exists_mem_of_ne_nil _ hne
    rw [← entriesAt_sorted] at ha
    obtain ⟨hmem, hstands⟩ := List.mem_filter.mp ha
    obtain ⟨hrow, hcol⟩ := Entry.standsAt_iff.mp hstands
    obtain ⟨g, hg, hag⟩ := List.mem_flatten.mp (hflatten ▸ hmem)
    refine ⟨g, hg, ?_⟩
    rw [sumOfRun?_eq hg hag, hrow, hcol, ← hvalue]

/-- Where no position is given twice, nothing is summed up. -/
theorem length_storedEntries (hsingle : ∀ row col, (entriesAt entries row col).length ≤ 1) :
    (storedEntries entries).length = entries.length := by
  have hne : ∀ g ∈ runs entries, g ≠ [] := fun g hg he => List.nil_notMem_splitBy _ _ (he ▸ hg)
  have hone : ∀ g ∈ runs entries, g.length = 1 := by
    intro g hg
    obtain ⟨e, he⟩ := List.exists_mem_of_ne_nil g (hne g hg)
    have hlength := hsingle e.row e.col
    rw [← run_eq_entriesAt hg he] at hlength
    exact Nat.le_antisymm hlength (List.length_pos_of_mem he)
  have hsummed : ∀ g ∈ runs entries, (sumOfRun? g).isSome := by
    intro g hg
    obtain ⟨e, he⟩ := List.exists_mem_of_ne_nil g (hne g hg)
    rw [sumOfRun?_eq hg he]
    rfl
  calc (storedEntries entries).length
    _ = (runs entries).length := List.filterMap_length_eq_length.mpr hsummed
    _ = (runs entries).flatten.length := by
      rw [List.length_flatten, List.map_congr_left hone]
      simp
    _ = entries.length := by
      rw [runs, List.flatten_splitBy, List.length_mergeSort]

end

end Conic.SparseMatrix
