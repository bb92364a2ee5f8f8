import Conic.Proofs.Equality
import Conic.Proofs.Sparse.Relisting

/-!
# Entries that are given in another order and written in another way

What is stored at a position depends on the entries given for that position alone. Two lists that
give equal values for the same positions are therefore assembled into equal matrices, in whatever
order they give them.

* `SparseMatrix.Entry.position` — an entry without its value.
* `SparseMatrix.Agree` — the same positions are given, and the values of each add up to equal sums.
* `Agree.map_position_storedEntries` — **the same positions are stored, in the same order.**
* `Agree.assembled_beq` — **the assembled matrices are equal.**
-/

set_option autoImplicit false

namespace Conic.SparseMatrix

variable {α : Type}

/-- An entry without its value. -/
def Entry.position (e : Entry α) : Entry Unit :=
  { e with value := () }

theorem Entry.position_eq_iff {a b : Entry α} :
    a.position = b.position ↔ a.row = b.row ∧ a.col = b.col := by
  simp [position]

/-- Where the columns start depends on the positions alone. -/
theorem starts_map_position (cols : Nat) (l : List (Entry α)) :
    starts cols (l.map Entry.position) = starts cols l := by
  rw [starts, columnCounts, List.foldl_map]
  rfl

variable [Scalar α] {l l' : List (Entry α)}

/-- The two lists give values for the same positions, and for each position equal sums. -/
structure Agree (l l' : List (Entry α)) : Prop where
  given : ∀ row col, entriesAt l row col = [] ↔ entriesAt l' row col = []
  value : ∀ {row col}, entriesAt l row col ≠ [] → (valueAt l row col == valueAt l' row col) = true

namespace Agree

variable (h : Agree l l')
include h

/-- **The same positions are stored, in the same order.** -/
theorem map_position_storedEntries :
    (storedEntries l).map Entry.position = (storedEntries l').map Entry.position := by
  have hmem : ∀ k : List (Entry α), ∀ e,
      e ∈ (storedEntries k).map Entry.position ↔ entriesAt k e.row e.col ≠ [] := by
    intro k e
    rw [List.mem_map]
    constructor
    · rintro ⟨a, ha, rfl⟩
      exact (mem_storedEntries_iff.mp ha).1
    · intro hgiven
      exact ⟨⟨e.row, e.col, valueAt k e.row e.col⟩, mem_storedEntries_iff.mpr ⟨hgiven, rfl⟩, rfl⟩
  -- Both lists are in strict order, so that it is enough to compare their members.
  refine eq_of_pairwise (List.pairwise_map.mpr (storedEntries_pairwise l))
    (List.pairwise_map.mpr (storedEntries_pairwise l')) fun e => ?_
  rw [hmem, hmem]
  exact not_congr (h.given e.row e.col)

/-- Place by place, the stored values are equal. -/
theorem forall₂_storedEntries : List.Forall₂ (fun a b => (a.value == b.value) = true)
    (storedEntries l) (storedEntries l') := by
  have hpositions := h.map_position_storedEntries
  have hlength : (storedEntries l).length = (storedEntries l').length := by
    simpa using congrArg List.length hpositions
  refine List.forall₂_iff_get.mpr ⟨hlength, fun i hi hi' => ?_⟩
  have hposition : (storedEntries l)[i].position = (storedEntries l')[i].position := by
    simpa [hi, hi'] using congrArg (·[i]?) hpositions
  obtain ⟨hrow, hcol⟩ := Entry.position_eq_iff.mp hposition
  obtain ⟨hgiven, hvalue⟩ := mem_storedEntries_iff.mp (List.getElem_mem hi)
  have hvalue' := (mem_storedEntries_iff.mp (List.getElem_mem hi')).2
  show ((storedEntries l)[i].value == (storedEntries l')[i].value) = true
  rw [hvalue, hvalue', ← hrow, ← hcol]
  exact h.value hgiven

/-- **The assembled matrices are equal.** -/
theorem assembled_beq (rows cols : Nat) :
    (assembled rows cols l == assembled rows cols l') = true := by
  have hpositions := h.map_position_storedEntries
  have hrows : (storedEntries l).map (·.row) = (storedEntries l').map (·.row) := by
    have hmap := congrArg (List.map (·.row)) hpositions
    rwa [List.map_map, List.map_map] at hmap
  refine beq_iff.mpr ⟨rfl, rfl, ?_, congrArg List.toArray hrows, ?_⟩
  · show (starts cols (storedEntries l)).toArray = (starts cols (storedEntries l')).toArray
    rw [← starts_map_position, hpositions, starts_map_position]
  · refine beq_array_iff.mpr ?_
    exact List.forall₂_map_left_iff.mpr (List.forall₂_map_right_iff.mpr h.forall₂_storedEntries)

end Agree

end Conic.SparseMatrix
