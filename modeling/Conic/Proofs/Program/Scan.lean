import Mathlib.Data.List.Destutter
import Conic.Program.Scan
import Conic.Proofs.Program.Reading

/-!
# The pass of the check

* `withoutRepeats_sortedHandles_eq_iff` — a sorted list loses nothing exactly when it names nothing
  twice.
* `Program.tally_eq` — the tally counts the constraints of each variable, or it comes to a term whose
  variable does not exist.
* `Program.scan_eq` — **the pass finds the first contradiction, and reads no position that does not
  exist.**
-/

set_option autoImplicit false

namespace Conic

/-! ## Repeats -/

section

variable {β : Type} [DecidableEq β]

theorem withoutRepeatsFrom_eq (b : β) (l : List β) :
    withoutRepeatsFrom b l = l.destutter' (· ≠ ·) b := by
  induction l generalizing b with
  | nil => rfl
  | cons a l ih =>
    by_cases h : a = b
    · simp [withoutRepeatsFrom, List.destutter', h, ih]
    · simp [withoutRepeatsFrom, List.destutter', h, Ne.symm h, ih]

theorem withoutRepeats_eq (l : List β) : withoutRepeats l = l.destutter (· ≠ ·) := by
  cases l with
  | nil => rfl
  | cons b l => exact withoutRepeatsFrom_eq b l

/-- A list that loses nothing has no entry that repeats the one before. -/
theorem length_withoutRepeats_eq_iff {l : List β} :
    (withoutRepeats l).length = l.length ↔ withoutRepeats l = l :=
  ⟨fun h => (withoutRepeats_eq l ▸ l.destutter_sublist (· ≠ ·)).eq_of_length h, congrArg _⟩

end

theorem sortedHandles_perm (l : List ConstraintId) : (sortedHandles l).Perm l :=
  l.mergeSort_perm _

theorem sortedHandles_sorted (l : List ConstraintId) :
    (sortedHandles l).Pairwise fun c d => c.index ≤ d.index := by
  have hsorted : (sortedHandles l).Pairwise fun c d => decide (c.index ≤ d.index) = true :=
    List.pairwise_mergeSort
      (fun c d e hcd hde => by simpa using Nat.le_trans (by simpa using hcd) (by simpa using hde))
      (fun c d => by simpa using Nat.le_total c.index d.index) l
  simpa only [decide_eq_true_eq] using hsorted

/-- In order, entries that are equal stand side by side. -/
theorem withoutRepeats_sortedHandles_eq_iff {l : List ConstraintId} :
    withoutRepeats (sortedHandles l) = sortedHandles l ↔ l.Nodup := by
  rw [withoutRepeats_eq, List.destutter_eq_self_iff, ← (sortedHandles_perm l).nodup_iff]
  refine ⟨fun hchain => ?_, fun hnd => List.Pairwise.isChain hnd⟩
  have hlt : ((sortedHandles l).map ConstraintId.index).IsChain (· < ·) := by
    rw [List.isChain_map]
    rw [List.isChain_iff_getElem] at hchain ⊢
    intro i hi
    have hle := List.pairwise_iff_getElem.mp (sortedHandles_sorted l) i (i + 1) (by omega) hi
      (Nat.lt_succ_self i)
    exact Nat.lt_of_le_of_ne hle fun he => hchain i hi (congrArg ConstraintId.mk he)
  exact ((List.isChain_iff_pairwise.mp hlt).imp Nat.ne_of_lt).of_map _ fun _ _ hne he => hne (he ▸ rfl)

namespace Program

variable {α : Type} {p : Program α} {v : VarId} {counts : Array Nat}

/-! ## Single records -/

theorem scanOwner_eq (k : ConeId) (v : VarId) : p.scanOwner k v = .ok (p.ownedBy k v) := by
  unfold scanOwner ownedBy entryAt var?
  split
  · rename_i hv
    rw [Array.getElem?_eq_getElem hv]
    rfl
  · rename_i hv
    rw [Array.getElem?_eq_none (Nat.le_of_not_lt hv)]
    rfl

theorem scanCone_eq (k : ConeId) (cone : Cone) :
    p.scanCone k cone = declined (p.coneFault? k cone) := by
  have hall : cone.members.allM (p.scanOwner k) = .ok (cone.members.all (p.ownedBy k)) := by
    rw [funext (scanOwner_eq k)]
    exact List.allM_pure
  unfold scanCone coneFault?
  rw [hall]
  split
  · rfl
  · rw [Checked.ok_bind]
    split <;> rfl

/-- Of a list that repeats nothing the check sees the list itself, in another order. -/
theorem scanRecorded_eq (hcount : counts[v.index]? = some (p.occurrences v))
    (l : List ConstraintId) : p.scanRecorded counts v l =
      .ok (decide (l.Nodup ∧ l.length = p.occurrences v ∧ l.all (p.occursIn v))) := by
  have hperm := sortedHandles_perm l
  have hnodup : (withoutRepeats (sortedHandles l)).length = l.length ↔ l.Nodup := by
    rw [← hperm.length_eq, length_withoutRepeats_eq_iff, withoutRepeats_sortedHandles_eq_iff]
  unfold scanRecorded
  simp only [hnodup]
  split
  · rename_i hnd
    rw [withoutRepeats_sortedHandles_eq_iff.mpr hnd, hperm.length_eq, hperm.all_eq, entryAt, hcount]
    simp [hnd]
  · rename_i hnd
    simp [hnd]
    rfl

theorem scanVariable_eq (hcount : counts[v.index]? = some (p.occurrences v)) (x : Variable α) :
    p.scanVariable counts v x = declined (p.variableFault? v x) := by
  unfold scanVariable variableFault?
  rw [scanRecorded_eq hcount, Checked.ok_bind]
  simp only [Bool.and_eq_true, decide_eq_true_eq]
  split <;> rfl

/-! ## The tally -/

/-- The tally with one more occurrence of each of the variables. -/
def talliedWith (counts : Array Nat) (vs : List VarId) : Array Nat :=
  vs.foldl (fun counts v => counts.modify v.index (· + 1)) counts

theorem size_talliedWith (counts : Array Nat) (vs : List VarId) :
    (talliedWith counts vs).size = counts.size := by
  unfold talliedWith
  induction vs generalizing counts with
  | nil => rfl
  | cons v vs ih => rw [List.foldl_cons, ih, Array.size_modify]

theorem getElem?_talliedWith (counts : Array Nat) (vs : List VarId) (v : VarId) :
    (talliedWith counts vs)[v.index]? = counts[v.index]?.map (· + vs.count v) := by
  unfold talliedWith
  induction vs generalizing counts with
  | nil => simp
  | cons u vs ih =>
    rw [List.foldl_cons, ih, Array.getElem?_modify, List.count_cons]
    by_cases hu : u = v
    · simp [hu, Function.comp_def, Nat.add_assoc, Nat.add_comm 1]
    · have hindex : u.index ≠ v.index := fun he => hu (congrArg VarId.mk he)
      simp [hu, hindex]

/-- Occurrences are tallied up to the first variable that does not exist. -/
theorem foldlM_tallyVar (hsize : counts.size = p.vars.size) (row : Constraint α) :
    row.terms.vars.foldlM tallyVar counts = match p.termFault? row with
      | some error => .error (.refused error)
      | none => .ok (talliedWith counts row.terms.vars) := by
  unfold termFault?
  generalize row.terms.vars = vs
  induction vs generalizing counts with
  | nil => rfl
  | cons v vs ih =>
    rw [List.foldlM_cons, List.find?_cons]
    by_cases hv : v.index < p.vars.size
    · have hmodified : (counts.modify v.index (· + 1)).size = p.vars.size := by
        rw [Array.size_modify, hsize]
      have hrest := ih hmodified
      simp [tallyVar, hsize, hv, var?, hrest, talliedWith]
    · simp [tallyVar, hsize, hv, var?]

theorem foldlM_tallyRow (hsize : counts.size = p.vars.size) (rows : List (Constraint α)) :
    rows.foldlM (fun counts row => row.terms.vars.foldlM tallyVar counts) counts =
      match rows.findSome? p.termFault? with
      | some error => .error (.refused error)
      | none => .ok (rows.foldl (fun counts row => talliedWith counts row.terms.vars) counts) := by
  induction rows generalizing counts with
  | nil => rfl
  | cons row rows ih =>
    rw [List.foldlM_cons, foldlM_tallyVar hsize, List.findSome?_cons]
    cases p.termFault? row with
    | some error => rfl
    | none => exact ih (by rw [size_talliedWith, hsize])

/-- **The tally holds the number of constraints of each variable**, unless some term is on a
variable that does not exist. -/
theorem tally_eq (p : Program α) : match p.constraints.toList.findSome? p.termFault? with
    | some error => p.tally = .error (.refused error)
    | none => ∃ counts, p.tally = .ok counts ∧
        ∀ v : VarId, v.index < p.vars.size → counts[v.index]? = some (p.occurrences v) := by
  have hzero : (Array.replicate p.vars.size 0).size = p.vars.size := Array.size_replicate
  have hfold := foldlM_tallyRow hzero p.constraints.toList
  unfold tally
  rw [hfold]
  cases p.constraints.toList.findSome? p.termFault? with
  | some error => rfl
  | none =>
    refine ⟨_, rfl, fun v hv => ?_⟩
    have hcount : ∀ (rows : List (Constraint α)) (counts : Array Nat),
        (rows.foldl (fun counts row => talliedWith counts row.terms.vars) counts)[v.index]? =
          counts[v.index]?.map (· + rows.countP fun row => row.terms.contains v) := by
      intro rows
      induction rows with
      | nil => simp
      | cons row rows ih =>
        intro counts
        have honce : row.terms.vars.count v = if v ∈ row.terms.vars then 1 else 0 :=
          List.Nodup.count row.terms.nodup
        rw [List.foldl_cons, ih, getElem?_talliedWith, List.countP_cons, honce]
        simp [Function.comp_def, Nat.add_assoc, Nat.add_comm]
    rw [hcount]
    simp [hv, occurrences]

/-! ## The pass -/

theorem declined_orElse (a b : Option Error) :
    declined (a <|> b) = declined a >>= fun _ => declined b := by
  cases a <;> rfl

theorem forM_declined {β : Type} {f : β → Option Error} {g : β → Checked Error Unit} {l : List β}
    (hg : ∀ b ∈ l, g b = declined (f b)) : l.forM g = declined (l.findSome? f) := by
  induction l with
  | nil => rfl
  | cons b l ih =>
    have hrest := ih fun b hb => hg b (List.mem_cons_of_mem _ hb)
    rw [List.forM_eq_forM] at hrest ⊢
    rw [List.forM_cons, List.findSome?_cons, hg b List.mem_cons_self, hrest]
    cases f b <;> rfl

/-- **The pass declines for the first contradiction**, and reads no position that does not exist. -/
theorem scan_eq (p : Program α) : p.scan = declined p.inconsistency? := by
  have hcones : (p.cones.toList.zipIdx.forM fun entry => p.scanCone ⟨entry.2⟩ entry.1) =
      declined (p.cones.toList.zipIdx.findSome? fun entry => p.coneFault? ⟨entry.2⟩ entry.1) :=
    forM_declined fun entry _ => scanCone_eq ⟨entry.2⟩ entry.1
  have hterms : (p.tally >>= fun counts =>
      p.vars.toList.zipIdx.forM fun entry => p.scanVariable counts ⟨entry.2⟩ entry.1) =
        declined (p.constraints.toList.findSome? p.termFault?) >>= fun _ =>
          declined (p.vars.toList.zipIdx.findSome? fun entry =>
            p.variableFault? ⟨entry.2⟩ entry.1) := by
    have htally := tally_eq p
    cases hfault : p.constraints.toList.findSome? p.termFault? with
    | some error =>
      rw [hfault] at htally
      rw [htally]
      rfl
    | none =>
      rw [hfault] at htally
      obtain ⟨counts, hcounts, hcount⟩ := htally
      rw [hcounts]
      refine forM_declined fun entry hentry => scanVariable_eq (hcount ⟨entry.2⟩ ?_) entry.1
      simpa using (List.mem_zipIdx hentry).2.1
  have hscan : p.scan = declined p.pointFault? >>= fun _ =>
      (p.cones.toList.zipIdx.forM fun entry => p.scanCone ⟨entry.2⟩ entry.1) >>= fun _ =>
        p.tally >>= fun counts =>
          p.vars.toList.zipIdx.forM fun entry => p.scanVariable counts ⟨entry.2⟩ entry.1 := rfl
  have hfault : p.inconsistency? = (p.pointFault?
      <|> (p.cones.toList.zipIdx.findSome? fun entry => p.coneFault? ⟨entry.2⟩ entry.1)
      <|> p.constraints.toList.findSome? p.termFault?
      <|> p.vars.toList.zipIdx.findSome? fun entry => p.variableFault? ⟨entry.2⟩ entry.1) := rfl
  rw [hscan, hfault, declined_orElse, declined_orElse, declined_orElse, hcones, hterms]

end Program

end Conic
