import Conic.Proofs.Exchange.Lending

/-!
# Both ways through a cycle agree

The two ways keep the dual in different places, and what is written when it comes back is written
down twice. `Cycle.Paired` relates the places, and whatever is done to a dual keeps them related.

* `Cycle.Alike` — two computations end in the same way and leave related things behind.
* `Cycle.changes_alike` — **the same changes are declined in either place, and the same is read in
  between.**
* `Paired.checkIn` — both ways to give a dual back write the same.
* `Cycle.WaysAgree`, `Cycle.ways_agree` — **whole cycles agree, and of a dual that is let go
  nothing is left but its count.**
-/

set_option autoImplicit false

namespace Conic

variable {α : Type}

/-- The exchange without the time that the last derivation took, which is also in a summary that
was printed. -/
def Exchange.untimed (x : Exchange α) : Exchange α :=
  { x with
    summary := { x.summary with elapsed := 0 }
    target := if x.settings.verbose then .sink else x.target }

namespace Cycle

open Exchange Exchange.InPlace

/-! ## Ends -/

section

variable {σ τ β γ : Type} {R E : σ → τ → Prop} {s : σ} {t : τ}

/-- Both end with the same result, or they are declined for the same cause; `R` relates what is left
in the first case and `E` what is left in the second. Nothing is said about what is left when both
are out of range. -/
inductive Alike (R E : σ → τ → Prop) :
    EStateM.Result (Fault Refusal) σ β → EStateM.Result (Fault Refusal) τ β → Prop
  | ok {b : β} {s : σ} {t : τ} (h : R s t) : Alike R E (.ok b s) (.ok b t)
  | refused {cause : Refusal} {s : σ} {t : τ} (h : E s t) :
      Alike R E (.error (.refused cause) s) (.error (.refused cause) t)
  | outOfRange {s : σ} {t : τ} : Alike R E (.error .outOfRange s) (.error .outOfRange t)

theorem Alike.bind {R' : σ → τ → Prop} {m : EStateM (Fault Refusal) σ β}
    {n : EStateM (Fault Refusal) τ β} {f : β → EStateM (Fault Refusal) σ γ}
    {g : β → EStateM (Fault Refusal) τ γ} (h : Alike R E (m.run s) (n.run t))
    (hrest : ∀ b {s t}, R s t → Alike R' E ((f b).run s) ((g b).run t)) :
    Alike R' E ((m >>= f).run s) ((n >>= g).run t) := by
  rw [EStateM.run_bind, EStateM.run_bind]
  generalize m.run s = r, n.run t = r' at h ⊢
  cases h with
  | ok h => exact hrest _ h
  | refused h => exact .refused h
  | outOfRange => exact .outOfRange

/-- A cause that is passed over is a result. -/
theorem cause?_alike {m : EStateM (Fault Refusal) σ Unit} {n : EStateM (Fault Refusal) τ Unit}
    (h : Alike R R (m.run s) (n.run t)) : Alike R E ((cause? m).run s) ((cause? n).run t) := by
  rw [run_cause?, run_cause?]
  generalize m.run s = r, n.run t = r' at h ⊢
  cases h with
  | ok h => exact .ok h
  | refused h => exact .ok h
  | outOfRange => exact .outOfRange

variable {view : σ → View α} {view' : τ → View α}
  {change : Change α → EStateM (Fault Refusal) σ Unit}
  {change' : Change α → EStateM (Fault Refusal) τ Unit}
  (hview : ∀ {s t}, R s t → view s = view' t)
  (hchange : ∀ c {s t}, R s t → Alike R R ((change c).run s) ((change' c).run t))

include hview hchange

theorem watchedChange_alike (c : Change α) (h : R s t) :
    Alike R E ((watchedChange view change c).run s) ((watchedChange view' change' c).run t) := by
  refine (cause?_alike (hchange c h)).bind fun cause s t h => ?_
  show Alike R E (.ok (cause, view s) s) (.ok (cause, view' t) t)
  rw [hview h]
  exact .ok h

theorem mapM_watchedChange_alike (changes : List (Change α)) (h : R s t) :
    Alike R E ((changes.mapM (watchedChange view change)).run s)
      ((changes.mapM (watchedChange view' change')).run t) := by
  induction changes generalizing s t with
  | nil => exact .ok h
  | cons c changes ih =>
    simp only [List.mapM_cons]
    exact (watchedChange_alike (R := R) hview hchange c h).bind fun read s t h =>
      (ih h).bind fun later s t h => .ok h

/-- When the same can be read of related states, and each change keeps them related, then several
changes do, the same ones are declined, and the same is read in between. -/
theorem watched_alike (changes : List (Change α)) (h : R s t) :
    Alike R E ((watched view change changes).run s) ((watched view' change' changes).run t) := by
  rw [run_watched, run_watched, hview h, map_eq_pure_bind, map_eq_pure_bind]
  exact (mapM_watchedChange_alike (R := R) hview hchange changes h).bind fun later s t h => .ok h

end

/-! ## Where the dual is -/

variable {owner owner' x : Exchange α} {b : Borrowed α} {d : Dual α}

/-- The dual that one exchange has checked out is in the hands of a borrower of the other. -/
structure Paired (owner owner' x : Exchange α) (b : Borrowed α) : Prop where
  out : x = { owner with state := .checkedOut b.dual }
  lent : b.owner = owner'

theorem Paired.dual (h : Paired owner owner' x b) : x.dual = .ok b.dual := by
  rw [h.out]
  rfl

theorem Paired.primal (h : Paired owner owner' x b) (hprimal : owner.primal = owner'.primal) :
    x.primal = b.owner.primal := by
  rw [h.out, h.lent, hprimal]

/-- The same can be read in either place. -/
theorem Paired.view (h : Paired owner owner' x b) (hprimal : owner.primal = owner'.primal) :
    x.view = b.view := by
  have hread : ∀ {β : Type} (read : Dual α → β), x.readDual read = .ok (read b.dual) := by
    intro β read
    rw [readDual, h.dual]
    rfl
  simp only [Exchange.view, Borrowed.view, View.mk.injEq]
  exact ⟨h.primal hprimal, h.dual, hread _, funext fun _ => hread _, funext fun _ => hread _,
    funext fun _ => hread _, funext fun _ => hread _, funext fun _ => hread _⟩

/-- What is alike of an exchange and its borrower is alike once the borrower is done. -/
theorem lend_alike {β γ : Type} {f : Exchange α → γ} {E : Exchange α → Exchange α → Prop}
    {m : Exchange.InPlace α β} {n : Borrowed.InPlace α β}
    (h : Alike (fun x b => f x = f b.owner) (fun x b => E x b.owner) (m.run x) (n.run ⟨d, owner⟩)) :
    Alike (fun x y => f x = f y) E (m.run x) ((lend d n).run owner) := by
  rw [run_lend]
  generalize m.run x = r, n.run ⟨d, owner⟩ = r' at h ⊢
  cases h with
  | ok h => exact .ok h
  | refused h => exact .refused h
  | outOfRange => exact .outOfRange

variable [Scalar α]

theorem run_changeDual (hdual : x.dual = .ok d) (c : Change α) : (perform (.changeDual c)).run x =
    match d.program.change c with
    | .ok program => .ok () { x with state := .checkedOut { d with program } }
    | .error fault => .error (fault.map .program) x := by
  cases hchange : d.program.change c <;> simp [perform, hdual, hchange, Except.mapError]

/-- A change is declined in both places or in neither. -/
theorem Paired.change (h : Paired owner owner' x b) (c : Change α) :
    Alike (Paired owner owner') (Paired owner owner') ((perform (.changeDual c)).run x)
      ((Borrowed.InPlace.change c).run b) := by
  rw [run_changeDual h.dual, run_change]
  cases b.dual.program.change c with
  | ok program =>
    refine .ok ⟨?_, h.lent⟩
    rw [h.out]
  | error fault =>
    cases fault with
    | outOfRange => exact .outOfRange
    | refused cause => exact .refused h

/-- **The same changes are declined in either place, and the same is read in between.** -/
theorem changes_alike {E : Exchange α → Borrowed α → Prop} (h : Paired owner owner' x b)
    (hprimal : owner.primal = owner'.primal) (changes : List (Change α)) :
    Alike (Paired owner owner') E ((changesOut changes).run x) ((changesLent changes).run b) :=
  watched_alike (fun h => h.view hprimal) (fun c _ _ h => h.change c) changes h

theorem run_checkIn (hdual : x.dual = .ok d) : (perform .checkIn).run x =
    match d.writeBack? x.primal with
    | some primal =>
      .ok () { x with state := .checkedIn, primal, summary := x.summary.afterCheckin }
    | none => .error .outOfRange { x with state := .checkedIn } := by
  simp only [perform, EStateM.run_bind, EStateM.run_get, hdual, run_ask_ok]
  exact run_settle _ _

/-- **Both ways to give a dual back write the same.** `f` is what is looked at afterwards. -/
theorem Paired.checkIn {γ : Type} {f : Exchange α → γ} {E : Exchange α → Borrowed α → Prop}
    (h : Paired owner owner' x b) (hprimal : owner.primal = owner'.primal)
    (hf : ∀ primal, f { owner with
        state := .checkedIn, primal, summary := owner.summary.afterCheckin } =
      f { owner' with primal, summary := owner'.summary.afterCheckin }) :
    Alike (fun x b => f x = f b.owner) E ((perform .checkIn).run x)
      (Borrowed.InPlace.checkIn.run b) := by
  rw [run_checkIn h.dual, run_return, h.primal hprimal]
  cases b.dual.writeBack? b.owner.primal with
  | none => exact .outOfRange
  | some primal =>
    refine .ok ?_
    rw [h.out, h.lent]
    exact hf primal

/-! ## Whole cycles -/

theorem run_checkOut (x : Exchange α) (elapsed : Nat) : (perform (.checkOut elapsed)).run x =
    match x.lendable with
    | .ok d => .ok () { x.booked d elapsed with state := .checkedOut d }
    | .error fault => .error (fault.map .exchange) x := by
  have hperform : perform (.checkOut elapsed) =
      (do ask (← get).verifyCheckedIn; derive elapsed : Exchange.InPlace α (Dual α)) >>= fun dual =>
        modify fun x => { x with state := .checkedOut dual } := by
    simp only [perform, bind_assoc]
  rw [hperform, EStateM.run_bind, run_borrowing]
  cases x.lendable <;> rfl

/-- A dual that is checked out and in, and one that is borrowed and returned. `f` is what is looked
at afterwards, when the times that it took may differ. -/
theorem cycles_alike {γ : Type} (f : Exchange α → γ) (x : Exchange α) (elapsed elapsed' : Nat)
    (changes : List (Change α))
    (hf : ∀ {d} primal, x.lendable = .ok d →
      f { x.booked d elapsed with
          state := .checkedIn, primal, summary := (x.booked d elapsed).summary.afterCheckin } =
        f { x.booked d elapsed' with
          primal, summary := (x.booked d elapsed').summary.afterCheckin }) :
    Alike (fun x y => f x = f y) (fun x y => x = y) ((checkedOut elapsed changes).run x)
      ((borrowed elapsed' changes true).run x) := by
  rw [checkedOut, EStateM.run_bind, run_checkOut, run_borrowed]
  cases hd : x.lendable with
  | error fault =>
    cases fault with
    | outOfRange => exact .outOfRange
    | refused cause => exact .refused rfl
  | ok d =>
    -- The same dual in two places. The exchanges it left behind differ in the time only, so the
    -- primal that is read in between is the same.
    have hpaired : Paired (x.booked d elapsed) (x.booked d elapsed')
        { x.booked d elapsed with state := .checkedOut d } ⟨d, x.booked d elapsed'⟩ := ⟨rfl, rfl⟩
    have hprimal : (x.booked d elapsed).primal = (x.booked d elapsed').primal := by simp
    refine lend_alike ((changes_alike hpaired hprimal changes).bind fun seen y b h => ?_)
    exact (h.checkIn hprimal fun primal => hf primal hd).bind fun _ y b h => .ok h

omit [Scalar α] in
/-- What is alike of two cycles is the same of their outcomes. -/
theorem map_outcome_eq {β γ : Type} {f : Exchange α → γ} {m n : Exchange.InPlace α β}
    {x : Exchange α} (h : Alike (fun x y => f x = f y) (fun x y => x = y) (m.run x) (n.run x)) :
    (outcome m x).map (Prod.map id f) = (outcome n x).map (Prod.map id f) := by
  unfold outcome
  generalize m.run x = r, n.run x = r' at h ⊢
  cases h with
  | ok h => simp [h]
  | refused h => simp [h]
  | outOfRange => rfl

theorem outcome_borrowed_eq (x : Exchange α) (elapsed : Nat) (changes : List (Change α)) :
    outcome (borrowed elapsed changes true) x = outcome (checkedOut elapsed changes) x := by
  have halike := cycles_alike id x elapsed elapsed changes fun {d} primal hd => by
    simp only [id, state_booked, state_of_lendable hd]
  simpa using (map_outcome_eq halike).symm

theorem untimed_outcome_borrowed_eq (x : Exchange α) (elapsed elapsed' : Nat)
    (changes : List (Change α)) :
    (outcome (borrowed elapsed changes true) x).map (Prod.map id untimed) =
      (outcome (checkedOut elapsed' changes) x).map (Prod.map id untimed) := by
  refine (map_outcome_eq (cycles_alike untimed x elapsed' elapsed changes ?_)).symm
  intro d primal hd
  have hstate : x.state = .checkedIn := state_of_lendable hd
  cases hverbose : x.settings.verbose <;>
    simp [untimed, booked, counted, Summary.afterCheckout, Summary.afterCheckin, hverbose, hstate]

theorem exists_outcome_letGo {x : Exchange α} {elapsed : Nat} {changes : List (Change α)}
    {r : Except Refusal (Seen α)} {y : Exchange α}
    (hout : outcome (checkedOut elapsed changes) x = some (r, y)) :
    ∃ z, outcome (borrowed elapsed changes false) x = some (r, z) := by
  rw [← outcome_borrowed_eq] at hout
  rcases borrowed_cases x elapsed changes with
    ⟨cause, hdeclined⟩ | hnone | ⟨d, later, _, hgone, hnone | ⟨y', hreturned⟩⟩
  · rw [hdeclined] at hout
    cases hout
    exact ⟨x, hdeclined false⟩
  · rw [hnone] at hout
    cases hout
  · rw [hnone] at hout
    cases hout
  · rw [hreturned] at hout
    cases hout
    exact ⟨_, hgone⟩

theorem of_outcome_letGo {x : Exchange α} {elapsed : Nat} {changes : List (Change α)}
    {seen : Seen α} {y : Exchange α}
    (hout : outcome (borrowed elapsed changes false) x = some (.ok seen, y)) :
    ∃ d, seen.out.dual = .ok d ∧ x.state = .checkedIn ∧ y = x.booked d elapsed := by
  rcases borrowed_cases x elapsed changes with
    ⟨cause, hdeclined⟩ | hnone | ⟨d, later, hd, hgone, _⟩
  · rw [hdeclined] at hout
    cases hout
  · rw [hnone] at hout
    cases hout
  · rw [hgone] at hout
    cases hout
    exact ⟨d, rfl, state_of_lendable hd, rfl⟩

theorem eq_of_outcome_declined {x : Exchange α} {elapsed : Nat} {changes : List (Change α)}
    {returned : Bool} {cause : Refusal} {y : Exchange α}
    (hout : outcome (borrowed elapsed changes returned) x = some (.error cause, y)) : y = x := by
  rcases borrowed_cases x elapsed changes with
    ⟨cause, hdeclined⟩ | hnone | ⟨d, later, _, hgone, hreturned⟩
  · rw [hdeclined] at hout
    cases hout
    rfl
  · rw [hnone] at hout
    cases hout
  · cases returned with
    | false =>
      rw [hgone] at hout
      cases hout
    | true =>
      rcases hreturned with hnone | ⟨y', hreturned⟩
      · rw [hnone] at hout
        cases hout
      · rw [hreturned] at hout
        cases hout

theorem isSome_outcome_borrowed {x : Exchange α} {changes : List (Change α)} {elapsed : Nat}
    {returned : Bool} (h : x.Sound)
    (hrange : (Call.borrow elapsed changes returned).InRange x) :
    (outcome (borrowed elapsed changes returned) x).isSome := by
  rw [← Option.isSome_map (f := Prod.snd), outcome_borrowed, Option.isSome_map]
  rcases call_moved (c := .borrow elapsed changes returned) h @hrange with
    ⟨cause, hcall⟩ | ⟨y, hcall, _⟩ <;> rw [hcall] <;> rfl

/-! ## The specification -/

/-- Both ways through a cycle agree. -/
structure WaysAgree (x : Exchange α) (changes : List (Change α)) : Prop where
  /-- A dual that is borrowed and returned comes to the same as one that is checked out and in: the
  same cause if it is declined, the same things read in between, the same exchange after it. -/
  same : ∀ elapsed,
    outcome (borrowed elapsed changes true) x = outcome (checkedOut elapsed changes) x
  /-- They may take different times. -/
  untimed : ∀ elapsed elapsed',
    (outcome (borrowed elapsed changes true) x).map (Prod.map id untimed) =
      (outcome (checkedOut elapsed' changes) x).map (Prod.map id untimed)
  /-- The same is read of a dual that is let go, and it is declined for the same cause. -/
  read : ∀ {elapsed : Nat} {r : Except Refusal (Seen α)} {y : Exchange α},
    outcome (checkedOut elapsed changes) x = some (r, y) →
      ∃ z, outcome (borrowed elapsed changes false) x = some (r, z)
  /-- Of a dual that is let go nothing is left but its count, and the summary if it was printed. -/
  letGo : ∀ {elapsed : Nat} {seen : Seen α} {y : Exchange α},
    outcome (borrowed elapsed changes false) x = some (.ok seen, y) →
      ∃ d, seen.out.dual = .ok d ∧ x.state = .checkedIn ∧ y = x.booked d elapsed
  /-- Nothing at all is left of a cycle that is declined. -/
  declined : ∀ {elapsed : Nat} {returned : Bool} {cause : Refusal} {y : Exchange α},
    outcome (borrowed elapsed changes returned) x = some (.error cause, y) → y = x
  /-- When the handles in the changes exist, a cycle comes to an end. -/
  ends : ∀ {elapsed : Nat} {returned : Bool}, x.Sound →
    (Call.borrow elapsed changes returned).InRange x →
      (outcome (borrowed elapsed changes returned) x).isSome

/-- **Both ways through a cycle agree**, from any exchange and for any changes of the dual. -/
theorem ways_agree (x : Exchange α) (changes : List (Change α)) : WaysAgree x changes where
  same elapsed := outcome_borrowed_eq x elapsed changes
  untimed elapsed elapsed' := untimed_outcome_borrowed_eq x elapsed elapsed' changes
  read := exists_outcome_letGo
  letGo := of_outcome_letGo
  declined := eq_of_outcome_declined
  ends h hrange := isSome_outcome_borrowed h @hrange

/-- Three changes of a dual, of which the second is declined. When the dual is returned, its solution
is the point of the primal; when it is let go, the point is what it was. -/
example :
    let changes : List (Change Rat) :=
      [.edit (.setMultiplier ⟨0⟩ 5), .edit (.addTerm ⟨0⟩ ⟨0⟩ 2), .edit (.setReducedCost ⟨0⟩ 3)]
    let point (returned : Bool) :=
      (outcome (borrowed 7 changes returned) (.new Program.twoRows .standard)).map (·.2.primal.point)
    point true = some #[5, 3, 0] ∧ point false = some #[0, 0, 0] := by
  decide +kernel

end Cycle

end Conic
