import Conic.Json.Codec

/-!
# Readers whose values are restated

Two codecs may read the same texts and make different values of them, one the image of the other.
Then so do the codecs that are put together from them: the same texts are refused, at the same
place, and what is read is the image.

* `Codec.Restates` — a codec reads the image of what another one reads.
* `Reader.iterate_map` — the loop, when its steps are restated.
* `Fields.Restates`, `Codec.record_restates` — **an object whose members are restated.**
-/

set_option autoImplicit false

namespace Conic.Json

variable {α β σ τ : Type}

/-! ## Readers -/

namespace Reader

@[ext] theorem ext {x y : Reader α} (h : ∀ text, x.run text = y.run text) : x = y := by
  obtain ⟨run, _⟩ := x
  obtain ⟨run', _⟩ := y
  obtain rfl : run = run' := funext h
  rfl

instance : LawfulMonad Reader :=
  LawfulMonad.mk' _
    (fun x => ext fun text => by
      show (x >>= fun a => pure a).run text = x.run text
      rw [run_bind]
      cases x.run text <;> rfl)
    (fun a f => ext fun text => rfl)
    fun x f g => ext fun text => by
      simp only [run_bind]
      cases x.run text <;> rfl

/-- What a restated reader makes of a text. -/
theorem run_map (f : α → β) (x : Reader α) (text : List Char) : (f <$> x).run text =
    (x.run text).map fun r => (f r.1, r.2) := by
  show (x >>= fun a => pure (f a)).run text = _
  rw [run_bind]
  cases x.run text <;> rfl

theorem map_malformed (f : α → β) : f <$> (malformed : Reader α) = malformed :=
  ext fun text => run_map f malformed text

/-- A value that is wrapped, and restated before or after. -/
theorem bind_wrap {x : Reader α} {f : α → β} {wrap : α → σ} {wrap' : β → τ} {g : σ → τ}
    (hwrap : ∀ a, wrap' (f a) = g (wrap a)) :
    ((f <$> x) >>= fun b => pure (wrap' b)) = g <$> (x >>= fun a => pure (wrap a)) := by
  rw [bind_map_left, map_bind]
  simp only [hwrap, map_pure]

/-- Nothing is ever read from a value of the wrong kind, whatever it is asked for. -/
theorem map_refuse (f : α → β) (c : Char) : f <$> (refuse c : Reader α) = refuse c := by
  unfold refuse
  cases wordRest? c with
  | some word => simp only [map_bind, map_malformed]
  | none =>
    simp only
    split
    · simp only [map_bind, map_malformed]
    · split <;> simp only [map_bind, map_malformed]

/-- When each step is restated, so is the result of the loop. -/
theorem iterate_map {step : σ → Reader (σ ⊕ α)} {step' : τ → Reader (τ ⊕ β)}
    {consumes : ∀ s, (step s).Consumes} {consumes' : ∀ s, (step' s).Consumes} {place : σ → τ}
    {f : α → β} (hstep : ∀ s, step' (place s) = Sum.map place f <$> step s) (state : σ) :
    iterate step' consumes' (place state) = f <$> iterate step consumes state := by
  refine ext fun text => ?_
  rw [run_map]
  -- Each step leaves less of the text.
  induction hlength : text.length using Nat.strongRecOn generalizing state text with
  | _ n ih =>
    rw [run_iterate, run_iterate, hstep, run_map]
    cases hrun : (step state).run text with
    | error fault => rfl
    | ok r =>
      obtain ⟨next | a, rest⟩ := r
      · exact ih rest.length (hlength ▸ consumes state hrun) next rest rfl
      · rfl

end Reader

open Reader

/-! ## Codecs -/

/-- What `d` reads is the image of what `c` reads. -/
def Codec.Restates (f : α → β) (c : Codec α) (d : Codec β) : Prop :=
  d.read = f <$> c.read

namespace Codec

variable {c : Codec α} {d : Codec β} {f : α → β}

theorem Restates.read_eq (h : c.Restates f d) : d.read = f <$> c.read := h

theorem Restates.refl (c : Codec α) : c.Restates id c :=
  (id_map c.read).symm

theorem restates_map (c : Codec α) (make : α → β) (part : β → α) :
    c.Restates make (c.map make part) :=
  rfl

/-- The two codecs are restated once more. -/
theorem Restates.map {γ δ : Type} (h : c.Restates f d) {make : α → γ} {make' : β → δ}
    {part : γ → α} {part' : δ → β} {g : γ → δ} (hmake : ∀ a, make' (f a) = g (make a)) :
    (c.map make part).Restates g (d.map make' part') := by
  show make' <$> d.read = g <$> make <$> c.read
  rw [h.read_eq, Functor.map_map, Functor.map_map]
  exact congrArg (· <$> c.read) (funext hmake)

/-- The same texts are refused, for the same fault. -/
theorem Restates.ofText (h : c.Restates f d) (text : String) :
    d.ofText text = (c.ofText text).map f := by
  unfold Codec.ofText readAll
  rw [h.read_eq, run_map]
  cases hrun : c.read.run text.toList with
  | error fault => rfl
  | ok r =>
    simp only [Except.map]
    split <;> rfl

/-! ## Lists -/

theorem nextItem_map (h : c.Restates f d) (done : List α) :
    nextItem d.read (done.map f) =
      Sum.map (List.map f) (List.map f) <$> nextItem c.read done := by
  unfold nextItem
  rw [map_bind]
  congr 1
  funext m
  split
  · simp [List.map_reverse]
  · split
    · rw [h.read_eq, map_bind, bind_map_left]
      rfl
    · exact (map_malformed _).symm

/-- A list of restated items. -/
theorem list_restates (h : c.Restates f d) : (list c).Restates (List.map f) (list d) := by
  have hsteps := nextItem_map h
  obtain ⟨write, read⟩ := d
  obtain rfl : read = f <$> c.read := h
  unfold Restates list
  simp only [map_bind]
  congr 1
  funext m
  split
  · unfold items
    simp only [map_bind]
    congr 1
    funext next
    split
    · simp
    · rw [map_bind, bind_map_left]
      congr 1
      funext a
      exact iterate_map hsteps [a]
  · exact (map_refuse _ m).symm

end Codec

/-! ## Objects -/

namespace Fields

variable {ρ υ : Type}

/-- A member in other slots. -/
def Member.map (place : σ → τ) : Member σ → Member τ
  | .unknown => .unknown
  | .repeated => .repeated
  | .value read => .value (place <$> read)

/-- Members of the same names, each of which is restated. `place` restates what was read so far. -/
structure Restates (h : ρ → υ) (F : Fields ρ) (G : Fields υ) (place : F.Slots → G.Slots) :
    Prop where
  empty : G.empty = place F.empty
  member : ∀ key slots, G.member key (place slots) = (F.member key slots).map place
  collect? : ∀ slots, G.collect? (place slots) = (F.collect? slots).map h
  readList : ∀ fresh, G.readList fresh = h <$> F.readList fresh

theorem Restates.done : Restates id .done .done id where
  empty := rfl
  member _ _ := rfl
  collect? _ := rfl
  readList _ := (id_map _).symm

section

variable {h : ρ → υ} {F : Fields ρ} {G : Fields υ} {place : F.Slots → G.Slots} {f : α → β}
  {c : Codec α} {d : Codec β}

/-- What was read so far, with one more member. -/
def placeField (name : String) (c : Codec α) (d : Codec β) (f : α → β) (place : F.Slots → G.Slots)
    (slots : (field name c none F).Slots) : (field name d none G).Slots :=
  (slots.1.map f, place slots.2)

theorem member_placeField (hvalue : c.Restates f d)
    (hmember : ∀ key slots, G.member key (place slots) = (F.member key slots).map place)
    (name key : String) (slots : (field name c none F).Slots) :
    (field name d none G).member key (placeField name c d f place slots) =
      ((field name c none F).member key slots).map (placeField name c d f place) := by
  obtain ⟨slot, slots⟩ := slots
  by_cases hkey : key = name
  · cases slot with
    | some a => simp [member, placeField, hkey, Member.map]
    | none =>
      have hread := hvalue.read_eq
      simp only [member, placeField, hkey, Option.map_none, Option.isSome_none, Member.map]
      rw [hread]
      exact congrArg Member.value (bind_wrap fun _ => rfl)
  · have hrest := hmember key slots
    simp only [member, placeField, hkey, if_false]
    rw [hrest]
    cases F.member key slots with
    | unknown | repeated => rfl
    | value read => exact congrArg Member.value (bind_wrap fun _ => rfl)

theorem readList_field (hvalue : c.Restates f d)
    (hlist : ∀ fresh, G.readList fresh = h <$> F.readList fresh) (name : String) (fresh : Bool) :
    (field name d none G).readList fresh =
      Prod.map f h <$> (field name c none F).readList fresh := by
  have hvalues : (d.read >>= fun b => G.readList false >>= fun more => pure (b, more)) =
      Prod.map f h <$> (c.read >>= fun a => F.readList false >>= fun more => pure (a, more)) := by
    rw [hvalue.read_eq, bind_map_left, map_bind]
    refine congrArg (c.read >>= ·) (funext fun a => ?_)
    rw [hlist]
    exact bind_wrap fun _ => rfl
  unfold Fields.readList
  rw [map_bind]
  refine congrArg (peekToken >>= ·) (funext fun next => ?_)
  split
  · exact (map_malformed _).symm
  · cases fresh with
    | true => exact hvalues
    | false =>
      have hcomma := congrArg (mark ',' >>= ·) (funext fun _ : Unit => hvalues)
      exact hcomma.trans (map_bind _ _ _).symm

/-- One more member that may not be missing. -/
theorem Restates.field (hrest : Restates h F G place) (hvalue : c.Restates f d) (name : String) :
    Restates (Prod.map f h) (.field name c none F) (.field name d none G)
      (placeField name c d f place) where
  empty := congrArg (Prod.mk none) hrest.empty
  member := member_placeField hvalue hrest.member name
  collect? slots := by
    have hcollect := hrest.collect? slots.2
    obtain ⟨slot, slots⟩ := slots
    simp only [Fields.collect?, placeField]
    rw [hcollect]
    cases slot <;> cases F.collect? slots <;> rfl
  readList := readList_field hvalue hrest.readList name

end

/-- One member of an object. -/
theorem Restates.readMember {h : ρ → υ} {F : Fields ρ} {G : Fields υ}
    {place : F.Slots → G.Slots} (hmembers : Restates h F G place) (slots : F.Slots)
    (name : String) : G.readMember (place slots) name = place <$> F.readMember slots name := by
  unfold Fields.readMember
  rw [hmembers.member]
  cases F.member name slots with
  | unknown => simp [Member.map, map_bind]
  | repeated => exact (map_malformed _).symm
  | value read => simp [Member.map, map_bind]

theorem Restates.nextMember {h : ρ → υ} {F : Fields ρ} {G : Fields υ}
    {place : F.Slots → G.Slots} (hmembers : Restates h F G place) (state : Bool × F.Slots) :
    G.nextMember (Prod.map id place state) =
      Sum.map (Prod.map id place) place <$> F.nextMember state := by
  obtain ⟨fresh, slots⟩ := state
  unfold Fields.nextMember
  rw [map_bind]
  congr 1
  funext m
  split
  · rfl
  · simp only [Prod.map, id_eq, map_bind]
    congr 1
    funext name
    rw [hmembers.readMember, bind_map_left]
    rfl

end Fields

namespace Codec

variable {ρ υ : Type} {h : ρ → υ} {F : Fields ρ} {G : Fields υ} {place : F.Slots → G.Slots}

/-- **An object whose members are restated is restated.** -/
theorem record_restates (hmembers : Fields.Restates h F G place) :
    (record F).Restates h (record G) := by
  unfold Restates record
  simp only [map_bind]
  congr 1
  funext m
  split
  · unfold Fields.readObject
    have hloop : iterate G.nextMember G.nextMember_consumes (Prod.map id place (true, F.empty)) =
        place <$> iterate F.nextMember F.nextMember_consumes (true, F.empty) :=
      iterate_map hmembers.nextMember (true, F.empty)
    rw [show (true, G.empty) = Prod.map id place (true, F.empty) from
      Prod.ext rfl hmembers.empty, hloop, map_bind, bind_map_left]
    congr 1
    funext slots
    rw [hmembers.collect?]
    cases F.collect? slots with
    | none => exact (map_malformed _).symm
    | some object => rfl
  · split
    · exact hmembers.readList true
    · exact (map_refuse _ m).symm

end Codec

end Conic.Json
