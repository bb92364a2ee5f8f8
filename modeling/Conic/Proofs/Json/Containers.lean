import Conic.Json.Codec
import Conic.Proofs.Json.Yielding

/-!
# Lists and objects come back

* `Codec.list_faithful`, `Codec.pair_faithful` — a list comes back when all of its items do.
* `Fields.Faithful` — members with plain and different names, each of which comes back.
* `Codec.record_faithful` — **an object with such members comes back.**
* `Codec.tagged_yields` — an object that names a case.
-/

set_option autoImplicit false

namespace Conic.Json

open Reader

variable {α β σ : Type}

/-! ## Lists -/

namespace Codec

/-- Texts, each with a comma in front. -/
def followed (ts : List (List Char)) : List Char :=
  ts.flatMap fun t => ',' :: t

theorem separated_cons (t : List Char) (ts : List (List Char)) :
    separated (t :: ts) = t ++ followed ts := by
  induction ts generalizing t with
  | nil => simp [separated, followed]
  | cons u us ih => simp [separated, ih u, followed]

theorem delimits_followed (ts : List (List Char)) {rest : List Char} (h : Delimits rest) :
    Delimits (followed ts ++ rest) := by
  cases ts with
  | nil => exact h
  | cons t ts => exact .comma _

variable {c : Codec α} {keeps : α → Prop}

/-- The items after the first, up to the mark that closes the list. -/
theorem nextItem_yields (hc : c.Faithful keeps) (as done : List α) (rest : List Char) :
    (iterate (nextItem c.read) (nextItem_consumes c.read) done).Yields
      (followed (as.map c.write) ++ ']' :: rest) (∀ a ∈ as, keeps a) (done.reverse ++ as) rest := by
  induction as generalizing done with
  | nil =>
    have hstep : (nextItem c.read done).run (']' :: rest) = .ok (.inr done.reverse, rest) := by
      unfold nextItem
      rw [run_bind_of_ok (run_token_cons (by decide) rest)]
      rfl
    refine (Yields.of_ok (a := done.reverse ++ []) ?_).congr (by simp)
    rw [List.append_nil]
    exact run_iterate_of_done hstep
  | cons a as ih =>
    have hitem := hc.yields a (delimits_followed (as.map c.write) (.square rest))
    have hstep : (nextItem c.read done).Yields
        (',' :: (c.write a ++ (followed (as.map c.write) ++ ']' :: rest))) (keeps a)
        (.inl (a :: done)) (followed (as.map c.write) ++ ']' :: rest) := by
      unfold nextItem
      refine Yields.after (run_token_cons (by decide) _) ?_
      exact hitem.wrap fun a => (Sum.inl (a :: done) : List α ⊕ List α)
    have h := (hstep.iterate (ih (a :: done))).congr List.forall_mem_cons.symm
    simpa [followed] using h

/-- A list comes back when all of its items do. -/
theorem list_faithful (hc : c.Faithful keeps) :
    (Codec.list c).Faithful fun as => ∀ a ∈ as, keeps a := by
  refine ⟨fun as => ⟨'[', _, rfl, by decide, by decide⟩, fun as rest _ => ?_⟩
  simp only [Codec.list, List.cons_append, List.append_assoc, List.nil_append]
  refine Yields.after (run_token_cons (by decide) _) ?_
  simp only [beq_self_eq_true, if_true]
  unfold items
  cases as with
  | nil =>
    refine (Yields.of_ok ?_).congr (by simp)
    simp only [List.map_nil, separated, List.nil_append]
    rw [run_bind_of_ok (run_peekToken_cons (by decide) _)]
    simp only [beq_self_eq_true, if_true]
    rw [run_bind_of_ok (run_token_cons (by decide) _)]
    rfl
  | cons a as =>
    obtain ⟨d, more, hd, hblank, hclose⟩ := hc.opens a
    have hitem := hc.yields a (delimits_followed (as.map c.write) (.square rest))
    have h := hitem.bind (f := fun a => iterate (nextItem c.read) (nextItem_consumes c.read) [a])
      (nextItem_yields hc as [a] rest)
    rw [List.map_cons, separated_cons, List.append_assoc]
    have hpeek : peekToken.run (c.write a ++ (followed (as.map c.write) ++ ']' :: rest)) =
        .ok (some d, c.write a ++ (followed (as.map c.write) ++ ']' :: rest)) := by
      rw [hd]
      exact run_peekToken_cons hblank _
    have hne : (some d == some ']') = false := by simpa using hclose
    refine Yields.after hpeek ?_
    simp only [hne]
    exact h.congr List.forall_mem_cons.symm

/-- A list of exactly two. -/
theorem pair_faithful {a : Codec α} {b : Codec β} {keepsA : α → Prop} {keepsB : β → Prop}
    (ha : a.Faithful keepsA) (hb : b.Faithful keepsB) :
    (Codec.pair a b).Faithful fun p => keepsA p.1 ∧ keepsB p.2 := by
  refine ⟨fun p => ⟨'[', _, rfl, by decide, by decide⟩, fun p rest _ => ?_⟩
  simp only [Codec.pair, List.cons_append, List.append_assoc, List.nil_append]
  refine Yields.after (run_token_cons (by decide) _) ?_
  refine (ha.yields p.1 (.comma _)).bind (Yields.after (run_mark_cons (by decide) _) ?_)
  have hclose := Yields.after (run_mark_cons (c := ']') (by decide) rest)
    (f := fun _ => pure p) (Yields.of_ok (run_pure p rest))
  exact ((hb.yields p.2 (.square rest)).bind hclose).congr (by rw [and_true])

end Codec

/-! ## Names -/

namespace Quoted

/-- The character stands in quotation marks as it is. -/
def isPlain (c : Char) : Bool :=
  c != '"' && c != '\\' && 0x20 ≤ c.toNat

/-- All characters stand in quotation marks as they are. -/
def Plain (name : String) : Prop :=
  name.toList.all isPlain = true

instance (name : String) : Decidable (Plain name) :=
  inferInstanceAs (Decidable (_ = true))

theorem scan_plain (cs done rest : List Char) (h : cs.all isPlain = true) :
    scan true .plain done (cs ++ '"' :: rest) = .ok (done.reverse ++ cs, rest) := by
  induction cs generalizing done with
  | nil => simp [scan]
  | cons c cs ih =>
    simp only [List.all_cons, isPlain, Bool.and_eq_true, bne_iff_ne, ne_eq, decide_eq_true_eq] at h
    obtain ⟨⟨⟨hmark, hslash⟩, hcontrol⟩, hrest⟩ := h
    simp only [List.cons_append, scan, hmark, hslash, Nat.not_lt.mpr hcontrol, if_false]
    rw [ih (c :: done) hrest]
    simp

theorem run_body {name : String} (h : Plain name) (rest : List Char) :
    body.run (name.toList ++ '"' :: rest) = .ok (name, rest) := by
  simp only [body]
  rw [scan_plain name.toList [] rest h]
  simp [Except.map]

end Quoted

/-! ## Objects -/

namespace Fields

variable {ρ τ : Type}

/-- The names of the members. -/
def names : {ρ : Type} → Fields ρ → List String
  | _, .done => []
  | _, .field name _ _ rest => name :: rest.names

/-- All members have been read. -/
def filled : {ρ : Type} → (f : Fields ρ) → ρ → f.Slots
  | _, .done, _ => ()
  | _, .field _ _ _ rest, (a, more) => (some a, rest.filled more)

theorem collect?_filled (f : Fields ρ) (object : ρ) :
    f.collect? (f.filled object) = some object := by
  induction f with
  | done => rfl
  | field name codec default? rest ih =>
    obtain ⟨a, more⟩ := object
    simp [collect?, filled, ih more]

/-- Members with plain and different names, each of which comes back. -/
inductive Faithful : {ρ : Type} → Fields ρ → (ρ → Prop) → Prop where
  | done : Faithful .done fun _ => True
  | field {α ρ : Type} {name : String} {codec : Codec α} {default? : Option α} {rest : Fields ρ}
      {keeps : α → Prop} {keepsRest : ρ → Prop} (plain : Quoted.Plain name)
      (new : name ∉ rest.names) (value : codec.Faithful keeps)
      (more : Faithful rest keepsRest) :
      Faithful (.field name codec default? rest) fun object =>
        keeps object.1 ∧ keepsRest object.2

/-- Every member of `f` is a member of `F`, which has its slot elsewhere. -/
def Embeds (f : Fields ρ) (F : Fields τ) (place : f.Slots → F.Slots) : Prop :=
  ∀ {key : String} {slots : f.Slots} {read : Reader f.Slots}, key ∈ f.names →
    f.member key slots = .value read → ∃ read', F.member key (place slots) = .value read' ∧
      ∀ {text rest : List Char} {kept : Prop} {next : f.Slots},
        read.Yields text kept next rest → read'.Yields text kept (place next) rest

theorem Embeds.refl (f : Fields ρ) : f.Embeds f id :=
  fun _ h => ⟨_, h, fun hy => hy⟩

/-- The first member aside, whatever its slot holds. -/
theorem Embeds.tail {name : String} {codec : Codec α} {default? : Option α} {rest : Fields ρ}
    {F : Fields τ} {place : (Fields.field name codec default? rest).Slots → F.Slots}
    (h : (Fields.field name codec default? rest).Embeds F place) (new : name ∉ rest.names)
    (slot : Option α) : rest.Embeds F fun slots => place (slot, slots) := by
  intro key slots read hkey hread
  have hne : key ≠ name := fun he => new (he ▸ hkey)
  have hmember : (Fields.field name codec default? rest).member key (slot, slots) =
      .value (read >>= fun slots => pure (slot, slots)) := by
    simp only [member, hne, if_false, hread]
  obtain ⟨read', hmember, hyields⟩ := h (List.mem_cons_of_mem name hkey) hmember
  exact ⟨read', hmember, fun hy => hyields (hy.wrap fun slots => (slot, slots))⟩

/-- Texts with commas between them, and one in front if others have been there. -/
def joined (fresh : Bool) : List (List Char) → List Char
  | [] => []
  | t :: ts => (if fresh then [] else [',']) ++ t ++ Codec.followed ts

theorem joined_true (ts : List (List Char)) : joined true ts = Codec.separated ts := by
  cases ts with
  | nil => rfl
  | cons t ts => rw [Codec.separated_cons]; rfl

theorem joined_false (ts : List (List Char)) : joined false ts = Codec.followed ts := by
  cases ts <;> rfl

/-- One member with its name. -/
theorem nextMember_yields {F : Fields τ} {name : String} {slots next : F.Slots}
    {read : Reader F.Slots} {content rest : List Char} {kept : Prop} (plain : Quoted.Plain name)
    (hmember : F.member name slots = .value read)
    (hread : read.Yields (content ++ rest) kept next rest) (fresh : Bool) :
    (F.nextMember (fresh, slots)).Yields
      ((if fresh then [] else [',']) ++ (Quoted.write name ++ ':' :: content) ++ rest) kept
      (.inl (false, next)) rest := by
  have hvalue : (F.readMember slots name >>= fun slots =>
      (pure (Sum.inl (false, slots)) : Reader ((Bool × F.Slots) ⊕ F.Slots))).Yields
        (':' :: content ++ rest) kept (.inl (false, next)) rest := by
    simp only [readMember, hmember]
    exact (Yields.after (run_mark_cons (by decide) _) hread).wrap fun slots =>
      (Sum.inl (false, slots) : (Bool × F.Slots) ⊕ F.Slots)
  have hname : (nameFrom '"').run (name.toList ++ '"' :: (':' :: content ++ rest)) =
      .ok (name, ':' :: content ++ rest) := Quoted.run_body plain _
  unfold nextMember
  cases fresh with
  | true =>
    simp only [Quoted.write, List.nil_append, if_true, List.cons_append, List.append_assoc]
    refine Yields.after (run_token_cons (by decide) _) ?_
    exact Yields.after hname hvalue
  | false =>
    simp only [Quoted.write, Bool.false_eq_true, if_false, List.cons_append, List.append_assoc,
      List.nil_append]
    refine Yields.after (run_token_cons (by decide) _) ?_
    have hcomma := (run_bind_of_ok (run_token_cons (c := '"') (by decide)
      (name.toList ++ '"' :: (':' :: content ++ rest))) nameFrom).trans hname
    exact Yields.after hcomma hvalue

/-- The members that are left, up to the mark that closes the object. -/
theorem Faithful.members_yields {f : Fields ρ} {keeps : ρ → Prop} (hf : f.Faithful keeps)
    {F : Fields τ} {place : f.Slots → F.Slots} (hplace : f.Embeds F place) (fresh : Bool)
    (object : ρ) (rest : List Char) :
    (iterate F.nextMember F.nextMember_consumes (fresh, place f.empty)).Yields
      (joined fresh (f.writeMembers object) ++ '\x7d' :: rest) (keeps object)
      (place (f.filled object)) rest := by
  induction hf generalizing fresh with
  | done =>
    refine Yields.of_ok (run_iterate_of_done ?_)
    unfold nextMember
    exact run_bind_of_ok (run_token_cons (by decide) _) _
  | @field α ρ name codec default? more keeps keepsRest plain new value _ ih =>
    obtain ⟨a, object⟩ := object
    have hrest : Delimits (joined false (more.writeMembers object) ++ '\x7d' :: rest) := by
      rw [joined_false]
      exact Codec.delimits_followed _ (.curly rest)
    have hmember : (Fields.field name codec default? more).member name (none, more.empty) =
        .value (codec.read >>= fun a => pure (some a, more.empty)) := by
      simp [member]
    obtain ⟨read', hread', hyields⟩ := hplace List.mem_cons_self hmember
    have hfirst := nextMember_yields plain hread'
      (hyields ((value.yields a hrest).wrap fun a => (some a, more.empty))) fresh
    have h := hfirst.iterate (ih (hplace.tail new (some a)) false object)
    rw [joined_false] at h
    simp only [joined, writeMembers, List.append_assoc] at h ⊢
    exact h

end Fields

namespace Codec

/-- An object comes back when all of its members do. -/
theorem record_faithful {ρ : Type} {f : Fields ρ} {keeps : ρ → Prop} (hf : f.Faithful keeps) :
    (Codec.record f).Faithful keeps := by
  refine ⟨fun object => ⟨'\x7b', _, rfl, by decide, by decide⟩, fun object rest _ => ?_⟩
  have hmembers := hf.members_yields (Fields.Embeds.refl f) true object rest
  rw [Fields.joined_true] at hmembers
  simp only [Codec.record, List.cons_append, List.append_assoc, List.nil_append]
  refine Yields.after (run_token_cons (by decide) _) ?_
  simp only [beq_self_eq_true, if_true]
  unfold Fields.readObject
  refine (hmembers.bind ?_).congr (by rw [and_true])
  rw [id_eq, Fields.collect?_filled]
  exact Yields.of_ok (run_pure object rest)

/-- An object with one member comes back when that member does. -/
theorem single_faithful {codec : Codec α} {keeps : α → Prop} {name : String}
    (plain : Quoted.Plain name) (value : codec.Faithful keeps) :
    ((record (.field name codec none .done)).map (fun member => member.1)
      (fun a => (a, ()))).Faithful keeps :=
  ((record_faithful (.field plain (by simp [Fields.names]) value .done)).map
    fun _ => rfl).congr fun _ => and_iff_left trivial

/-- An object that names a case. -/
theorem tagged_yields {content : String → Option (Reader α)} {bare : String → Option α}
    {name : String} {read : Reader α} {text rest : List Char} {kept : Prop} {a : α}
    (plain : Quoted.Plain name) (hcase : content name = some read)
    (hread : read.Yields (text ++ '\x7d' :: rest) kept a ('\x7d' :: rest)) :
    (tagged content bare).Yields (writeTagged name text ++ rest) kept a rest := by
  have hname : (nameFrom '"').run (name.toList ++ '"' :: ':' :: (text ++ '\x7d' :: rest)) =
      .ok (name, ':' :: (text ++ '\x7d' :: rest)) := Quoted.run_body plain _
  have hclose := Yields.after (run_mark_cons (c := '\x7d') (by decide) rest)
    (f := fun _ => pure a) (Yields.of_ok (run_pure a rest))
  unfold tagged writeTagged
  simp only [Quoted.write, List.cons_append, List.append_assoc, List.nil_append]
  refine Yields.after (run_token_cons (by decide) _) ?_
  simp only [beq_self_eq_true, if_true]
  refine Yields.after (run_token_cons (by decide) _) (Yields.after hname ?_)
  rw [hcase]
  refine Yields.after (run_mark_cons (by decide) _) ?_
  exact (hread.bind hclose).congr (by rw [and_true])

end Codec

end Conic.Json
