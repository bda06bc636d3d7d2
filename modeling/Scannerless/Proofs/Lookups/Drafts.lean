import Mathlib.Data.List.Forall2
import Scannerless.Proofs.Grammar.Elements
import Scannerless.Proofs.Lookups.Steps

/-!
# What steps look up is there

A draft has an offset for each of its symbols, and names, rules and notes speak of its symbols
only. Steps keep it that way and take no symbol away, so that whatever is known to be a symbol
stays one, and each lookup of the next step finds what it is after.

## Main definitions

- `Draft.Sound` — what a draft speaks of is among its symbols.
- `Outline.Resolves` — names have the symbols that they are looked up for.
- `Draft.Finds` — a step with lookups comes to what the step without them comes to.

## Main statements

- `Draft.Finds.bind`, `Draft.finds_forM`, `Draft.finds_mapM` — steps one after the other.
- `Draft.finds_symbolAt_bind`, `Draft.finds_offsetOf_bind` — lookups of a sound draft.
-/

namespace Scannerless

/-- Names have the symbols that they are looked up for. -/
structure Outline.Resolves (o : Outline) : Prop where
  structural : ∀ name s, o.structuralId? name = some s → o.ids.lookup name = some s
  lexical : ∀ name s, o.lexicalId? name = some s → o.ids.lookup name = some s

/-- Both symbols of a rule are among those below a number. -/
def Rule.Below (r : Rule) (n : Nat) : Prop :=
  r.lhs < n ∧ ∀ s ∈ r.rhs, s < n

theorem Rule.Below.mono {r : Rule} {m n : Nat} (h : r.Below m) (hmn : m ≤ n) : r.Below n :=
  ⟨Nat.lt_of_lt_of_le h.1 hmn, fun s hs => Nat.lt_of_lt_of_le (h.2 s hs) hmn⟩

namespace Draft

/-- There is an offset for each symbol, and what a draft speaks of is among its symbols. -/
structure Sound (o : Outline) (d : Draft) : Prop where
  offsets : d.offsets.size = d.symbols.size
  names : o.structural.length + o.lexical.length ≤ d.symbols.size
  anonymous : ∀ e ∈ d.anonymous, e.2 < d.symbols.size
  characters : ∀ e ∈ d.characters, e.2 < d.symbols.size
  lexemes : ∀ s ∈ d.lexemes, s < d.symbols.size
  discards : ∀ s ∈ d.discards, s < d.symbols.size
  references : ∀ e ∈ d.references, e.1 < d.symbols.size ∧ e.2 < d.symbols.size
  structural : ∀ r ∈ d.structural.toList, r.Below d.symbols.size
  lexical : ∀ r ∈ d.lexical.toList, r.Below d.symbols.size

variable {o : Outline} {d : Draft} {α β γ : Type}

/-- A step with lookups comes to what the step without them comes to. The draft behind it is
    sound and has all symbols that were there, and the result is good for it. -/
def Finds (o : Outline) (d : Draft) (c : Checked α) (m : Drafting α) (good : α → Draft → Prop) :
    Prop :=
  c.run d = some (m.run d) ∧ ∀ a d', m.run d = .ok (a, d') →
    d'.Sound o ∧ d.symbols.size ≤ d'.symbols.size ∧ good a d'

/-! ### Steps one after the other -/

theorem run_checked_bind (c : Checked α) (f : α → Checked β) (d : Draft) :
    (c >>= f).run d =
      match c.run d with
      | none => none
      | some (.error e) => some (.error e)
      | some (.ok (a, d')) => (f a).run d' := by
  show ExceptT.bind (c.run d) (fun p => (f p.1).run p.2) = _
  cases h : c.run d with
  | none => rfl
  | some x => cases x <;> rfl

variable {good : α → Draft → Prop} {good' : β → Draft → Prop}

theorem Finds.bind {c : Checked α} {m : Drafting α} {f : α → Checked β} {g : α → Drafting β}
    (h : d.Finds o c m good)
    (hf : ∀ a d', d'.Sound o → d.symbols.size ≤ d'.symbols.size → good a d' →
      d'.Finds o (f a) (g a) good') :
    d.Finds o (c >>= f) (m >>= g) good' := by
  obtain ⟨hrun, hgood⟩ := h
  rw [Finds, run_checked_bind, hrun, StateT.run_bind]
  cases hm : m.run d with
  | error e => exact ⟨rfl, fun _ _ h => by cases h⟩
  | ok p =>
    obtain ⟨a, d'⟩ := p
    obtain ⟨hsound, hle, ha⟩ := hgood a d' hm
    obtain ⟨hrun', hgood'⟩ := hf a d' hsound hle ha
    refine ⟨hrun', fun b d'' hb => ?_⟩
    obtain ⟨hsound', hle', hb⟩ := hgood' b d'' hb
    exact ⟨hsound', Nat.le_trans hle hle', hb⟩

theorem Finds.mono {c : Checked α} {m : Drafting α} {good'' : α → Draft → Prop}
    (h : d.Finds o c m good) (hgood : ∀ a d', good a d' → good'' a d') :
    d.Finds o c m good'' :=
  ⟨h.1, fun a d' ha => (h.2 a d' ha).imp_right fun h => h.imp_right (hgood a d')⟩

theorem finds_pure (hd : d.Sound o) {a : α} (ha : good a d) :
    d.Finds o (pure a) (pure a) good := by
  refine ⟨rfl, fun a' d' h => ?_⟩
  obtain ⟨rfl, rfl⟩ := Drafting.run_pure.mp h
  exact ⟨hd, Nat.le_refl _, ha⟩

theorem finds_throw (cause : Cause) (offset : Nat) :
    d.Finds o (throw ⟨cause, offset⟩) (Drafting.refuse cause offset) good :=
  ⟨rfl, fun _ _ h => absurd h Drafting.run_refuse⟩

theorem finds_get_bind {f : Draft → Checked β} {g : Draft → Drafting β}
    (h : d.Finds o (f d) (g d) good') : d.Finds o (get >>= f) (get >>= g) good' :=
  h

/-- The draft itself may be read on one side only. -/
theorem finds_get_right {c : Checked β} {g : Draft → Drafting β}
    (h : d.Finds o c (g d) good') : d.Finds o c (get >>= g) good' :=
  h

/-- A lookup that finds something may come first. -/
theorem finds_found_bind {x : Option α} {a : α} (hx : x = some a) {f : α → Checked β}
    {m : Drafting β} (h : d.Finds o (f a) m good') : d.Finds o (Checked.found x >>= f) m good' := by
  subst hx
  exact h

theorem finds_ofDrafting {m : Drafting α}
    (h : ∀ a d', m.run d = .ok (a, d') →
      d'.Sound o ∧ d.symbols.size ≤ d'.symbols.size ∧ good a d') :
    d.Finds o (Checked.ofDrafting m) m good :=
  ⟨rfl, h⟩

/-- A step that looks nothing up and changes nothing. -/
theorem finds_read (hd : d.Sound o) (x : Except Fault α) :
    d.Finds o (Checked.read x) (liftM x) fun a _ => x = .ok a := by
  refine finds_ofDrafting fun a d' h => ?_
  obtain ⟨hx, rfl⟩ := Drafting.run_lift.mp h
  exact ⟨hd, Nat.le_refl _, hx⟩

theorem finds_modify {f g : Draft → Draft} (hfg : f d = g d) (hd : (g d).Sound o)
    (hle : d.symbols.size ≤ (g d).symbols.size) :
    d.Finds o (modify f) (modify g) fun _ d' => d' = g d := by
  refine ⟨?_, fun a d' h => ?_⟩
  · show some (Except.ok ((), f d)) = some (Except.ok ((), g d))
    rw [hfg]
  · obtain rfl := Drafting.run_modify.mp h
    exact ⟨hd, hle, rfl⟩

theorem finds_set {e : Draft} (he : e.Sound o) (hle : d.symbols.size ≤ e.symbols.size) :
    d.Finds o (set e) (set e) fun _ d' => d' = e := by
  refine ⟨rfl, fun a d' h => ?_⟩
  obtain rfl := Drafting.run_set.mp h
  exact ⟨he, hle, rfl⟩

/-- Steps for the elements of two lists that go together. -/
theorem finds_forM_forall₂ {n : Nat} {xs : List β} {ys : List γ} {f : β → Checked Unit}
    {g : γ → Drafting Unit} (hd : d.Sound o) (hn : n ≤ d.symbols.size)
    (h : List.Forall₂ (fun x y => ∀ d' : Draft, d'.Sound o → n ≤ d'.symbols.size →
      d'.Finds o (f x) (g y) fun _ _ => True) xs ys) :
    d.Finds o (xs.forM f) (ys.forM g) fun _ _ => True := by
  induction h generalizing d with
  | nil => exact finds_pure hd trivial
  | @cons x y xs ys hxy hrest ih =>
    show d.Finds o (f x >>= fun _ => xs.forM f) (g y >>= fun _ => ys.forM g) _
    exact (hxy d hd hn).bind fun _ d' hd' hle _ => ih hd' (Nat.le_trans hn hle)

theorem finds_forM {xs : List β} {f : β → Checked Unit} {g : β → Drafting Unit} (hd : d.Sound o)
    (h : ∀ x ∈ xs, ∀ d' : Draft, d'.Sound o → d.symbols.size ≤ d'.symbols.size →
      d'.Finds o (f x) (g x) fun _ _ => True) :
    d.Finds o (xs.forM f) (xs.forM g) fun _ _ => True :=
  finds_forM_forall₂ hd (Nat.le_refl _) (List.forall₂_same.mpr h)

theorem finds_mapM {xs : List β} {f : β → Checked α} {g : β → Drafting α} (hd : d.Sound o)
    (hstable : ∀ a (d' d'' : Draft), d'.symbols.size ≤ d''.symbols.size → good a d' → good a d'')
    (h : ∀ x ∈ xs, ∀ d' : Draft, d'.Sound o → d.symbols.size ≤ d'.symbols.size →
      d'.Finds o (f x) (g x) good) :
    d.Finds o (xs.mapM f) (xs.mapM g)
      fun as d' => as.length = xs.length ∧ ∀ a ∈ as, good a d' := by
  induction xs generalizing d with
  | nil => exact finds_pure hd ⟨rfl, List.forall_mem_nil _⟩
  | cons x xs ih =>
    rw [List.mapM_cons, List.mapM_cons]
    refine (h x List.mem_cons_self d hd (Nat.le_refl _)).bind fun a d' hd' hle ha => ?_
    have hrest := ih hd' fun y hy d'' hd'' hle' =>
      h y (List.mem_cons_of_mem x hy) d'' hd'' (Nat.le_trans hle hle')
    refine hrest.bind fun as d'' hd'' hle' has => finds_pure hd'' ⟨congrArg Nat.succ has.1, ?_⟩
    exact List.forall_mem_cons.mpr ⟨hstable a d' d'' hle' ha, has.2⟩

/-! ### Lookups of symbols -/

theorem finds_symbolAt_bind {s : SymbolId} (hs : s < d.symbols.size) {f : Symbol → Checked β}
    {m : Drafting β} (h : d.Finds o (f d.symbols[s]) m good') :
    d.Finds o (Checked.symbolAt s >>= f) m good' := by
  show d.Finds o (Checked.found (d.symbols[s]?) >>= f) m good'
  exact finds_found_bind (Array.getElem?_eq_getElem hs) h

theorem finds_nameOf_bind {s : SymbolId} (hs : s < d.symbols.size) {f : String → Checked β}
    {m : Drafting β} (h : d.Finds o (f (d.name s)) m good') :
    d.Finds o (Checked.nameOf s >>= f) m good' := by
  have hname : d.name s = d.symbols[s].name := by
    rw [name, Array.getElem?_eq_getElem hs]
  rw [Checked.nameOf, bind_assoc]
  refine finds_symbolAt_bind hs ?_
  rw [pure_bind, ← hname]
  exact h

theorem finds_namesOf_bind {ss : List SymbolId} (hss : ∀ s ∈ ss, s < d.symbols.size)
    {f : List String → Checked β} {m : Drafting β} (h : d.Finds o (f (ss.map d.name)) m good') :
    d.Finds o (ss.mapM Checked.nameOf >>= f) m good' := by
  induction ss generalizing f with
  | nil => exact h
  | cons s ss ih =>
    rw [List.forall_mem_cons] at hss
    rw [List.mapM_cons, bind_assoc]
    refine finds_nameOf_bind hss.1 ?_
    rw [bind_assoc]
    exact ih hss.2 h

theorem finds_offsetOf_bind (hd : d.Sound o) {s : SymbolId} (hs : s < d.symbols.size)
    {f : Nat → Checked β} {m : Drafting β} (h : d.Finds o (f (d.offset s)) m good') :
    d.Finds o (Checked.offsetOf s >>= f) m good' := by
  have hlt : s < d.offsets.size := by rw [hd.offsets]; exact hs
  have hoffset : d.offsets[s]? = some (d.offset s) := by
    rw [offset, Array.getD_eq_getD_getElem?, Array.getElem?_eq_getElem hlt, Option.getD_some]
  show d.Finds o (Checked.found (d.offsets[s]?) >>= f) m good'
  exact finds_found_bind hoffset h

end Draft

end Scannerless
