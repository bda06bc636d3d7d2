import Scannerless.Proofs.Evaluation.Contexts

/-!
# What all values have

Values come from tokens and from rules, and rules are applied at places of the input. If the values
of tokens have a property, and actions hand it up wherever they are applied, then all values on the
stack of the machine have it on all of its way, and so has the value of the input.

## Main definitions

- `RuleContext.StandsIn` — a context is at places of an input.
- `Registry.Preserves` — actions hand a property of values up.

## Main statements

- `Machine.Amid.forall_values_step` — every step of the machine keeps the property.
- `Recognition.Ended.of_evaluate` — the value of an input has it.
-/

namespace Scannerless

open Text

variable {V : Type}

/-- A context begins and ends at places of an input. -/
structure RuleContext.StandsIn (c : RuleContext) (input : Indexed) : Prop where
  start : input.HasPlace c.start
  stop : input.HasPlace c.stop

variable [Semantic V]

/-- The values of tokens and lists have a property, and what actions make of values that have it
    has it, too, if they are applied at places of the input. -/
structure Registry.Preserves (actions : Registry V) (input : Indexed) (P : V → Prop) : Prop where
  ofLexeme : ∀ text, P (Semantic.ofLexeme text)
  undefined : P Semantic.undefined
  ofList : ∀ vs, (∀ v ∈ vs, P v) → P (Semantic.ofList vs)
  action : ∀ name f, actions.find? name = some f → ∀ c, c.StandsIn input →
    ∀ vs, (∀ v ∈ vs, P v) → P (f c vs)

/-! ### Values of rules -/

namespace Registry.Preserves

variable {actions : Registry V} {input : Indexed} {P : V → Prop} {vs : List V} {v : V}

theorem collapse (h : actions.Preserves input P) (hvs : ∀ v ∈ vs, P v) : P (collapse vs) := by
  rcases vs with _ | ⟨v, _ | ⟨w, vs⟩⟩
  · exact h.ofList _ hvs
  · exact hvs v (List.mem_singleton_self v)
  · exact h.ofList _ hvs

theorem defaultValue (h : actions.Preserves input P) (hvs : ∀ v ∈ vs, P v) (c : RuleContext) :
    P (defaultValue c vs) := by
  rw [Scannerless.defaultValue]
  split
  · exact h.collapse hvs
  · exact h.undefined

/-- The value of a rule has the property, whatever its action is. -/
theorem applyRule (h : actions.Preserves input P) {c : RuleContext} (hc : c.StandsIn input)
    (hvs : ∀ v ∈ vs, P v) (hv : applyRule actions c vs = .ok v) : P v := by
  rw [Scannerless.applyRule] at hv
  split at hv
  · split at hv
    next f hf =>
      obtain rfl := Except.ok.inj hv
      exact h.action _ f hf c hc vs hvs
    next => cases hv
  · obtain rfl := Except.ok.inj hv
    cases vs with
    | nil => exact h.undefined
    | cons first rest => exact hvs first List.mem_cons_self
  · obtain rfl := Except.ok.inj hv
    exact h.undefined
  · obtain rfl := Except.ok.inj hv
    exact h.ofList vs hvs
  · obtain rfl := Except.ok.inj hv
    exact h.defaultValue hvs c

end Registry.Preserves

namespace Recognition

variable {r : Recognition} {actions : Registry V} {P : V → Prop} {tree : Tree} {ref : ItemRef}
  {it : Item} {rule : Rule} {us : List Tree} {vs : List V} {v : V}

/-- The rules of a chosen tree apply at places of the input. -/
theorem Ended.standsIn (hr : r.Ended) (hchosen : r.Chosen tree)
    (happlies : r.AppliesIn tree ref it rule us) :
    (r.context ref it rule).StandsIn r.input := by
  obtain ⟨part, hslice, -⟩ := (hr.spanning hchosen happlies).text
  obtain ⟨hstart, hstop⟩ := Indexed.hasPlace_of_slice? hslice
  exact ⟨hstart, hstop⟩

theorem Ended.of_reduce (hr : r.Ended) (hchosen : r.Chosen tree)
    (happlies : r.AppliesIn tree ref it rule us) (hP : actions.Preserves r.input P)
    (hvs : ∀ v ∈ vs, P v) {context : Option RuleContext}
    (h : r.reduce actions ref vs = .ok (v, context)) : P v := by
  rw [reduce_eq happlies.item happlies.rule] at h
  split at h
  · obtain ⟨rfl, -⟩ := Prod.mk.inj (Except.ok.inj h)
    exact hP.collapse hvs
  · obtain ⟨value, hvalue, heq⟩ := map_eq_ok_iff.mp h
    obtain ⟨rfl, -⟩ := Prod.mk.inj heq
    exact hP.applyRule (hr.standsIn hchosen happlies) hvs hvalue

end Recognition

/-! ### Values on the stack -/

namespace Machine

variable {r : Recognition} {actions : Registry V} {P : V → Prop} {root : ItemRef} {tree : Tree}
  {m m' : Machine V}

/-- Every step keeps the property of all values on the stack. -/
theorem Amid.forall_values_step (hm : Amid r actions root tree m) (hr : r.Ended)
    (hchosen : r.Chosen tree) (hP : actions.Preserves r.input P) (hvalues : ∀ v ∈ m.values, P v)
    (h : Machine.step r actions m = .inl m') : ∀ v ∈ m'.values, P v := by
  rw [Machine.step] at h
  split at h
  · split at h <;> cases h
  · obtain rfl := Sum.inl.inj h
    exact hvalues
  · obtain rfl := Sum.inl.inj h
    exact List.forall_mem_cons.mpr ⟨hP.ofLexeme _, hvalues⟩
  next ref count rest htasks =>
    split at h
    next value context hreduce =>
      obtain rfl := Sum.inl.inj h
      obtain ⟨it, rule, us, -, -, happlies, -⟩ := hm.reduce_cases htasks
      -- The arguments lie on the stack.
      have harguments : ∀ v ∈ (m.values.take count).reverse, P v := fun v hv =>
        hvalues v (List.mem_of_mem_take (List.mem_reverse.mp hv))
      exact List.forall_mem_cons.mpr ⟨hr.of_reduce hchosen happlies hP harguments hreduce,
        fun v hv => hvalues v (List.mem_of_mem_drop hv)⟩
    next => cases h

/-- The machine comes to the topmost value. -/
theorem head?_of_step {v : V} {events : Array (ValueEvent V)}
    (h : Machine.step r actions m = .inr (.ok v, events)) : m.values.head? = some v := by
  rw [Machine.step] at h
  split at h
  · split at h
    next => cases h
    next value rest hvalues =>
      obtain ⟨hvalue, -⟩ := Prod.mk.inj (Sum.inr.inj h)
      obtain rfl := Except.ok.inj hvalue
      rw [hvalues, List.head?_cons]
  · cases h
  · cases h
  · split at h <;> cases h

end Machine

namespace Recognition

variable {r : Recognition} {actions : Registry V} {P : V → Prop} {v : V}

/-- The value of an input has the property. -/
theorem Ended.of_evaluate (hr : r.Ended) (hok : r.failure? = none)
    (hP : actions.Preserves r.input P) (h : (r.evaluate actions).1 = .ok v) : P v := by
  obtain ⟨tree, hchosen⟩ := hr.exists_chosen hok
  obtain ⟨root, it, us, hroot, hit, hus, rfl⟩ := id hchosen
  obtain ⟨root', _, _, _, hroot', -, happlies⟩ := hr.exists_appliesIn_root hchosen
  obtain rfl := Option.some.inj (hroot.symm.trans hroot')
  have hends := hr.ends_evaluate actions hroot hit hus
  rw [← hr.evaluate_eq actions hchosen] at hends
  obtain ⟨m, hpasses, hlast⟩ := hends.exists_passes
  have hvalues : ∀ v ∈ m.values, P v :=
    (hpasses.invariant (P := fun m => Machine.Amid r actions root _ m ∧ ∀ v ∈ m.values, P v)
      ⟨.start, List.forall_mem_nil _⟩ fun m m' hm hstep =>
        ⟨hm.1.step hr happlies hstep, hm.1.forall_values_step hr hchosen hP hm.2 hstep⟩).2
  have hlast : Machine.step r actions m = .inr (.ok v, (r.evaluate actions).2) := by
    rw [hlast, ← h]
  exact hvalues v (List.mem_of_mem_head? (Machine.head?_of_step hlast))

end Recognition

end Scannerless
