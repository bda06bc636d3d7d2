import Scannerless.Proofs.Grammar.Lexemes

/-!
# Faults of statements

What is wrong with a statement is said of an offset that the statement carries: its own one or
that of one of its parts. What is read apart from other statements, its elements and its adverbs,
may be malformed, and so may the outline of all statements.

## Main definitions

- `Alternative.offsets`, `Statement.offsets` — the offsets that a statement carries.
- `Fault.MalformedAt` — a malformed part at one of some offsets.
- `Outline.Placed` — the offsets of an outline are among some.

## Main statements

- `RuleAdverbs.malformedAt_of_read` — faults of adverbs.
- `Outline.malformedAt_of_ofStatements` — faults of outlines.
- `Outline.placed_of_ofStatements` — an outline has offsets of its statements.
-/

namespace Scannerless

/-- The offsets in an alternative: its own one, and those of its items and its adverbs. -/
def Alternative.offsets (alt : Alternative) : List Nat :=
  alt.offset :: (alt.rhs.map (·.offset) ++ alt.adverbs.map (·.offset))

/-- The offsets that a statement carries. -/
def Statement.offsets : Statement → List Nat
  | .start _ offset | .discard _ offset => [offset]
  | .default adverbs offset | .lexemeDefault adverbs offset => offset :: adverbs.map (·.offset)
  | .structural _ tiers offset => offset :: tiers.flatten.flatMap Alternative.offsets
  | .lexical _ alternatives offset => offset :: alternatives.flatMap Alternative.offsets

/-- Something is malformed at an offset with a property. -/
structure Fault.MalformedAt (Q : Nat → Prop) (f : Fault) : Prop where
  offset : Q f.offset
  kind : f.cause.kind = .malformedRule

/-! ### Steps that fail -/

section Outcomes

variable {ε α β : Type} {e : ε}

theorem bind_eq_error_iff {x : Except ε α} {f : α → Except ε β} :
    (x >>= f) = .error e ↔ x = .error e ∨ ∃ a, x = .ok a ∧ f a = .error e := by
  cases x with
  | error e' =>
    constructor
    · intro h
      exact Or.inl (congrArg Except.error (Except.error.inj h))
    · rintro (h | ⟨a, h, -⟩)
      · exact congrArg Except.error (Except.error.inj h)
      · cases h
  | ok a =>
    constructor
    · intro h
      exact Or.inr ⟨a, rfl, h⟩
    · rintro (h | ⟨a', h, h'⟩)
      · cases h
      · obtain rfl := Except.ok.inj h
        exact h'

theorem map_eq_error_iff {f : α → β} {x : Except ε α} : x.map f = .error e ↔ x = .error e := by
  cases x with
  | error e' =>
    constructor
    · intro h
      exact congrArg Except.error (Except.error.inj h)
    · intro h
      exact congrArg Except.error (Except.error.inj h)
  | ok a =>
    constructor
    · intro h
      cases h
    · intro h
      cases h

/-- If no pass of a loop fails but with an error that has a property, so does the loop. -/
theorem foldlM_error_induction {f : β → α → Except ε β} {xs : List α} {b : β} {P : ε → Prop}
    (h : xs.foldlM f b = .error e) (hstep : ∀ x ∈ xs, ∀ b e, f b x = .error e → P e) : P e := by
  induction xs generalizing b with
  | nil => cases h
  | cons x xs ih =>
    rw [List.forall_mem_cons] at hstep
    rw [List.foldlM_cons, bind_eq_error_iff] at h
    rcases h with h | ⟨c, -, h⟩
    · exact hstep.1 b e h
    · exact ih h hstep.2

end Outcomes

variable {Q : Nat → Prop} {f : Fault}

/-! ### Elements -/

namespace Element

theorem kind_of_decode {raw : String} {cause : Cause} (h : decode raw = .error cause) :
    cause.kind = .malformedRule := by
  rw [decode] at h
  split_ifs at h
  · rw [decodeClass] at h
    split at h
    · obtain rfl := Except.error.inj h
      rfl
    · cases h
  · rw [decodeLiteral] at h
    split at h
    · obtain rfl := Except.error.inj h
      rfl
    · obtain rfl := Except.error.inj h
      rfl
    · cases h
  · rw [decodeName] at h
    split at h
    · obtain rfl := Except.error.inj h
      rfl
    · cases h
  · obtain rfl := Except.error.inj h
    rfl

theorem malformedAt_of_decodeAt {raw : String} {offset : Nat} (hoffset : Q offset)
    (h : decodeAt raw offset = .error f) : f.MalformedAt Q := by
  rw [decodeAt] at h
  cases hdecode : decode raw with
  | error cause =>
    rw [hdecode] at h
    obtain rfl := Except.error.inj h
    exact ⟨hoffset, kind_of_decode hdecode⟩
  | ok e =>
    rw [hdecode] at h
    cases h

theorem malformedAt_of_decodeNameAt {raw : String} {offset : Nat} (hoffset : Q offset)
    (h : decodeNameAt raw offset = .error f) : f.MalformedAt Q := by
  rw [decodeNameAt] at h
  split at h
  next fault hdecode =>
    obtain rfl := Except.error.inj h
    exact malformedAt_of_decodeAt hoffset hdecode
  next => cases h
  next =>
    obtain rfl := Except.error.inj h
    exact ⟨hoffset, rfl⟩

end Element

/-! ### Adverbs -/

section Adverbs

variable {adverbs : List Adverb} {a : Adverb} {offset : Nat}

theorem mem_of_repeatedAdverb? {names : List String} (h : repeatedAdverb? names adverbs = some a) :
    a ∈ adverbs := by
  induction adverbs generalizing names with
  | nil => cases h
  | cons b rest ih =>
    rw [repeatedAdverb?] at h
    split at h
    · rw [Option.some.inj h]
      exact List.mem_cons_self
    · exact List.mem_cons_of_mem b (ih h)

theorem malformedAt_of_requireDistinct (hadverbs : ∀ a ∈ adverbs, Q a.offset)
    (h : requireDistinct adverbs = .error f) : f.MalformedAt Q := by
  rw [requireDistinct] at h
  split at h
  next a hrepeated =>
    obtain rfl := Except.error.inj h
    exact ⟨hadverbs a (mem_of_repeatedAdverb? hrepeated), rfl⟩
  next => cases h

theorem Adverb.malformedAt_of_flag (ha : Q a.offset) (h : a.flag = .error f) :
    f.MalformedAt Q := by
  rw [flag] at h
  split_ifs at h
  obtain rfl := Except.error.inj h
  exact ⟨ha, rfl⟩

theorem Adverb.malformedAt_of_associativity (ha : Q a.offset) (h : a.associativity = .error f) :
    f.MalformedAt Q := by
  rw [associativity] at h
  split_ifs at h
  obtain rfl := Except.error.inj h
  exact ⟨ha, rfl⟩

theorem Adverb.malformedAt_of_integer (ha : Q a.offset) (h : a.integer = .error f) :
    f.MalformedAt Q := by
  rw [integer] at h
  split at h
  · cases h
  · obtain rfl := Except.error.inj h
    exact ⟨ha, rfl⟩

namespace RuleAdverbs

variable {sequence : Bool} {r r' : RuleAdverbs}

theorem malformedAt_of_add (ha : Q a.offset) (h : add sequence r a = .error f) :
    f.MalformedAt Q := by
  rw [add] at h
  split_ifs at h
  · obtain rfl := Except.error.inj h
    exact ⟨ha, rfl⟩
  · exact a.malformedAt_of_associativity ha (map_eq_error_iff.mp h)
  · exact a.malformedAt_of_integer ha (map_eq_error_iff.mp h)
  · exact a.malformedAt_of_flag ha (map_eq_error_iff.mp h)
  · exact a.malformedAt_of_flag ha (map_eq_error_iff.mp h)
  · obtain rfl := Except.error.inj h
    exact ⟨ha, rfl⟩

/-- Adverbs are malformed at one of them. -/
theorem malformedAt_of_read (hadverbs : ∀ a ∈ adverbs, Q a.offset)
    (h : read sequence adverbs = .error f) : f.MalformedAt Q := by
  rw [read, bind_eq_error_iff] at h
  rcases h with h | ⟨_, -, h⟩
  · exact malformedAt_of_requireDistinct hadverbs h
  · exact foldlM_error_induction h fun a ha r e => malformedAt_of_add (hadverbs a ha)

/-- A separator stands at the offset of an adverb. -/
theorem separator_offset (hadverbs : ∀ a ∈ adverbs, Q a.offset)
    (h : read sequence adverbs = .ok r) {x : String × Nat} (hx : r.separator = some x) :
    Q x.2 := by
  obtain ⟨_, -, hread⟩ := bind_eq_ok_iff.mp h
  by_cases hnone : ∀ a ∈ adverbs, a.name ≠ "separator"
  · rw [separator_of_foldlM hread hnone] at hx
    cases hx
  · push Not at hnone
    obtain ⟨a, ha, hname⟩ := hnone
    obtain rfl := Option.some.inj ((separator_of_read h ha hname).2.symm.trans hx)
    exact hadverbs a ha

end RuleAdverbs

theorem malformedAt_of_readDefaultAction (hoffset : Q offset)
    (hadverbs : ∀ a ∈ adverbs, Q a.offset) (h : readDefaultAction adverbs offset = .error f) :
    f.MalformedAt Q := by
  rcases bind_eq_error_iff.mp h with h | ⟨_, -, h⟩
  · exact malformedAt_of_requireDistinct hadverbs h
  split at h
  · split at h
    · cases h
    · obtain rfl := Except.error.inj h
      exact ⟨hoffset, rfl⟩
  · obtain rfl := Except.error.inj h
    exact ⟨hoffset, rfl⟩

theorem malformedAt_of_readLongestMatch (hoffset : Q offset)
    (hadverbs : ∀ a ∈ adverbs, Q a.offset) (h : readLongestMatch adverbs offset = .error f) :
    f.MalformedAt Q := by
  rcases bind_eq_error_iff.mp h with h | ⟨_, -, h⟩
  · exact malformedAt_of_requireDistinct hadverbs h
  split at h
  · split at h
    · exact Adverb.malformedAt_of_flag (hadverbs _ List.mem_cons_self) h
    · obtain rfl := Except.error.inj h
      exact ⟨hoffset, rfl⟩
  · obtain rfl := Except.error.inj h
    exact ⟨hoffset, rfl⟩

end Adverbs

/-! ### Outlines -/

namespace Outline

variable {o o' : Outline} {s : Statement} {ss : List Statement}

/-- The offsets of an outline are among some. -/
structure Placed (Q : Nat → Prop) (o : Outline) : Prop where
  structural : ∀ x ∈ o.structural, Q x.2
  lexical : ∀ x ∈ o.lexical, Q x.2
  start : ∀ x ∈ o.start, Q x.2

theorem placed_empty : empty.Placed Q where
  structural x hx := by cases hx
  lexical x hx := by cases hx
  start x hx := by cases hx

/-- A statement is malformed at one of its offsets. -/
theorem malformedAt_of_add (hs : ∀ n ∈ s.offsets, Q n) (h : o.add s = .error f) :
    f.MalformedAt Q := by
  cases s with
  | start symbol offset =>
    rw [add] at h
    split at h
    · obtain rfl := Except.error.inj h
      exact ⟨hs offset List.mem_cons_self, rfl⟩
    · cases h
  | default adverbs offset =>
    simp only [Statement.offsets, List.forall_mem_cons, List.forall_mem_map] at hs
    rw [add] at h
    split at h
    · obtain rfl := Except.error.inj h
      exact ⟨hs.1, rfl⟩
    · exact malformedAt_of_readDefaultAction hs.1 hs.2 (map_eq_error_iff.mp h)
  | discard element offset => cases h
  | lexemeDefault adverbs offset =>
    simp only [Statement.offsets, List.forall_mem_cons, List.forall_mem_map] at hs
    rw [add] at h
    split at h
    · obtain rfl := Except.error.inj h
      exact ⟨hs.1, rfl⟩
    · exact malformedAt_of_readLongestMatch hs.1 hs.2 (map_eq_error_iff.mp h)
  | structural lhs tiers offset =>
    have hoffset : Q offset := hs offset List.mem_cons_self
    rcases bind_eq_error_iff.mp h with h | ⟨name, -, h⟩
    · exact Element.malformedAt_of_decodeNameAt hoffset h
    · rw [addStructural] at h
      split_ifs at h
      · obtain rfl := Except.error.inj h
        exact ⟨hoffset, rfl⟩
      · obtain rfl := Except.error.inj h
        exact ⟨hoffset, rfl⟩
  | lexical lhs alternatives offset =>
    have hoffset : Q offset := hs offset List.mem_cons_self
    rcases bind_eq_error_iff.mp h with h | ⟨name, -, h⟩
    · exact Element.malformedAt_of_decodeNameAt hoffset h
    · rw [addLexical] at h
      split_ifs at h
      obtain rfl := Except.error.inj h
      exact ⟨hoffset, rfl⟩

theorem forall_offset_append {names : List (String × Nat)} (h : ∀ x ∈ names, Q x.2) {name : String}
    {offset : Nat} (hoffset : Q offset) :
    ∀ x ∈ (if names.any (·.1 == name) then names else names ++ [(name, offset)]), Q x.2 := by
  split
  · exact h
  · intro x hx
    rcases List.mem_append.mp hx with hx | hx
    · exact h x hx
    · rw [List.mem_singleton.mp hx]
      exact hoffset

/-- A statement enters one of its offsets. -/
theorem Placed.add (ho : o.Placed Q) (hs : ∀ n ∈ s.offsets, Q n) (h : o.add s = .ok o') :
    o'.Placed Q := by
  cases s with
  | start symbol offset =>
    rw [Outline.add] at h
    split at h
    · cases h
    obtain rfl := Except.ok.inj h
    refine ⟨ho.structural, ho.lexical, fun x hx => ?_⟩
    obtain rfl := Option.mem_some.mp hx
    exact hs offset List.mem_cons_self
  | default adverbs offset =>
    rw [Outline.add] at h
    split at h
    · cases h
    obtain ⟨action, -, rfl⟩ := map_eq_ok_iff.mp h
    exact ⟨ho.structural, ho.lexical, ho.start⟩
  | discard element offset =>
    obtain rfl := Except.ok.inj h
    exact ho
  | lexemeDefault adverbs offset =>
    rw [Outline.add] at h
    split at h
    · cases h
    obtain ⟨on, -, rfl⟩ := map_eq_ok_iff.mp h
    exact ⟨ho.structural, ho.lexical, ho.start⟩
  | structural lhs tiers offset =>
    obtain ⟨name, -, h⟩ := bind_eq_ok_iff.mp h
    obtain ⟨-, -, rfl⟩ := addStructural_eq_ok h
    exact ⟨forall_offset_append ho.structural (hs offset List.mem_cons_self), ho.lexical, ho.start⟩
  | lexical lhs alternatives offset =>
    obtain ⟨name, -, h⟩ := bind_eq_ok_iff.mp h
    obtain ⟨-, rfl⟩ := addLexical_eq_ok h
    exact ⟨ho.structural, forall_offset_append ho.lexical (hs offset List.mem_cons_self), ho.start⟩

theorem Placed.foldlM (ho : o.Placed Q) (hss : ∀ s ∈ ss, ∀ n ∈ s.offsets, Q n)
    (h : ss.foldlM Outline.add o = .ok o') : o'.Placed Q := by
  induction ss generalizing o with
  | nil =>
    obtain rfl := Except.ok.inj h
    exact ho
  | cons s ss ih =>
    rw [List.forall_mem_cons] at hss
    rw [List.foldlM_cons, bind_eq_ok_iff] at h
    obtain ⟨o₁, hs, h⟩ := h
    exact ih (ho.add hss.1 hs) hss.2 h

/-- The outline of statements has offsets of theirs. -/
theorem placed_of_ofStatements (hss : ∀ s ∈ ss, ∀ n ∈ s.offsets, Q n)
    (h : ofStatements ss = .ok o) : o.Placed Q :=
  placed_empty.foldlM hss (ofStatements_eq_ok h).1

theorem Placed.malformedAt_of_requireOneLevel (ho : o.Placed Q) (h : o.requireOneLevel = .error f) :
    f.MalformedAt Q := by
  rw [requireOneLevel] at h
  split at h
  next name offset hfind =>
    obtain rfl := Except.error.inj h
    exact ⟨ho.lexical _ (List.mem_of_find?_eq_some hfind), rfl⟩
  next => cases h

/-- The outline of statements is malformed at one of their offsets. -/
theorem malformedAt_of_ofStatements (hss : ∀ s ∈ ss, ∀ n ∈ s.offsets, Q n)
    (h : ofStatements ss = .error f) : f.MalformedAt Q := by
  rw [ofStatements, bind_eq_error_iff] at h
  rcases h with h | ⟨o, hfold, h⟩
  · exact foldlM_error_induction h fun s hs o e => malformedAt_of_add (hss s hs)
  · rcases bind_eq_error_iff.mp h with h | ⟨_, -, h⟩
    · exact (placed_empty.foldlM hss hfold).malformedAt_of_requireOneLevel h
    · cases h

end Outline

end Scannerless
