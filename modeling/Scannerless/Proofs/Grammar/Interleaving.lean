import Scannerless.Proofs.Grammar.Compiled
import Scannerless.Proofs.Grammar.Lowering

/-!
# Statements of different kinds

Statements of different kinds may stand in any order among each other. An outline consists of
parts, one for each kind of statements. A statement reads and extends the part of its kind alone,
so that the parts may be made one after the other, each from the statements of one kind. The
passes that make rules take one kind of statements each as well.

## Main definitions

- `Statement.Kind`, `Statement.ofKind` — the statements of a kind, in their order.
- `Statement.SameByKind` — the same statements of each kind.
- `Outline.take` — an outline with the part for a kind taken from another one.

## Main statements

- `Outline.foldlM_add_eq_ok_iff` — the statements of each kind make a part of an outline.
- `Drafting.statements_congr` — the passes depend on the statements of each kind.
- `compile_congr_of_sameByKind` — statements of different kinds may be interleaved.
-/

namespace Scannerless

namespace Statement

inductive Kind where
  | start
  | default
  | discard
  | lexemeDefault
  | structural
  | lexical
  deriving DecidableEq, Repr

def kind : Statement → Kind
  | .start _ _ => .start
  | .default _ _ => .default
  | .discard _ _ => .discard
  | .lexemeDefault _ _ => .lexemeDefault
  | .structural _ _ _ => .structural
  | .lexical _ _ _ => .lexical

/-- Whether statements of a kind say something about the whole grammar. -/
def Kind.isDeclaration : Kind → Bool
  | .start | .default | .lexemeDefault => true
  | .discard | .structural | .lexical => false

/-- The statements of a kind, in their order. -/
def ofKind (k : Kind) (ss : List Statement) : List Statement :=
  ss.filter fun s => s.kind == k

/-- The statements about the whole grammar. -/
def declarations (ss : List Statement) : List Statement :=
  ss.filter fun s => s.kind.isDeclaration

/-- Two lists have the same statements of each kind. Those that define or discard something come
    in the same order in both. -/
structure SameByKind (ss ss' : List Statement) : Prop where
  structural : ofKind .structural ss = ofKind .structural ss'
  lexical : ofKind .lexical ss = ofKind .lexical ss'
  discard : ofKind .discard ss = ofKind .discard ss'
  declarations : (declarations ss).Perm (declarations ss')

variable {s : Statement} {ss ss' : List Statement} {k : Kind}

theorem mem_ofKind : s ∈ ofKind k ss ↔ s ∈ ss ∧ s.kind = k := by
  rw [ofKind, List.mem_filter, beq_iff_eq]

theorem ofKind_cons_self (s : Statement) (ss : List Statement) :
    ofKind s.kind (s :: ss) = s :: ofKind s.kind ss :=
  List.filter_cons_of_pos (beq_self_eq_true s.kind)

theorem ofKind_cons_of_ne (h : s.kind ≠ k) : ofKind k (s :: ss) = ofKind k ss :=
  List.filter_cons_of_neg (by simpa using h)

theorem SameByKind.symm (h : SameByKind ss ss') : SameByKind ss' ss :=
  ⟨h.structural.symm, h.lexical.symm, h.discard.symm, h.declarations.symm⟩

/-- The declarations of a kind are the same up to their order. -/
theorem SameByKind.perm (h : SameByKind ss ss') (hk : k.isDeclaration = true) :
    (ofKind k ss).Perm (ofKind k ss') := by
  have hsub (ss : List Statement) :
      (Statement.declarations ss).filter (fun s => s.kind == k) = ofKind k ss := by
    rw [Statement.declarations, ofKind, List.filter_filter]
    refine List.filter_congr fun s _ => ?_
    rw [Bool.and_eq_left_iff_imp, beq_iff_eq]
    rintro rfl
    exact hk
  rw [← hsub ss, ← hsub ss']
  exact h.declarations.filter _

/-- If there is one declaration of each kind at most, then the lists of each kind are the same. -/
theorem SameByKind.ofKind_eq (h : SameByKind ss ss')
    (honce : ∀ k, k.isDeclaration = true → (ofKind k ss).length ≤ 1) (k : Kind) :
    ofKind k ss = ofKind k ss' := by
  have hdeclaration (hk : k.isDeclaration = true) : ofKind k ss = ofKind k ss' := by
    have hperm := h.perm hk
    rcases hss : ofKind k ss with _ | ⟨s, _ | ⟨s', rest⟩⟩
    · rw [hss] at hperm
      exact hperm.nil_eq
    · rw [hss] at hperm
      exact (List.perm_singleton.mp hperm.symm).symm
    · have hle := honce k hk
      rw [hss] at hle
      simp at hle
  cases k with
  | structural => exact h.structural
  | lexical => exact h.lexical
  | discard => exact h.discard
  | start | default | lexemeDefault => exact hdeclaration rfl

end Statement

open Statement (Kind ofKind SameByKind)

/-! ### The parts of an outline -/

namespace Outline

variable {o o' p q : Outline} {s : Statement} {ss ss' : List Statement} {k k' : Kind}

/-- An outline, with the part that statements of a kind extend taken from another one. -/
def take (o p : Outline) : Kind → Outline
  | .start => { o with start := p.start }
  | .default => { o with defaultAction := p.defaultAction }
  | .discard => o
  | .lexemeDefault => { o with longestMatch := p.longestMatch }
  | .structural => { o with structural := p.structural, prioritized := p.prioritized }
  | .lexical => { o with lexical := p.lexical }

theorem take_self (o : Outline) (k : Kind) : o.take o k = o := by
  cases k <;> rfl

theorem take_take_right (o p q : Outline) (k : Kind) : o.take (p.take q k) k = o.take q k := by
  cases k <;> rfl

theorem take_comm (h : k ≠ k') : (o.take p k).take q k' = (o.take q k').take p k := by
  cases k <;> cases k' <;> first | rfl | exact absurd rfl h

/-- An outline is known by its parts. -/
theorem eq_of_take (h : ∀ k, o.take p k = o) : o = p := by
  have hstart := congrArg start (h .start)
  have hdefault := congrArg defaultAction (h .default)
  have hlongest := congrArg longestMatch (h .lexemeDefault)
  have hstructural := congrArg structural (h .structural)
  have hprioritized := congrArg prioritized (h .structural)
  have hlexical := congrArg lexical (h .lexical)
  simp only [take] at hstart hdefault hlongest hstructural hprioritized hlexical
  cases o
  cases p
  simp only [mk.injEq]
  exact ⟨hstructural.symm, hlexical.symm, hprioritized.symm, hstart.symm, hdefault.symm,
    hlongest.symm⟩

/-- A statement reads and extends the part of its kind. -/
theorem add_take (o p : Outline) (s : Statement) :
    (o.take p s.kind).add s = (p.add s).map fun q => o.take q s.kind := by
  cases s with
  | start symbol offset =>
    change (if p.start.isSome then _ else _) = Except.map _ (if p.start.isSome then _ else _)
    split <;> rfl
  | default adverbs offset =>
    change (if p.defaultAction.isSome then _ else _) =
      Except.map _ (if p.defaultAction.isSome then _ else _)
    split
    · rfl
    · cases readDefaultAction adverbs offset <;> rfl
  | discard element offset => rfl
  | lexemeDefault adverbs offset =>
    change (if p.longestMatch.isSome then _ else _) =
      Except.map _ (if p.longestMatch.isSome then _ else _)
    split
    · rfl
    · cases readLongestMatch adverbs offset <;> rfl
  | structural lhs tiers offset =>
    simp only [add]
    cases Element.decodeNameAt lhs offset with
    | error e => rfl
    | ok name =>
      change addStructural _ name tiers offset = Except.map _ (addStructural p name tiers offset)
      simp only [addStructural, apply_ite (Except.map _)]
      rfl
  | lexical lhs alternatives offset =>
    simp only [add]
    cases Element.decodeNameAt lhs offset with
    | error e => rfl
    | ok name =>
      change addLexical _ name alternatives offset =
        Except.map _ (addLexical p name alternatives offset)
      simp only [addLexical, apply_ite (Except.map _)]
      rfl

/-- An accepted statement extends the part of its kind alone. -/
theorem take_of_add (h : o.add s = .ok o') : o.take o' s.kind = o' := by
  have hframe := add_take o o s
  rw [take_self, h] at hframe
  exact (Except.ok.inj hframe).symm

/-- Statements of one kind read and extend its part. -/
theorem foldlM_add_take (o p : Outline) (h : ∀ s ∈ ss, s.kind = k) :
    ss.foldlM add (o.take p k) = (ss.foldlM add p).map fun q => o.take q k := by
  induction ss generalizing p with
  | nil => rfl
  | cons s ss ih =>
    rw [List.forall_mem_cons] at h
    obtain ⟨rfl, hss⟩ := h
    rw [List.foldlM_cons, List.foldlM_cons, add_take]
    cases p.add s with
    | error e => rfl
    | ok q => exact ih q hss

/-- Behind a statement of another kind, statements make the same part. -/
theorem foldlM_add_of_add (hs : o.add s = .ok o') (hk : s.kind ≠ k) :
    (ofKind k ss).foldlM add o' = ((ofKind k ss).foldlM add o).map fun q => o'.take q k := by
  have hpart : o'.take o k = o' := by
    rw [← take_of_add hs, take_comm hk, take_self]
  rw [← foldlM_add_take o' o fun s hs => (Statement.mem_ofKind.mp hs).2, hpart]

/-- The statements of each kind make a part of the outline. -/
theorem foldlM_add_eq_ok_iff :
    ss.foldlM add o = .ok o' ↔
      ∀ k, ∃ q, (ofKind k ss).foldlM add o = .ok q ∧ o'.take q k = o' := by
  induction ss generalizing o with
  | nil =>
    constructor
    · intro h k
      obtain rfl := Except.ok.inj h
      exact ⟨o, rfl, take_self o k⟩
    · intro h
      refine congrArg Except.ok (eq_of_take fun k => ?_).symm
      obtain ⟨q, hq, htake⟩ := h k
      obtain rfl := Except.ok.inj hq
      exact htake
  | cons s ss ih =>
    rw [List.foldlM_cons, bind_eq_ok_iff]
    constructor
    · rintro ⟨o₁, hs, hrest⟩ k
      obtain ⟨q, hq, htake⟩ := ih.mp hrest k
      by_cases hk : s.kind = k
      · subst hk
        refine ⟨q, ?_, htake⟩
        rw [Statement.ofKind_cons_self, List.foldlM_cons, hs]
        exact hq
      · rw [foldlM_add_of_add hs hk, map_eq_ok_iff] at hq
        obtain ⟨q', hq', rfl⟩ := hq
        rw [take_take_right] at htake
        exact ⟨q', by rwa [Statement.ofKind_cons_of_ne hk], htake⟩
    · intro h
      obtain ⟨q, hq, htake⟩ := h s.kind
      rw [Statement.ofKind_cons_self, List.foldlM_cons, bind_eq_ok_iff] at hq
      obtain ⟨o₁, hs, hq⟩ := hq
      refine ⟨o₁, hs, ih.mpr fun k => ?_⟩
      by_cases hk : s.kind = k
      · subst hk
        exact ⟨q, hq, htake⟩
      · obtain ⟨q', hq', htake'⟩ := h k
        rw [Statement.ofKind_cons_of_ne hk] at hq'
        refine ⟨o₁.take q' k, ?_, by rwa [take_take_right]⟩
        rw [foldlM_add_of_add hs hk, hq']
        rfl

/-- Nothing is declared twice. -/
theorem add_add_ne_ok {s' : Statement} (hs : o.add s = .ok p) (hsame : s'.kind = s.kind)
    (hdeclaration : s.kind.isDeclaration = true) : p.add s' ≠ .ok q := by
  cases s with
  | start =>
    cases s' with
    | start =>
      rw [add] at hs
      split at hs
      · cases hs
      obtain rfl := Except.ok.inj hs
      simp [add]
    | default | discard | lexemeDefault | structural | lexical => cases hsame
  | default =>
    cases s' with
    | default =>
      rw [add] at hs
      split at hs
      · cases hs
      obtain ⟨action, -, rfl⟩ := map_eq_ok_iff.mp hs
      simp [add]
    | start | discard | lexemeDefault | structural | lexical => cases hsame
  | lexemeDefault =>
    cases s' with
    | lexemeDefault =>
      rw [add] at hs
      split at hs
      · cases hs
      obtain ⟨on, -, rfl⟩ := map_eq_ok_iff.mp hs
      simp [add]
    | start | default | discard | structural | lexical => cases hsame
  | discard | structural | lexical => cases hdeclaration

/-- The statements of an outline have one declaration of each kind at most. -/
theorem length_ofKind_le_one (h : ss.foldlM add o = .ok o') (hk : k.isDeclaration = true) :
    (ofKind k ss).length ≤ 1 := by
  obtain ⟨q, hq, -⟩ := foldlM_add_eq_ok_iff.mp h k
  have hkind (s : Statement) (hs : s ∈ ofKind k ss) : s.kind = k := (Statement.mem_ofKind.mp hs).2
  rcases hss : ofKind k ss with _ | ⟨s, _ | ⟨s', rest⟩⟩
  · exact Nat.zero_le 1
  · exact Nat.le_refl 1
  rw [hss] at hq hkind
  simp only [List.foldlM_cons, bind_eq_ok_iff] at hq
  obtain ⟨o₁, hs, o₂, hs', -⟩ := hq
  have hfirst := hkind s (by simp)
  have hsecond := hkind s' (by simp)
  exact absurd hs' (add_add_ne_ok hs (hsecond.trans hfirst.symm) (hfirst ▸ hk))

theorem ofStatements_eq_ok_iff :
    ofStatements ss = .ok o ↔ ss.foldlM add empty = .ok o ∧ o.requireOneLevel = .ok () := by
  refine ⟨ofStatements_eq_ok, fun ⟨hfold, hlevel⟩ => ?_⟩
  rw [ofStatements, hfold, bind_eq_ok_iff]
  exact ⟨o, rfl, bind_eq_ok_iff.mpr ⟨(), hlevel, rfl⟩⟩

/-- Lists with the same statements of each kind have the same outline. -/
theorem ofStatements_eq_ok_of_ofKind (hkinds : ∀ k, ofKind k ss = ofKind k ss')
    (h : ofStatements ss = .ok o) : ofStatements ss' = .ok o := by
  rw [ofStatements_eq_ok_iff, foldlM_add_eq_ok_iff] at h ⊢
  exact ⟨fun k => hkinds k ▸ h.1 k, h.2⟩

end Outline

/-! ### The passes -/

namespace Drafting

variable {ss ss' : List Statement}

/-- A pass that leaves statements of other kinds alone depends on those of one kind. -/
theorem forM_ofKind {f : Statement → Drafting Unit} {k : Kind}
    (hf : ∀ s, s.kind ≠ k → f s = pure ()) (ss : List Statement) :
    (ofKind k ss).forM f = ss.forM f := by
  induction ss with
  | nil => rfl
  | cons s ss ih =>
    by_cases hk : s.kind = k
    · subst hk
      rw [Statement.ofKind_cons_self]
      exact congrArg (f s >>= fun _ => ·) ih
    · rw [Statement.ofKind_cons_of_ne hk, ih]
      have hnone : (s :: ss).forM f = (f s >>= fun _ => ss.forM f) := rfl
      rw [hnone, hf s hk, pure_bind]

/-- The passes depend on the statements of each kind. -/
theorem statements_congr (o : Outline) (h : ∀ k, ofKind k ss = ofKind k ss') :
    statements o ss = statements o ss' := by
  have hdiscard (s : Statement) (hs : s.kind ≠ .discard) : discardStatement o s = pure () := by
    cases s with
    | discard => exact absurd rfl hs
    | start | default | lexemeDefault | structural | lexical => rfl
  have hstructural (s : Statement) (hs : s.kind ≠ .structural) :
      structuralStatement o s = pure () := by
    cases s with
    | structural => exact absurd rfl hs
    | start | default | discard | lexemeDefault | lexical => rfl
  have hlexical (s : Statement) (hs : s.kind ≠ .lexical) : lexicalStatement o s = pure () := by
    cases s with
    | lexical => exact absurd rfl hs
    | start | default | discard | lexemeDefault | structural => rfl
  rw [statements_eq, statements_eq, ← forM_ofKind hdiscard ss, ← forM_ofKind hstructural ss,
    ← forM_ofKind hlexical ss, h, h, h, forM_ofKind hdiscard, forM_ofKind hstructural,
    forM_ofKind hlexical]

end Drafting

/-! ### Grammars -/

/-- What is accepted is accepted in every order that keeps the statements of each kind. -/
theorem Grammar.ofStatements_of_sameByKind {ss ss' : List Statement} {description : String}
    {g : Grammar} (hsame : SameByKind ss ss') (h : Grammar.ofStatements ss description = .ok g) :
    Grammar.ofStatements ss' description = .ok g := by
  rw [ofStatements, bind_eq_ok_iff] at h
  obtain ⟨o, ho, h⟩ := h
  have hfold := (Outline.ofStatements_eq_ok ho).1
  have hkinds := hsame.ofKind_eq fun k hk => Outline.length_ofKind_le_one hfold hk
  rw [ofStatements, Outline.ofStatements_eq_ok_of_ofKind hkinds ho]
  rw [Drafting.statements_congr o hkinds] at h
  exact h

/-- Two lists that have the same statements of each kind, those that define or discard something in
    the same order, are both accepted as the same grammar, or both refused. -/
theorem compile_congr_of_sameByKind {ss ss' : List Statement} (hsame : SameByKind ss ss')
    (description : String) (g : Grammar) :
    (⟨ss, description⟩ : Definition).compile = .ok g ↔
      (⟨ss', description⟩ : Definition).compile = .ok g := by
  have hforth {ss ss' : List Statement} (hsame : SameByKind ss ss')
      (h : (⟨ss, description⟩ : Definition).compile = .ok g) :
      (⟨ss', description⟩ : Definition).compile = .ok g := by
    have hss' := Grammar.ofStatements_of_sameByKind hsame (Grammar.ofStatements_of_compile h)
    rw [Definition.compile, hss']
    rfl
  exact ⟨hforth hsame, hforth hsame.symm⟩

/-- Statements about words, those of one kind after those of another. -/
def Statement.wordsByKind : List Statement :=
  [.startAt "words", .longestMatch true, .discarded "' '", .rule "words" [],
    .rule "words" ["words", "word"], .lexeme "word" ["'a'+"]]

/-- The same statements, with those of one kind among those of another. -/
def Statement.wordsMixed : List Statement :=
  [.lexeme "word" ["'a'+"], .rule "words" [], .longestMatch true, .discarded "' '",
    .rule "words" ["words", "word"], .startAt "words"]

/-- Words may be defined before the text that uses them, and the start symbol may be named last. -/
theorem compile_congr_of_sameByKind_words :
    ∃ g, (⟨Statement.wordsByKind, "words"⟩ : Definition).compile = .ok g ∧
      (⟨Statement.wordsMixed, "words"⟩ : Definition).compile = .ok g := by
  have htest : (⟨Statement.wordsByKind, "words"⟩ : Definition).compile.toOption.any
      (fun _ => true) = true := by
    decide +kernel
  obtain ⟨g, hg, -⟩ := exists_eq_ok_of_any htest
  have hdeclarations : (Statement.declarations Statement.wordsByKind).Perm
      (Statement.declarations Statement.wordsMixed) :=
    List.Perm.swap (Statement.longestMatch true) (Statement.startAt "words") []
  have hsame : SameByKind Statement.wordsByKind Statement.wordsMixed :=
    ⟨rfl, rfl, rfl, hdeclarations⟩
  exact ⟨g, hg, (compile_congr_of_sameByKind hsame "words" g).mp hg⟩

end Scannerless
