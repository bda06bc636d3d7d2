import Scannerless.Parser
import Scannerless.Proofs.Evaluation.Runs
import Scannerless.Proofs.Recognition.Parallel

/-!
# Values without places

Where a text lies in an input does not matter to values: two inputs whose lexemes are read alike
have the same value, whatever is discarded between the lexemes, if the actions read nothing but
their arguments.

## Main definitions

- `Evaluation.Same` — two computations come to the same.
- `Registry.ReadsArguments` — actions that read nothing but their arguments.
- `AkinResult` — results that differ at most in what an error says of offsets.

## Main statements

- `Tree.Mirror.same` — trees of the same rules over the same texts come to the same.
- `discards_insignificant` — inputs that are scanned alike have the same result.
-/

namespace Scannerless

open Text

variable {V α β : Type}

/-! ### Computations that come to the same -/

namespace Evaluation

variable {x y : Evaluation V α} {f f' : α → Evaluation V β}

/-- Two computations come to the same, whatever was noted before. -/
def Same (x y : Evaluation V α) : Prop :=
  ∀ events events', (x.runFrom events).1 = (y.runFrom events').1

theorem Same.pure (a : α) : Same (Pure.pure a : Evaluation V α) (Pure.pure a) :=
  fun _ _ => rfl

theorem Same.throw (e : RunError) : Same (throw e : Evaluation V α) (throw e) :=
  fun _ _ => rfl

theorem Same.bind (hx : Same x y) (hf : ∀ a, Same (f a) (f' a)) : Same (x >>= f) (y >>= f') := by
  intro events events'
  have hfirst := hx events events'
  rw [runFrom_bind, runFrom_bind]
  cases hrun : x.runFrom events with
  | mk result noted =>
    cases hrun' : y.runFrom events' with
    | mk result' noted' =>
      rw [hrun, hrun'] at hfirst
      obtain rfl : result = result' := hfirst
      cases result with
      | ok a => exact hf a noted noted'
      | error e => rfl

end Evaluation

/-- Actions that read nothing but their arguments: not the place where a rule applies. -/
def Registry.ReadsArguments (actions : Registry V) : Prop :=
  ∀ name f, actions.find? name = some f → ∀ c c' arguments, f c arguments = f c' arguments

variable [Semantic V] {actions : Registry V}

theorem applyRule_congr (hactions : actions.ReadsArguments) {c c' : RuleContext}
    (hgrammar : c.grammar = c'.grammar) (hrule : c.rule = c'.rule) (arguments : List V) :
    applyRule actions c arguments = applyRule actions c' arguments := by
  rw [applyRule, applyRule, defaultValue, defaultValue, hgrammar, hrule]
  cases c'.grammar.actionOf c'.rule with
  | none => rfl
  | some action =>
    cases action with
    | first | undefined | array => rfl
    | named name =>
      simp only
      cases hname : actions.find? name with
      | none => rfl
      | some f => exact congrArg Except.ok (hactions name f hname c c' arguments)

namespace Recognition

variable {r r' : Recognition}

theorem same_apply (hactions : actions.ReadsArguments) (hgrammar : r'.grammar = r.grammar)
    (rule : Rule) (i i' j j' : Nat) (arguments : List V) :
    Evaluation.Same (r.apply actions rule i j arguments)
      (r'.apply actions rule i' j' arguments) := by
  intro events events'
  have hvalue : applyRule actions ⟨r.grammar, r.input, rule, min (r.skip i) j, j⟩ arguments =
      applyRule actions ⟨r'.grammar, r'.input, rule, min (r'.skip i') j', j'⟩ arguments :=
    applyRule_congr hactions (by exact hgrammar.symm) (by rfl) arguments
  rw [runFrom_apply, runFrom_apply]
  simp only [hvalue]
  cases applyRule actions _ arguments <;> rfl

/-- Two spans have the same text. -/
def SameText (r r' : Recognition) (i j i' j' : Nat) : Prop :=
  r.input.between i j = r'.input.between i' j'

end Recognition

/-! ### Trees -/

namespace Tree.Mirror

variable {r r' : Recognition} {alike : Nat → Nat → Nat → Nat → Prop} {ts ts' : List Tree}

theorem length_eq (h : Tree.Mirror alike ts ts') : ts.length = ts'.length := by
  induction h with
  | nil => rfl
  | token _ _ ih => simp [ih]
  | node _ _ ih _ => simp [ih]

/-- The last of some trees gives the same to a rule, if it is kept. -/
theorem same_concat {rule : Rule} {tree tree' : Tree} (hlength : ts.length = ts'.length)
    (hts : Evaluation.Same (Tree.argumentsFrom r actions rule 0 ts)
      (Tree.argumentsFrom r' actions rule 0 ts'))
    (htree : Evaluation.Same (tree.arguments r actions) (tree'.arguments r' actions)) :
    Evaluation.Same (Tree.argumentsFrom r actions rule 0 (ts ++ [tree]))
      (Tree.argumentsFrom r' actions rule 0 (ts' ++ [tree'])) := by
  rw [Tree.argumentsFrom_concat, Tree.argumentsFrom_concat, hlength]
  refine hts.bind fun front => ?_
  cases rule.keeps (0 + ts'.length) with
  | true => exact htree.bind fun back => .pure _
  | false => exact (Evaluation.Same.pure []).bind fun back => .pure _

theorem same_node (hactions : actions.ReadsArguments) (hgrammar : r'.grammar = r.grammar)
    {id : RuleId} {i i' j j' : Nat}
    (h : ∀ rule, Evaluation.Same (Tree.argumentsFrom r actions rule 0 ts)
      (Tree.argumentsFrom r' actions rule 0 ts')) :
    Evaluation.Same ((Tree.node id i j ts).arguments r actions)
      ((Tree.node id i' j' ts').arguments r' actions) := by
  rw [Tree.arguments, Tree.arguments, hgrammar]
  cases r.grammar.structural.rule? id with
  | none => exact .throw _
  | some rule =>
    refine (h rule).bind fun arguments => ?_
    cases rule.isSplice with
    | true => exact .pure arguments
    | false =>
      exact (Recognition.same_apply hactions hgrammar rule i i' j j' arguments).bind
        fun value => .pure _

/-- Trees of the same rules over the same texts come to the same. -/
theorem same (h : Tree.Mirror (r.SameText r') ts ts') (hactions : actions.ReadsArguments)
    (hgrammar : r'.grammar = r.grammar) (rule : Rule) :
    Evaluation.Same (Tree.argumentsFrom r actions rule 0 ts)
      (Tree.argumentsFrom r' actions rule 0 ts') := by
  induction h generalizing rule with
  | nil => exact .pure []
  | @token ts ts' s k k' i i' j j' hts hsame ih =>
    refine same_concat hts.length_eq (ih rule) ?_
    rw [Tree.arguments, Tree.arguments, hsame]
    exact .pure _
  | node hts _ ihts ihus =>
    exact same_concat hts.length_eq (ihts rule) (same_node hactions hgrammar ihus)

end Tree.Mirror

/-! ### Results -/

/-- Results that differ at most in what an error says of offsets. -/
inductive AkinResult : Except RunError V → Except RunError V → Prop where
  | ok (value : V) : AkinResult (.ok value) (.ok value)
  | error {e e' : RunError} (h : e.Akin e') : AkinResult (.error e) (.error e')

namespace Recognition

variable {r r' : Recognition}

/-- The chosen tree of a run mirrors that of a run that scans alike. -/
theorem ScansLike.exists_mirror (h : r.ScansLike r') (hr : r.Ended) (hr' : r'.Ended)
    (hgrammar : r'.grammar = r.grammar) (hlongest : r.grammar.longestMatch = true) {tree : Tree}
    (hchosen : r.Chosen tree) :
    ∃ id stop stop' us us', tree = .node id 0 stop us ∧
      r'.Preferred r'.lattice (.node id 0 stop' us') ∧
      Tree.Mirror (r.SameText r') us us' := by
  have haligned := h.aligned hr hr' hlongest (hgrammar ▸ hlongest)
  obtain ⟨id, stop, us, hcovers, hbetter, hprefers, rfl⟩ :=
    hr.preferred_of_chosen hr.fits_lattice hchosen
  have htexts (k k' : Nat) (s : SymbolId) (j j' : Nat) (hk : r.Opposite r' k k')
      (hj : r.Opposite r' j j') (hs : r.lattice.token k s j) :
      r.SameText r' (r.lattice.start k) j (r'.lattice.start k') j' := by
    have hs' := (haligned.token_iff hk hj).mp hs
    obtain ⟨n, hk, hk'⟩ := hk
    exact h.texts hk hk' s j j' hs hs'
  obtain ⟨stop', us', hstop, hprefers', hmirror⟩ :=
    hprefers.aligned haligned ⟨0, .zero, .zero⟩ htexts
  obtain ⟨end', hend', hcovers'⟩ := h.covers hr hr' hgrammar hlongest hcovers
  obtain rfl := haligned.right_unique hstop hend'
  refine ⟨id, stop, stop', us, us', rfl,
    ⟨id, stop', us', hcovers', fun id₂ stop₂' hcovers₂' hne => ?_, ?_, rfl⟩, hmirror⟩
  · -- What covers the other input covers this one, where something better was chosen.
    obtain ⟨stop₂, ⟨n, hn', hn⟩, hcovers₂⟩ :=
      h.symm.covers hr' hr hgrammar.symm (hgrammar ▸ hlongest) hcovers₂'
    have hstop₂ : r.Opposite r' stop₂ stop₂' := ⟨n, hn, hn'⟩
    have hother := hbetter id₂ stop₂ hcovers₂ fun heq => hne (by
      obtain ⟨rfl, hsame⟩ := Prod.mk.inj heq
      rw [(haligned.eq_iff hstop₂ hstop).mp hsame])
    rwa [BetterRoot, haligned.lt_iff hstop₂ hstop, ← hgrammar] at hother
  · rwa [hgrammar]

/-- Recognized inputs that are scanned alike have the same value. -/
theorem ScansLike.evaluate (h : r.ScansLike r') (hr : r.Ended) (hr' : r'.Ended)
    (hgrammar : r'.grammar = r.grammar) (hlongest : r.grammar.longestMatch = true)
    (hok : r.failure? = none) (hok' : r'.failure? = none) (hactions : actions.ReadsArguments) :
    (r.evaluate actions).1 = (r'.evaluate actions).1 := by
  obtain ⟨tree, hchosen⟩ := hr.exists_chosen hok
  obtain ⟨tree', hchosen'⟩ := hr'.exists_chosen hok'
  obtain ⟨id, stop, stop', us, us', rfl, hpreferred, hmirror⟩ :=
    h.exists_mirror hr hr' hgrammar hlongest hchosen
  obtain rfl := hpreferred.unique (hr'.preferred_of_chosen hr'.fits_lattice hchosen')
  rw [hr.evaluate_eq actions hchosen, hr'.evaluate_eq actions hchosen']
  have harguments : Evaluation.Same ((Tree.node id 0 stop us).arguments r actions)
      ((Tree.node id 0 stop' us').arguments r' actions) :=
    Tree.Mirror.same_node hactions hgrammar (hmirror.same hactions hgrammar)
  have hsame : Evaluation.Same ((Tree.node id 0 stop us).evaluate r actions)
      ((Tree.node id 0 stop' us').evaluate r' actions) := by
    rw [Tree.evaluate, Tree.evaluate]
    refine harguments.bind fun values => ?_
    rcases values with _ | ⟨value, _ | ⟨other, rest⟩⟩
    · exact .throw _
    · exact .pure value
    · exact .throw _
  exact hsame #[] #[]

/-- Parsing comes to results that differ at most in what an error says of offsets. -/
theorem ScansLike.result (h : r.ScansLike r') (hr : r.Ended) (hr' : r'.Ended)
    (hgrammar : r'.grammar = r.grammar) (hlongest : r.grammar.longestMatch = true)
    (hfurthest : r.Opposite r' r.run.furthest r'.run.furthest) {p : Parser V}
    (hactions : p.actions.ReadsArguments) :
    AkinResult (p.evaluate r).result (p.evaluate r').result := by
  rw [Parser.evaluate, Parser.evaluate]
  rcases h.failure hr hr' hgrammar hlongest hfurthest with
    ⟨hok, hok'⟩ | ⟨e, e', hfails, hfails', hakin⟩
  · rw [hok, hok']
    show AkinResult (r.evaluate p.actions).1 (r'.evaluate p.actions).1
    rw [← h.evaluate hr hr' hgrammar hlongest hok hok' hactions]
    cases hresult : (r.evaluate p.actions).1 with
    | ok value => exact .ok value
    | error e =>
      obtain ⟨tree, hchosen⟩ := hr.exists_chosen hok
      obtain ⟨name, -, rfl⟩ := (hr.evaluate_eq_error_iff p.actions hchosen e).mp hresult
      exact .error (.unboundAction name)
  · rw [hfails, hfails']
    exact .error hakin

end Recognition

/-- What is discarded does not matter: with longest matching, two inputs whose runs read the same
    lexemes with the same texts, step by step, and skip to the end or not alike, have the same
    result for all actions that read nothing but their arguments: the same value, the same action
    that is not bound, or errors of one kind. This is so within any limit, as the runs make as
    many items. -/
theorem discards_insignificant {p : Parser V} (hg : p.grammar.IsCompiled)
    (hlongest : p.grammar.longestMatch = true) (hactions : p.actions.ReadsArguments)
    {x y : String} {r r' : Recognition} (hx : recognize p.grammar none x = .ok r)
    (hy : recognize p.grammar none y = .ok r') (hscans : r.ScansLike r') :
    AkinResult (p.parse x).result (p.parse y).result := by
  have hr := ended_of_recognize hg hx
  have hr' := ended_of_recognize hg hy
  obtain ⟨run, hend, rfl⟩ := recognizeIndexed_eq_ok_iff.mp hx
  obtain ⟨run', hend', rfl⟩ := recognizeIndexed_eq_ok_iff.mp hy
  have hresult := hscans.result hr hr' rfl hlongest
    (hscans.opposite_furthest hr hr' rfl hlongest hg.wellFormed.start hend hend') hactions
  have hcount := Nat.le_antisymm (hscans.length_created_le hr hr' rfl hlongest)
    (hscans.symm.length_created_le hr' hr rfl hlongest)
  rw [Parser.parse, Parser.parse]
  cases p.options.maxItems with
  | none =>
    rw [hx, hy]
    exact hresult
  | some n =>
    by_cases hle : (⟨p.grammar, .ofList x.toList, run⟩ : Recognition).created.length ≤ n
    · rw [recognize, recognizeChars, hr.recognizeIndexed_of_le hle hend, recognize,
        recognizeChars, hr'.recognizeIndexed_of_le (hcount ▸ hle) hend']
      exact hresult
    · have hlt := Nat.lt_of_not_le hle
      obtain ⟨o, ho, herror⟩ :=
        hr.recognizeIndexed_of_getElem? (List.getElem?_eq_getElem hlt)
      obtain ⟨o', ho', herror'⟩ :=
        hr'.recognizeIndexed_of_getElem? (List.getElem?_eq_getElem (hcount ▸ hlt))
      rw [recognize, recognizeChars, ho, recognize, recognizeChars, ho']
      show AkinResult (.error o.error) (.error o'.error)
      rw [herror, herror']
      exact .error (.exhausted n _ _)

/-- Sums of letters with blanks around them. -/
def Definition.spacedSums : Definition :=
  ⟨[.longestMatch true, .ruleAction "sum" ["sum", "'+'", "sum"] "add", .rule "sum" ["letter"],
    .lexeme "letter" ["'a'"], .discarded "' '"], "sums"⟩

/-- Actions that list what is added. -/
def Registry.listing : Registry Value :=
  Registry.empty.bind "add" fun _ arguments => .list arguments

theorem readsArguments_listing : Registry.listing.ReadsArguments := by
  intro name f hf c c' arguments
  by_cases hname : name = "add"
  · subst hname
    rw [Registry.listing, Registry.find?_bind_self] at hf
    obtain rfl := Option.some_inj.mp hf
    rfl
  · rw [Registry.listing, Registry.find?_bind_of_ne _ hname] at hf
    cases hf

/-- A sum comes to the same with other blanks in it. -/
theorem discards_insignificant_spacedSums :
    ∃ g r r', Definition.spacedSums.compile = .ok g ∧ recognize g none "a+a" = .ok r ∧
      recognize g none " a  + a " = .ok r' ∧ r.failure? = none ∧ r'.failure? = none ∧
      r.ScansLike r' ∧
      AkinResult ((⟨g, .listing, .standard⟩ : Parser Value).parse "a+a").result
        ((⟨g, .listing, .standard⟩ : Parser Value).parse " a  + a ").result := by
  have htest : Definition.spacedSums.compile.toOption.any (fun g => g.longestMatch &&
      (recognize g none "a+a").toOption.any fun r => r.failure?.isNone &&
        (recognize g none " a  + a ").toOption.any fun r' => r'.failure?.isNone &&
          r.scansLikeAt r' [(0, 0), (1, 2), (2, 5), (3, 7)]) = true := by
    decide +kernel
  obtain ⟨g, hg, htest⟩ := exists_eq_ok_of_any htest
  rw [Bool.and_eq_true] at htest
  obtain ⟨hlongest, htest⟩ := htest
  obtain ⟨r, hr, htest⟩ := exists_eq_ok_of_any htest
  rw [Bool.and_eq_true, Option.isNone_iff_eq_none] at htest
  obtain ⟨hok, htest⟩ := htest
  obtain ⟨r', hr', htest⟩ := exists_eq_ok_of_any htest
  rw [Bool.and_eq_true, Option.isNone_iff_eq_none] at htest
  obtain ⟨hok', hscans⟩ := htest
  have hscans : r.ScansLike r' := .of_scansLikeAt hscans
  exact ⟨g, r, r', hg, hr, hr', hok, hok', hscans,
    discards_insignificant (p := (⟨g, .listing, .standard⟩ : Parser Value)) (Or.inl ⟨_, hg⟩)
      hlongest readsArguments_listing hr hr' hscans⟩

end Scannerless
