import Scannerless.Proofs.Evaluation.Notes
import Scannerless.Proofs.GrammarText.Conformity

/-!
# Grammar texts agree with definitions

A list of statements defines a grammar by itself, and it can be written down and compiled as a
text. Both come to the same: the statements that are read from the text are the ones that were
written, up to the offsets that reading puts into them, and offsets do not show in a grammar or
in the cause of a fault.

## Main statements

- `GrammarText.Conforms.read_eq` — the statements of a text are those that were written.
- `compileText_agrees` — text and definition have the same grammar, or the same fault.
-/

namespace Scannerless

namespace GrammarText

open Text

/-! ### Words of the vocabulary are no marks -/

/-- The characters that marks begin with. -/
def markStarts : List Char :=
  [':', '~', '=', '|', '?', '*', '+']

theorem exists_start_of_mark {w : String} (h : w ∈ marks) :
    ∃ c, w.toList.head? = some c ∧ c ∈ markStarts := by
  have hstarts : ∀ w ∈ marks, w.toList.head?.any markStarts.contains = true := by decide
  simpa only [Option.any_eq_true, List.contains_iff_mem] using hstarts w h

/-- No mark begins as a name or a number does. -/
theorem isAlpha_of_mem_markStarts {c : Char} (h : c ∈ markStarts) :
    (c.isAlpha || c == '_') = false ∧ c.isDigit = false := by
  have hnone : markStarts.all (fun c => !(c.isAlpha || c == '_') && !c.isDigit) = true := by decide
  have hc := List.all_eq_true.mp hnone c h
  rwa [Bool.and_eq_true, Bool.not_eq_true', Bool.not_eq_true'] at hc

/-- No token of an element, a name or a value is a mark. -/
theorem not_mem_marks {w : String} (h : IsTokenOf valueNames w) : w ∉ marks := by
  intro hw
  obtain ⟨c, hhead, hc⟩ := exists_start_of_mark hw
  obtain ⟨name, hname, hlanguage⟩ := h
  simp only [valueNames, List.mem_cons, List.not_mem_nil, or_false] at hname
  rcases hname with rfl | rfl | rfl | rfl | rfl | rfl
  · obtain ⟨d, ds, htext, hd, -⟩ := mem_bareName_iff.mp hlanguage
    rw [htext] at hhead
    obtain rfl := Option.some_inj.mp hhead
    rw [(isAlpha_of_mem_markStarts hc).1] at hd
    cases hd
  · obtain ⟨body, htext, -⟩ := mem_bracketedName_iff.mp hlanguage
    rw [htext] at hhead
    obtain rfl := Option.some_inj.mp hhead
    simp [markStarts] at hc
  · obtain ⟨body, htext, hne, hlower⟩ := mem_builtinAction_iff.mp hlanguage
    obtain ⟨e, body, rfl⟩ := List.exists_cons_of_ne_nil hne
    -- Behind two colons, a mark has an equality sign.
    have hcolons : ∀ w ∈ marks, w.toList.take 2 = [':', ':'] → w.toList[2]? = some '=' := by
      decide
    have hequals := hcolons w hw
    rw [htext] at hequals
    obtain rfl := Option.some_inj.mp (hequals rfl)
    exact absurd (hlower '=' List.mem_cons_self) (by decide)
  · obtain ⟨sign, digits, htext, hsign, hne, hdigits⟩ := mem_integer_iff.mp hlanguage
    obtain ⟨d, digits, rfl⟩ := List.exists_cons_of_ne_nil hne
    rw [htext] at hhead
    rcases hsign with rfl | rfl
    · obtain rfl := Option.some_inj.mp hhead
      have hd := hdigits d List.mem_cons_self
      rw [(isAlpha_of_mem_markStarts hc).2] at hd
      cases hd
    · obtain rfl := Option.some_inj.mp hhead
      simp [markStarts] at hc
  · obtain ⟨q, hq, units, htext, -⟩ := mem_literal_iff.mp hlanguage
    rw [htext] at hhead
    obtain rfl := Option.some_inj.mp hhead
    rcases hq with rfl | rfl <;> simp [markStarts] at hc
  · obtain ⟨units, htext, -⟩ := mem_charClass_iff.mp hlanguage
    rw [htext] at hhead
    obtain rfl := Option.some_inj.mp hhead
    simp [markStarts] at hc

theorem vocabulary_within_unmarked : vocabulary.Within .unmarked where
  symbol _ h := not_mem_marks (h.mono (by decide))
  element _ h := not_mem_marks (h.mono (by decide))
  name _ h := not_mem_marks (h.mono (by decide))
  value _ h := not_mem_marks h

/-! ### Reading what was written -/

theorem spells_isToken {g : Grammar} {as : List SymbolId} {ws : List String}
    (h : List.Forall₂ (Spells g) as ws) : ∀ w ∈ ws, IsToken w.toList := by
  induction h with
  | nil => exact List.forall_mem_nil _
  | cons hw _ ih => exact List.forall_mem_cons.mpr ⟨hw.2.2, ih⟩

variable {g : Grammar} {ss : List Statement} {text : List Char}

/-- Statements that were written are read again, up to their offsets. -/
theorem Conforms.read_eq (h : Conforms g) (hss : ∀ s ∈ ss, s.In vocabulary)
    (htext : Arranges (ss.flatMap Statement.words) text) {r : Recognition}
    (hr : recognizeChars g none text = .ok r) :
    ∃ ss', read r = .ok ss' ∧ ss'.map Statement.placeless = ss.map Statement.placeless := by
  obtain ⟨rfl, hinput, hended⟩ := h.coherent.ended hr
  obtain ⟨as, hderives, hspells⟩ :=
    h.derivable_statements hss r.grammar.start (Or.inl h.coherent.start) h.start
  obtain ⟨gap, cs, hgap, hlaid, rfl⟩ := htext
  -- The words that were written are the longest lexemes of the text.
  have hchars : r.input.chars = [] ++ (gap ++ cs) := by
    rw [hinput]
    rfl
  obtain ⟨p, hchain, hwords, hend⟩ := h.separates.exists_chain h.coherent hlaid hgap hchars
    (spells_isToken hspells) (hspells.imp fun _ _ hw => ⟨hw.1, hw.2.1⟩)
  obtain ⟨hok, hreads⟩ := hended.reads_longest h.longestMatch hderives hchain hend
  obtain ⟨tree, htree⟩ := hended.exists_chosen hok
  obtain ⟨⟨values, words⟩, hmeans, hwords', hgives⟩ :=
    h.explains.reads h.coherent.structural (hreads tree htree)
  rw [h.start] at hmeans
  obtain ⟨_, rfl, ss', hss', rfl, rfl⟩ := hmeans
  refine ⟨ss', ?_, placeless_eq_of_words_eq
    (fun s hs => (hss' s hs).mono vocabulary_within_unmarked)
    (fun s hs => (hss s hs).mono vocabulary_within_unmarked) (Grammar.words_unique hwords' hwords)⟩
  rw [read, understand, hok, hended.evaluate_of_gives htree hgives]

end GrammarText

/-! ### Texts and definitions -/

/-- Compiling a text that was written comes to what the statements that are read again come to. -/
theorem GrammarText.Conforms.compileWith_eq {g : Grammar} (h : Conforms g) {ss : List Statement}
    (hss : ∀ s ∈ ss, s.In vocabulary) {text : List Char}
    (htext : Arranges (ss.flatMap Statement.words) text) (description : String) :
    ∃ ss', ss'.map Statement.placeless = ss.map Statement.placeless ∧
      (compileWith g text description).result =
        (compileStatements text description ss').result := by
  obtain ⟨r, hr⟩ := exists_recognizeIndexed_none g (.ofList text)
  obtain ⟨ss', hread, hplaceless⟩ := h.read_eq hss htext hr
  refine ⟨ss', hplaceless, ?_⟩
  have hr : recognizeChars g none text = .ok r := hr
  rw [compileWith, hr]
  simp only [hread]

theorem compileStatements_result (text : List Char) (description : String) (ss : List Statement) :
    (compileStatements text description ss).result =
      (Grammar.ofStatements ss description).mapError (.inText text description) := by
  rw [compileStatements]
  cases Grammar.ofStatements ss description <;> rfl

/-- Two results are the same grammar, or errors of the same kind with the same message. -/
inductive SameResult : Except CompileError Grammar → Except CompileError Grammar → Prop where
  | ok (g : Grammar) : SameResult (.ok g) (.ok g)
  | error {e e' : CompileError} (hkind : e.kind = e'.kind) (hmessage : e.message = e'.message) :
    SameResult (.error e) (.error e')

theorem SameResult.eq_ok {x : Except CompileError Grammar} {g : Grammar}
    (h : SameResult x (.ok g)) : x = .ok g := by
  cases h
  rfl

/-- Faults with one cause are reported alike, wherever they are. -/
theorem Agree.sameResult {x y : Except Fault Grammar} (h : Agree Eq x y) (text : List Char)
    (description : String) :
    SameResult (x.mapError (.inText text description)) (y.mapError (.ofFault description)) := by
  cases h with
  | ok h =>
    subst h
    exact .ok _
  | error h => exact .error (congrArg Cause.kind h) (congrArg Cause.message h)

/-- Statements that are arranged as a text come to what the text does. -/
theorem compileText_of_arranges {ss : List Statement} (hss : ∀ s ∈ ss, s.In GrammarText.vocabulary)
    {text : String} (htext : Arranges (ss.flatMap Statement.words) text.toList)
    (description : String) :
    SameResult (compileText text description).result
      (Definition.compile ⟨ss, description⟩) := by
  obtain ⟨g, hg, hconforms⟩ := GrammarText.exists_conforms
  obtain ⟨ss', hplaceless, hresult⟩ := hconforms.compileWith_eq hss htext description
  rw [compileText, hg, compileUsing, hresult, compileStatements_result]
  exact (Grammar.agree_ofStatements description hplaceless).sameResult text.toList description

/-- Statements over the tokens of the notation that are written as a text, with blanks and
    comments between their words, define the grammar of that text. Either both compile, and to the
    same grammar, or both fail, with errors of the same kind and with the same message. -/
theorem compileText_agrees {ss : List Statement} (hss : ∀ s ∈ ss, s.In GrammarText.vocabulary)
    {text : String} (htext : Renders (ss.flatMap Statement.words) text.toList)
    (description : String) :
    SameResult (compileText text description).result
      (Definition.compile ⟨ss, description⟩) :=
  compileText_of_arranges hss htext.arranges description

/-- Runs of a letter. -/
def GrammarText.runsOfX : List Statement :=
  [.structural "s" [[⟨[⟨"a", .plus, 0⟩], [], 0⟩]] 0, .lexical "a" [⟨[⟨"'x'", .one, 0⟩], [], 0⟩] 0]

theorem GrammarText.runsOfX_in : ∀ s ∈ runsOfX, s.In vocabulary := by
  have hname {c : Char} (hc : (c.isAlpha || c == '_') = true) :
      IsTokenOf symbolNames (String.ofList [c]) :=
    ⟨"bare_name", by decide, mem_bareName_iff.mpr
      ⟨c, [], String.toList_ofList, hc, List.forall_mem_nil _⟩⟩
  have hx : vocabulary.element "'x'" := by
    refine ⟨"literal", by decide, mem_literal_iff.mpr ⟨'\'', Or.inl rfl, [['x']], rfl, ?_⟩⟩
    exact List.forall_mem_singleton.mpr (Or.inl ⟨'x', rfl, by decide, by decide, by decide⟩)
  have ha : vocabulary.element "a" :=
    (hname (c := 'a') rfl).mono (List.subset_append_left _ _)
  simp only [runsOfX, List.forall_mem_cons]
  refine ⟨⟨hname (c := 's') rfl, List.cons_ne_nil _ _, ?_⟩,
    ⟨hname (c := 'a') rfl, List.cons_ne_nil _ _, ?_⟩, List.forall_mem_nil _⟩
  · refine List.forall_mem_singleton.mpr ⟨List.cons_ne_nil _ _, List.forall_mem_singleton.mpr ?_⟩
    exact ⟨List.forall_mem_singleton.mpr ha, List.forall_mem_nil _⟩
  · exact List.forall_mem_singleton.mpr ⟨List.forall_mem_singleton.mpr hx, List.forall_mem_nil _⟩

/-- The statements in three lines, of which the second one is a comment. -/
theorem GrammarText.renders_runsOfX : Renders (runsOfX.flatMap Statement.words)
    "s ::= a +\n# a letter\na ~ 'x'".toList := by
  have hspace : IsLayout [' '] := .blank rfl .nil
  have hline : '\n' ∉ " a letter".toList := by decide
  have hcomment : IsLayout ('\n' :: ('#' :: " a letter".toList ++ ['\n'])) :=
    .blank rfl (.comment (List.forall_mem_ne'.mpr hline) .nil)
  refine ⟨[], _, .nil, ?_, rfl⟩
  exact .cons hspace nofun <| .cons hspace nofun <| .cons hspace nofun <|
    .cons hcomment nofun <| .cons hspace nofun <| .cons hspace nofun <| .cons .nil nofun .nil

theorem compileText_agrees_runsOfX :
    ∃ g, Definition.compile ⟨GrammarText.runsOfX, "runs"⟩ = .ok g ∧
      (compileText "s ::= a +\n# a letter\na ~ 'x'" "runs").result = .ok g := by
  have hcompiles : (Definition.compile ⟨GrammarText.runsOfX, "runs"⟩).toOption.any
      (fun _ => true) = true := by
    decide +kernel
  obtain ⟨g, hg, -⟩ := exists_eq_ok_of_any hcompiles
  have hagrees :=
    compileText_agrees GrammarText.runsOfX_in GrammarText.renders_runsOfX "runs"
  rw [hg] at hagrees
  refine ⟨g, hg, ?_⟩
  generalize (compileText "s ::= a +\n# a letter\na ~ 'x'" "runs").result = result at hagrees
  cases hagrees
  rfl

end Scannerless
