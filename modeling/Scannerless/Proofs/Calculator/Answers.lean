import Scannerless.Proofs.Calculator.Trees

/-!
# What the calculator answers

The calculator accepts what recursive descent over the longest tokens reads, and the value that it
prints is the value of the expression that is read. This holds of every registry that realizes the
productions: with one that builds expressions, the parser comes to the very expression, and with
strict actions none of them misses an argument.

## Main statements

- `Calculator.Conforms.parse_eq` — what parsers come to with actions that realize the productions.
- `calculator_exact` — the trees and the answers of the calculator.
-/

namespace Scannerless

open Text Recognition

namespace Calculator

variable {V : Type} [Semantic V] {actions : Registry V} {φ : Syntax → V}

namespace Conforms

variable {g : Grammar} {r : Recognition}

/-- Rules come to what the map takes their expressions to. -/
theorem carries (h : Conforms r.grammar) (hφ : Realizes actions φ) :
    r.Carries φ building actions (Means r.grammar) where
  token := hφ.token
  rule id rule hrule hsplice parts hparts start stop value words hvalue _ := by
    obtain ⟨p, -, hrow, e, hmakes, -, -⟩ := h.exists_yields hrule hparts
    obtain ⟨-, -, hsemantics, -⟩ := row_eq_iff.mp hrow
    rw [← hsemantics] at hmakes
    rw [h.mask_eq hrule, kept_of_all hparts.length_eq] at hvalue ⊢
    have hbuilt := realizes_building.applyRule_eq
      (c := ⟨r.grammar, r.input, rule, start, stop⟩) hmakes hsplice
    rw [List.map_id, hvalue] at hbuilt
    obtain rfl : value = .expr e := Except.ok.inj hbuilt
    exact hφ.applyRule_eq hmakes hsplice

/-- The tokens that were read are lexemes. -/
theorem lexeme_of_token (h : Conforms r.grammar) (hr : r.Ended) {i : Nat} {s : SymbolId} {j : Nat}
    (hj : r.lattice.token i s j) :
    r.grammar.isLexeme s = true ∧ r.grammar.Covers r.input s (r.lattice.start i) j := by
  obtain ⟨hstart, -, hlexeme, hcovers⟩ := hr.lexeme_of_token h.longestMatch hj
  exact ⟨hlexeme, hstart ▸ hcovers⟩

/-- The chosen tree is the tree of the input. -/
theorem hasTree_of_chosen (h : Conforms r.grammar) (hr : r.Ended) {tree : Tree}
    (hchosen : r.Chosen tree) : r.grammar.HasTree r.input tree := by
  obtain ⟨p, hreads, hend⟩ := hr.exists_reads_of_chosen hchosen
  refine ⟨p, (hreads.along (P := fun _ => True) (fun k s j _ hj => ?_) trivial).1, hend⟩
  obtain ⟨hstart, htoken⟩ := hr.lexeme_of_token h.longestMatch hj
  exact ⟨htoken, hstart.symm, trivial⟩

/-- A recognized input is one that is read, and comes to what the map takes the expression to. -/
theorem evaluate_eq (h : Conforms r.grammar) (hr : r.Ended) (hφ : Realizes actions φ)
    (hok : r.failure? = none) :
    ∃ e, read? r.input.chars = some e ∧ (r.evaluate actions).1 = .ok (φ (.expr e)) := by
  obtain ⟨tree, hchosen⟩ := hr.exists_chosen hok
  obtain ⟨e, hread, hgives⟩ := h.read?_of_hasTree (h.hasTree_of_chosen hr hchosen)
  obtain ⟨value, -, -, hvalue, hvalue', -⟩ :=
    (h.explains fun _ _ _ hj => h.lexeme_of_token hr hj).evaluate_along (h.carries hφ) hr hok
      (h.distinguishes.one _)
  rw [hr.evaluate_of_gives hchosen hgives] at hvalue
  obtain rfl : .expr e = value := Except.ok.inj hvalue
  exact ⟨e, hread, hvalue'⟩

/-- A parser comes to what the map takes the expression to that is read, or to no value. -/
theorem parse_eq (h : Conforms g) (hφ : Realizes actions φ) (traceTerminals traceValues : Bool)
    (input : String) :
    ((⟨g, actions, ⟨traceTerminals, traceValues, none⟩⟩ : Parser V).parse input).result.toOption =
      (read? input.toList).map fun e => φ (.expr e) := by
  obtain ⟨r, hrun, rfl, hinput, hr⟩ := h.coherent.exists_ended input.toList
  have hrun : recognize r.grammar none input = .ok r := hrun
  have hread : read? input.toList = read? r.input.chars := by rw [hinput]; rfl
  rw [Parser.parse, hrun, hread]
  simp only [Parser.evaluate]
  cases hfailure : r.failure? with
  | some error =>
    cases he : read? r.input.chars with
    | none => rfl
    | some e => cases hfailure.symm.trans (h.failure?_eq_none hr he)
  | none =>
    obtain ⟨e, he, hvalue⟩ := h.evaluate_eq hr hφ hfailure
    show (r.evaluate actions).1.toOption = _
    rw [he, hvalue]
    rfl

end Conforms

end Calculator

/-- An input has at most one tree, and it has one if and only if it is read. With actions that build
    expressions the parser comes to the expression that is read, and with those of the calculator to
    its value, which is printed. Strict actions come to this value too, so that none misses an
    argument. An input that is not read comes to an error. -/
theorem calculator_exact :
    ∃ g, Calculator.grammar = .ok g ∧ Calculator.Strict.actions.Confirms Calculator.actions ∧
      ∀ input : String,
        (∀ tree tree', g.HasTree (.ofList input.toList) tree →
          g.HasTree (.ofList input.toList) tree' → tree = tree') ∧
        ((∃ tree, g.HasTree (.ofList input.toList) tree) ↔
          ∃ e, Calculator.read? input.toList = some e) ∧
        ∀ traceTerminals traceValues,
          let options : ParseOptions := ⟨traceTerminals, traceValues, none⟩
          let p : Parser Value := ⟨g, Calculator.actions, options⟩
          ((⟨g, Calculator.building, options⟩ : Parser Calculator.Syntax).parse
            input).result.toOption = (Calculator.read? input.toList).map .expr ∧
          ((⟨g, Calculator.Strict.actions, options⟩ : Parser (Option Value)).parse
            input).result.toOption = (Calculator.read? input.toList).map (some ·.value) ∧
          (∀ e, Calculator.read? input.toList = some e →
            (p.parse input).result = .ok e.value ∧ Calculator.answer p input = e.value.display) ∧
          (Calculator.read? input.toList = none → ∃ error : RunError,
            (p.parse input).result = .error error ∧
              Calculator.answer p input = "Parse err: " ++ error.message) := by
  obtain ⟨g, hg, h⟩ := Calculator.exists_conforms
  refine ⟨g, hg, Calculator.Strict.confirms_actions, fun input => ?_⟩
  obtain ⟨r, -, rfl, hinput, hr⟩ := h.coherent.exists_ended input.toList
  have hread : Calculator.read? r.input.chars = Calculator.read? input.toList := by
    rw [hinput]
    rfl
  rw [← hinput]
  refine ⟨fun _ _ => h.tree_unique, ⟨?_, ?_⟩, fun traceTerminals traceValues => ?_⟩
  · rintro ⟨tree, htree⟩
    obtain ⟨e, he, -⟩ := h.read?_of_hasTree htree
    exact ⟨e, hread ▸ he⟩
  · rintro ⟨e, he⟩
    obtain ⟨tree, hchosen⟩ := hr.exists_chosen (h.failure?_eq_none hr (hread.trans he))
    exact ⟨tree, h.hasTree_of_chosen hr hchosen⟩
  · have hvalue := h.parse_eq Calculator.realizes_actions traceTerminals traceValues input
    refine ⟨h.parse_eq Calculator.realizes_building traceTerminals traceValues input,
      h.parse_eq Calculator.realizes_strict traceTerminals traceValues input, fun e he => ?_,
      fun hnone => ?_⟩
    · rw [he] at hvalue
      have hresult := eq_ok_of_toOption hvalue
      refine ⟨hresult, ?_⟩
      rw [Calculator.answer, Calculator.resultLine, hresult]
      rfl
    · rw [hnone] at hvalue
      obtain ⟨error, hresult⟩ := exists_eq_error_of_toOption hvalue
      refine ⟨error, hresult, ?_⟩
      rw [Calculator.answer, Calculator.resultLine, hresult]

end Scannerless
