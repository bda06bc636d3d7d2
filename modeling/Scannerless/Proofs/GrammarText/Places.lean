import Scannerless.Proofs.Evaluation.Placement
import Scannerless.Proofs.Grammar.FaultPlaces
import Scannerless.Proofs.GrammarText.Arrangement
import Scannerless.Proofs.GrammarText.Totality
import Scannerless.Proofs.Recognition.Failure
import Scannerless.Proofs.Text.Position

/-!
# Errors point into the text

Every error in a grammar text is at a place of it. Statements that were read carry the places where
the actions of the notation were applied, and a text that is not recognized is left at a place that
tokens and what is discarded lead to. So the line of an error is one of the text, and its column is
one in this line.

## Main definitions

- `Phrase.Placed` — the offsets in a phrase have a property.

## Main statements

- `Phrase.preserves_placed` — phrases that are made at places of a text have such offsets.
- `GrammarText.Conforms.hasPlace_of_read` — a text that is not read has a fault at a place.
- `exists_fault_of_compileText` — an error of a text is that of a fault at a place.
- `error_points_into_text` — the line and the column of an error.
-/

namespace Scannerless

open Text

/-! ### Offsets in phrases -/

namespace Phrase

/-- All offsets in a phrase have a property. -/
def Placed (Q : Nat → Prop) : Phrase → Prop
  | .nothing | .token _ => True
  | .element _ offset => Q offset
  | .item i => Q i.offset
  | .items is => ∀ i ∈ is, Q i.offset
  | .adverb a => Q a.offset
  | .adverbs said => ∀ a ∈ said, Q a.offset
  | .alternative alt => ∀ n ∈ alt.offsets, Q n
  | .alternatives alts => ∀ alt ∈ alts, ∀ n ∈ alt.offsets, Q n
  | .tiers ts => ∀ alts ∈ ts, ∀ alt ∈ alts, ∀ n ∈ alt.offsets, Q n
  | .statement s => ∀ n ∈ s.offsets, Q n
  | .statements ss => ∀ s ∈ ss, ∀ n ∈ s.offsets, Q n

variable {Q : Nat → Prop} {c : RuleContext} {ps : List Phrase}

theorem exists_of_mem_mapM {α : Type} {part? : Phrase → Option α} {found : List α}
    (h : ps.mapM part? = some found) {x : α} (hx : x ∈ found) : ∃ p ∈ ps, part? p = some x := by
  induction ps generalizing found with
  | nil =>
    obtain rfl := Option.some.inj h
    cases hx
  | cons p ps ih =>
    rw [List.mapM_cons] at h
    obtain ⟨first, hfirst, h⟩ := Option.bind_eq_some_iff.mp h
    obtain ⟨rest, hrest, h⟩ := Option.bind_eq_some_iff.mp h
    obtain rfl := Option.some.inj h
    rcases List.mem_cons.mp hx with rfl | hx
    · exact ⟨p, List.mem_cons_self, hfirst⟩
    · obtain ⟨q, hq, hqx⟩ := ih hrest hx
      exact ⟨q, List.mem_cons_of_mem p hq, hqx⟩

/-- Parts that are put together keep their offsets. -/
theorem placed_gather {α : Type} {part? : Phrase → Option α} {whole : List α → Phrase}
    (phrase : α → Phrase) (hpart : ∀ p x, part? p = some x → p = phrase x)
    (hwhole : ∀ xs, (∀ x ∈ xs, (phrase x).Placed Q) → (whole xs).Placed Q)
    (hps : ∀ p ∈ ps, p.Placed Q) : (gather part? whole ps).Placed Q := by
  rw [gather]
  split
  next found hfound =>
    refine hwhole found fun x hx => ?_
    obtain ⟨p, hp, hpx⟩ := exists_of_mem_mapM hfound hx
    exact hpart p x hpx ▸ hps p hp
  next => trivial

/-- An alternative carries the offset of its first item, or that of its context. -/
theorem placed_alternativeOf (hc : Q c.start) (hps : ∀ p ∈ ps, p.Placed Q) :
    (alternativeOf c ps).Placed Q := by
  unfold alternativeOf
  split
  next rhs said =>
    have hrhs : ∀ i ∈ rhs, Q i.offset := hps (.items rhs) List.mem_cons_self
    have hsaid : ∀ a ∈ said, Q a.offset := hps (.adverbs said) (by simp)
    refine List.forall_mem_cons.mpr ⟨?_, List.forall_mem_append.mpr
      ⟨List.forall_mem_map.mpr hrhs, List.forall_mem_map.mpr hsaid⟩⟩
    cases rhs with
    | nil => exact hc
    | cons i _ => exact hrhs i List.mem_cons_self
  next => trivial

/-- A phrase that an action makes has the offsets of its parts, or the place of the action. -/
theorem placed_of_mem_actions :
    ∀ entry ∈ actions.actions, ∀ c, Q c.start → ∀ ps, (∀ p ∈ ps, p.Placed Q) →
      (entry.2 c ps).Placed Q := by
  simp only [actions, List.forall_mem_cons]
  refine ⟨fun c hc ps hps => ?statements, fun c hc ps hps => ?start, fun c hc ps hps => ?default,
    fun c hc ps hps => ?discard, fun c hc ps hps => ?lexemeDefault,
    fun c hc ps hps => ?structural, fun c hc ps hps => ?lexical, fun c hc ps hps => ?tiers,
    fun c hc ps hps => ?alternatives, fun c hc ps hps => placed_alternativeOf hc hps,
    fun c hc ps hps => ?rhs, fun c hc ps hps => ?item, fun c hc ps hps => ?quantified,
    fun c hc ps hps => ?spelled, fun c hc ps hps => ?adverbs, fun c hc ps hps => ?adverb,
    List.forall_mem_nil _⟩
  case statements =>
    exact placed_gather .statement (fun p _ h => by cases p <;> cases h; rfl) (fun _ => id) hps
  case tiers =>
    exact placed_gather .alternatives (fun p _ h => by cases p <;> cases h; rfl) (fun _ => id) hps
  case alternatives =>
    exact placed_gather .alternative (fun p _ h => by cases p <;> cases h; rfl) (fun _ => id) hps
  case rhs =>
    exact placed_gather .item (fun p _ h => by cases p <;> cases h; rfl) (fun _ => id) hps
  case adverbs =>
    exact placed_gather .adverb (fun p _ h => by cases p <;> cases h; rfl) (fun _ => id) hps
  case start | discard =>
    simp only [start, discard]
    split
    · exact List.forall_mem_singleton.mpr hc
    · trivial
  case default | lexemeDefault =>
    simp only [default, lexemeDefault]
    split
    next said =>
      have hsaid : ∀ a ∈ said, Q a.offset := hps (.adverbs said) (by simp)
      exact List.forall_mem_cons.mpr ⟨hc, List.forall_mem_map.mpr hsaid⟩
    next => trivial
  case structural =>
    simp only [structural]
    split
    next ts =>
      have htiers : Placed Q (.tiers ts) := hps _ (by simp)
      exact List.forall_mem_cons.mpr ⟨hc, List.forall_mem_flatMap.mpr
        (List.forall_mem_flatten.mpr htiers)⟩
    next => trivial
  case lexical =>
    simp only [lexical]
    split
    next alts =>
      have halts : Placed Q (.alternatives alts) := hps _ (by simp)
      exact List.forall_mem_cons.mpr ⟨hc, List.forall_mem_flatMap.mpr halts⟩
    next => trivial
  case item | quantified =>
    simp only [single, quantified]
    split
    · exact hps (.element _ _) List.mem_cons_self
    · trivial
  case spelled | adverb =>
    simp only [spelled, adverbOf]
    split
    · exact hc
    · trivial

/-- What the actions of the notation make at places of a text has offsets that are places of it. -/
theorem preserves_placed (input : Indexed) :
    actions.Preserves input (Placed input.HasPlace) where
  ofLexeme _ := trivial
  undefined := trivial
  ofList _ _ := trivial
  action name f hf c hc ps hps := by
    obtain ⟨_, _, hactions, -⟩ := List.lookup_eq_some_iff.mp hf
    have hmem : (name, f) ∈ actions.actions := by simp [hactions]
    exact placed_of_mem_actions _ hmem c hc.start ps hps

end Phrase

/-! ### Places that a run comes to -/

theorem hasPlace_of_skipsTo {g : Grammar} {input : Indexed} {i j : Nat}
    (h : SkipsTo (g.Discarded input) i j) (hi : input.HasPlace i) : input.HasPlace j := by
  induction h with
  | stop => exact hi
  | go hk _ _ ih =>
    obtain ⟨-, s, -, part, hslice, -⟩ := hk
    exact ih (Indexed.hasPlace_of_slice? hslice).2

namespace Recognition

variable {r : Recognition} {k : Nat} {e : RunError}

/-- A place that tokens lead to is one of the input. -/
theorem Ended.hasPlace_of_reached (hr : r.Ended) (hk : r.Reached k) : r.input.HasPlace k := by
  rcases hr.exists_token hk with rfl | ⟨j, s, -, htoken⟩
  · exact r.input.hasPlace_zero
  · obtain ⟨-, part, hslice⟩ := hr.slice?_of_token htoken
    exact (Indexed.hasPlace_of_slice? hslice).2

/-- So is the place where the next token is to begin. -/
theorem Ended.hasPlace_skip (hr : r.Ended) (hk : r.Reached k) : r.input.HasPlace (r.skip k) := by
  rw [hr.skip_eq hk]
  exact hasPlace_of_skipsTo (hr.coherent.skipsTo_skipEnd k) (hr.hasPlace_of_reached hk)

end Recognition

/-! ### Faults of texts -/

namespace GrammarText

variable {r : Recognition} {f : Fault}

/-- An input that is not recognized has a fault at a place of it: where it is left, or at its
    end. -/
theorem hasPlace_of_failure? (hr : r.Ended) (hlast : r.Reached r.run.furthest) {e : RunError}
    (h : r.failure? = some e) : r.input.HasPlace (fault r.input.chars e).offset := by
  rw [Recognition.failure?] at h
  split at h
  · simp only at h
    split at h
    · obtain rfl := Option.some.inj h
      exact ⟨r.input.chars, [], (List.append_nil _).symm, rfl⟩
    · obtain rfl := Option.some.inj h
      exact hr.hasPlace_skip hlast
  · cases h

/-- The statements that are read carry places of the text. -/
theorem hasPlace_of_read (hr : r.Ended) {ss : List Statement} (h : read r = .ok ss) :
    ∀ s ∈ ss, ∀ n ∈ s.offsets, r.input.HasPlace n := by
  rw [read, understand] at h
  cases hfailure : r.failure? with
  | some e =>
    rw [hfailure] at h
    cases h
  | none =>
    rw [hfailure] at h
    cases hvalue : (r.evaluate Phrase.actions).1 with
    | error e =>
      rw [hvalue] at h
      cases h
    | ok p =>
      have hplaced := hr.of_evaluate hfailure (Phrase.preserves_placed r.input) hvalue
      rw [hvalue] at h
      cases p <;> cases h
      exact hplaced

/-- A text that is not read has a fault at one of its places. -/
theorem Conforms.hasPlace_of_read_error (h : Conforms r.grammar) (hr : r.Ended)
    (hlast : r.Reached r.run.furthest) (hread : read r = .error f) :
    r.input.HasPlace f.offset := by
  cases hfailure : r.failure? with
  | none =>
    obtain ⟨ss, hss⟩ := h.exists_understood hr hfailure
    rw [(hss.read_eq hfailure).1] at hread
    cases hread
  | some e =>
    rw [read, understand, hfailure] at hread
    obtain rfl := Except.error.inj hread
    exact hasPlace_of_failure? hr hlast hfailure

end GrammarText

/-- An error of a text is that of a fault at one of its places. -/
theorem exists_fault_of_compileText {text description : String} {e : CompileError}
    (h : (compileText text description).result = .error e) :
    ∃ f : Fault, e = .inText text.toList description f ∧
      (Indexed.ofList text.toList).HasPlace f.offset := by
  obtain ⟨g, hg, hconforms⟩ := GrammarText.exists_conforms
  have hcompiled : g.IsCompiled := Or.inl ⟨_, hg⟩
  obtain ⟨r, hr⟩ := exists_recognizeIndexed_none g (.ofList text.toList)
  obtain ⟨run, hto, rfl⟩ := recognizeIndexed_eq_ok_iff.mp hr
  have hended : Recognition.Ended ⟨g, .ofList text.toList, run⟩ :=
    (hconforms.coherent.ended hr).2.2
  have hr : recognizeChars g none text.toList = .ok ⟨g, .ofList text.toList, run⟩ := hr
  rw [compileText, hg, compileUsing, compileWith, hr] at h
  simp only at h
  split at h
  next f hread =>
    -- The text is not one of the notation.
    obtain rfl := Except.error.inj h
    have hlast := (hended.furthest hcompiled.wellFormed.start hto).1
    exact ⟨f, rfl, hconforms.hasPlace_of_read_error hended hlast hread⟩
  next ss hread =>
    -- The statements that were read define no grammar.
    rw [compileStatements_result] at h
    cases hfault : Grammar.ofStatements ss description with
    | ok _ =>
      rw [hfault] at h
      cases h
    | error f =>
      rw [hfault] at h
      obtain rfl := Except.error.inj h
      exact ⟨f, rfl, Grammar.offset_of_ofStatements (Indexed.hasPlace_zero _)
        (GrammarText.hasPlace_of_read hended hread) hfault⟩

/-- An error of a text tells its description and a place of the text. Its line is one of those that
    the text is split into, its column is one in this line or follows the last character, and the
    text that is told is that of the line. -/
theorem error_points_into_text {text description : String} {e : CompileError}
    (h : (compileText text description).result = .error e) :
    e.description = description ∧
    ∃ offset location line,
      ((∃ before after, text.toList = before ++ after ∧ byteLength before = offset) ∧
        offset ≤ byteLength text.toList) ∧
      e.location = some location ∧ location = locate text.toList offset ∧
      (1 ≤ location.line ∧ location.line ≤ (text.toList.splitOn '\n').length) ∧
      (text.toList.splitOn '\n')[location.line - 1]? = some line ∧
      (1 ≤ location.column ∧ location.column ≤ line.length + 1) ∧
      e.lineText = lineText? text.toList location.line ∧
      e.lineText = some (String.ofList (dropReturns line)) := by
  obtain ⟨f, rfl, before, after, htext, hoffset⟩ := exists_fault_of_compileText h
  have htext : text.toList = before ++ after := htext
  obtain ⟨location, line, hlocate, hnumber, hget, hcolumn, hlineText⟩ :=
    exists_line_of_locate before after
  rw [← htext, hoffset] at hlocate
  rw [← htext] at hnumber hget hlineText
  have hle : f.offset ≤ byteLength text.toList := by
    rw [htext, byteLength_append, ← hoffset]
    exact Nat.le_add_right _ _
  have htold : (CompileError.inText text.toList description f).lineText =
      lineText? text.toList location.line := by
    rw [← hlocate]
    rfl
  exact ⟨rfl, f.offset, location, line, ⟨⟨before, after, htext, hoffset⟩, hle⟩,
    congrArg some hlocate, hlocate.symm, hnumber, hget, hcolumn, htold, htold.trans hlineText⟩

/-- A rule with a name that nothing defines, behind a definition of the other name in it. -/
def GrammarText.missingLetter : List Statement :=
  [.lexeme "a" ["'x'"], .rule "s" ["a", "b"]]

theorem error_points_into_text_missingLetter :
    ∃ e, (compileText "a ~ 'x'\ns ::= a b" "letters").result = .error e ∧
      e.kind = .undefinedSymbol ∧ e.description = "letters" ∧
      (e.lineText = some "a ~ 'x'" ∨ e.lineText = some "s ::= a b") ∧
      ∃ location, e.location = some location ∧ 1 ≤ location.column ∧ location.column ≤ 10 := by
  have hin : ∀ s ∈ GrammarText.missingLetter, s.In GrammarText.vocabulary := by
    have hplain : ∀ s ∈ GrammarText.missingLetter, s.In GrammarText.plainVocabulary := by
      decide +kernel
    exact fun s hs => (hplain s hs).mono GrammarText.plainVocabulary_within
  have harranged : isArranged (GrammarText.missingLetter.flatMap Statement.words)
      "a ~ 'x'\ns ::= a b".toList = true := by
    decide +kernel
  have hfault : ((Definition.compile ⟨GrammarText.missingLetter, "letters"⟩).map
      fun _ => ()).mapError (·.kind) = .error .undefinedSymbol := by
    decide +kernel
  have hsame := compileText_of_arranges hin (arranges_of_isArranged harranged) "letters"
  have hsplit : "a ~ 'x'\ns ::= a b".toList.splitOn '\n' =
      ["a ~ 'x'".toList, "s ::= a b".toList] := by
    decide +kernel
  generalize hresult : (compileText "a ~ 'x'\ns ::= a b" "letters").result = result at hsame
  generalize Definition.compile ⟨GrammarText.missingLetter, "letters"⟩ = defined at hsame hfault
  cases hsame with
  | ok g => cases hfault
  | @error e e' hkind =>
    have hkind' : e'.kind = .undefinedSymbol := Except.error.inj hfault
    obtain ⟨hdescription, offset, location, line, -, hlocation, -, ⟨hpos, hle⟩, hline,
      ⟨hcolumn, hcolumn'⟩, -, htold⟩ := error_points_into_text hresult
    rw [hsplit] at hle hline
    refine ⟨e, rfl, hkind.trans hkind', hdescription, ?_⟩
    obtain hnumber | hnumber : location.line = 1 ∨ location.line = 2 := by
      have hle : location.line ≤ 2 := hle
      omega
    all_goals
      rw [hnumber] at hline
      obtain rfl := Option.some.inj hline
    · exact ⟨Or.inl (htold.trans (by decide +kernel)), location, hlocation, hcolumn,
        hcolumn'.trans (by decide)⟩
    · exact ⟨Or.inr (htold.trans (by decide +kernel)), location, hlocation, hcolumn,
        hcolumn'.trans (by decide)⟩

end Scannerless
