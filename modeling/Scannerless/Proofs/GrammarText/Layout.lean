import Scannerless.Proofs.Evaluation.Meanings
import Scannerless.Proofs.GrammarText.Shapes
import Scannerless.Proofs.Recognition.LongestTokens

/-!
# Layout

Between the tokens of a text stand blanks, and comments up to the end of their line. Words with
such layout between them are found again: skipping goes over the layout, and the longest lexeme
behind it is the next word.

## Main definitions

- `IsGap`, `IsLayout` — a run of blanks or a comment, and what several of them make up.
- `Renders` — a text of words with layout around and between them.
- `Arranges` — the same without layout where the words are told apart.
- `Grammar.Separates` — a grammar discards gaps, and its other lexemes are tokens.

## Main statements

- `Grammar.Separates.skipEnd_eq` — layout is skipped.
- `Grammar.Separates.exists_chain` — the longest lexemes of a text of words are these words.
-/

namespace Scannerless

open Text

/-! ### Texts of words -/

/-- A run of blanks, or a comment without the end of its line. -/
def IsGap (text : List Char) : Prop :=
  (text ≠ [] ∧ ∀ c ∈ text, isBlank c = true) ∨
    ∃ body, text = '#' :: body ∧ ∀ c ∈ body, c ≠ '\n'

theorem IsGap.ne_nil {text : List Char} (h : IsGap text) : text ≠ [] := by
  rcases h with ⟨hne, -⟩ | ⟨body, rfl, -⟩
  · exact hne
  · exact List.cons_ne_nil _ _

/-- Blanks and comments that end with their line, any number of them in any order. -/
inductive IsLayout : List Char → Prop where
  | nil : IsLayout []
  | blank {c : Char} {cs : List Char} (hc : isBlank c = true) (h : IsLayout cs) :
    IsLayout (c :: cs)
  | comment {body cs : List Char} (hbody : ∀ c ∈ body, c ≠ '\n') (h : IsLayout cs) :
    IsLayout ('#' :: body ++ '\n' :: cs)

/-- Words, each with layout behind it that is not empty if another word follows. -/
inductive Spaced : List String → List Char → Prop where
  | nil : Spaced [] []
  | cons {w : String} {ws : List String} {gap cs : List Char} (hgap : IsLayout gap)
    (hsep : ws ≠ [] → gap ≠ []) (h : Spaced ws cs) : Spaced (w :: ws) (w.toList ++ (gap ++ cs))

/-- Words with layout behind them, which may be empty at the end and behind enclosed tokens. -/
inductive Laid : List String → List Char → Prop where
  | nil : Laid [] []
  | cons {w : String} {ws : List String} {gap cs : List Char} (hgap : IsLayout gap)
    (hsep : ws ≠ [] → gap ≠ [] ∨ Opens w.toList) (h : Laid ws cs) :
    Laid (w :: ws) (w.toList ++ (gap ++ cs))

theorem Spaced.laid {ws : List String} {cs : List Char} (h : Spaced ws cs) : Laid ws cs := by
  induction h with
  | nil => exact .nil
  | cons hgap hsep _ ih => exact .cons hgap (fun hne => Or.inl (hsep hne)) ih

/-- A text of words, with layout between them and perhaps around them. -/
def Renders (ws : List String) (text : List Char) : Prop :=
  ∃ gap cs, IsLayout gap ∧ Spaced ws cs ∧ text = gap ++ cs

/-- A text of words, with layout where these would not be told apart. -/
def Arranges (ws : List String) (text : List Char) : Prop :=
  ∃ gap cs, IsLayout gap ∧ Laid ws cs ∧ text = gap ++ cs

theorem Renders.arranges {ws : List String} {text : List Char} (h : Renders ws text) :
    Arranges ws text := by
  obtain ⟨gap, cs, hgap, hspaced, htext⟩ := h
  exact ⟨gap, cs, hgap, hspaced.laid, htext⟩

theorem IsLayout.startsGap {gap : List Char} (h : IsLayout gap) (hne : gap ≠ [])
    (cs : List Char) : StartsGap (gap ++ cs) := by
  intro c hc
  cases h with
  | nil => exact absurd rfl hne
  | blank hblank _ =>
    obtain rfl := Option.some_inj.mp hc
    exact Or.inl hblank
  | comment _ _ =>
    obtain rfl := Option.some_inj.mp hc
    exact Or.inr rfl

theorem Laid.startsGap {w : String} {ws : List String} {gap cs : List Char} (hgap : IsLayout gap)
    (hsep : ws ≠ [] → gap ≠ [] ∨ Opens w.toList) (h : Laid ws cs) :
    StartsGap (gap ++ cs) ∨ Opens w.toList := by
  by_cases hne : gap = []
  · subst hne
    cases h with
    | nil => exact Or.inl (by simp [StartsGap])
    | cons => exact Or.inr ((hsep (List.cons_ne_nil _ _)).resolve_left (not_not_intro rfl))
  · exact Or.inl (hgap.startsGap hne cs)

/-- What follows a gap: nothing, or a character that begins no gap. -/
def EndsGap (rest : List Char) : Prop :=
  ∀ c ∈ rest.head?, isBlank c = false ∧ c ≠ '#'

theorem EndsGap.not_isGap {text rest : List Char} (h : EndsGap (text ++ rest)) : ¬IsGap text := by
  rintro (⟨hne, hall⟩ | ⟨body, rfl, -⟩)
  · obtain ⟨c, cs, rfl⟩ := List.exists_cons_of_ne_nil hne
    have hc := (h c rfl).1
    rw [hall c List.mem_cons_self] at hc
    cases hc
  · exact (h '#' rfl).2 rfl

theorem IsToken.endsGap {w : List Char} (h : IsToken w) (rest : List Char) :
    EndsGap (w ++ rest) := by
  obtain ⟨c, cs, rfl, hblank, hsign⟩ := h.exists_cons
  intro d hd
  obtain rfl := Option.some_inj.mp hd
  exact ⟨hblank, hsign⟩

theorem Laid.endsGap {ws : List String} {cs : List Char} (h : Laid ws cs)
    (hws : ∀ w ∈ ws, IsToken w.toList) : EndsGap cs := by
  cases h with
  | nil => simp [EndsGap]
  | cons _ _ _ => exact (hws _ List.mem_cons_self).endsGap _

/-! ### Skipping -/

namespace Grammar

variable {g : Grammar} {input : Indexed} {before gap after : List Char} {j : Nat}

/-- The grammar discards the gaps, and its other lexemes are tokens. -/
structure Separates (g : Grammar) : Prop where
  discards : ∀ text, (∃ s ∈ g.discards, g.Matches s text) ↔ IsGap text
  lexemes : ∀ s text, g.isLexeme s = true → g.Matches s text → IsToken text ∨ IsGap text

namespace Separates

theorem discardsGaps (hg : g.Separates) : g.Discards IsGap :=
  ⟨hg.discards, fun _ hgap => hgap.ne_nil⟩

/-- A run of blanks is skipped up to what is no blank. -/
theorem skipsTo_blanks (hg : g.Separates) {run : List Char} (hrun : ∀ c ∈ run, isBlank c = true)
    (hchars : input.chars = before ++ (run ++ after))
    (hafter : ∀ c ∈ after.head?, isBlank c = false)
    (hj : SkipsTo (g.Discarded input) (byteLength (before ++ run)) j) :
    SkipsTo (g.Discarded input) (byteLength before) j := by
  by_cases hne : run = []
  · rwa [hne, List.append_nil] at hj
  refine hg.discardsGaps.skipsTo_text (Or.inl ⟨hne, hrun⟩) hchars (fun text' rest heq hgap => ?_) hj
  rcases hgap with ⟨-, hall⟩ | ⟨body, rfl, -⟩
  · exact prefix_of_forall heq hall fun c hc hblank => by
      rw [hafter c hc] at hblank
      cases hblank
  · -- What begins with a blank is no comment.
    obtain ⟨c, run, rfl⟩ := List.exists_cons_of_ne_nil hne
    obtain ⟨rfl, -⟩ := List.cons.inj heq
    exact absurd (hrun _ List.mem_cons_self) (by decide)

/-- A comment is skipped up to the end of its line. -/
theorem skipsTo_comment (hg : g.Separates) {body : List Char} (hbody : ∀ c ∈ body, c ≠ '\n')
    (hchars : input.chars = before ++ ('#' :: body ++ '\n' :: after))
    (hj : SkipsTo (g.Discarded input) (byteLength (before ++ '#' :: body)) j) :
    SkipsTo (g.Discarded input) (byteLength before) j := by
  refine hg.discardsGaps.skipsTo_text (Or.inr ⟨body, rfl, hbody⟩) hchars
    (fun text' rest heq hgap => ?_) hj
  rcases hgap with ⟨hne, hall⟩ | ⟨body', rfl, hall⟩
  · obtain ⟨c, cs, rfl⟩ := List.exists_cons_of_ne_nil hne
    obtain ⟨rfl, -⟩ := List.cons.inj heq
    exact absurd (hall _ List.mem_cons_self) (by decide)
  · refine prefix_of_forall heq (P := (· ≠ '\n')) (List.forall_mem_cons.mpr ⟨by decide, hall⟩) ?_
    intro c hc
    obtain rfl := Option.some_inj.mp hc
    exact not_not_intro rfl

/-- Layout is skipped up to what begins no gap. -/
theorem skipsTo_layout (hg : g.Separates) (hgap : IsLayout gap) (hafter : EndsGap after)
    {run : List Char} (hrun : ∀ c ∈ run, isBlank c = true)
    (hchars : input.chars = before ++ (run ++ (gap ++ after))) :
    SkipsTo (g.Discarded input) (byteLength before) (byteLength (before ++ (run ++ gap))) := by
  -- The run in front of the layout grows by its blanks, and is skipped where it ends.
  induction hgap generalizing run before with
  | nil =>
    rw [List.append_nil]
    refine hg.skipsTo_blanks hrun hchars (fun c hc => (hafter c hc).1) ?_
    refine hg.discardsGaps.skipsTo_self (hchars.trans (List.append_assoc _ _ _).symm) ?_
    rintro text rest rfl
    exact hafter.not_isGap
  | @blank c cs hc _ ih =>
    have hskips : SkipsTo (g.Discarded input) (byteLength before)
        (byteLength (before ++ (run ++ [c] ++ cs))) :=
      ih (by simpa [or_imp, forall_and] using ⟨hrun, hc⟩) (by simpa using hchars)
    simpa using hskips
  | @comment body cs hbody _ ih =>
    refine hg.skipsTo_blanks hrun hchars (by simpa using (by decide : isBlank '#' = false)) ?_
    have hrest : input.chars = (before ++ run) ++ ('#' :: body ++ '\n' :: (cs ++ after)) := by
      simpa using hchars
    refine hg.skipsTo_comment hbody hrest ?_
    have hskips : SkipsTo (g.Discarded input) (byteLength (before ++ run ++ '#' :: body))
        (byteLength (before ++ run ++ '#' :: body ++ (['\n'] ++ cs))) :=
      ih (List.forall_mem_singleton.mpr (by decide)) (by simpa using hchars)
    simpa using hskips

/-- Skipping ends behind the layout. -/
theorem skipEnd_eq (hg : g.Separates) (hcoherent : g.Coherent) (hgap : IsLayout gap)
    (hafter : EndsGap after) (hchars : input.chars = before ++ (gap ++ after)) :
    g.skipEnd input (byteLength before) = byteLength (before ++ gap) := by
  refine ((skipsTo_iff hcoherent.lexicon hcoherent.plainDiscards _ _).mp ?_).symm
  have hnone : ∀ c ∈ ([] : List Char), isBlank c = true := by simp
  exact hg.skipsTo_layout hgap hafter hnone hchars

/-! ### The words of a text -/

/-- The longest lexeme at a word that ends there is that word. -/
theorem token_word (hg : g.Separates) {k : Nat} {a : SymbolId} {w : String}
    (ha : g.isLexeme a = true) (hmatches : g.Matches a w.toList) (hw : IsToken w.toList)
    (hchars : input.chars = before ++ (w.toList ++ after)) (hend : StartsGap after ∨ Opens w.toList)
    (hskip : g.skipEnd input k = byteLength before) (hk : k ≤ byteLength before) :
    (g.longestLattice input).token k a (byteLength (before ++ w.toList)) := by
  have hpos : byteLength w.toList ≠ 0 := by
    intro h
    obtain ⟨c, cs, hcons, -⟩ := hw.exists_cons
    rw [byteLength_eq_zero_iff.mp h] at hcons
    cases hcons
  refine ⟨⟨by rw [byteLength_append]; omega, ha, ?_⟩, ?_⟩
  · rw [hskip]
    exact (covers_iff hchars).mpr ⟨w.toList, after, rfl, rfl, hmatches⟩
  · rintro s' j' ⟨-, hs', hcovers⟩
    rw [hskip, covers_iff hchars] at hcovers
    obtain ⟨text, rest, heq, rfl, hmatches'⟩ := hcovers
    rcases hg.lexemes s' text hs' hmatches' with htoken | hgap
    · obtain ⟨more, hmore⟩ := hw.prefix_of_append_eq htoken hend heq
      rw [← hmore]
      simp only [byteLength_append]
      omega
    · have hends := hw.endsGap after
      rw [heq] at hends
      exact absurd hgap hends.not_isGap

/-- The longest lexemes of a text of words are these words. -/
theorem exists_chain (hg : g.Separates) (hcoherent : g.Coherent) {ws : List String}
    {cs : List Char} (h : Laid ws cs) {as : List SymbolId} (hgap : IsLayout gap)
    (hchars : input.chars = before ++ (gap ++ cs)) (hws : ∀ w ∈ ws, IsToken w.toList)
    (has : List.Forall₂ (fun a w => g.isLexeme a = true ∧ g.Matches a (String.toList w)) as ws) :
    ∃ p, (g.longestLattice input).Chain as (byteLength before) p ∧
      (g.longestLattice input).Words input ws (byteLength before) p ∧
      input.size ≤ g.skipEnd input p := by
  have hskip := hg.skipEnd_eq hcoherent hgap (h.endsGap hws) hchars
  induction h generalizing before gap as with
  | nil =>
    cases has
    refine ⟨_, .nil _, .nil _, ?_⟩
    rw [hskip, input.size_eq, hchars, List.append_nil]
  | @cons w ws gap' cs hgap' hsep h ih =>
    obtain ⟨a, as, ha, hrest, rfl⟩ := List.forall₂_cons_right_iff.mp has
    rw [List.forall_mem_cons] at hws
    have hplace : input.chars = (before ++ gap) ++ (w.toList ++ (gap' ++ cs)) := by
      rw [hchars, List.append_assoc]
    have hnext : input.chars = (before ++ gap ++ w.toList) ++ (gap' ++ cs) := by
      rw [hplace, List.append_assoc _ w.toList]
    have htoken := hg.token_word ha.1 ha.2 hws.1 hplace (h.startsGap hgap' hsep) hskip
      (by rw [byteLength_append]; omega)
    obtain ⟨p, hchain, hwords, hend⟩ := ih hgap' hnext hws.2 hrest
      (hg.skipEnd_eq hcoherent hgap' (h.endsGap hws.2) hnext)
    refine ⟨p, .cons htoken hchain, ?_, hend⟩
    have hbetween : input.between (g.skipEnd input (byteLength before))
        (byteLength (before ++ gap ++ w.toList)) = w := by
      rw [hskip, Indexed.between_append hplace, String.ofList_toList]
    rw [← hbetween]
    exact .cons htoken hwords

end Separates

/-! ### Unique words -/

/-- The longest lexemes at a place end at one place. -/
theorem longestLattice_unique {k j' : Nat} {s s' : SymbolId}
    (h : (g.longestLattice input).token k s j) (h' : (g.longestLattice input).token k s' j') :
    j = j' :=
  Nat.le_antisymm (h'.2 s j h.1) (h.2 s' j' h'.1)

/-- Between two places there is one list of longest words. -/
theorem words_unique {ws ws' : List String} {i p : Nat}
    (h : (g.longestLattice input).Words input ws i p)
    (h' : (g.longestLattice input).Words input ws' i p) : ws = ws' := by
  have hforward {ws : List String} {i p : Nat}
      (h : (g.longestLattice input).Words input ws i p) : i ≤ p := by
    induction h with
    | nil => exact Nat.le_refl _
    | cons hs _ ih => exact (Nat.le_of_lt hs.1.1).trans ih
  induction h generalizing ws' with
  | nil =>
    cases h' with
    | nil => rfl
    | cons hs hws =>
      have hlt := hs.1.1
      have hle := hforward hws
      omega
  | cons hs hws ih =>
    cases h' with
    | nil =>
      have hlt := hs.1.1
      have hle := hforward hws
      omega
    | cons hs' hws' =>
      obtain rfl := longestLattice_unique hs hs'
      rw [ih hws']

end Grammar

end Scannerless
