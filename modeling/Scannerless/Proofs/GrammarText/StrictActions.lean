import Scannerless.Proofs.Evaluation.Strict
import Scannerless.Proofs.Evaluation.Transport
import Scannerless.Proofs.GrammarText.Conformity

/-!
# Strict actions of the notation

The actions of the notation take phrases out of the list that they are applied to and look into
them. Here each of them misses what it takes if it is not there, or is a phrase of another kind.
Whatever text is evaluated, none of them misses a phrase.

## Main definitions

- `Phrase.Strict.actions` — the actions of the notation, each with the phrases that it takes.

## Main statements

- `Phrase.Strict.mirrors` — they make the same phrases, if these have a meaning.
- `GrammarText.carries_strict` — so rules come to the same phrases with them.
-/

namespace Scannerless

open Strict

namespace Phrase

/-- A phrase that means something. -/
def Meaningful (p : Phrase) : Prop :=
  p ≠ .nothing

def token? : Phrase → Option String
  | .token text => some text
  | _ => none

def element? : Phrase → Option (String × Nat)
  | .element spelling offset => some (spelling, offset)
  | _ => none

def items? : Phrase → Option (List RhsItem)
  | .items is => some is
  | _ => none

def adverbs? : Phrase → Option (List Adverb)
  | .adverbs said => some said
  | _ => none

def tiers? : Phrase → Option (List (List Alternative))
  | .tiers ts => some ts
  | _ => none

namespace Strict

/-! ### Actions -/

def start (c : RuleContext) : Arguments Phrase Phrase := do
  let (symbol, _) ← take 2 element?
  return .statement (.start symbol c.start)

def default (c : RuleContext) : Arguments Phrase Phrase := do
  let said ← take 2 adverbs?
  return .statement (.default said c.start)

def discard (c : RuleContext) : Arguments Phrase Phrase := do
  let (spelling, _) ← take 2 element?
  return .statement (.discard spelling c.start)

def lexemeDefault (c : RuleContext) : Arguments Phrase Phrase := do
  let said ← take 3 adverbs?
  return .statement (.lexemeDefault said c.start)

def structural (c : RuleContext) : Arguments Phrase Phrase := do
  let tiers ← take 2 tiers?
  let (lhs, _) ← take 0 element?
  return .statement (.structural lhs tiers c.start)

def lexical (c : RuleContext) : Arguments Phrase Phrase := do
  let alternatives ← take 2 alternatives?
  let (lhs, _) ← take 0 element?
  return .statement (.lexical lhs alternatives c.start)

def alternativeOf (c : RuleContext) : Arguments Phrase Phrase := do
  let said ← take 1 adverbs?
  let rhs ← take 0 items?
  return .alternative ⟨rhs, said, (rhs.head?.map (·.offset)).getD c.start⟩

def single (_ : RuleContext) : Arguments Phrase Phrase := do
  let (spelling, offset) ← take 0 element?
  return .item ⟨spelling, .one, offset⟩

def quantified (_ : RuleContext) : Arguments Phrase Phrase := do
  let q ← take 1 token?
  let (spelling, offset) ← take 0 element?
  return .item ⟨spelling, quantifier q, offset⟩

def spelled (c : RuleContext) : Arguments Phrase Phrase := do
  let text ← take 0 token?
  return .element text c.start

def adverbOf (c : RuleContext) : Arguments Phrase Phrase := do
  let value ← take 2 token?
  let name ← take 0 token?
  return .adverb ⟨name, value, c.start⟩

/-- Puts all phrases of a list together. -/
def gather {α : Type} (part? : Phrase → Option α) (whole : List α → Phrase) (_ : RuleContext) :
    Arguments Phrase Phrase := do
  let found ← takeAll part?
  return whole found

/-- The actions of the notation's grammar, each with the phrases that it takes. -/
def actions : Registry (Option Phrase) :=
  ⟨[("statements", applied (gather statement? .statements)),
    ("start", applied start),
    ("default", applied default),
    ("discard", applied discard),
    ("lexeme_default", applied lexemeDefault),
    ("structural", applied structural),
    ("lexical", applied lexical),
    ("tiers", applied (gather alternatives? .tiers)),
    ("alternatives", applied (gather alternative? .alternatives)),
    ("alternative", applied alternativeOf),
    ("rhs", applied (gather item? .items)),
    ("item", applied single),
    ("quantified", applied quantified),
    ("spelled", applied spelled),
    ("adverbs", applied (gather adverb? .adverbs)),
    ("adverb", applied adverbOf)]⟩

/-! ### The same phrases -/

theorem mirrors_gather {α : Type} (part? : Phrase → Option α) (whole : List α → Phrase) :
    Mirrors Meaningful (applied (gather part? whole)) fun _ => Phrase.gather part? whole := by
  intro c parts hgood
  rw [applied_some]
  simp only [Phrase.gather] at hgood ⊢
  cases hfound : parts.mapM part? with
  | none =>
    rw [hfound] at hgood
    exact absurd rfl hgood
  | some found =>
    have htakes : takeAll part? parts = some (found, []) := by
      rw [takeAll, hfound]
      rfl
    have hgather : (gather part? whole c).run' parts = some (whole found) := by
      show Option.map Prod.fst (takeAll part? parts >>= fun x => some (whole x.1, x.2)) = _
      rw [htakes]
      rfl
    exact hgather

/-- An action makes a phrase of lists of one shape only. -/
theorem mirrors_of_eq {f : RuleContext → Arguments Phrase Phrase}
    {g : RuleContext → List Phrase → Phrase}
    (h : ∀ c parts, g c parts = .nothing ∨ (f c).run' parts = some (g c parts)) :
    Mirrors Meaningful (applied f) g := by
  intro c parts hgood
  rw [applied_some]
  exact (h c parts).resolve_left hgood

/-- Strict actions make the same phrases, if these have a meaning. -/
theorem mirrors : actions.Mirrors Phrase.actions Meaningful := by
  refine .cons ⟨rfl, mirrors_gather _ _⟩ <|
    .cons ⟨rfl, mirrors_of_eq (g := Phrase.start) fun c parts => ?start⟩ <|
    .cons ⟨rfl, mirrors_of_eq (g := Phrase.default) fun c parts => ?default⟩ <|
    .cons ⟨rfl, mirrors_of_eq (g := Phrase.discard) fun c parts => ?discard⟩ <|
    .cons ⟨rfl, mirrors_of_eq (g := Phrase.lexemeDefault) fun c parts => ?lexemeDefault⟩ <|
    .cons ⟨rfl, mirrors_of_eq (g := Phrase.structural) fun c parts => ?structural⟩ <|
    .cons ⟨rfl, mirrors_of_eq (g := Phrase.lexical) fun c parts => ?lexical⟩ <|
    .cons ⟨rfl, mirrors_gather _ _⟩ <|
    .cons ⟨rfl, mirrors_gather _ _⟩ <|
    .cons ⟨rfl, mirrors_of_eq (g := Phrase.alternativeOf) fun c parts => ?alternative⟩ <|
    .cons ⟨rfl, mirrors_gather _ _⟩ <|
    .cons ⟨rfl, mirrors_of_eq (g := fun _ => Phrase.single) fun c parts => ?item⟩ <|
    .cons ⟨rfl, mirrors_of_eq (g := fun _ => Phrase.quantified) fun c parts => ?quantified⟩ <|
    .cons ⟨rfl, mirrors_of_eq (g := Phrase.spelled) fun c parts => ?spelled⟩ <|
    .cons ⟨rfl, mirrors_gather _ _⟩ <|
    .cons ⟨rfl, mirrors_of_eq (g := Phrase.adverbOf) fun c parts => ?adverb⟩ .nil
  case start => unfold Phrase.start; split; exacts [Or.inr rfl, Or.inl rfl]
  case default => unfold Phrase.default; split; exacts [Or.inr rfl, Or.inl rfl]
  case discard => unfold Phrase.discard; split; exacts [Or.inr rfl, Or.inl rfl]
  case lexemeDefault => unfold Phrase.lexemeDefault; split; exacts [Or.inr rfl, Or.inl rfl]
  case structural => unfold Phrase.structural; split; exacts [Or.inr rfl, Or.inl rfl]
  case lexical => unfold Phrase.lexical; split; exacts [Or.inr rfl, Or.inl rfl]
  case alternative => unfold Phrase.alternativeOf; split; exacts [Or.inr rfl, Or.inl rfl]
  case item => unfold Phrase.single; split; exacts [Or.inr rfl, Or.inl rfl]
  case quantified => unfold Phrase.quantified; split; exacts [Or.inr rfl, Or.inl rfl]
  case spelled => unfold Phrase.spelled; split; exacts [Or.inr rfl, Or.inl rfl]
  case adverb => unfold Phrase.adverbOf; split; exacts [Or.inr rfl, Or.inl rfl]

end Strict

end Phrase

/-! ### Meanings -/

namespace GrammarText

open Text

theorem Written.meaningful {α : Type} {part : α → Prop} {phrase : α → Phrase}
    {words : α → List String} {p : Phrase} {ws : List String} (h : Written part phrase words p ws)
    (hphrase : ∀ x, phrase x ≠ .nothing) : p.Meaningful := by
  obtain ⟨x, -, rfl, -⟩ := h
  exact hphrase x

/-- A phrase of a notion has a meaning. -/
theorem Says.meaningful {n : Notion} {p : Phrase} {ws : List String} (h : Says n p ws) :
    p.Meaningful := by
  cases n with
  | symbol | element =>
    obtain ⟨offset, h⟩ := h
    exact h.meaningful nofun
  | listed s => exact h.elim
  | whole s => cases s <;> exact Written.meaningful h nofun
  | _ => exact Written.meaningful h nofun

/-- So has the phrase that a symbol of a notion hands up. -/
theorem Means.meaningful {n : Notion} {p : Phrase} {ws : List String} (h : Means n [p] ws) :
    p.Meaningful := by
  cases n with
  | listed s =>
    obtain ⟨-, wss, hparts, -⟩ := h
    cases hparts with
    | cons hp _ => exact hp.meaningful
  | _ =>
    obtain ⟨q, hq, hp⟩ := h
    obtain rfl := List.singleton_inj.mp hq
    exact hp.meaningful

variable {r : Recognition}

/-- The trees over the tokens that were read come to the phrases of their notions. -/
theorem Conforms.explains_lattice (h : Conforms r.grammar) (hr : r.Ended) :
    r.Explains r.lattice Phrase.actions (fun s => Means (notion r.grammar s)) where
  token i s j _ hj := by
    obtain ⟨hstart, -, hs, hcovers⟩ := hr.lexeme_of_token h.longestMatch hj
    rw [hstart]
    exact h.means_of_matches hs hcovers.matches_between
  rule := h.explains.rule

/-- Rules come to the same phrases with strict actions. -/
theorem carries_strict (r : Recognition) :
    r.Carries some Phrase.actions Phrase.Strict.actions (fun s => Means (notion r.grammar s)) where
  token _ := rfl
  rule _ _ _ _ _ _ _ _ _ _ hvalue hmeans :=
    Phrase.Strict.mirrors.applyRule_eq hvalue hmeans.meaningful

end GrammarText

end Scannerless
