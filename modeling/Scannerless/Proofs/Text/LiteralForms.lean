import Scannerless.Proofs.Outcomes
import Scannerless.Proofs.Text.Escape

/-!
# The forms of literals

What the body of a literal may be, and which text it stands for. Its characters are written one
behind the other, as themselves or behind a backslash. Decoding a body accepts these forms and
nothing else. It stops at the first backslash that no escape of a character follows, and tells the
place behind that.

## Main definitions

- `LiteralBody` — a body stands for a text.
- `BadEscape` — no escape of a character stands at the front of a text.

## Main statements

- `exists_literalBody` — a body has a form up to its end or up to a bad escape.
- `unescape_eq_ok_iff` — what is decoded.
- `unescape_eq_error_iff` — where decoding fails.
-/

namespace Scannerless.Text

/-- The body of a literal, and the text that it stands for: characters other than the backslash
    stand for themselves, and escapes for the character that they name. -/
inductive LiteralBody : List Char → List Char → Prop where
  | nil : LiteralBody [] []
  | plain {c : Char} {body text : List Char} (h : c ≠ '\\') (hbody : LiteralBody body text) :
      LiteralBody (c :: body) (c :: text)
  | escaped {written body text : List Char} {c : Char} (h : Escape.Form written (.char c))
      (hbody : LiteralBody body text) : LiteralBody ('\\' :: (written ++ body)) (c :: text)

/-- No escape of a character stands at the front of a text. -/
def BadEscape (cs : List Char) : Prop :=
  ∀ written c rest, Escape.Form written (.char c) → cs ≠ written ++ rest

variable {body text before rest : List Char} {n : Nat}

/-- No character takes less than one to write. -/
theorem LiteralBody.length_le (h : LiteralBody body text) : text.length ≤ body.length := by
  induction h with
  | nil => exact Nat.le_refl 0
  | plain _ _ ih => exact Nat.succ_le_succ ih
  | escaped _ _ ih =>
    simp only [List.length_cons, List.length_append]
    omega

/-- A body that goes on with something else is decoded up to there. -/
theorem LiteralBody.unescapeFrom_append (h : LiteralBody body text) (total fuel : Nat)
    (rest : List Char) :
    unescapeFrom total (fuel + text.length) (body ++ rest) =
      (unescapeFrom total fuel rest).map (text ++ ·) := by
  have hmap (c : Char) (cs : List Char) (x : Except EscapeError (List Char)) :
      (x.map (cs ++ ·)).map (c :: ·) = x.map (c :: cs ++ ·) := by
    cases x <;> rfl
  induction h with
  | nil =>
    show unescapeFrom total fuel rest = (unescapeFrom total fuel rest).map ([] ++ ·)
    cases unescapeFrom total fuel rest <;> rfl
  | @plain c body text hc _ ih =>
    have hdecodes := decodes_self hc total (fuel + text.length) (body ++ rest)
    rw [ih, hmap] at hdecodes
    exact hdecodes
  | @escaped written body text c hform _ ih =>
    have hdecodes := decodes_form hform total (fuel + text.length) (body ++ rest)
    rw [ih, hmap, List.cons_append, ← List.append_assoc] at hdecodes
    exact hdecodes

/-- A bad escape is refused at the place behind its backslash. -/
theorem BadEscape.exists_error (h : BadEscape rest) (total fuel : Nat) :
    ∃ fault, unescapeFrom total (fuel + 1) ('\\' :: rest) =
      .error ⟨fault, total - rest.length⟩ := by
  rw [unescapeFrom, if_pos (by rfl)]
  simp only
  split
  next fault _ => exact ⟨fault, rfl⟩
  next letter _ => exact ⟨_, rfl⟩
  next c houtcome =>
    obtain ⟨written, hform, hrest⟩ := Escape.exists_form houtcome
    exact absurd hrest (h written c _ hform)

/-- A body has a form up to its end, or up to the first bad escape. -/
theorem exists_literalBody (cs : List Char) :
    (∃ text, LiteralBody cs text) ∨
      ∃ before rest text, cs = before ++ '\\' :: rest ∧ LiteralBody before text ∧
        BadEscape rest := by
  induction hlength : cs.length using Nat.strongRecOn generalizing cs with
  | ind n ih =>
    subst hlength
    cases cs with
    | nil => exact Or.inl ⟨[], .nil⟩
    | cons c cs =>
      by_cases hc : c = '\\'
      · subst hc
        by_cases hform : BadEscape cs
        · exact Or.inr ⟨[], cs, [], rfl, .nil, hform⟩
        · simp only [BadEscape, not_forall, not_not] at hform
          obtain ⟨written, c, rest, hform, rfl⟩ := hform
          have hshorter : rest.length < ('\\' :: (written ++ rest)).length := by
            simp only [List.length_cons, List.length_append]
            omega
          rcases ih _ hshorter rest rfl with ⟨text, htext⟩ | ⟨before, bad, text, rfl, htext, hbad⟩
          · exact Or.inl ⟨c :: text, .escaped hform htext⟩
          · exact Or.inr ⟨_, bad, _, by simp, .escaped hform htext, hbad⟩
      · rcases ih _ (Nat.lt_succ_self _) cs rfl with
          ⟨text, htext⟩ | ⟨before, bad, text, rfl, htext, hbad⟩
        · exact Or.inl ⟨c :: text, .plain hc htext⟩
        · exact Or.inr ⟨c :: before, bad, _, rfl, .plain hc htext, hbad⟩

/-- A form is decoded as the text that it stands for. -/
theorem LiteralBody.unescape_eq (h : LiteralBody body text) : unescape body = .ok text := by
  have hdecodes := h.unescapeFrom_append body.length (body.length - text.length) []
  rw [Nat.sub_add_cancel h.length_le, List.append_nil] at hdecodes
  have hnil (fuel : Nat) : unescapeFrom body.length fuel [] = .ok [] := by
    cases fuel <;> rfl
  rw [unescape, hdecodes, hnil, Except.map, List.append_nil]

/-- Behind a form a bad escape is refused. -/
theorem BadEscape.exists_unescape_eq (h : BadEscape rest) (hbefore : LiteralBody before text) :
    ∃ fault, unescape (before ++ '\\' :: rest) = .error ⟨fault, before.length + 1⟩ := by
  have hlength : (before ++ '\\' :: rest).length = before.length + 1 + rest.length := by
    simp only [List.length_append, List.length_cons]
    omega
  obtain ⟨fuel, hfuel⟩ : ∃ fuel, (before ++ '\\' :: rest).length = fuel + 1 + text.length := by
    have hle := hbefore.length_le
    exact ⟨(before ++ '\\' :: rest).length - text.length - 1, by omega⟩
  obtain ⟨fault, hfault⟩ := h.exists_error (before ++ '\\' :: rest).length fuel
  have hdecodes := hbefore.unescapeFrom_append (before ++ '\\' :: rest).length (fuel + 1)
    ('\\' :: rest)
  rw [hfault, ← hfuel] at hdecodes
  refine ⟨fault, hdecodes.trans ?_⟩
  rw [Except.map, hlength, Nat.add_sub_cancel]

/-- The text that is decoded is the one that the body stands for. -/
theorem unescape_eq_ok_iff : unescape body = .ok text ↔ LiteralBody body text := by
  constructor
  · intro h
    rcases exists_literalBody body with ⟨text', htext⟩ | ⟨before, rest, text', rfl, htext, hbad⟩
    · obtain rfl := Except.ok.inj (htext.unescape_eq.symm.trans h)
      exact htext
    · obtain ⟨fault, hfault⟩ := hbad.exists_unescape_eq htext
      cases hfault.symm.trans h
  · exact LiteralBody.unescape_eq

/-- Decoding fails at the place behind the backslash of the first bad escape. -/
theorem unescape_eq_error_iff :
    (∃ fault, unescape body = .error ⟨fault, n⟩) ↔
      ∃ before rest text, body = before ++ '\\' :: rest ∧ LiteralBody before text ∧
        BadEscape rest ∧ n = before.length + 1 := by
  constructor
  · rintro ⟨fault, h⟩
    rcases exists_literalBody body with ⟨text, htext⟩ | ⟨before, rest, text, rfl, htext, hbad⟩
    · cases htext.unescape_eq.symm.trans h
    · obtain ⟨fault', hfault⟩ := hbad.exists_unescape_eq htext
      have hn := congrArg EscapeError.offset (Except.error.inj (h.symm.trans hfault))
      exact ⟨before, rest, text, rfl, htext, hbad, hn⟩
  · rintro ⟨before, rest, text, rfl, htext, hbad, rfl⟩
    exact hbad.exists_unescape_eq htext

end Scannerless.Text
