import Scannerless.Element
import Scannerless.Proofs.Text.Escape

/-!
# Spellings of terminals

Characters and terminals are told apart by their spellings. Those that can be written are
the same if their spellings are.

## Main definitions

- `CharClass.Written`, `Terminal.Written` — what a spelling may stand for.

## Main statements

- `CharClass.Written.eq_of_spelling`, `Terminal.Written.eq_of_spelling` — a spelling stands
  for one class, and for one terminal.
-/

namespace Scannerless

open Text

namespace CharClass

/-- A class that can be written: a character of a literal, or a body in brackets. -/
inductive Written : CharClass → Prop where
  | single (c : Char) : Written (.single c)
  | parsed {body : List Char} {cls : CharClass} (h : parse body = .ok cls) : Written cls

theorem spelling_of_parse {body : List Char} {cls : CharClass} (h : parse body = .ok cls) :
    cls.spelling = "[" ++ String.ofList body ++ "]" := by
  unfold parse at h
  split at h
  split at h
  · cases h
  · cases h
  · cases h
    rfl

theorem toList_spelling_single (c : Char) :
    (single c).spelling.toList = '\'' :: (quotedChar '\'' c ++ ['\'']) := by
  simp [single, quoteChar]

theorem toList_spelling_of_parse {body : List Char} {cls : CharClass} (h : parse body = .ok cls) :
    cls.spelling.toList = '[' :: (body ++ [']']) := by
  rw [spelling_of_parse h]
  simp

/-- A character in quotes is not spelled as a body in brackets. -/
theorem spelling_single_ne {body : List Char} {c : Char} {cls : CharClass}
    (h : parse body = .ok cls) : (single c).spelling ≠ cls.spelling := by
  intro heq
  have hlist := congrArg String.toList heq
  rw [toList_spelling_single, toList_spelling_of_parse h, List.cons.injEq] at hlist
  exact absurd hlist.1 (by decide)

/-- A spelling stands for one class. -/
theorem Written.eq_of_spelling {a b : CharClass} (ha : a.Written) (hb : b.Written)
    (h : a.spelling = b.spelling) : a = b := by
  cases ha with
  | single c =>
    cases hb with
    | single d =>
      obtain rfl := quoteChar_injective h
      rfl
    | parsed hb => exact absurd h (spelling_single_ne hb)
  | parsed ha =>
    cases hb with
    | single d => exact absurd h.symm (spelling_single_ne ha)
    | parsed hb =>
      have hlist := congrArg String.toList h
      rw [toList_spelling_of_parse ha, toList_spelling_of_parse hb] at hlist
      obtain rfl := List.append_cancel_right (List.cons.inj hlist).2
      exact Except.ok.inj (ha.symm.trans hb)

end CharClass

namespace Element

theorem decodeLiteral_eq_ok {spelling : String} {body : List Char} {e : Element}
    (h : decodeLiteral spelling body = .ok e) :
    ∃ text, unescape body = .ok text ∧ text ≠ [] ∧ e = .terminal (.literal text) := by
  rw [decodeLiteral] at h
  split at h
  next => cases h
  next => cases h
  next text hne heq =>
    cases h
    exact ⟨text, heq, hne, rfl⟩

theorem decodeClass_eq_ok {spelling : String} {body : List Char} {e : Element}
    (h : decodeClass spelling body = .ok e) :
    ∃ cls, CharClass.parse body = .ok cls ∧ e = .terminal (.charClass cls) := by
  rw [decodeClass] at h
  split at h
  next => cases h
  next cls heq =>
    cases h
    exact ⟨cls, heq, rfl⟩

theorem decodeName_eq_ok {body : List Char} {e : Element} (h : decodeName body = .ok e) :
    ∃ name, e = .name name := by
  rw [decodeName] at h
  split at h
  · cases h
  · cases h
    exact ⟨_, rfl⟩

/-- A spelling of a terminal is a literal that is not empty or a class. -/
theorem decode_eq_terminal {raw : String} {t : Terminal} (h : decode raw = .ok (.terminal t)) :
    (∃ text, text ≠ [] ∧ t = .literal text) ∨
      ∃ body cls, CharClass.parse body = .ok cls ∧ t = .charClass cls := by
  rw [decode] at h
  split at h
  · obtain ⟨cls, hcls, heq⟩ := decodeClass_eq_ok h
    cases heq
    exact Or.inr ⟨_, cls, hcls, rfl⟩
  · split at h
    · obtain ⟨text, -, hne, heq⟩ := decodeLiteral_eq_ok h
      cases heq
      exact Or.inl ⟨text, hne, rfl⟩
    · split at h
      · obtain ⟨name, heq⟩ := decodeName_eq_ok h
        cases heq
      · split at h <;> cases h

end Element

namespace Terminal

/-- A terminal that can be written. -/
def Written (t : Terminal) : Prop :=
  ∃ raw, Element.decode raw = .ok (.terminal t)

theorem toList_spelling_literal (text : List Char) :
    (literal text).spelling.toList = '\'' :: (escapeLiteral text ++ ['\'']) := by
  simp [spelling]

theorem Written.classes {t : Terminal} (ht : t.Written) : ∀ cls ∈ t.classes, cls.Written := by
  obtain ⟨raw, hraw⟩ := ht
  rcases Element.decode_eq_terminal hraw with ⟨text, -, rfl⟩ | ⟨body, cls, hcls, rfl⟩
  · intro cls hmem
    obtain ⟨c, -, rfl⟩ := List.mem_map.mp hmem
    exact .single c
  · intro cls' hmem
    obtain rfl := List.mem_singleton.mp hmem
    exact .parsed hcls

/-- A spelling stands for one terminal. -/
theorem Written.eq_of_spelling {a b : Terminal} (ha : a.Written) (hb : b.Written)
    (h : a.spelling = b.spelling) : a = b := by
  obtain ⟨raw, ha⟩ := ha
  obtain ⟨raw', hb⟩ := hb
  rcases Element.decode_eq_terminal ha with ⟨text, -, rfl⟩ | ⟨body, cls, hcls, rfl⟩ <;>
    rcases Element.decode_eq_terminal hb with ⟨text', -, rfl⟩ | ⟨body', cls', hcls', rfl⟩
  · have hlist := congrArg String.toList h
    rw [toList_spelling_literal, toList_spelling_literal, List.cons.injEq,
      List.append_cancel_right_eq] at hlist
    rw [escapeLiteral_injective hlist.2]
  · have hlist := congrArg String.toList h
    rw [toList_spelling_literal, spelling, CharClass.toList_spelling_of_parse hcls',
      List.cons.injEq] at hlist
    exact absurd hlist.1 (by decide)
  · have hlist := congrArg String.toList h
    rw [toList_spelling_literal, spelling, CharClass.toList_spelling_of_parse hcls,
      List.cons.injEq] at hlist
    exact absurd hlist.1 (by decide)
  · rw [CharClass.Written.eq_of_spelling (.parsed hcls) (.parsed hcls') h]

end Terminal

end Scannerless
