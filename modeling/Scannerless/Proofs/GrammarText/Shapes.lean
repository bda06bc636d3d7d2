import Scannerless.Proofs.GrammarText.Tokens

/-!
# The shapes of tokens

A token of the notation is either plain, without blanks in it and without a number sign, or it is
enclosed by two characters of which the second one ends it where it stands first. So no token goes
on behind another one that a blank, a comment or nothing follows.

## Main definitions

- `afterStop` — what is behind the character that ends a text.
- `IsPlain`, `IsEnclosed`, `IsToken` — the shapes of tokens.
- `StartsGap` — what may follow a token.
- `Opens` — a text begins as an enclosed token, which ends without a gap.

## Main statements

- `IsToken.prefix_of_append_eq` — the token that a gap follows is the longest one.
- `GrammarText.isToken_bareName` and so on — the tokens of the notation have one of the shapes.
-/

namespace Scannerless

open Text

/-- What is behind the first character that ends a text. A backslash protects the character
    behind it if it escapes. -/
def afterStop (stop : Char) (escapes : Bool) : List Char → Option (List Char)
  | [] => none
  | [c] => if c = stop then some [] else none
  | c :: d :: cs =>
    if c = stop then some (d :: cs)
    else if escapes && c == '\\' then afterStop stop escapes cs
    else afterStop stop escapes (d :: cs)

theorem afterStop_stop (stop : Char) (escapes : Bool) (rest : List Char) :
    afterStop stop escapes (stop :: rest) = some rest := by
  cases rest <;> simp [afterStop]

theorem afterStop_cons {stop c : Char} {escapes : Bool} (hc : c ≠ stop)
    (hescapes : (escapes && c == '\\') = false) (rest : List Char) :
    afterStop stop escapes (c :: rest) = afterStop stop escapes rest := by
  cases rest with
  | nil => simp [afterStop, hc]
  | cons d rest => rw [afterStop, if_neg hc, hescapes, if_neg Bool.false_ne_true]

theorem afterStop_unit {stop : Char} {u : List Char} (hstop : stop ≠ '\\')
    (hu : GrammarText.IsUnit stop u) (rest : List Char) :
    afterStop stop true (u ++ rest) = afterStop stop true rest := by
  rcases hu with ⟨c, rfl, hc, hbackslash, -⟩ | ⟨c, rfl, -⟩
  · exact afterStop_cons hc (by simpa using hbackslash) rest
  · simp [afterStop, hstop.symm]

theorem afterStop_units {stop : Char} {units : List (List Char)} (hstop : stop ≠ '\\')
    (hunits : ∀ u ∈ units, GrammarText.IsUnit stop u) (rest : List Char) :
    afterStop stop true (units.flatten ++ stop :: rest) = some rest := by
  induction units with
  | nil => exact afterStop_stop stop true rest
  | cons u units ih =>
    rw [List.forall_mem_cons] at hunits
    rw [List.flatten_cons, List.append_assoc, afterStop_unit hstop hunits.1, ih hunits.2]

theorem afterStop_others {stop : Char} {body : List Char} (hbody : ∀ c ∈ body, c ≠ stop)
    (rest : List Char) : afterStop stop false (body ++ stop :: rest) = some rest := by
  induction body with
  | nil => exact afterStop_stop stop false rest
  | cons c body ih =>
    rw [List.forall_mem_cons] at hbody
    rw [List.cons_append, afterStop_cons hbody.1 rfl, ih hbody.2]

/-- The characters that enclose tokens, and whether backslashes escape what ends them. -/
def enclosures : List (Char × Char × Bool) :=
  [('<', '>', false), ('\'', '\'', true), ('"', '"', true), ('[', ']', true)]

/-- A token that ends where the character that is to end it stands first. -/
def IsEnclosed (w : List Char) : Prop :=
  ∃ start stop escapes body, (start, stop, escapes) ∈ enclosures ∧ w = start :: body ++ [stop] ∧
    ∀ rest, afterStop stop escapes (body ++ stop :: rest) = some rest

/-- A token without blanks and number signs that does not begin as an enclosed one. -/
def IsPlain (w : List Char) : Prop :=
  ∃ c cs, w = c :: cs ∧ (∀ d ∈ w, isBlank d = false ∧ d ≠ '#') ∧ c ∉ enclosures.map Prod.fst

def IsToken (w : List Char) : Prop :=
  IsPlain w ∨ IsEnclosed w

/-- What follows a token: nothing, a blank or a comment. -/
def StartsGap (rest : List Char) : Prop :=
  ∀ c ∈ rest.head?, isBlank c = true ∨ c = '#'

/-- A token begins with a character that begins no gap. -/
theorem IsToken.exists_cons {w : List Char} (h : IsToken w) :
    ∃ c cs, w = c :: cs ∧ isBlank c = false ∧ c ≠ '#' := by
  rcases h with ⟨c, cs, rfl, hall, -⟩ | ⟨start, stop, escapes, body, hmem, rfl, -⟩
  · exact ⟨c, cs, rfl, hall c List.mem_cons_self⟩
  · refine ⟨start, body ++ [stop], rfl, ?_⟩
    have hstarts : ∀ e ∈ enclosures, isBlank e.1 = false ∧ e.1 ≠ '#' := by decide
    exact hstarts _ hmem

/-- What has a property up to its end ends before what does not begin with it. -/
theorem prefix_of_forall {P : Char → Prop} {a b rest rest' : List Char}
    (h : a ++ rest = b ++ rest') (hb : ∀ c ∈ b, P c) (hrest : ∀ c ∈ rest.head?, ¬P c) :
    b <+: a := by
  have hprefix : b <+: a ++ rest := h ▸ List.prefix_append b rest'
  rcases Nat.le_total b.length a.length with hle | hle
  · exact List.prefix_of_prefix_length_le hprefix (List.prefix_append a rest) hle
  obtain ⟨more, rfl⟩ := List.prefix_of_prefix_length_le (List.prefix_append a rest) hprefix hle
  rw [List.append_assoc, List.append_cancel_left_eq] at h
  cases more with
  | nil => rw [List.append_nil]
  | cons c more => exact absurd (hb c (by simp)) (hrest c (by rw [h]; rfl))

/-- A text that begins as an enclosed token. -/
def Opens (w : List Char) : Prop :=
  ∃ c ∈ w.head?, c ∈ enclosures.map Prod.fst

theorem IsEnclosed.opens {w : List Char} (h : IsEnclosed w) : Opens w := by
  obtain ⟨start, stop, escapes, body, hmem, rfl, -⟩ := h
  exact ⟨start, rfl, List.mem_map_of_mem hmem⟩

theorem Opens.append {w : List Char} (h : Opens w) (rest : List Char) : Opens (w ++ rest) := by
  obtain ⟨c, hc, hmem⟩ := h
  obtain ⟨cs, rfl⟩ := List.head?_eq_some_iff.mp hc
  exact ⟨c, rfl, hmem⟩

theorem IsPlain.not_opens {w : List Char} (h : IsPlain w) (rest : List Char) :
    ¬Opens (w ++ rest) := by
  obtain ⟨c, cs, rfl, -, hc⟩ := h
  rintro ⟨d, hd, hmem⟩
  obtain rfl := Option.some_inj.mp hd
  exact hc hmem

/-- Of two enclosed tokens none goes further than the other: both end where the character that
    ends them stands first. -/
theorem IsEnclosed.eq_of_append_eq {w w' rest rest' : List Char} (hw : IsEnclosed w)
    (hw' : IsEnclosed w') (h : w ++ rest = w' ++ rest') : w' = w := by
  obtain ⟨start, stop, escapes, body, hmem, rfl, hafter⟩ := hw
  obtain ⟨start', stop', escapes', body', hmem', rfl, hafter'⟩ := hw'
  simp only [List.cons_append, List.append_assoc, List.nil_append] at h
  obtain ⟨rfl, hbodies⟩ := List.cons.inj h
  have hsame : ∀ e ∈ enclosures, ∀ e' ∈ enclosures, e.1 = e'.1 → e = e' := by decide
  obtain ⟨rfl, rfl⟩ : stop = stop' ∧ escapes = escapes' := by
    simpa using hsame _ hmem _ hmem' rfl
  have hrest := hafter rest
  rw [hbodies, hafter' rest'] at hrest
  obtain rfl := Option.some_inj.mp hrest
  rw [List.append_left_inj _ |>.mp hbodies]

/-- No token begins with a token that a gap follows, except for that token itself. An enclosed
    token ends without a gap. -/
theorem IsToken.prefix_of_append_eq {w w' rest rest' : List Char} (hw : IsToken w)
    (hw' : IsToken w') (hend : StartsGap rest ∨ Opens w) (h : w ++ rest = w' ++ rest') :
    w' <+: w := by
  rcases hw' with hplain | henclosed
  · have hnot : ¬Opens w := fun hopens => hplain.not_opens rest' (h ▸ hopens.append rest)
    obtain ⟨-, -, -, hall, -⟩ := hplain
    refine prefix_of_forall h hall fun c hc hplain => ?_
    rcases hend.resolve_right hnot c hc with hblank | hsign
    · rw [hplain.1] at hblank
      cases hblank
    · exact hplain.2 hsign
  · have hw : IsEnclosed w := hw.resolve_left fun hplain =>
      hplain.not_opens rest (h ▸ henclosed.opens.append rest')
    rw [hw.eq_of_append_eq henclosed h]

/-! ### The tokens of the notation -/

namespace GrammarText

variable {text : List Char}

/-- The characters of ASCII that can be seen, but not the number sign. -/
def IsVisible (c : Char) : Prop :=
  33 ≤ c.toNat ∧ c.toNat ≤ 126 ∧ c ≠ '#'

instance (c : Char) : Decidable (IsVisible c) :=
  inferInstanceAs (Decidable (_ ∧ _ ∧ _))

theorem IsVisible.isBlank_eq_false {c : Char} (h : IsVisible c) : isBlank c = false := by
  obtain ⟨hlow, hhigh, -⟩ := h
  simp [isBlank, inRanges, blankRanges]
  omega

theorem isVisible_of_isAlphanum {c : Char} (h : c.isAlphanum = true) : IsVisible c := by
  have hbounds : 48 ≤ c.toNat ∧ c.toNat ≤ 122 := by
    delta Char.isAlphanum Char.isAlpha Char.isUpper Char.isLower Char.isDigit at h
    simp only [Bool.or_eq_true, Bool.and_eq_true, decide_eq_true_eq, UInt32.le_iff_toNat_le,
      ge_iff_le] at h
    have hval : c.val.toNat = c.toNat := rfl
    simp at h
    omega
  refine ⟨by omega, by omega, ?_⟩
  rintro rfl
  exact absurd hbounds.1 (by decide)

theorem isVisible_of_isLower {c : Char} (h : c.isLower = true) : IsVisible c :=
  isVisible_of_isAlphanum (by simp [Char.isAlphanum, isAlpha_eq, h])

/-- A text that can be seen and does not begin as an enclosed token. -/
theorem isPlain_of_visible {w : List Char} (h : ∀ d ∈ w, IsVisible d)
    (hstart : ∃ c ∈ w.head?, c ∉ enclosures.map Prod.fst) : IsPlain w := by
  obtain ⟨c, hc, hfst⟩ := hstart
  obtain ⟨cs, rfl⟩ := List.head?_eq_some_iff.mp hc
  exact ⟨c, cs, rfl, fun d hd => ⟨(h d hd).isBlank_eq_false, (h d hd).2.2⟩, hfst⟩

/-- A letter or a digit encloses no token. -/
theorem not_mem_enclosures {c : Char} (h : c.isAlphanum = true) :
    c ∉ enclosures.map Prod.fst := by
  have hnone : ∀ e ∈ enclosures, e.1.isAlphanum = false := by decide
  intro hc
  obtain ⟨e, he, rfl⟩ := List.mem_map.mp hc
  rw [hnone e he] at h
  cases h

theorem isToken_bareName (h : text ∈ language "bare_name") : IsToken text := by
  obtain ⟨c, cs, rfl, hc, hcs⟩ := mem_bareName_iff.mp h
  have hvisible {d : Char} (hd : (d.isAlphanum || d == '_') = true) : IsVisible d := by
    rcases Bool.or_eq_true_iff.mp hd with hd | hd
    · exact isVisible_of_isAlphanum hd
    · obtain rfl := eq_of_beq hd
      decide
  have hfirst : (c.isAlphanum || c == '_') = true := by
    rcases Bool.or_eq_true_iff.mp hc with hc | hc
    · simp [Char.isAlphanum, hc]
    · simp [hc]
  refine Or.inl (isPlain_of_visible (List.forall_mem_cons.mpr
    ⟨hvisible hfirst, fun d hd => hvisible (hcs d hd)⟩) ⟨c, rfl, ?_⟩)
  rcases Bool.or_eq_true_iff.mp hfirst with hc | hc
  · exact not_mem_enclosures hc
  · obtain rfl := eq_of_beq hc
    decide

theorem isToken_builtinAction (h : text ∈ language "builtin_action") : IsToken text := by
  obtain ⟨body, rfl, -, hall⟩ := mem_builtinAction_iff.mp h
  refine Or.inl (isPlain_of_visible ?_ ⟨':', rfl, by decide⟩)
  simp only [List.forall_mem_cons]
  exact ⟨by decide, by decide, fun d hd => isVisible_of_isLower (hall d hd)⟩

theorem isToken_integer (h : text ∈ language "integer") : IsToken text := by
  obtain ⟨sign, digits, rfl, hsign, hne, hall⟩ := mem_integer_iff.mp h
  have halphanum {d : Char} (hd : d ∈ digits) : d.isAlphanum = true := by
    simp [Char.isAlphanum, hall d hd]
  have hdigits : ∀ d ∈ digits, IsVisible d := fun d hd => isVisible_of_isAlphanum (halphanum hd)
  refine Or.inl ?_
  rcases hsign with rfl | rfl
  · obtain ⟨d, digits, rfl⟩ := List.exists_cons_of_ne_nil hne
    exact isPlain_of_visible hdigits ⟨d, rfl, not_mem_enclosures (halphanum List.mem_cons_self)⟩
  · exact isPlain_of_visible (List.forall_mem_cons.mpr ⟨by decide, hdigits⟩)
      ⟨'-', rfl, by decide⟩

theorem isToken_quantifier (h : text ∈ language "quantifier") : IsToken text := by
  rcases mem_quantifier_iff.mp h with rfl | rfl | rfl
  all_goals exact Or.inl (isPlain_of_visible (List.forall_mem_singleton.mpr (by decide))
    ⟨_, rfl, by decide⟩)

theorem isToken_bracketedName (h : text ∈ language "bracketed_name") : IsToken text := by
  obtain ⟨body, rfl, -, hall⟩ := mem_bracketedName_iff.mp h
  exact Or.inr ⟨'<', '>', false, body, by decide, rfl, afterStop_others fun c hc => (hall c hc).1⟩

theorem isToken_literal (h : text ∈ language "literal") : IsToken text := by
  obtain ⟨q, hq, units, rfl, hunits⟩ := mem_literal_iff.mp h
  refine Or.inr ⟨q, q, true, units.flatten, ?_, rfl, fun rest => afterStop_units ?_ hunits rest⟩
  all_goals rcases hq with rfl | rfl <;> decide

theorem isToken_charClass (h : text ∈ language "char_class") : IsToken text := by
  obtain ⟨units, rfl, -, hunits⟩ := mem_charClass_iff.mp h
  exact Or.inr ⟨'[', ']', true, units.flatten, by decide, rfl,
    fun rest => afterStop_units (by decide) hunits rest⟩

end GrammarText

end Scannerless
