import Mathlib.Logic.Function.Basic
import Scannerless.Proofs.Text.EscapeForms
import Scannerless.Text.Quoted

/-!
# What escapes stand for

A literal that is written with escapes is read back as the text it was made from, and so is
a character in quotes. So different texts are spelled differently.

## Main definitions

- `Decodes` — some characters of a literal are read as one character.

## Main statements

- `hexNumber_hexDigits` — the digits of a number are read as that number.
- `unescape_escapeLiteral` — a literal is read back as its text.
- `quoteChar_injective` — different characters are quoted differently.
-/

namespace Scannerless.Text

/-! ### Digits to base sixteen -/

theorem hexDigitValue_digitChar {d : Nat} (h : d < 16) : hexDigitValue d.digitChar = d := by
  have hall : ∀ d < 16, hexDigitValue (Nat.digitChar d) = d := by decide
  exact hall d h

theorem isHexDigit_digitChar {d : Nat} (h : d < 16) : isHexDigit d.digitChar = true := by
  have hall : ∀ d < 16, isHexDigit (Nat.digitChar d) = true := by decide
  exact hall d h

theorem hexNumber_concat (ds : List Char) (c : Char) :
    hexNumber (ds ++ [c]) = 16 * hexNumber ds + hexDigitValue c := by
  simp [hexNumber]

/-- The digits of a number in front of the last one are those of its sixteenth part. -/
theorem hexDigits_of_le {n : Nat} (h : 16 ≤ n) :
    hexDigits n = hexDigits (n / 16) ++ [(n % 16).digitChar] :=
  Nat.toDigits_of_base_le (by decide) h

/-- The digits of a number are read as that number. -/
theorem hexNumber_hexDigits (n : Nat) : hexNumber (hexDigits n) = n := by
  induction n using Nat.strongRecOn with
  | ind n ih =>
    by_cases h : n < 16
    · rw [hexDigits, Nat.toDigits_of_lt_base h]
      simp [hexNumber, hexDigitValue_digitChar h]
    · have hpart : n / 16 < n := Nat.div_lt_self (by omega) (by decide)
      rw [hexDigits_of_le (by omega), hexNumber_concat, ih _ hpart,
        hexDigitValue_digitChar (Nat.mod_lt n (by decide))]
      omega

theorem isHexDigit_of_mem_hexDigits {n : Nat} {c : Char} (h : c ∈ hexDigits n) :
    isHexDigit c = true := by
  induction n using Nat.strongRecOn with
  | ind n ih =>
    by_cases hn : n < 16
    · rw [hexDigits, Nat.toDigits_of_lt_base hn, List.mem_singleton] at h
      rw [h]
      exact isHexDigit_digitChar hn
    · have hpart : n / 16 < n := Nat.div_lt_self (by omega) (by decide)
      rw [hexDigits_of_le (by omega), List.mem_append, List.mem_singleton] at h
      rcases h with h | rfl
      · exact ih _ hpart h
      · exact isHexDigit_digitChar (Nat.mod_lt n (by decide))

theorem length_hexDigits_le (c : Char) : (hexDigits c.toNat).length ≤ 6 := by
  rw [hexDigits, Nat.length_toDigits_le_iff (by decide) (by decide)]
  have hvalid : c.toNat.isValidChar := c.valid
  rw [Nat.isValidChar] at hvalid
  omega

/-! ### Escapes -/

theorem scalar?_toNat (c : Char) : scalar? c.toNat = some c := by
  have hvalid : c.toNat.isValidChar := c.valid
  rw [scalar?, if_pos hvalid, Char.ofNat_toNat]

/-- Some characters of a literal are read as one character, whatever comes after them. -/
def Decodes (written : List Char) (c : Char) : Prop :=
  ∀ total fuel rest, unescapeFrom total (fuel + 1) (written ++ rest) =
    (unescapeFrom total fuel rest).map (c :: ·)

theorem decodes_self {c : Char} (h : c ≠ '\\') : Decodes [c] c := by
  intro total fuel rest
  rw [List.singleton_append, unescapeFrom, if_neg (by simpa using h)]

/-- What stands behind a backslash for a character is read as that character. -/
theorem decodes_form {written : List Char} {c : Char} (h : Escape.Form written (.char c)) :
    Decodes ('\\' :: written) c := by
  intro total fuel rest
  rw [List.cons_append, unescapeFrom, if_pos (by rfl)]
  simp only [h.read]

/-- The code point of a character in braces stands for that character. -/
theorem form_codePoint (c : Char) :
    Escape.Form ('u' :: '{' :: (hexDigits c.toNat ++ ['}'])) (.char c) := by
  refine .codePoint (fun d => isHexDigit_of_mem_hexDigits) Nat.toDigits_ne_nil
    (length_hexDigits_le c) ?_
  rw [hexNumber_hexDigits, scalar?_toNat]

theorem decodes_escapeLiteralChar (c : Char) : Decodes (escapeLiteralChar c) c := by
  rw [escapeLiteralChar]
  split_ifs with htab hreturn hnewline hsymbol hprintable
  · obtain rfl := eq_of_beq htab
    exact decodes_form .tab
  · obtain rfl := eq_of_beq hreturn
    exact decodes_form .carriageReturn
  · obtain rfl := eq_of_beq hnewline
    exact decodes_form .newline
  · refine decodes_form (.symbol ?_)
    simp only [Bool.or_eq_true, beq_iff_eq] at hsymbol
    rcases hsymbol with (rfl | rfl) | rfl <;> decide
  · refine decodes_self ?_
    rintro rfl
    simp at hsymbol
  · exact decodes_form (form_codePoint c)

theorem decodes_quotedChar (c : Char) : Decodes (quotedChar '\'' c) c := by
  rw [quotedChar]
  split_ifs with hzero htab hreturn hnewline hsymbol hconcealed
  · obtain rfl := eq_of_beq hzero
    exact decodes_form .zero
  · obtain rfl := eq_of_beq htab
    exact decodes_form .tab
  · obtain rfl := eq_of_beq hreturn
    exact decodes_form .carriageReturn
  · obtain rfl := eq_of_beq hnewline
    exact decodes_form .newline
  · refine decodes_form (.symbol ?_)
    simp only [Bool.or_eq_true, beq_iff_eq] at hsymbol
    rcases hsymbol with rfl | rfl <;> decide
  · exact decodes_form (form_codePoint c)
  · refine decodes_self ?_
    rintro rfl
    simp at hsymbol

/-! ### Spellings of texts -/

theorem unescapeFrom_escapeLiteral (total : Nat) {fuel : Nat} {text : List Char}
    (h : text.length ≤ fuel) : unescapeFrom total fuel (escapeLiteral text) = .ok text := by
  induction text generalizing fuel with
  | nil => cases fuel <;> rfl
  | cons c text ih =>
    obtain ⟨fuel, rfl⟩ : ∃ n, fuel = n + 1 := ⟨fuel - 1, by rw [List.length_cons] at h; omega⟩
    have hrest : unescapeFrom total fuel (escapeLiteral text) = .ok text :=
      ih (by rw [List.length_cons] at h; omega)
    rw [escapeLiteral, List.flatMap_cons, decodes_escapeLiteralChar c, ← escapeLiteral, hrest]
    rfl

theorem length_le_escapeLiteral (text : List Char) :
    text.length ≤ (escapeLiteral text).length := by
  have hpos (c : Char) : 1 ≤ (escapeLiteralChar c).length := by
    rw [escapeLiteralChar]
    split_ifs <;> simp
  induction text with
  | nil => simp
  | cons c text ih =>
    have hc := hpos c
    rw [escapeLiteral, List.flatMap_cons, List.length_append, ← escapeLiteral, List.length_cons]
    omega

/-- A literal is read back as its text. -/
theorem unescape_escapeLiteral (text : List Char) : unescape (escapeLiteral text) = .ok text :=
  unescapeFrom_escapeLiteral _ (length_le_escapeLiteral text)

/-- Different texts are written as different literals. -/
theorem escapeLiteral_injective : Function.Injective escapeLiteral := by
  intro a b h
  have hab : (Except.ok a : Except EscapeError (List Char)) = .ok b := by
    rw [← unescape_escapeLiteral a, h, unescape_escapeLiteral]
  exact Except.ok.inj hab

/-- Different characters are quoted differently. -/
theorem quoteChar_injective : Function.Injective quoteChar := by
  intro a b h
  simp only [quoteChar, String.ofList_inj, List.append_cancel_right_eq,
    List.append_cancel_left_eq] at h
  have ha := decodes_quotedChar a 0 0 []
  have hb := decodes_quotedChar b 0 0 []
  rw [h, hb] at ha
  simpa [unescapeFrom, Except.map] using ha.symm

end Scannerless.Text
