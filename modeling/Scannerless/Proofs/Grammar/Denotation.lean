import Mathlib.Order.FixedPoints
import Scannerless.Proofs.Grammar.Lowering
import Scannerless.Proofs.Grammar.Yields

/-!
# What lexical definitions denote

A lexical definition denotes a language: a literal its text, a class its characters, a name
the language of that name, and quantifiers are option, star and plus of a whole item. The
languages of all names are the least ones that satisfy their definitions. The lexical rules
of a list of statements derive these languages, accepted or not, and so do the lexemes that are
made of terminals.

## Main definitions

- `Terminal.language`, `Element.language`, `RhsItem.language`, `Alternative.language` — what
  is written in a definition, given the languages of names.
- `declaredLanguage` — the union of the alternatives of a name.
- `lexicalLanguage` — the languages of all names.
- `Draft.Denotes` — the language of a symbol of lexical rules.

## Main statements

- `lexicalLanguage_eq` — a name denotes the union of its alternatives.
- `Drafted.matches_iff` — a name derives what it denotes.
- `Drafted.matches_terminal_iff` — so does the lexeme of a terminal.
-/

namespace Scannerless

open scoped Computability

/-! ### Denotation -/

/-- The texts of one character of a class. -/
def CharClass.language (cls : CharClass) : Language Char :=
  {text | ∃ c, cls.contains c = true ∧ text = [c]}

/-- A literal denotes its text, a class the characters in it. -/
def Terminal.language : Terminal → Language Char
  | .literal text => {text}
  | .charClass cls => cls.language

/-- The occurrences of an item that a quantifier allows. -/
def Quantifier.language (q : Quantifier) (l : Language Char) : Language Char :=
  match q with
  | .one => l
  | .optional => l + 1
  | .star => l∗
  | .plus => l * l∗

section

variable (names : String → Language Char)

def Element.language : Element → Language Char
  | .name n => names n
  | .terminal t => t.language

def RhsItem.language (item : RhsItem) : Language Char :=
  match Element.decode item.element with
  | .ok e => item.quantifier.language (e.language names)
  | .error _ => 0

/-- An alternative denotes its items one behind the other. -/
def Alternative.language (alt : Alternative) : Language Char :=
  (alt.rhs.map (RhsItem.language names)).prod

/-- The union of the alternatives of a name in all statements. -/
def declaredLanguage (ss : List Statement) (name : String) : Language Char :=
  ((lexicalAlternatives ss name).map (Alternative.language names)).sum

end

section

variable {names names' : String → Language Char}

theorem Quantifier.language_mono (q : Quantifier) {l l' : Language Char} (h : l ≤ l') :
    q.language l ≤ q.language l' := by
  cases q with
  | one => exact h
  | optional => exact add_le_add h le_rfl
  | star => exact kstar_mono h
  | plus => exact mul_le_mul' h (kstar_mono h)

theorem Element.language_mono (h : names ≤ names') (e : Element) :
    e.language names ≤ e.language names' := by
  cases e with
  | name name => exact h name
  | terminal t => exact le_rfl

theorem RhsItem.language_mono (h : names ≤ names') (item : RhsItem) :
    item.language names ≤ item.language names' := by
  rw [RhsItem.language, RhsItem.language]
  split
  next e _ => exact item.quantifier.language_mono (e.language_mono h)
  next => exact le_rfl

theorem Alternative.language_mono (h : names ≤ names') (alt : Alternative) :
    alt.language names ≤ alt.language names' := by
  rw [Alternative.language, Alternative.language]
  induction alt.rhs with
  | nil => exact le_rfl
  | cons item items ih =>
    rw [List.map_cons, List.map_cons, List.prod_cons, List.prod_cons]
    exact mul_le_mul' (item.language_mono h) ih

theorem declaredLanguage_mono (ss : List Statement) :
    Monotone fun names => declaredLanguage names ss := by
  intro names names' h name
  simp only [declaredLanguage]
  induction lexicalAlternatives ss name with
  | nil => exact le_rfl
  | cons alt alternatives ih =>
    rw [List.map_cons, List.map_cons, List.sum_cons, List.sum_cons]
    exact add_le_add (alt.language_mono h) ih

theorem le_declaredLanguage {ss : List Statement} {name : String} {alt : Alternative}
    (h : alt ∈ lexicalAlternatives ss name) :
    alt.language names ≤ declaredLanguage names ss name := by
  rw [declaredLanguage]
  generalize lexicalAlternatives ss name = alternatives at h
  induction alternatives with
  | nil => cases h
  | cons x alternatives ih =>
    rw [List.map_cons, List.sum_cons]
    rcases List.mem_cons.mp h with rfl | h
    · exact le_self_add
    · exact (ih h).trans le_add_self

theorem declaredLanguage_le {ss : List Statement} {name : String} {l : Language Char}
    (h : ∀ alt ∈ lexicalAlternatives ss name, alt.language names ≤ l) :
    declaredLanguage names ss name ≤ l := by
  rw [declaredLanguage]
  generalize lexicalAlternatives ss name = alternatives at h
  induction alternatives with
  | nil => exact bot_le
  | cons x alternatives ih =>
    rw [List.forall_mem_cons] at h
    rw [List.map_cons, List.sum_cons]
    exact add_le h.1 (ih h.2)

end

/-- The languages of all names: the least ones that have, for each name, what its alternatives
    denote. -/
noncomputable def lexicalLanguage (ss : List Statement) : String → Language Char :=
  OrderHom.lfp ⟨fun names => declaredLanguage names ss, declaredLanguage_mono ss⟩

/-- A name denotes the union of its alternatives. -/
theorem lexicalLanguage_eq (ss : List Statement) (name : String) :
    lexicalLanguage ss name = declaredLanguage (lexicalLanguage ss) ss name :=
  (congrFun (OrderHom.map_lfp ⟨fun names => declaredLanguage names ss,
    declaredLanguage_mono ss⟩) name).symm

/-- Languages that have what the alternatives of all names denote have what the names
    denote. -/
theorem lexicalLanguage_le {ss : List Statement} {names : String → Language Char}
    (h : ∀ name, declaredLanguage names ss name ≤ names name) : lexicalLanguage ss ≤ names :=
  OrderHom.lfp_le ⟨fun names => declaredLanguage names ss, declaredLanguage_mono ss⟩ h

/-! ### The languages of symbols -/

theorem CharClass.mem_language {cls : CharClass} {text : List Char} :
    text ∈ cls.language ↔ ∃ c, cls.contains c = true ∧ text = [c] :=
  Iff.rfl

theorem CharClass.language_single (c : Char) : (single c).language = {[c]} := by
  ext text
  rw [mem_language]
  simp only [contains_single, beq_iff_eq]
  constructor
  · rintro ⟨_, rfl, rfl⟩
    exact Set.mem_singleton _
  · intro h
    exact ⟨c, rfl, h⟩

/-- A terminal denotes its characters one behind the other. -/
theorem Terminal.prod_classes (t : Terminal) :
    (t.classes.map CharClass.language).prod = t.language := by
  cases t with
  | charClass cls => simp [classes, language]
  | literal text =>
    simp only [classes, language, List.map_map]
    induction text with
    | nil => rfl
    | cons c text ih =>
      rw [List.map_cons, List.prod_cons, ih, Function.comp_apply, CharClass.language_single]
      ext w
      rw [Language.mem_mul]
      constructor
      · rintro ⟨_, rfl, _, rfl, rfl⟩
        rfl
      · rintro rfl
        exact ⟨[c], rfl, text, rfl, rfl⟩

namespace Draft

variable {o : Outline} {d : Draft} {names : String → Language Char} {s : SymbolId}

/-- The language of a symbol of lexical rules, given the languages of names. -/
inductive Denotes (o : Outline) (d : Draft) (names : String → Language Char) :
    SymbolId → Language Char → Prop where
  | character {cls : CharClass} {s : SymbolId} (h : d.IsCharacter cls s) :
      Denotes o d names s cls.language
  | name {n : String} {s : SymbolId} (h : o.lexicalId? n = some s) :
      Denotes o d names s (names n)
  | repeated {q : Quantifier} {e : Element} {body : List SymbolId} {s : SymbolId}
      (hq : q ≠ .one) (hbody : d.Body o e body) (h : d.Repeats o q body s) :
      Denotes o d names s (q.language (e.language names))
  | terminal {t : Terminal} {s : SymbolId} (h : d.IsTerminal t s) :
      Denotes o d names s t.language

theorem denotes_classes {classes : List CharClass} {ss : List SymbolId}
    (h : List.Forall₂ d.IsCharacter classes ss) :
    List.Forall₂ (d.Denotes o names) ss (classes.map CharClass.language) := by
  induction h with
  | nil => exact .nil
  | cons hs _ ih => exact .cons (.character hs) ih

variable (names) in
theorem Body.denotes {e : Element} {body : List SymbolId} (h : d.Body o e body) :
    ∃ Ls, List.Forall₂ (d.Denotes o names) body Ls ∧ Ls.prod = e.language names := by
  cases h with
  | terminal hchars => exact ⟨_, denotes_classes hchars, Terminal.prod_classes _⟩
  | name hid => exact ⟨[names _], .cons (.name hid) .nil, List.prod_singleton⟩

variable (names) in
theorem Part.denotes {item : RhsItem} {ss : List SymbolId} (h : d.Part o item ss) :
    ∃ Ls, List.Forall₂ (d.Denotes o names) ss Ls ∧ Ls.prod = item.language names := by
  cases h with
  | one hq hbody =>
    obtain ⟨e, he, hbody⟩ := hbody
    obtain ⟨Ls, hLs, hprod⟩ := hbody.denotes names
    exact ⟨Ls, hLs, by simp only [hprod, RhsItem.language, he, hq, Quantifier.language]⟩
  | repeated hq hbody hs =>
    obtain ⟨e, he, hbody⟩ := hbody
    refine ⟨[_], .cons (.repeated hq hbody hs) .nil, ?_⟩
    simp only [List.prod_singleton, RhsItem.language, he]

variable (names) in
theorem AlternativeRule.denotes {alt : Alternative} {r : Rule}
    (h : d.AlternativeRule o alt r) :
    ∃ Ls, List.Forall₂ (d.Denotes o names) r.rhs Ls ∧ Ls.prod = alt.language names := by
  obtain ⟨parts, hparts, hrhs⟩ := h
  rw [hrhs, Alternative.language]
  clear hrhs
  generalize alt.rhs = items at hparts
  induction hparts with
  | nil => exact ⟨[], .nil, rfl⟩
  | cons hpart _ ih =>
    obtain ⟨Ls, hLs, hprod⟩ := ih
    obtain ⟨Ms, hMs, hprod'⟩ := hpart.denotes names
    refine ⟨Ms ++ Ls, List.rel_append hMs hLs, ?_⟩
    rw [List.prod_append, hprod', hprod, List.map_cons, List.prod_cons]

/-- The rules of an element with a quantifier make up no more than its occurrences. -/
theorem Repeats.prod_le {q : Quantifier} {e : Element} {body rhs : List SymbolId} (hq : q ≠ .one)
    (hbody : d.Body o e body) (h : d.Repeats o q body s) (hrhs : rhs ∈ q.alternatives s body) :
    ∃ Ls, List.Forall₂ (d.Denotes o names) rhs Ls ∧
      Ls.prod ≤ q.language (e.language names) := by
  obtain ⟨Ls, hLs, hprod⟩ := hbody.denotes names
  have hself : d.Denotes o names s (q.language (e.language names)) := .repeated hq hbody h
  cases q with
  | one => exact absurd rfl hq
  | optional =>
    simp only [Quantifier.alternatives, List.mem_cons, List.not_mem_nil, or_false] at hrhs
    rcases hrhs with rfl | rfl
    · exact ⟨Ls, hLs, hprod.le.trans le_self_add⟩
    · exact ⟨[], .nil, le_add_self⟩
  | star =>
    simp only [Quantifier.alternatives, List.mem_cons, List.not_mem_nil, or_false] at hrhs
    rcases hrhs with rfl | rfl
    · exact ⟨[], .nil, one_le_kstar⟩
    · refine ⟨_, .cons hself hLs, ?_⟩
      rw [List.prod_cons, hprod]
      exact kstar_mul_le_kstar
  | plus =>
    simp only [Quantifier.alternatives, List.mem_cons, List.not_mem_nil, or_false] at hrhs
    rcases hrhs with rfl | rfl
    · refine ⟨Ls, hLs, ?_⟩
      rw [hprod, Quantifier.language]
      simpa using mul_le_mul' (le_refl (e.language names)) (one_le_kstar (a := e.language names))
    · refine ⟨_, .cons hself hLs, ?_⟩
      rw [List.prod_cons, hprod, Quantifier.language, mul_assoc]
      exact mul_le_mul' le_rfl kstar_mul_le_kstar

end Draft

/-! ### The languages of rules -/

namespace Drafted

variable {ss : List Statement} {g : Grammar} {o : Outline} {d : Draft}
  {names : String → Language Char} {name : String} {s : SymbolId}

theorem mem_rulesOf_of_lhs? (h : Drafted ss g o d) {id : RuleId}
    (hid : g.lexical.lhs? id = some s) : ∃ r ∈ d.rulesOf .lexical s, g.lexical.rhs id = r.rhs := by
  rw [h.tables.2.2.1] at hid ⊢
  rw [RuleTable.lhs?, Option.map_eq_some_iff] at hid
  obtain ⟨r, hr, rfl⟩ := hid
  refine ⟨r, ?_, RuleTable.rhs_of_rule? hr⟩
  rw [Draft.rulesOf, List.mem_filter]
  exact ⟨RuleTable.mem_rules_of_rule? hr, beq_self_eq_true r.lhs⟩

theorem exists_lhs?_of_mem_rulesOf (h : Drafted ss g o d) {r : Rule}
    (hr : r ∈ d.rulesOf .lexical s) :
    ∃ id, g.lexical.lhs? id = some s ∧ g.lexical.rhs id = r.rhs := by
  rw [Draft.rulesOf, List.mem_filter] at hr
  obtain ⟨hmem, hlhs⟩ := hr
  obtain ⟨id, hid⟩ := List.mem_iff_getElem?.mp hmem
  have hrule : (RuleTable.ofRules d.lexical d.symbols.size).rule? id = some r := by
    simpa [RuleTable.rule?, RuleTable.ofRules, Draft.rules, Level.pick] using hid
  rw [h.tables.2.2.1]
  refine ⟨id, ?_, RuleTable.rhs_of_rule? hrule⟩
  rw [RuleTable.lhs?_of_rule? hrule, eq_of_beq hlhs]

theorem charClass?_eq (h : Drafted ss g o d) {cls : CharClass} (hs : d.IsCharacter cls s) :
    g.charClass? s = some cls := by
  rw [Grammar.charClass?, h.tables.1, hs]

/-- A symbol with lexical rules does not stand for a character. -/
theorem not_accepts_of_mem_rulesOf (h : Drafted ss g o d) {r : Rule}
    (hr : r ∈ d.rulesOf .lexical s) (c : Char) : ¬g.Accepts s c := by
  rintro ⟨cls, hcls, -⟩
  obtain ⟨id, hid, -⟩ := h.exists_lhs?_of_mem_rulesOf hr
  have hrules := h.lexicon.indexed.hasRules_of_lhs hid
  rw [h.lexicon.chars s cls hcls] at hrules
  cases hrules

theorem not_accepts_of_lexicalId? (h : Drafted ss g o d) (hs : o.lexicalId? name = some s)
    (c : Char) : ¬g.Accepts s c := by
  rintro ⟨cls, hcls, -⟩
  obtain ⟨i, offset, hi, rfl⟩ := Outline.lexicalId?_eq_some hs
  obtain ⟨k, hk, hkind⟩ := h.orderly.lexicalName i _ hi
  rw [Grammar.charClass?, h.tables.1, hk] at hcls
  rcases hkind with rfl | rfl <;> cases hcls

/-- What the rules derive is bounded by the denotation. -/
theorem bounds (h : Drafted ss g o d) : g.Bounds (d.Denotes o (lexicalLanguage ss)) where
  character s L c hs haccepts := by
    cases hs with
    | character hchar =>
      obtain ⟨cls, hcls, hcontains⟩ := haccepts
      obtain rfl := Option.some.inj ((h.charClass?_eq hchar).symm.trans hcls)
      exact ⟨c, hcontains, rfl⟩
    | name hid => exact absurd haccepts (h.not_accepts_of_lexicalId? hid c)
    | @repeated q e body _ hq hbody hrepeats =>
      obtain ⟨-, -, hrules⟩ := hrepeats
      obtain ⟨r, hr⟩ : ∃ r, r ∈ d.rulesOf .lexical s := by
        refine List.exists_mem_of_ne_nil _ fun hnil => ?_
        rw [hnil] at hrules
        cases q <;> simp [Quantifier.alternatives] at hrules
      exact absurd haccepts (h.not_accepts_of_mem_rulesOf hr c)
    | terminal hterminal =>
      obtain ⟨-, rhs, -, hrules⟩ := hterminal
      exact absurd haccepts (h.not_accepts_of_mem_rulesOf (by simp [hrules]; rfl) c)
  rule id s L hs hid := by
    obtain ⟨r, hr, hrhs⟩ := h.mem_rulesOf_of_lhs? hid
    rw [hrhs]
    cases hs with
    | character hchar =>
      have hrules := h.lexicon.indexed.hasRules_of_lhs hid
      rw [h.lexicon.chars s _ (h.charClass?_eq hchar)] at hrules
      cases hrules
    | @name n _ hname =>
      obtain ⟨alt, halt, hrule⟩ : ∃ alt ∈ lexicalAlternatives ss n, d.AlternativeRule o alt r :=
        exists_mem_of_forall₂ (h.lexical hname).flip hr
      obtain ⟨Ls, hLs, hprod⟩ := hrule.denotes (lexicalLanguage ss)
      refine ⟨Ls, hLs, ?_⟩
      rw [hprod, lexicalLanguage_eq]
      exact le_declaredLanguage halt
    | repeated hq hbody hrepeats =>
      refine hrepeats.prod_le hq hbody ?_
      rw [← hrepeats.2.2]
      exact List.mem_map_of_mem hr
    | terminal hterminal =>
      obtain ⟨-, rhs, hchars, hrules⟩ := hterminal
      rw [hrules, List.mem_singleton] at hr
      rw [hr]
      exact ⟨_, Draft.denotes_classes hchars, (Terminal.prod_classes _).le⟩

/-- A rule of a symbol derives no more than the symbol. -/
theorem yield_rhs_le (h : Drafted ss g o d) {r : Rule} (hr : r ∈ d.rulesOf .lexical s) :
    g.yield r.rhs ≤ g.yield [s] := by
  obtain ⟨id, hid, hrhs⟩ := h.exists_lhs?_of_mem_rulesOf hr
  rw [← hrhs]
  exact Grammar.yield_rhs_le hid

theorem character_le_yield (h : Drafted ss g o d) {cls : CharClass} (hs : d.IsCharacter cls s) :
    cls.language ≤ g.yield [s] := by
  rintro text ⟨c, hcontains, rfl⟩
  exact ⟨[s], .refl, .cons ⟨cls, h.charClass?_eq hs, hcontains⟩ .nil⟩

theorem classes_le_yield (h : Drafted ss g o d) {t : Terminal} {rhs : List SymbolId}
    (hchars : List.Forall₂ d.IsCharacter t.classes rhs) : t.language ≤ g.yield rhs := by
  rw [← Terminal.prod_classes]
  refine Grammar.prod_le_yield ?_
  generalize t.classes = classes at hchars
  induction hchars with
  | nil => exact .nil
  | cons hs _ ih => exact .cons (h.character_le_yield hs) ih

theorem terminal_le_yield (h : Drafted ss g o d) {t : Terminal} (hs : d.IsTerminal t s) :
    t.language ≤ g.yield [s] := by
  obtain ⟨-, rhs, hchars, hrules⟩ := hs
  have hrule := h.yield_rhs_le (s := s) (r := Draft.terminalRule t s rhs) (by simp [hrules])
  exact (h.classes_le_yield hchars).trans hrule

variable (hnames : ∀ n id, o.lexicalId? n = some id → names n ≤ g.yield [id])
include hnames

theorem body_le_yield (h : Drafted ss g o d) {e : Element} {body : List SymbolId}
    (hbody : d.Body o e body) : e.language names ≤ g.yield body := by
  cases hbody with
  | terminal hchars => exact h.classes_le_yield hchars
  | name hid => exact hnames _ _ hid

/-- The rules of an element with a quantifier derive all of its occurrences. -/
theorem repeated_le_yield (h : Drafted ss g o d) {q : Quantifier} {e : Element}
    {body : List SymbolId} (hq : q ≠ .one) (hbody : d.Body o e body)
    (hs : d.Repeats o q body s) : q.language (e.language names) ≤ g.yield [s] := by
  have hrhs {rhs : List SymbolId} (hmem : rhs ∈ q.alternatives s body) :
      g.yield rhs ≤ g.yield [s] := by
    rw [← hs.2.2] at hmem
    obtain ⟨r, hr, rfl⟩ := List.mem_map.mp hmem
    exact h.yield_rhs_le hr
  have hfirst := h.body_le_yield hnames hbody
  have hnext : g.yield [s] * e.language names ≤ g.yield (s :: body) := by
    rw [Grammar.yield_cons s body]
    exact mul_le_mul' le_rfl hfirst
  cases q with
  | one => exact absurd rfl hq
  | optional =>
    refine add_le (hfirst.trans (hrhs (by simp [Quantifier.alternatives]))) ?_
    rw [← Grammar.yield_nil]
    exact hrhs (by simp [Quantifier.alternatives])
  | star =>
    refine kstar_le_of_mul_le_left ?_ (hnext.trans (hrhs (by simp [Quantifier.alternatives])))
    rw [← Grammar.yield_nil]
    exact hrhs (by simp [Quantifier.alternatives])
  | plus =>
    exact mul_kstar_le (hfirst.trans (hrhs (by simp [Quantifier.alternatives])))
      (hnext.trans (hrhs (by simp [Quantifier.alternatives])))

theorem denotes_le_yield (h : Drafted ss g o d) {L : Language Char}
    (hs : d.Denotes o names s L) : L ≤ g.yield [s] := by
  cases hs with
  | character hchar => exact h.character_le_yield hchar
  | name hid => exact hnames _ _ hid
  | repeated hq hbody hrepeats => exact h.repeated_le_yield hnames hq hbody hrepeats
  | terminal hterminal => exact h.terminal_le_yield hterminal

omit hnames

/-- Names derive all that they denote: what they derive satisfies their definitions. -/
theorem lexicalLanguage_le_yield (h : Drafted ss g o d) (hs : o.lexicalId? name = some s) :
    lexicalLanguage ss name ≤ g.yield [s] := by
  let derived : String → Language Char := fun n =>
    (o.lexicalId? n).elim 0 fun id => g.yield [id]
  have hderived (n : String) (id : SymbolId) (hid : o.lexicalId? n = some id) :
      derived n ≤ g.yield [id] := by
    simp only [derived, hid, Option.elim_some, le_refl]
  have hle : lexicalLanguage ss ≤ derived := by
    refine lexicalLanguage_le fun n => declaredLanguage_le fun alt halt => ?_
    obtain ⟨id, hid⟩ : ∃ id, o.lexicalId? n = some id := by
      rw [← Outline.isLexical_iff, (Outline.lists_of_ofStatements h.outline).lexical]
      obtain ⟨x, hx, halt⟩ := List.mem_flatMap.mp halt
      exact ⟨x, hx, Statement.lexicalName?_of_mem halt⟩
    obtain ⟨r, hr, hrule⟩ := exists_mem_of_forall₂ (h.lexical hid) halt
    obtain ⟨Ls, hLs, hprod⟩ := hrule.denotes derived
    have hrhs : alt.language derived ≤ g.yield r.rhs := by
      rw [← hprod]
      exact Grammar.prod_le_yield (hLs.imp fun _ _ => h.denotes_le_yield hderived)
    have hown : g.yield [id] ≤ derived n := by
      simp only [derived, hid, Option.elim_some, le_refl]
    exact (hrhs.trans (h.yield_rhs_le hr)).trans hown
  exact (hle name).trans (hderived name s hs)

/-- A name derives what it denotes. -/
theorem matches_iff (h : Drafted ss g o d) (hs : o.lexicalId? name = some s)
    (text : List Char) : g.Matches s text ↔ text ∈ lexicalLanguage ss name := by
  rw [Grammar.matches_iff_mem_yield]
  constructor
  · intro hmem
    have hle := h.bounds.yield_le (.cons (.name hs) .nil)
    rw [List.prod_singleton] at hle
    exact hle hmem
  · exact fun hmem => h.lexicalLanguage_le_yield hs hmem

/-- The lexeme of a terminal derives what the terminal denotes. -/
theorem matches_terminal_iff (h : Drafted ss g o d) {t : Terminal} (hs : d.IsTerminal t s)
    (text : List Char) : g.Matches s text ↔ text ∈ t.language := by
  rw [Grammar.matches_iff_mem_yield]
  constructor
  · intro hmem
    have hle := h.bounds.yield_le (.cons (.terminal hs) .nil)
    rw [List.prod_singleton] at hle
    exact hle hmem
  · exact fun hmem => h.terminal_le_yield hs hmem

end Drafted

end Scannerless
