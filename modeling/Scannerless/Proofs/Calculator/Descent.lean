import Scannerless.Proofs.Calculator.Expression

/-!
# Recursive descent

A parser for expressions with a function for each level: an atom, a power, a signed operand, a
product and a sum. It takes tokens from the front, looks at one token to decide, and never goes
back. A list of tokens is parsed if and only if a tree that is well shaped is written with it, and
the tree is the result.

## Main definitions

- `Calculator.Parsed` — an expression and the tokens behind it.
- `Calculator.atom`, `power`, `signed`, `product`, `sum` — the functions of the parser.
- `Calculator.parseTokens` — the tree of a list of tokens.

## Main statements

- `Calculator.parseTokens_eq_some_iff` — what is parsed is what trees are written with.
-/

namespace Scannerless.Calculator

/-- An expression that some tokens begin with, and the tokens behind it. -/
structure Parsed (ts : List Token) where
  expr : Expr
  rest : List Token
  shorter : rest.length < ts.length

/-- The operators of products. -/
def multiplicative? : Char → Option Operator
  | '*' => some .times
  | '/' => some .divide
  | '%' => some .modulo
  | _ => none

/-- The operators of sums. -/
def additive? : Char → Option Operator
  | '+' => some .plus
  | '-' => some .minus
  | _ => none

/-- Goes on from an expression with the operators of a level and their right operands, so that
    what is to the left of an operator is its left operand. -/
def chainFrom {ts : List Token} (operator? : Char → Option Operator)
    (operand : (us : List Token) → us.length < ts.length → Option (Parsed us)) (p : Parsed ts) :
    Option (Parsed ts) :=
  match hrest : p.rest with
  | .mark c :: us =>
    match operator? c with
    | some op =>
      have hus : us.length < p.rest.length := by simp [hrest]
      (operand us (Nat.lt_trans hus p.shorter)).bind fun b =>
        chainFrom operator? operand
          ⟨.binary op p.expr b.expr, b.rest, Nat.lt_trans b.shorter (Nat.lt_trans hus p.shorter)⟩
    | none => some p
  | _ => some p
termination_by p.rest.length
decreasing_by
  exact Nat.lt_trans b.shorter hus

mutual

/-- A number, an expression in parentheses, or a function with its argument. -/
def atom : (ts : List Token) → Option (Parsed ts)
  | .number text :: rest => some ⟨.number text, rest, by simp⟩
  | .mark '(' :: rest =>
    (closed rest).map fun p => ⟨.group p.expr, p.rest, Nat.lt_trans p.shorter (by simp)⟩
  | .name name :: .mark '(' :: rest =>
    have hlt : rest.length < rest.length + 2 := by omega
    (closed rest).map fun p => ⟨.call name p.expr, p.rest, Nat.lt_trans p.shorter hlt⟩
  | _ => none
termination_by ts => (ts.length, 0)

/-- An atom, and perhaps a power behind it that it is raised to. -/
def power (ts : List Token) : Option (Parsed ts) :=
  (atom ts).bind fun a =>
    match hrest : a.rest with
    | .mark '^' :: rest =>
      have hlt : rest.length < ts.length := by
        have := a.shorter
        rw [hrest, List.length_cons] at this
        omega
      (power rest).map fun b =>
        ⟨.binary .power a.expr b.expr, b.rest, Nat.lt_trans b.shorter hlt⟩
    | _ => some a
termination_by (ts.length, 1)

/-- A power with any number of signs in front. -/
def signed : (ts : List Token) → Option (Parsed ts)
  | .mark '-' :: rest =>
    (signed rest).map fun p => ⟨.negate p.expr, p.rest, Nat.lt_trans p.shorter (by simp)⟩
  | ts => power ts
termination_by ts => (ts.length, 2)

def product (ts : List Token) : Option (Parsed ts) :=
  (signed ts).bind (chainFrom multiplicative? fun us _ => signed us)
termination_by (ts.length, 3)

def sum (ts : List Token) : Option (Parsed ts) :=
  (product ts).bind (chainFrom additive? fun us _ => product us)
termination_by (ts.length, 4)

/-- A sum with a closing parenthesis behind it. -/
def closed (ts : List Token) : Option (Parsed ts) :=
  (sum ts).bind fun p =>
    match hrest : p.rest with
    | .mark ')' :: rest => some ⟨p.expr, rest, by
        have := p.shorter
        rw [hrest, List.length_cons] at this
        omega⟩
    | _ => none
termination_by (ts.length, 5)

end

/-- The tree of a list of tokens. -/
def parseTokens (ts : List Token) : Option Expr :=
  (sum ts).bind fun p => if p.rest.isEmpty then some p.expr else none

example : parseTokens [.number "1", .mark '-', .number "2", .mark '-', .number "3"] =
    some (.binary .minus (.binary .minus (.number "1") (.number "2")) (.number "3")) := by
  cbv

/-! ### One step of each function -/

/-- Some tokens do not go on with an operator up to some level. -/
def Stops (level : Nat) (ts : List Token) : Prop :=
  ∀ op : Operator, op.level ≤ level → ts.head? ≠ some (.mark op.mark)

theorem Stops.mono {level level' : Nat} {ts : List Token} (h : Stops level ts)
    (hle : level' ≤ level) : Stops level' ts :=
  fun op hop => h op (Nat.le_trans hop hle)

theorem stops_of_head {ts : List Token} {t : Token} (h : ts.head? = some t)
    (ht : ∀ op : Operator, t ≠ .mark op.mark) (level : Nat) : Stops level ts := by
  intro op _ hop
  exact ht op (Option.some_inj.mp (h.symm.trans hop))

/-- A function makes an expression of some tokens, up to those behind it. -/
def Gives (f : (ts : List Token) → Option (Parsed ts)) (ts : List Token) (e : Expr)
    (rest : List Token) : Prop :=
  ∃ h, f ts = some ⟨e, rest, h⟩

section

variable {ts us rest : List Token} {e a b : Expr}

theorem gives_number (text : String) (rest : List Token) :
    Gives atom (.number text :: rest) (.number text) rest :=
  ⟨by simp, by rw [atom]⟩

theorem Gives.group (h : Gives closed ts e rest) :
    Gives atom (.mark '(' :: ts) (.group e) rest := by
  obtain ⟨hlt, h⟩ := h
  refine ⟨Nat.lt_trans hlt (by simp), ?_⟩
  rw [atom, h, Option.map_some]

theorem Gives.call (h : Gives closed ts e rest) (name : String) :
    Gives atom (.name name :: .mark '(' :: ts) (.call name e) rest := by
  obtain ⟨hlt, h⟩ := h
  refine ⟨by simp only [List.length_cons]; omega, ?_⟩
  rw [atom, h, Option.map_some]

/-- An atom is a power if none is to be raised to. -/
theorem Gives.power (h : Gives atom ts e rest) (hstops : Stops 1 rest) :
    Gives power ts e rest := by
  obtain ⟨hlt, h⟩ := h
  refine ⟨hlt, ?_⟩
  rw [Calculator.power, h, Option.bind_some]
  simp only
  split
  · exact absurd rfl (hstops .power (by decide))
  · rfl

theorem Gives.raise (h : Gives atom ts a (.mark '^' :: us))
    (h' : Gives Calculator.power us b rest) :
    Gives Calculator.power ts (.binary .power a b) rest := by
  obtain ⟨hlt, h⟩ := h
  obtain ⟨hlt', h'⟩ := h'
  rw [List.length_cons] at hlt
  refine ⟨by omega, ?_⟩
  rw [Calculator.power, h, Option.bind_some]
  simp only [h', Option.map_some]

/-- Without a sign in front there is a power only. -/
theorem Gives.signed (h : Gives Calculator.power ts e rest) (hsign : ts.head? ≠ some (.mark '-')) :
    Gives signed ts e rest := by
  obtain ⟨hlt, h⟩ := h
  refine ⟨hlt, ?_⟩
  rw [← h]
  unfold Calculator.signed
  split
  · exact absurd rfl hsign
  · rfl

theorem Gives.negate (h : Gives Calculator.signed ts e rest) :
    Gives Calculator.signed (.mark '-' :: ts) (.negate e) rest := by
  obtain ⟨hlt, h⟩ := h
  refine ⟨Nat.lt_trans hlt (by simp), ?_⟩
  rw [Calculator.signed, h, Option.map_some]

theorem Gives.closed (h : Gives sum ts e (.mark ')' :: rest)) : Gives closed ts e rest := by
  obtain ⟨hlt, h⟩ := h
  rw [List.length_cons] at hlt
  refine ⟨by omega, ?_⟩
  rw [Calculator.closed, h]
  rfl

end

/-! ### Chains -/

theorem multiplicative?_eq_some_iff {c : Char} {op : Operator} :
    multiplicative? c = some op ↔ op.level = 3 ∧ c = op.mark := by
  constructor
  · intro h
    unfold multiplicative? at h
    split at h <;> cases h <;> exact ⟨rfl, rfl⟩
  · rintro ⟨hlevel, rfl⟩
    cases op <;> first | rfl | cases hlevel

theorem additive?_eq_some_iff {c : Char} {op : Operator} :
    additive? c = some op ↔ op.level = 4 ∧ c = op.mark := by
  constructor
  · intro h
    unfold additive? at h
    split at h <;> cases h <;> exact ⟨rfl, rfl⟩
  · rintro ⟨hlevel, rfl⟩
    cases op <;> first | rfl | cases hlevel

/-- A chain of operators of a level: what the first operand begins goes on with more of them. -/
def Chains (operator? : Char → Option Operator) (operand chain : (ts : List Token) →
    Option (Parsed ts)) : Prop :=
  ∀ ts, chain ts = (operand ts).bind (chainFrom operator? fun us _ => operand us)

theorem chains_product : Chains multiplicative? signed product :=
  fun ts => by rw [product]

theorem chains_sum : Chains additive? product sum :=
  fun ts => by rw [sum]

/-- The tokens of a chain begin with an expression, and the chain goes on from it. -/
def Begins (operator? : Char → Option Operator) (operand chain : (ts : List Token) →
    Option (Parsed ts)) (ts : List Token) (e : Expr) (rest : List Token) : Prop :=
  ∃ h, chain ts = chainFrom operator? (fun us _ => operand us) ⟨e, rest, h⟩

section

variable {operator? : Char → Option Operator} {level : Nat} {ts us rest : List Token}
  {operand chain : (ts : List Token) → Option (Parsed ts)} {e a b : Expr} {op : Operator}

theorem Gives.begins (hchain : Chains operator? operand chain) (h : Gives operand ts e rest) :
    Begins operator? operand chain ts e rest := by
  obtain ⟨hlt, h⟩ := h
  exact ⟨hlt, by rw [hchain, h, Option.bind_some]⟩

/-- A chain ends where none of its operators follows. -/
theorem Begins.gives (h : Begins operator? operand chain ts e rest)
    (hoperator : ∀ c op, operator? c = some op → op.level = level ∧ c = op.mark)
    (hstops : Stops level rest) : Gives chain ts e rest := by
  obtain ⟨hlt, h⟩ := h
  refine ⟨hlt, ?_⟩
  rw [h, chainFrom]
  split
  next c us hus =>
    split
    next op hop =>
      obtain ⟨hlevel, rfl⟩ := hoperator c op hop
      simp only at hus
      exact absurd (by rw [hus]; rfl) (hstops op (Nat.le_of_eq hlevel))
    next => rfl
  next => rfl

/-- A chain goes on over an operator and its right operand. -/
theorem Begins.operator (h : Begins operator? operand chain ts a (.mark op.mark :: us))
    (hop : operator? op.mark = some op) (hb : Gives operand us b rest) :
    Begins operator? operand chain ts (.binary op a b) rest := by
  obtain ⟨hlt, h⟩ := h
  obtain ⟨hlt', hb⟩ := hb
  rw [List.length_cons] at hlt
  refine ⟨by omega, ?_⟩
  rw [h, chainFrom]
  simp only
  split
  next op' hop' =>
    rw [hop] at hop'
    obtain rfl := Option.some_inj.mp hop'
    rw [hb]
    rfl
  next hnone =>
    rw [hop] at hnone
    cases hnone

end

/-! ### Trees are parsed -/

/-- What the functions of all levels make of the tokens of an expression: those for atoms, powers
    and signed operands parse it, and those for products and sums go on from it. -/
structure Parses (e : Expr) : Prop where
  atom : e.level = 0 → ∀ rest, Gives Calculator.atom (e.tokens ++ rest) e rest
  power : e.level ≤ 1 → ∀ rest, Stops 1 rest → Gives Calculator.power (e.tokens ++ rest) e rest
  signed : e.level ≤ 2 → ∀ rest, Stops 1 rest → Gives Calculator.signed (e.tokens ++ rest) e rest
  product : e.level ≤ 3 → ∀ rest, Stops 1 rest →
    Begins multiplicative? Calculator.signed Calculator.product (e.tokens ++ rest) e rest
  sum : ∀ rest, Stops 3 rest →
    Begins additive? Calculator.product Calculator.sum (e.tokens ++ rest) e rest

namespace Parses

variable {e : Expr} {rest : List Token}

/-! From a level to the looser ones. -/

theorem of_sum (hlevel : e.level = 4) (h : ∀ rest, Stops 3 rest →
    Begins additive? Calculator.product Calculator.sum (e.tokens ++ rest) e rest) : Parses e where
  atom := by omega
  power := by omega
  signed := by omega
  product := by omega
  sum := h

theorem of_product (hlevel : e.level = 3) (h : ∀ rest, Stops 1 rest →
    Begins multiplicative? Calculator.signed Calculator.product (e.tokens ++ rest) e rest) :
    Parses e where
  atom := by omega
  power := by omega
  signed := by omega
  product _ := h
  sum rest hstops := Gives.begins chains_sum <| (h rest (hstops.mono (by decide))).gives
    (fun _ _ => multiplicative?_eq_some_iff.mp) hstops

theorem of_tight (hatom : e.level = 0 → ∀ rest, Gives Calculator.atom (e.tokens ++ rest) e rest)
    (hpower : e.level ≤ 1 → ∀ rest, Stops 1 rest →
      Gives Calculator.power (e.tokens ++ rest) e rest)
    (hsigned : ∀ rest, Stops 1 rest → Gives Calculator.signed (e.tokens ++ rest) e rest) :
    Parses e where
  atom := hatom
  power := hpower
  signed _ := hsigned
  product _ rest hstops := (hsigned rest hstops).begins chains_product
  sum rest hstops := Gives.begins chains_sum <|
    ((hsigned rest (hstops.mono (by decide))).begins chains_product).gives
      (fun _ _ => multiplicative?_eq_some_iff.mp) hstops

theorem of_signed (hlevel : e.level = 2)
    (h : ∀ rest, Stops 1 rest → Gives Calculator.signed (e.tokens ++ rest) e rest) : Parses e :=
  of_tight (by omega) (by omega) h

theorem of_power (hlevel : e.level = 1) (hsign : e.tokens.head? ≠ some (.mark '-'))
    (h : ∀ rest, Stops 1 rest → Gives Calculator.power (e.tokens ++ rest) e rest) : Parses e :=
  of_tight (by omega) (fun _ => h) fun rest hstops =>
    (h rest hstops).signed (by rwa [e.head?_tokens_append])

theorem of_atom (hsign : e.tokens.head? ≠ some (.mark '-'))
    (h : ∀ rest, Gives Calculator.atom (e.tokens ++ rest) e rest) : Parses e :=
  of_tight (fun _ => h) (fun _ rest hstops => (h rest).power hstops) fun rest hstops =>
    ((h rest).power hstops).signed (by rwa [e.head?_tokens_append])

theorem gives_product (h : Parses e) (hlevel : e.level ≤ 3) (hstops : Stops 3 rest) :
    Gives Calculator.product (e.tokens ++ rest) e rest :=
  (h.product hlevel rest (hstops.mono (by decide))).gives
    (fun _ _ => multiplicative?_eq_some_iff.mp) hstops

theorem gives_sum (h : Parses e) (hstops : Stops 4 rest) :
    Gives Calculator.sum (e.tokens ++ rest) e rest :=
  (h.sum rest (hstops.mono (by decide))).gives (fun _ _ => additive?_eq_some_iff.mp) hstops

theorem gives_closed (h : Parses e) (rest : List Token) :
    Gives closed (e.tokens ++ .mark ')' :: rest) e rest :=
  Gives.closed (h.gives_sum (stops_of_head rfl (fun op => by cases op <;> decide) 4))

end Parses

/-- An operand that binds as tightly as a power does not begin with a sign. -/
theorem head?_ne_sign {e : Expr} (h : e.Shaped) (hlevel : e.level ≤ 1) :
    e.tokens.head? ≠ some (.mark '-') := by
  induction e with
  | binary op a b iha _ =>
    obtain ⟨⟨ha, hleft⟩, -⟩ := h
    have hpower : ∀ op : Operator, op.level ≤ 1 → op.left = 0 := by
      intro op
      cases op <;> decide
    rw [Expr.tokens, a.head?_tokens_append]
    exact iha ha (by rw [hpower op hlevel] at hleft; omega)
  | negate e =>
    rw [Expr.level] at hlevel
    omega
  | _ => simp [Expr.tokens]

/-- Behind an operator's left operand nothing goes on but the operator. -/
theorem stops_mark {op : Operator} {level : Nat} (h : level < op.level) (ts : List Token) :
    Stops level (.mark op.mark :: ts) := by
  intro op' hlevel hhead
  obtain rfl := Operator.mark_injective (Token.mark.inj (Option.some_inj.mp hhead))
  omega

/-- The tokens of a tree that is well shaped are parsed. -/
theorem Expr.Shaped.parses {e : Expr} (h : e.Shaped) : Parses e := by
  induction e with
  | number text => exact .of_atom (by simp [tokens]) fun rest => gives_number text rest
  | group e ih =>
    refine .of_atom (by simp [tokens]) fun rest => ?_
    simpa [tokens] using ((ih h).gives_closed rest).group
  | call name e ih =>
    refine .of_atom (by simp [tokens]) fun rest => ?_
    simpa [tokens] using ((ih h.2).gives_closed rest).call name
  | negate e ih => exact .of_signed rfl fun rest hstops => ((ih h.1).signed h.2 rest hstops).negate
  | binary op a b iha ihb =>
    have hsign := head?_ne_sign h
    obtain ⟨⟨ha, hleft⟩, hb, hright⟩ := h
    have ha := iha ha
    have hb := ihb hb
    have htokens (rest : List Token) : (binary op a b).tokens ++ rest =
        a.tokens ++ .mark op.mark :: (b.tokens ++ rest) := by
      simp [tokens]
    cases op with
    | power =>
      refine .of_power rfl (hsign (Nat.le_refl 1)) fun rest hstops => ?_
      rw [htokens]
      exact (ha.atom (Nat.le_zero.mp hleft) _).raise (hb.power hright rest hstops)
    | times | divide | modulo =>
      refine .of_product rfl fun rest hstops => ?_
      rw [htokens]
      exact (ha.product hleft _ (stops_mark (by decide) _)).operator rfl
        (hb.signed hright rest hstops)
    | plus | minus =>
      refine .of_sum rfl fun rest hstops => ?_
      rw [htokens]
      exact (ha.sum _ (stops_mark (by decide) _)).operator rfl (hb.gives_product hright hstops)

/-! ### What is parsed is a tree -/

/-- What is made of some tokens is well shaped up to a level, and is written with the tokens that
    were taken. -/
def Sound (level : Nat) {ts : List Token} (p : Parsed ts) : Prop :=
  p.expr.Shaped ∧ p.expr.level ≤ level ∧ ts = p.expr.tokens ++ p.rest

/-- Whatever a function makes of some tokens is sound. -/
def SoundAt (f : (ts : List Token) → Option (Parsed ts)) (level : Nat) (ts : List Token) : Prop :=
  ∀ p, f ts = some p → Sound level p

theorem eq_tokens_binary (op : Operator) {a b : Expr} {ts us rest : List Token}
    (hts : ts = a.tokens ++ .mark op.mark :: us) (hus : us = b.tokens ++ rest) :
    ts = (Expr.binary op a b).tokens ++ rest := by
  rw [hts, hus, Expr.tokens, List.append_assoc, List.cons_append]

theorem sound_chainFrom {ts : List Token} {operator? : Char → Option Operator} {level level' : Nat}
    {operand : (us : List Token) → us.length < ts.length → Option (Parsed us)}
    (hoperator : ∀ c op, operator? c = some op →
      c = op.mark ∧ op.level = level ∧ op.left = level ∧ op.right = level')
    (hoperand : ∀ us h q, us <:+ ts → operand us h = some q → Sound level' q) {p : Parsed ts}
    (hp : Sound level p) {q : Parsed ts} (hq : chainFrom operator? operand p = some q) :
    Sound level q := by
  fun_induction chainFrom operator? operand p with
  | case1 p c us hrest op hop hus ih =>
    obtain ⟨b, hb, hq⟩ := Option.bind_eq_some_iff.mp hq
    obtain ⟨rfl, hlevel, hleft, hright⟩ := hoperator c op hop
    obtain ⟨hshaped, hle, hts⟩ := hp
    have hsuffix : us <:+ ts := by
      rw [hts, hrest]
      exact (List.suffix_cons _ _).trans (List.suffix_append _ _)
    obtain ⟨hshaped', hle', hus'⟩ := hoperand us _ b hsuffix hb
    exact ih b ⟨⟨⟨hshaped, by omega⟩, hshaped', by omega⟩, Nat.le_of_eq hlevel,
      eq_tokens_binary op (hrest ▸ hts) hus'⟩ hq
  | case2 p c us hrest hop =>
    obtain rfl := Option.some_inj.mp hq
    exact hp
  | case3 p hrest =>
    obtain rfl := Option.some_inj.mp hq
    exact hp

/-- All functions are sound on some tokens. -/
structure SoundAll (ts : List Token) : Prop where
  signed : SoundAt Calculator.signed 2 ts
  power : SoundAt Calculator.power 1 ts
  product : SoundAt Calculator.product 3 ts
  closed : ∀ p, Calculator.closed ts = some p →
    p.expr.Shaped ∧ ts = p.expr.tokens ++ .mark ')' :: p.rest

theorem soundAt_atom {ts : List Token} (hts : ∀ t ∈ ts, t.Proper)
    (ih : ∀ us, us <:+ ts → us.length < ts.length → SoundAll us) : SoundAt atom 0 ts := by
  intro p hp
  unfold atom at hp
  split at hp
  next text rest =>
    obtain rfl := Option.some_inj.mp hp
    exact ⟨hts _ List.mem_cons_self, Nat.le_refl 0, rfl⟩
  next rest =>
    obtain ⟨q, hq, rfl⟩ := Option.map_eq_some_iff.mp hp
    obtain ⟨hshaped, hrest⟩ := (ih rest (List.suffix_cons _ _) (by simp)).closed q hq
    exact ⟨hshaped, Nat.le_refl 0, by simp [Expr.tokens, hrest]⟩
  next name rest =>
    obtain ⟨q, hq, rfl⟩ := Option.map_eq_some_iff.mp hp
    obtain ⟨hshaped, hrest⟩ := (ih rest ((List.suffix_cons _ _).trans (List.suffix_cons _ _))
      (by simp only [List.length_cons]; omega)).closed q hq
    exact ⟨⟨hts _ List.mem_cons_self, hshaped⟩, Nat.le_refl 0, by simp [Expr.tokens, hrest]⟩
  next => cases hp

theorem soundAt_power {ts : List Token} (hatom : SoundAt atom 0 ts)
    (ih : ∀ us, us <:+ ts → us.length < ts.length → SoundAll us) : SoundAt power 1 ts := by
  intro p hp
  rw [power] at hp
  obtain ⟨a, ha, hp⟩ := Option.bind_eq_some_iff.mp hp
  obtain ⟨hshaped, hlevel, hts⟩ := hatom a ha
  simp only at hp
  split at hp
  next rest hrest =>
    obtain ⟨b, hb, rfl⟩ := Option.map_eq_some_iff.mp hp
    rw [hrest] at hts
    have hsuffix : rest <:+ ts := by
      rw [hts]
      exact (List.suffix_cons _ _).trans (List.suffix_append _ _)
    have hlt : rest.length < ts.length := by
      have hlt := a.shorter
      rw [hrest, List.length_cons] at hlt
      omega
    obtain ⟨hshaped', hlevel', hus⟩ := (ih rest hsuffix hlt).power b hb
    exact ⟨⟨⟨hshaped, hlevel⟩, hshaped', hlevel'⟩, Nat.le_refl 1,
      eq_tokens_binary .power hts hus⟩
  next =>
    obtain rfl := Option.some_inj.mp hp
    exact ⟨hshaped, by omega, hts⟩

theorem soundAt_signed {ts : List Token} (hpower : SoundAt power 1 ts)
    (ih : ∀ us, us <:+ ts → us.length < ts.length → SoundAll us) : SoundAt signed 2 ts := by
  intro p hp
  unfold signed at hp
  split at hp
  next rest =>
    obtain ⟨q, hq, rfl⟩ := Option.map_eq_some_iff.mp hp
    obtain ⟨hshaped, hlevel, hrest⟩ := (ih rest (List.suffix_cons _ _) (by simp)).signed q hq
    exact ⟨⟨hshaped, hlevel⟩, Nat.le_refl 2, by rw [Expr.tokens, List.cons_append, ← hrest]⟩
  next =>
    obtain ⟨hshaped, hlevel, hts⟩ := hpower p hp
    exact ⟨hshaped, by omega, hts⟩

theorem soundAt_product {ts : List Token} (hsigned : SoundAt signed 2 ts)
    (ih : ∀ us, us <:+ ts → us.length < ts.length → SoundAll us) : SoundAt product 3 ts := by
  intro p hp
  rw [product] at hp
  obtain ⟨a, ha, hp⟩ := Option.bind_eq_some_iff.mp hp
  obtain ⟨hshaped, hlevel, hts⟩ := hsigned a ha
  refine sound_chainFrom (fun c op hop => ?_)
    (fun us hlt q hsuffix hq => (ih us hsuffix hlt).signed q hq) ⟨hshaped, by omega, hts⟩ hp
  obtain ⟨hloose, rfl⟩ := multiplicative?_eq_some_iff.mp hop
  have hoperands := op.operands_of_loose (by omega)
  exact ⟨rfl, hloose, by omega, by omega⟩

theorem soundAt_sum {ts : List Token} (hproduct : SoundAt product 3 ts)
    (ih : ∀ us, us <:+ ts → us.length < ts.length → SoundAll us) : SoundAt sum 4 ts := by
  intro p hp
  rw [sum] at hp
  obtain ⟨a, ha, hp⟩ := Option.bind_eq_some_iff.mp hp
  obtain ⟨hshaped, hlevel, hts⟩ := hproduct a ha
  refine sound_chainFrom (fun c op hop => ?_)
    (fun us hlt q hsuffix hq => (ih us hsuffix hlt).product q hq) ⟨hshaped, by omega, hts⟩ hp
  obtain ⟨hloose, rfl⟩ := additive?_eq_some_iff.mp hop
  have hoperands := op.operands_of_loose (by omega)
  exact ⟨rfl, hloose, by omega, by omega⟩

theorem sound_closed {ts : List Token} (hsum : SoundAt sum 4 ts) {p : Parsed ts}
    (hp : closed ts = some p) : p.expr.Shaped ∧ ts = p.expr.tokens ++ .mark ')' :: p.rest := by
  rw [closed] at hp
  obtain ⟨a, ha, hp⟩ := Option.bind_eq_some_iff.mp hp
  obtain ⟨hshaped, -, hts⟩ := hsum a ha
  split at hp
  next rest hrest =>
    obtain rfl := Option.some_inj.mp hp
    exact ⟨hshaped, hts.trans (congrArg (a.expr.tokens ++ ·) hrest)⟩
  next => cases hp

theorem soundAll_of_shorter {ts : List Token} (hts : ∀ t ∈ ts, t.Proper)
    (ih : ∀ us, us <:+ ts → us.length < ts.length → SoundAll us) :
    SoundAll ts ∧ SoundAt sum 4 ts := by
  have hpower := soundAt_power (soundAt_atom hts ih) ih
  have hsigned := soundAt_signed hpower ih
  have hproduct := soundAt_product hsigned ih
  have hsum := soundAt_sum hproduct ih
  exact ⟨⟨hsigned, hpower, hproduct, fun p => sound_closed hsum⟩, hsum⟩

/-- The induction is on the number of tokens: a function is sound if those that it calls are, and
    where these look at the same tokens they are for a tighter level. -/
theorem soundAll {ts : List Token} (hts : ∀ t ∈ ts, t.Proper) :
    SoundAll ts ∧ SoundAt sum 4 ts :=
  soundAll_of_shorter hts fun _ hus _ => (soundAll fun t ht => hts t (hus.mem ht)).1
termination_by ts.length

/-- A list of proper tokens is parsed if and only if it is what a well shaped tree is written
    with, and the tree is the result. -/
theorem parseTokens_eq_some_iff {ts : List Token} (hts : ∀ t ∈ ts, t.Proper) {e : Expr} :
    parseTokens ts = some e ↔ e.Shaped ∧ e.tokens = ts := by
  constructor
  · intro h
    obtain ⟨p, hp, h⟩ := Option.bind_eq_some_iff.mp h
    obtain ⟨hshaped, -, htokens⟩ := (soundAll hts).2 p hp
    split at h
    next hempty =>
      obtain rfl := Option.some_inj.mp h
      rw [List.isEmpty_iff.mp hempty, List.append_nil] at htokens
      exact ⟨hshaped, htokens.symm⟩
    next => cases h
  · rintro ⟨hshaped, rfl⟩
    have hstops : Stops 4 [] := fun op _ => by simp
    have hgives := hshaped.parses.gives_sum hstops
    rw [List.append_nil] at hgives
    obtain ⟨hlt, hsum⟩ := hgives
    rw [parseTokens, hsum]
    rfl

end Scannerless.Calculator
