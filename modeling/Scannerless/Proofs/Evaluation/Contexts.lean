import Scannerless.Proofs.Evaluation.Notes
import Scannerless.Proofs.Evaluation.Reductions
import Scannerless.Proofs.Recognition.Parts

/-!
# Where actions are applied

The context of an action spans what its rule matched: from the start of the first token below
the rule to the end of the last one, be they kept or dropped. So what is discarded between
tokens belongs to it, and what is discarded in front of the first one or behind the last one
does not. A rule over no tokens is at the place where it begins.

## Main definitions

- `Tree.tokens` — the spans of the tokens of a tree.
- `Lattice.Bounds` — the tokens that are read from one place to another.
- `Indexed.HasPlace` — an offset is no offset inside a character.

## Main statements

- `RuleTable.Reads.bounds` — the tokens of trees begin and end where the trees do.
- `context_spans` — the contexts of all actions of an evaluation.
-/

namespace Scannerless

open Text

/-! ### Tokens of a tree -/

namespace Tree

mutual

/-- The spans of the tokens of a tree, from left to right. Dropped ones are among them. -/
def tokens : Tree → List (Nat × Nat)
  | .token _ _ start stop => [(start, stop)]
  | .node _ _ _ children => tokensAll children

def tokensAll : List Tree → List (Nat × Nat)
  | [] => []
  | tree :: trees => tokens tree ++ tokensAll trees

end

theorem tokensAll_concat (ts : List Tree) (tree : Tree) :
    tokensAll (ts ++ [tree]) = tokensAll ts ++ tokens tree := by
  induction ts with
  | nil => rw [List.nil_append, tokensAll, tokensAll, tokensAll, List.append_nil, List.nil_append]
  | cons x ts ih => rw [List.cons_append, tokensAll, ih, tokensAll, List.append_assoc]

end Tree

namespace Lattice

variable {l : Lattice} {i j k : Nat} {spans others : List (Nat × Nat)}

/-- The spans of tokens that are read from one place to another: the first one begins where
    the text of tokens from the one place does, and the last one ends at the other. -/
structure Bounds (l : Lattice) (spans : List (Nat × Nat)) (i j : Nat) : Prop where
  le : i ≤ j
  eq_of_nil : spans = [] → i = j
  first : ∀ x, spans.head? = some x → x.1 = l.start i
  start_lt : spans ≠ [] → l.start i < j
  last : ∀ x, spans.getLast? = some x → x.2 = j

theorem Bounds.nil (i : Nat) : l.Bounds [] i i where
  le := Nat.le_refl i
  eq_of_nil _ := rfl
  first _ h := by cases h
  start_lt h := absurd rfl h
  last _ h := by cases h

theorem Bounds.token (hlt : k < j) (hstart : l.start k < j) : l.Bounds [(l.start k, j)] k j where
  le := hlt.le
  eq_of_nil h := by cases h
  first x h := by
    obtain rfl := Option.some.inj h
    rfl
  start_lt _ := hstart
  last x h := by
    obtain rfl := Option.some.inj h
    rfl

/-- If there are no tokens on one side of a place, the place is an end of the other side. -/
theorem Bounds.append (h : l.Bounds spans i k) (h' : l.Bounds others k j) :
    l.Bounds (spans ++ others) i j := by
  by_cases hspans : spans = []
  · obtain rfl := hspans
    obtain rfl := h.eq_of_nil rfl
    exact h'
  by_cases hothers : others = []
  · obtain rfl := hothers
    obtain rfl := h'.eq_of_nil rfl
    rwa [List.append_nil]
  exact
    { le := h.le.trans h'.le
      eq_of_nil := fun hnil => absurd (List.append_eq_nil_iff.mp hnil).1 hspans
      first := fun x hx => h.first x (by rwa [List.head?_append_of_ne_nil _ hspans] at hx)
      start_lt := fun _ => Nat.lt_of_lt_of_le (h.start_lt hspans) h'.le
      last := fun x hx => h'.last x (by rwa [List.getLast?_append_of_ne_nil _ hothers] at hx) }

end Lattice

/-- The tokens of trees begin and end where the trees do. -/
theorem RuleTable.Reads.bounds {t : RuleTable} {l : Lattice} {ss : List SymbolId} {i j : Nat}
    {ts : List Tree} (h : t.Reads l ss i j ts) (hl : l.Forward)
    (hstart : ∀ k s j, l.token k s j → l.start k < j) : l.Bounds (Tree.tokensAll ts) i j := by
  induction h with
  | nil i => exact .nil i
  | token _ _ hj ih =>
    rw [Tree.tokensAll_concat, Tree.tokens]
    exact ih.append (.token (hl hj) (hstart _ _ _ hj))
  | node _ _ _ ihss ihus =>
    rw [Tree.tokensAll_concat, Tree.tokens]
    exact ihss.append ihus

/-- The spans below trees are those of tokens. -/
theorem RuleTable.Reads.exists_token {t : RuleTable} {l : Lattice} {ss : List SymbolId} {i j : Nat}
    {ts : List Tree} (h : t.Reads l ss i j ts) {x : Nat × Nat} (hx : x ∈ Tree.tokensAll ts) :
    ∃ k s, l.token k s x.2 ∧ x.1 = l.start k := by
  induction h with
  | nil => simp [Tree.tokensAll] at hx
  | token _ _ hj ih =>
    rw [Tree.tokensAll_concat, Tree.tokens, List.mem_append, List.mem_singleton] at hx
    rcases hx with hx | rfl
    · exact ih hx
    · exact ⟨_, _, hj, rfl⟩
  | node _ _ _ ihss ihus =>
    rw [Tree.tokensAll_concat, Tree.tokens, List.mem_append] at hx
    exact hx.elim ihss ihus

/-! ### Places of an input -/

namespace Text.Indexed

variable {text : Indexed} {start stop : Nat}

/-- An offset is the start of a character or the end of the text. -/
def HasPlace (text : Indexed) (offset : Nat) : Prop :=
  ∃ before after, text.chars = before ++ after ∧ byteLength before = offset

theorem hasPlace_zero (text : Indexed) : text.HasPlace 0 :=
  ⟨[], text.chars, rfl, rfl⟩

theorem hasPlace_of_slice? {part : List Char} (h : slice? start stop text.chars = some part) :
    text.HasPlace start ∧ text.HasPlace stop := by
  obtain ⟨before, rest, hchars, rfl, rfl⟩ := slice?_eq_some_iff.mp h
  refine ⟨⟨before, part ++ rest, hchars, rfl⟩, ⟨before ++ part, rest, ?_, byteLength_append _ _⟩⟩
  rw [hchars, List.append_assoc]

/-- There is a text between two places. -/
theorem HasPlace.exists_slice? (h : text.HasPlace start) (h' : text.HasPlace stop)
    (hle : start ≤ stop) :
    ∃ part, slice? start stop text.chars = some part ∧
      text.between start stop = String.ofList part := by
  obtain ⟨before, after, hchars, rfl⟩ := h
  obtain ⟨before', after', hchars', rfl⟩ := h'
  obtain ⟨part, rfl⟩ : ∃ part, before' = before ++ part := by
    rcases List.append_eq_append_iff.mp (hchars.symm.trans hchars') with
      ⟨part, hpart, -⟩ | ⟨part, rfl, -⟩
    · exact ⟨part, hpart⟩
    · -- What is in front of the later place is no shorter.
      rw [byteLength_append] at hle
      have hnil : part = [] := Grammar.byteLength_eq_zero_iff.mp (by omega)
      exact ⟨[], by rw [hnil, List.append_nil, List.append_nil]⟩
  have hslice : slice? (byteLength before) (byteLength (before ++ part)) text.chars = some part :=
    slice?_eq_some_iff.mpr
      ⟨before, after', by rw [hchars', List.append_assoc], rfl, byteLength_append _ _⟩
  exact ⟨part, hslice, by rw [between_eq, Text.between, hslice, Option.getD_some]⟩

end Text.Indexed

/-! ### Contexts -/

namespace Recognition

variable {r : Recognition} {tree : Tree} {ref : ItemRef} {it : Item} {rule : Rule}
  {us : List Tree} {k j : Nat} {s : SymbolId}

/-- A token that was read has a text, which is not empty. -/
theorem Ended.slice?_of_token (hr : r.Ended) (h : r.lattice.token k s j) :
    r.lattice.start k < j ∧ ∃ part, slice? (r.lattice.start k) j r.input.chars = some part := by
  obtain ⟨-, hlt, part, hpart, -⟩ := Grammar.covers_of_mem_tokensAt hr.coherent.lexicon
    hr.coherent.expected_ne_char (lattice_token_iff.mp h)
  exact ⟨hlt, part, hpart⟩

/-- The rules of a chosen tree are read from and to places of the input. -/
theorem Ended.reads_of_appliesIn (hr : r.Ended) (hchosen : r.Chosen tree)
    (h : r.AppliesIn tree ref it rule us) :
    r.grammar.structural.Reads r.lattice rule.rhs it.origin ref.set us ∧
      r.input.HasPlace it.origin ∧ r.input.HasPlace ref.set := by
  obtain ⟨p, hreads, -⟩ := hr.exists_reads_of_chosen hchosen
  obtain ⟨-, hparts⟩ := hreads.of_hasPart r.input.hasPlace_zero fun k s m _ htoken => by
    obtain ⟨-, part, hslice⟩ := hr.slice?_of_token htoken
    exact (Indexed.hasPlace_of_slice? hslice).2
  obtain ⟨s, k, m, hpart, hk, hm⟩ :=
    hparts tree (List.mem_singleton_self _) _ h.kept.hasPart
  obtain ⟨rfl, rfl, hus⟩ := hpart.node_inv
  rw [RuleTable.rhs_of_rule? h.rule] at hus
  exact ⟨hus, hk, hm⟩

/-- A context spans the tokens below its rule, or is at the place of the rule if there are
    none. There is a text at its place. -/
structure Spanning (c : RuleContext) (input : List Char) (origin : Nat)
    (spans : List (Nat × Nat)) : Prop where
  start : ∀ x, spans.head? = some x → c.start = x.1
  stop : ∀ x, spans.getLast? = some x → c.stop = x.2
  empty : spans = [] → c.start = origin ∧ c.stop = origin
  le : c.start ≤ c.stop
  text : ∃ part, slice? c.start c.stop input = some part ∧ c.text = String.ofList part

/-- The start of a context is computed from what is remembered of the place where its rule
    begins. That is where the text of the first token begins, unless there is none. -/
theorem Ended.spanning (hr : r.Ended) (hchosen : r.Chosen tree)
    (h : r.AppliesIn tree ref it rule us) :
    Spanning (r.context ref it rule) r.input.chars it.origin (Tree.tokensAll us) := by
  obtain ⟨hreads, horigin, hset⟩ := hr.reads_of_appliesIn hchosen h
  have hbounds := hreads.bounds hr.forward fun k s j htoken => (hr.slice?_of_token htoken).1
  have hstart : (r.context ref it rule).start = min (r.lattice.start it.origin) ref.set := rfl
  have hstop : (r.context ref it rule).stop = ref.set := rfl
  cases htokens : Tree.tokensAll us with
  | nil =>
    have heq := hbounds.eq_of_nil htokens
    have hstart' : (r.context ref it rule).start = it.origin := by
      rw [hstart, ← heq]
      exact min_eq_right (hr.le_skip it.origin)
    refine ⟨by simp, by simp, fun _ => ⟨hstart', hstop.trans heq.symm⟩, ?_, ?_⟩
    · rw [hstart', hstop, heq]
    · rw [RuleContext.text, hstart', hstop, heq]
      exact hset.exists_slice? hset (Nat.le_refl _)
  | cons first rest =>
    have hlt := hbounds.start_lt (by simp [htokens])
    have hstart' : (r.context ref it rule).start = r.lattice.start it.origin := by
      rw [hstart]
      exact min_eq_left hlt.le
    have hfirst := hbounds.first first (by rw [htokens, List.head?_cons])
    obtain ⟨k, s, htoken, hbegin⟩ :=
      hreads.exists_token (x := first) (by rw [htokens]; exact List.mem_cons_self)
    obtain ⟨-, part, hslice⟩ := hr.slice?_of_token htoken
    have hplace : r.input.HasPlace (r.lattice.start it.origin) := by
      rw [← hfirst, hbegin]
      exact (Indexed.hasPlace_of_slice? hslice).1
    refine ⟨fun x hx => ?_, fun x hx => ?_, by simp, ?_, ?_⟩
    · rw [hstart', hbounds.first x (by rw [htokens, hx])]
    · rw [hstop, hbounds.last x (by rw [htokens, hx])]
    · rw [hstart', hstop]
      exact hlt.le
    · rw [RuleContext.text, hstart', hstop]
      exact hplace.exists_slice? hset hlt.le

end Recognition

section

variable {V : Type} [Semantic V]

/-- The contexts of actions span what their rules matched. Whenever a rule that is not spliced
    is reduced on the way to the value of an accepted input, its action is applied where the
    first token below the rule starts and the last one stops, or where the rule begins if there
    is no token below it, and there is a text at this place of the input. -/
theorem context_spans {g : Grammar} {limit : Option Nat} {input : String} {r : Recognition}
    (hg : g.IsCompiled) (hr : recognize g limit input = .ok r) (hok : r.failure? = none)
    (actions : Registry V) :
    ∃ root tree, r.chooseRoot = some root ∧ r.Chosen tree ∧
      ∀ m, Passes (Machine.step r actions) (Machine.initial root) m →
        ∀ ref count rest, m.tasks = .reduce ref count :: rest →
          ∃ it rule us, r.AppliesIn tree ref it rule us ∧ (rule.isSplice = false →
            (∀ arguments, r.reduce actions ref arguments =
              (applyRule actions (r.context ref it rule) arguments).map
                fun value => (value, some (r.context ref it rule))) ∧
            (∀ x ∈ Tree.tokensAll us, ∃ k s, r.lattice.token k s x.2 ∧ x.1 = r.lattice.start k) ∧
            Recognition.Spanning (r.context ref it rule) input.toList it.origin
              (Tree.tokensAll us)) := by
  have hended := ended_of_recognize hg hr
  obtain ⟨-, hinput, -⟩ := hg.coherent.ended hr
  obtain ⟨tree, hchosen⟩ := hended.exists_chosen hok
  obtain ⟨root, _, _, _, hroot, -, happlies⟩ := hended.exists_appliesIn_root hchosen
  refine ⟨root, tree, hroot, hchosen, fun m hm ref count rest htasks => ?_⟩
  obtain ⟨it, rule, us, h, -⟩ :=
    (Machine.Amid.of_passes hended happlies hm).reduces hended happlies htasks
  refine ⟨it, rule, us, h, fun hsplice => ⟨fun arguments => ?_, fun x hx => ?_, ?_⟩⟩
  · rw [Recognition.reduce_eq h.item h.rule, hsplice]
    rfl
  · exact (hended.reads_of_appliesIn hchosen h).1.exists_token hx
  · have hspanning := hended.spanning hchosen h
    rwa [hinput] at hspanning

/-- The contexts of a sum of three letters. -/
theorem context_spans_sums :
    ∃ g r root tree, Definition.sums.compile = .ok g ∧ recognize g none "a+a+a" = .ok r ∧
      r.chooseRoot = some root ∧ r.Chosen tree ∧
      ∀ m, Passes (Machine.step r (.empty : Registry Value)) (Machine.initial root) m →
        ∀ ref count rest, m.tasks = .reduce ref count :: rest →
          ∃ it rule us, r.AppliesIn tree ref it rule us ∧ (rule.isSplice = false →
            Recognition.Spanning (r.context ref it rule) "a+a+a".toList it.origin
              (Tree.tokensAll us)) := by
  obtain ⟨g, r, hg, hr, hok⟩ := exists_recognize_sums
  obtain ⟨root, tree, hroot, hchosen, hspans⟩ :=
    context_spans (Or.inl ⟨_, hg⟩) hr hok (.empty : Registry Value)
  refine ⟨g, r, root, tree, hg, hr, hroot, hchosen, fun m hm ref count rest htasks => ?_⟩
  obtain ⟨it, rule, us, happlies, hall⟩ := hspans m hm ref count rest htasks
  exact ⟨it, rule, us, happlies, fun hsplice => (hall hsplice).2.2⟩

end

end Scannerless
