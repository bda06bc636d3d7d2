import Scannerless.Proofs.Chart.Closure

/-!
# Stages of a chart

A run over an input takes a chart through stages. In the stage of a place its set is
closed, and then the items of the set are moved over the tokens that are read there.
Before stage `k` all items of the sets before `k` are done and all tokens from there
are read. Once set `k` is closed, the chart holds all readings up to place `k`.

## Main definitions

- `Chart.scanAll` — moving the items of a set over tokens.
- `Chart.Stage`, `Chart.ClosedTo` — what holds before the stage of a place, and once
  its set is closed.
- `Chart.Finished` — what holds after the last stage.

## Main statements

- `Chart.Stage.close`, `Chart.ClosedTo.next` — from stage to stage.
- `Chart.ClosedTo.exists_item?_iff` — the items that begin where a rule was predicted
  are those whose matched part spans the places up to their set.
- `Chart.ClosedTo.reading_iff_reads` — the trees that are read through sources are
  the trees of the rules.
-/

namespace Scannerless

namespace Chart

variable {t : RuleTable} {c : Chart t} {starts : List SymbolId} {l : Lattice} {k : Nat}

/-! ### Scanning -/

/-- Moves the items of set `k` over tokens, each given with the set behind it. -/
def scanAll (c : Chart t) (k start : Nat) (found : List (SymbolId × Nat)) : Chart t :=
  found.foldl (fun c f => c.scan k f.1 start f.2) c

theorem mem_scanAdditions_iff {start : Nat} {found : List (SymbolId × Nat)} {a : Addition} :
    a ∈ c.scanAdditions k start found ↔
      ∃ s j it i, (s, j) ∈ found ∧ c.item? ⟨k, i⟩ = some it ∧ t.next? it = some s ∧
        a = ⟨j, it.advanced, some (.scanned ⟨k, i⟩ start)⟩ := by
  rw [scanAdditions, List.mem_flatMap]
  constructor
  · rintro ⟨⟨s, j⟩, hf, ha⟩
    obtain ⟨⟨it, i⟩, hw, rfl⟩ := List.mem_map.mp ha
    obtain ⟨hit, hs⟩ := (mem_waitingFor_iff _ _ _ _ _).mp hw
    exact ⟨s, j, it, i, hf, hit, hs, rfl⟩
  · rintro ⟨s, j, it, i, hf, hit, hs, rfl⟩
    exact ⟨(s, j), hf,
      List.mem_map.mpr ⟨(it, i), (mem_waitingFor_iff _ _ _ _ _).mpr ⟨hit, hs⟩, rfl⟩⟩

theorem scan_eq (c : Chart t) (k : Nat) (s : SymbolId) (start j : Nat) :
    c.scan k s start j = c.applyAll (c.scanAdditions k start [(s, j)]) := by
  rw [scanAdditions, List.flatMap_singleton, applyAll, List.foldl_map]
  rfl

theorem scanAdditions_cons (c : Chart t) (k start : Nat) (f : SymbolId × Nat)
    (found : List (SymbolId × Nat)) :
    c.scanAdditions k start (f :: found) =
      c.scanAdditions k start [f] ++ c.scanAdditions k start found := by
  rw [scanAdditions, scanAdditions, scanAdditions, List.flatMap_singleton, List.flatMap_cons]

/-- Reading a token that leads into another set leaves it as it is what other tokens add. -/
theorem scanAdditions_applyAll {start : Nat} {f : SymbolId × Nat} (h : f.2 ≠ k)
    (found : List (SymbolId × Nat)) :
    (c.applyAll (c.scanAdditions k start [f])).scanAdditions k start found =
      c.scanAdditions k start found := by
  have hset : (c.applyAll (c.scanAdditions k start [f])).setAt k = c.setAt k := by
    refine setAt_applyAll fun a ha => ?_
    obtain ⟨s, j, it, i, hf, -, -, rfl⟩ := mem_scanAdditions_iff.mp ha
    obtain rfl := List.mem_singleton.mp hf
    exact h
  rw [scanAdditions, hset, scanAdditions]

/-- Tokens that lead into other sets may all be looked up before any is read. -/
theorem scanAll_eq {start : Nat} {found : List (SymbolId × Nat)}
    (h : ∀ f ∈ found, f.2 ≠ k) :
    c.scanAll k start found = c.applyAll (c.scanAdditions k start found) := by
  induction found generalizing c with
  | nil => rfl
  | cons f found ih =>
    rw [List.forall_mem_cons] at h
    have hrest : c.scanAll k start (f :: found) =
        (c.scan k f.1 start f.2).scanAll k start found := rfl
    rw [hrest, ih h.2, scan_eq, scanAdditions_applyAll h.1, c.scanAdditions_cons k start f found,
      applyAll_append]

/-! ### Additions that are called for before a place -/

theorem Calls.of_before {refs : List ItemRef} {a : Addition}
    (h : c.Calls starts (l.before k) refs a) : c.Calls starts l refs a := by
  cases h with
  | start hs hid => exact .start hs hid
  | predicted hit hs hid => exact .predicted hit hs hid
  | completed hit hchild hs hlhs hnext horigin =>
    exact .completed hit hchild hs hlhs hnext horigin
  | scanned hit hs hterm hj => exact .scanned hit hs hterm hj.2

/-- Tokens that are read from set `k` are all that items up to it call for beyond what
    was called for before. -/
theorem Calls.before_cases {refs : List ItemRef} {a : Addition} (h : c.Calls starts l refs a)
    (hdone : ∀ ref ∈ refs, ref.set ≤ k) :
    c.Calls starts (l.before k) refs a ∨ ∃ i it s j, c.item? ⟨k, i⟩ = some it ∧
      t.next? it = some s ∧ t.hasRules s = false ∧ l.token k s j ∧
      a = ⟨j, it.advanced, some (.scanned ⟨k, i⟩ (l.start k))⟩ := by
  cases h with
  | start hs hid => exact Or.inl (.start hs hid)
  | predicted hit hs hid => exact Or.inl (.predicted hit hs hid)
  | completed hit hchild hs hlhs hnext horigin =>
    exact Or.inl (.completed hit hchild hs hlhs hnext horigin)
  | @scanned source it s j hit hs hterm hj =>
    rcases Nat.lt_or_eq_of_le (hdone source List.mem_cons_self) with hlt | heq
    · exact Or.inl (.scanned hit hs hterm ⟨hlt, hj⟩)
    · obtain ⟨set, i⟩ := source
      obtain rfl : set = k := heq
      exact Or.inr ⟨i, it, s, j, hit, hs, hterm, hj, rfl⟩

/-! ### From stage to stage -/

/-- What holds before the stage of place `k`: all items of sets before `k` are
    done, and all tokens from there are read. -/
structure Stage (starts : List SymbolId) (l : Lattice) (k : Nat) (c : Chart t) : Prop where
  arises : c.Arises starts l
  saturated : c.Saturated starts (l.before k) fun ref => ref.set < k

/-- What holds once set `k` is closed: all items up to it are done. -/
structure ClosedTo (starts : List SymbolId) (l : Lattice) (k : Nat) (c : Chart t) : Prop where
  arises : c.Arises starts l
  saturated : c.Saturated starts (l.before k) fun ref => ref.set ≤ k

theorem Stage.close (hc : c.Stage starts l k) (hi : t.Indexed) (hl : l.Forward) :
    (c.close k).ClosedTo starts l k where
  arises := by
    rw [close_eq]
    exact hc.arises.applyAll ((hc.arises.wellFormed hi hl).callsInTurn hi starts l k)
  saturated := hc.arises.saturated_close hi hl hc.saturated

/-- The tokens that are read in the stage of place `k`: those of the lattice that an
    item waits for, and no others. -/
structure Tokens (l : Lattice) (k : Nat) (c : Chart t) (found : List (SymbolId × Nat)) :
    Prop where
  sound : ∀ s j, (s, j) ∈ found → l.token k s j ∧ t.hasRules s = false ∧ j < c.sets.size
  complete : ∀ i it s j, c.item? ⟨k, i⟩ = some it → t.next? it = some s →
    t.hasRules s = false → l.token k s j → (s, j) ∈ found

theorem Tokens.callsInTurn {found : List (SymbolId × Nat)} (hfound : c.Tokens l k found) :
    CallsInTurn starts l c (c.scanAdditions k (l.start k) found) := by
  refine .of_forall fun a ha => ?_
  obtain ⟨s, j, it, i, hf, hit, hs, rfl⟩ := mem_scanAdditions_iff.mp ha
  obtain ⟨htoken, hterm, -⟩ := hfound.sound s j hf
  exact ⟨_, .scanned hit hs hterm htoken⟩

theorem Tokens.ne {found : List (SymbolId × Nat)} (hfound : c.Tokens l k found)
    (hl : l.Forward) : ∀ f ∈ found, f.2 ≠ k := by
  rintro ⟨s, j⟩ hf
  exact (ne_of_lt (hl (hfound.sound s j hf).1)).symm

/-- Once the set of a place is closed, reading the tokens there leads to the stage of
    the next place. -/
theorem ClosedTo.next {found : List (SymbolId × Nat)} (hc : c.ClosedTo starts l k)
    (hl : l.Forward) (hfound : c.Tokens l k found) :
    (c.scanAll k (l.start k) found).Stage starts l (k + 1) := by
  obtain ⟨harises, hclosed⟩ := hc
  rw [scanAll_eq (hfound.ne hl)]
  refine ⟨harises.applyAll hfound.callsInTurn, fun refs a ha hrefs => ?_⟩
  -- Tokens lead into later sets, so that the items that call were there before.
  have hback : ∀ ref ∈ refs, ∀ it,
      (c.applyAll (c.scanAdditions k (l.start k) found)).item? ref = some it →
        c.item? ref = some it := by
    intro ref href it hit
    rwa [item?, setAt_applyAll] at hit
    intro a ha
    obtain ⟨s, j, it, i, hf, -, -, rfl⟩ := mem_scanAdditions_iff.mp ha
    have hle := Nat.lt_succ_iff.mp (hrefs ref href)
    have hlt := hl (hfound.sound s j hf).1
    exact ne_of_gt (lt_of_le_of_lt hle hlt)
  have hdone : ∀ ref ∈ refs, ref.set ≤ k := fun ref href => Nat.lt_succ_iff.mp (hrefs ref href)
  rcases (ha.of_items hback).of_before.before_cases hdone with
    hcalls | ⟨i, it, s, j, hit, hs, hterm, hj, rfl⟩
  · exact (hclosed _ _ hcalls hdone).applyAll _
  · have hf := hfound.complete i it s j hit hs hterm hj
    refine has_of_mem (mem_scanAdditions_iff.mpr ⟨s, j, it, i, hf, hit, hs, rfl⟩) ?_
    exact (hfound.sound s j hf).2.2

/-- A chart that has the predictions of the start symbols alone is before its
    first stage. -/
theorem stage_zero {count : Nat} (hcount : 0 < count) :
    ((ofSize count : Chart t).applyAll (starts.flatMap (predictions t 0))).Stage starts l 0 := by
  have hmem {a : Addition} : a ∈ starts.flatMap (predictions t 0) ↔
      ∃ s ∈ starts, ∃ id ∈ t.rulesFor s, a = ⟨0, ⟨id, 0, 0⟩, none⟩ := by
    simp [predictions, eq_comm]
  constructor
  · refine (Arises.ofSize count).applyAll (.of_forall fun a ha => ?_)
    obtain ⟨s, hs, id, hid, rfl⟩ := hmem.mp ha
    exact ⟨[], .start hs hid⟩
  · intro refs a ha hrefs
    cases ha with
    | start hs hid =>
      refine has_of_mem (hmem.mpr ⟨_, hs, _, hid, rfl⟩) ?_
      simpa [ofSize, ofSets] using hcount
    | predicted | scanned | completed => exact absurd (hrefs _ List.mem_cons_self) (by simp)

/-- What holds after the last stage: the chart arises, and all that its items call
    for is there. -/
structure Finished (starts : List SymbolId) (l : Lattice) (c : Chart t) : Prop where
  arises : c.Arises starts l
  saturated : ∀ refs a, c.Calls starts l refs a → c.Has a

theorem Stage.finished (hc : c.Stage starts l k)
    (hk : ∀ ref it, c.item? ref = some it → ref.set < k) : c.Finished starts l := by
  refine ⟨hc.arises, fun refs a ha => ?_⟩
  have hdone : ∀ ref ∈ refs, ref.set < k := by
    intro ref href
    obtain ⟨it, hit⟩ := ha.exists_item? href
    exact hk ref it hit
  rcases ha.before_cases fun ref href => Nat.le_of_lt (hdone ref href) with
    hcalls | ⟨i, it, -, -, hit, -⟩
  · exact hc.saturated refs a hcalls hdone
  · exact absurd (hk _ _ hit) (lt_irrefl k)

theorem ClosedTo.grow (hc : c.ClosedTo starts l k) : c.grow.ClosedTo starts l k := by
  refine ⟨hc.arises.grow, fun refs a ha hrefs => ?_⟩
  have hcalls : c.Calls starts (l.before k) refs a :=
    ha.of_items fun ref _ it hit => by simpa using hit
  obtain ⟨i, hi, hsrc⟩ := hc.saturated refs a hcalls hrefs
  exact ⟨i, by simpa using hi, by simpa using hsrc⟩

theorem Finished.closedTo (hc : c.Finished starts l) (k : Nat) : c.ClosedTo starts l k :=
  ⟨hc.arises, fun refs a ha _ => hc.saturated refs a ha.of_before⟩

/-! ### All readings are there -/

section

variable {m n j : Nat} {it : Item} {s : SymbolId} {us : List Tree}

theorem ClosedTo.exists_over_token (hc : c.ClosedTo starts l k) (hl : l.Forward)
    (hit : c.item? ⟨m, n⟩ = some it) (hs : t.next? it = some s) (hterm : t.hasRules s = false)
    (htoken : l.token m s j) (hj : j ≤ k) (hus : c.Reading ⟨m, n⟩ us) :
    ∃ p, c.item? ⟨j, p⟩ = some it.advanced ∧
      c.Reading ⟨j, p⟩ (us ++ [.token s m (l.start m) j]) := by
  have hlt : m < k := Nat.lt_of_lt_of_le (hl htoken) hj
  have hdone : ∀ ref ∈ [(⟨m, n⟩ : ItemRef)], ref.set ≤ k := by
    intro ref href
    obtain rfl := List.mem_singleton.mp href
    exact Nat.le_of_lt hlt
  obtain ⟨p, hp, hsrc⟩ := hc.saturated _ _ (.scanned hit hs hterm ⟨hlt, htoken⟩) hdone
  exact ⟨p, hp, .scanned (hsrc _ rfl) hit hs hus⟩

theorem ClosedTo.exists_over_item (hc : c.ClosedTo starts l k) {child : Item} {q : Nat}
    {vs : List Tree} (hit : c.item? ⟨m, n⟩ = some it) (hs : t.next? it = some s)
    (hchild : c.item? ⟨j, q⟩ = some child) (hlhs : t.lhs? child.rule = some s)
    (hnext : t.next? child = none) (horigin : child.origin = m) (hm : m ≤ k) (hj : j ≤ k)
    (hus : c.Reading ⟨m, n⟩ us) (hvs : c.Reading ⟨j, q⟩ vs) :
    ∃ p, c.item? ⟨j, p⟩ = some it.advanced ∧
      c.Reading ⟨j, p⟩ (us ++ [.node child.rule child.origin j vs]) := by
  have hdone : ∀ ref ∈ [(⟨m, n⟩ : ItemRef), ⟨j, q⟩], ref.set ≤ k := by
    intro ref href
    rcases List.mem_cons.mp href with rfl | href
    · exact hm
    · obtain rfl := List.mem_singleton.mp href
      exact hj
  obtain ⟨p, hp, hsrc⟩ :=
    hc.saturated _ _ (.completed hit hchild hs hlhs hnext horigin) hdone
  exact ⟨p, hp, .completed (hsrc _ rfl) hchild hus hvs⟩

theorem next?_of_drop_eq {ss rest : List SymbolId}
    (h : (t.rhs it.rule).drop it.dot = ss ++ s :: rest) :
    t.next? { it with dot := it.dot + ss.length } = some s := by
  rw [RuleTable.next?, ← List.getElem?_drop, h]
  simp

/-- An item moves over every list of symbols behind its dot that has a reading. -/
theorem ClosedTo.exists_reading (hc : c.ClosedTo starts l k) (hi : t.Indexed) (hl : l.Forward)
    {ss : List SymbolId} {i : Nat} {ts : List Tree} (h : t.Reads l ss i j ts) (hj : j ≤ k)
    {index : Nat} (rest : List SymbolId) (hit : c.item? ⟨i, index⟩ = some it)
    (hss : (t.rhs it.rule).drop it.dot = ss ++ rest) (hus : c.Reading ⟨i, index⟩ us) :
    ∃ m, c.item? ⟨j, m⟩ = some { it with dot := it.dot + ss.length } ∧
      c.Reading ⟨j, m⟩ (us ++ ts) := by
  induction h generalizing index it rest us with
  | nil i => exact ⟨index, hit, by simpa using hus⟩
  | @token ss i m j ts s _ hterm htoken ih =>
    have hss' : (t.rhs it.rule).drop it.dot = ss ++ s :: rest := by simpa using hss
    have hm : m ≤ k := Nat.le_of_lt (Nat.lt_of_lt_of_le (hl htoken) hj)
    obtain ⟨n, hn, hreading⟩ := ih hm (s :: rest) hit hss' hus
    obtain ⟨p, hp, hall⟩ :=
      hc.exists_over_token hl hn (next?_of_drop_eq hss') hterm htoken hj hreading
    refine ⟨p, by simpa [Item.advanced, Nat.add_assoc] using hp, ?_⟩
    rwa [← List.append_assoc]
  | @node ss i m j ts vs s id _ hid hvs ihss ihvs =>
    have hss' : (t.rhs it.rule).drop it.dot = ss ++ s :: rest := by simpa using hss
    have hm : m ≤ k := (RuleTable.Spans.le hl ⟨vs, hvs⟩).trans hj
    obtain ⟨n, hn, hreading⟩ := ihss hm (s :: rest) hit hss' hus
    have hnext := next?_of_drop_eq hss'
    -- The rule is predicted where the item waits, and moves to its end from there.
    have hdone : ∀ ref ∈ [(⟨m, n⟩ : ItemRef)], ref.set ≤ k := by
      intro ref href
      obtain rfl := List.mem_singleton.mp href
      exact hm
    obtain ⟨p, hp, -⟩ := hc.saturated _ _ (.predicted hn hnext hid) hdone
    obtain ⟨q, hq, hchild⟩ := ihvs hj [] hp (by simp) (.predicted hp rfl)
    have hcomplete : t.next? ⟨id, 0 + (t.rhs id).length, m⟩ = none :=
      RuleTable.next?_eq_none_iff.mpr (by simp)
    obtain ⟨r, hr, hall⟩ := hc.exists_over_item hn hnext hq ((hi s id).mp hid) hcomplete rfl
      hm hj hreading hchild
    refine ⟨r, by simpa [Item.advanced, Nat.add_assoc] using hr, ?_⟩
    rw [← List.append_assoc]
    simpa using hall

end

/-- An item began where its rule was predicted. -/
theorem Arises.exists_predicted (hc : c.Arises starts l) {ref : ItemRef} {it : Item}
    (h : c.item? ref = some it) : ∃ i, c.item? ⟨it.origin, i⟩ = some ⟨it.rule, 0, it.origin⟩ := by
  induction hc generalizing ref it with
  | ofSize count => simp at h
  | grow _ ih =>
    obtain ⟨i, hi⟩ := ih (by simpa using h)
    exact ⟨i, by simpa using hi⟩
  | @apply c refs a _ ha ih =>
    -- An item that was there before keeps the one it began as.
    have hold {ref : ItemRef} {it : Item} (hit : c.item? ref = some it) :
        ∃ i, (c.apply a).item? ⟨it.origin, i⟩ = some ⟨it.rule, 0, it.origin⟩ := by
      obtain ⟨i, hi⟩ := ih hit
      exact ⟨i, item?_add_of_some _ _ _ hi⟩
    rcases item?_add_cases h with h | ⟨hset, rfl⟩
    · exact hold h
    cases ha with
    | start | predicted =>
      obtain ⟨set, i⟩ := ref
      obtain rfl : set = _ := hset
      exact ⟨i, h⟩
    | completed hit | scanned hit =>
      have hbegan := hold hit
      exact hbegan

/-- Trees that are read through sources are the trees of the rules. -/
theorem ClosedTo.reading_iff_reads (hc : c.ClosedTo starts l k) (hi : t.Indexed)
    (hl : l.Forward) {ref : ItemRef} {it : Item} (hit : c.item? ref = some it)
    (hk : ref.set ≤ k) (ts : List Tree) :
    c.Reading ref ts ↔ t.Reads l ((t.rhs it.rule).take it.dot) it.origin ref.set ts := by
  refine ⟨fun h => h.reads hi hl hc.arises hit, fun h => ?_⟩
  obtain ⟨i, hpred⟩ := hc.arises.exists_predicted hit
  obtain ⟨j, hj, hreading⟩ :=
    hc.exists_reading hi hl h hk ((t.rhs it.rule).drop it.dot) hpred (by simp)
      (.predicted hpred rfl)
  have hdot : ((t.rhs it.rule).take it.dot).length = it.dot := by
    rw [List.length_take]
    exact Nat.min_eq_left (hc.arises.admits hi hl hit).dot_le
  rw [hdot, Nat.zero_add] at hj
  rwa [← address_unique hj hit rfl]

/-- Where a rule was predicted, those items begin whose matched part spans the
    places up to their set. -/
theorem ClosedTo.exists_item?_iff (hc : c.ClosedTo starts l k) (hi : t.Indexed)
    (hl : l.Forward) {i index : Nat} {id : RuleId}
    (hpred : c.item? ⟨i, index⟩ = some ⟨id, 0, i⟩) {j : Nat} (hj : j ≤ k) (dot : Nat) :
    (∃ m, c.item? ⟨j, m⟩ = some ⟨id, dot, i⟩) ↔
      dot ≤ (t.rhs id).length ∧ t.Spans l ((t.rhs id).take dot) i j := by
  constructor
  · rintro ⟨m, hm⟩
    exact ⟨(hc.arises.admits hi hl hm).dot_le, hc.arises.spans hi hm⟩
  · rintro ⟨hdot, ts, hts⟩
    obtain ⟨m, hm, -⟩ :=
      hc.exists_reading hi hl hts hj ((t.rhs id).drop dot) hpred (by simp)
        (.predicted hpred rfl)
    refine ⟨m, ?_⟩
    simpa [Nat.min_eq_left hdot] using hm

/-- The complete items of a rule that starts: those of a start symbol with a right
    side that spans the places up to the set. -/
theorem ClosedTo.exists_complete_iff (hc : c.ClosedTo starts l k) (hi : t.Indexed)
    (hl : l.Forward) {s : SymbolId} (hs : s ∈ starts) {id : RuleId} (hid : id ∈ t.rulesFor s)
    {j : Nat} (hj : j ≤ k) :
    (∃ m, c.item? ⟨j, m⟩ = some ⟨id, (t.rhs id).length, 0⟩) ↔ t.Spans l (t.rhs id) 0 j := by
  obtain ⟨i, hpred, -⟩ := hc.saturated _ _ (.start hs hid) (by simp)
  rw [hc.exists_item?_iff hi hl hpred hj, List.take_length]
  simp

/-! ### All sources are there -/

/-- A source that is called for is among those of its item. -/
theorem Finished.mem_sources (hc : c.Finished starts l) {ref : ItemRef} {it : Item}
    {src : Source} (hit : c.item? ref = some it)
    (h : ∃ refs, c.Calls starts l refs ⟨ref.set, it, some src⟩) : src ∈ c.sources ref := by
  obtain ⟨refs, hcalls⟩ := h
  obtain ⟨m, hm, hsrc⟩ := hc.saturated _ _ hcalls
  rw [address_unique hit hm rfl]
  exact hsrc src rfl

/-- An item that moved stood at every place up to which its matched part spans. -/
theorem Finished.exists_item? (hc : c.Finished starts l) (hi : t.Indexed) (hl : l.Forward)
    {ref : ItemRef} {it : Item} {k : Nat} (hit : c.item? ref = some it.advanced)
    (hspans : t.Spans l ((t.rhs it.rule).take it.dot) it.origin k) :
    ∃ m, c.item? ⟨k, m⟩ = some it := by
  obtain ⟨i, hpred⟩ := hc.arises.exists_predicted hit
  have hdot := (hc.arises.admits hi hl hit).dot_le
  exact ((hc.closedTo k).exists_item?_iff hi hl hpred (Nat.le_refl k) it.dot).mpr
    ⟨Nat.le_of_succ_le hdot, hspans⟩

/-- An item has a source for every rule of the symbol before its dot and every place that
    parts its span. -/
theorem Finished.exists_completed (hc : c.Finished starts l) (hi : t.Indexed) (hl : l.Forward)
    {ref : ItemRef} {it : Item} {s : SymbolId} {id : RuleId} {k : Nat}
    (hit : c.item? ref = some it.advanced) (hs : t.next? it = some s)
    (hspans : t.Spans l ((t.rhs it.rule).take it.dot) it.origin k) (hid : id ∈ t.rulesFor s)
    (hspans' : t.Spans l (t.rhs id) k ref.set) :
    ∃ source trigger, .completed source trigger ∈ c.sources ref ∧ source.set = k ∧
      c.item? trigger = some ⟨id, (t.rhs id).length, k⟩ := by
  obtain ⟨m, hm⟩ := hc.exists_item? hi hl hit hspans
  obtain ⟨i, hpred, -⟩ := hc.saturated _ _ (.predicted hm hs hid)
  have hlength : t.Spans l ((t.rhs id).take (t.rhs id).length) k ref.set := by
    rwa [List.take_length]
  obtain ⟨n, hn⟩ := ((hc.closedTo ref.set).exists_item?_iff hi hl hpred (Nat.le_refl _)
    (t.rhs id).length).mpr ⟨Nat.le_refl _, hlength⟩
  refine ⟨⟨k, m⟩, ⟨ref.set, n⟩, hc.mem_sources hit ⟨[⟨k, m⟩, ⟨ref.set, n⟩], ?_⟩, rfl, hn⟩
  exact .completed hm hn hs ((hi s id).mp hid)
    (RuleTable.next?_eq_none_iff.mpr (Nat.le_refl _)) rfl

/-- An item has a source for every token before its dot. -/
theorem Finished.exists_scanned (hc : c.Finished starts l) (hi : t.Indexed) (hl : l.Forward)
    {ref : ItemRef} {it : Item} {s : SymbolId} {k : Nat}
    (hit : c.item? ref = some it.advanced) (hs : t.next? it = some s)
    (hspans : t.Spans l ((t.rhs it.rule).take it.dot) it.origin k)
    (hterm : t.hasRules s = false) (htoken : l.token k s ref.set) :
    ∃ source, .scanned source (l.start k) ∈ c.sources ref ∧ source.set = k := by
  obtain ⟨m, hm⟩ := hc.exists_item? hi hl hit hspans
  exact ⟨⟨k, m⟩, hc.mem_sources hit ⟨_, .scanned hm hs hterm htoken⟩, rfl⟩

/-- Where a chart has no items no start symbol ends. -/
theorem Stage.not_spans (hc : c.Stage starts l k) (hi : t.Indexed) (hl : l.Forward)
    (hk : ∀ ref it, c.item? ref = some it → ref.set < k) {s : SymbolId} (hs : s ∈ starts)
    {id : RuleId} (hid : id ∈ t.rulesFor s) {j : Nat} (hj : k ≤ j) :
    ¬t.Spans l (t.rhs id) 0 j := by
  intro hspan
  have hclosed := (hc.finished hk).closedTo j
  obtain ⟨m, hm⟩ := (hclosed.exists_complete_iff hi hl hs hid (Nat.le_refl j)).mpr hspan
  exact absurd (hk _ _ hm) (Nat.not_lt_of_le hj)

end Chart

end Scannerless
