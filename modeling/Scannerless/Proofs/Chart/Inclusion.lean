import Scannerless.Proofs.Chart.Stages

/-!
# Charts over more tokens

A chart with all that its items call for over some tokens has what any chart has that arises from
fewer of them: the same items in the same sets, and the same sources. Indexes differ, as items
are added in another order, so that addresses are compared by what is at them.

## Main definitions

- `Chart.SameItem`, `Chart.SameSource` — addresses and sources that are the same up to indexes.
- `Chart.Within` — all items and sources of one chart are in another one.

## Main statements

- `Chart.Calls.transfer` — what an item calls for it also calls for over more tokens.
- `Chart.Arises.within` — charts that arise are within those that are finished over more tokens.
-/

namespace Scannerless

/-- A lattice has all tokens of another one, and they begin at the same places. -/
def Lattice.Sub (l l' : Lattice) : Prop :=
  ∀ k s j, l.token k s j → l'.token k s j ∧ l'.start k = l.start k

namespace Chart

variable {t : RuleTable} {c c' : Chart t} {starts : List SymbolId} {l l' : Lattice}

/-- Addresses of one item in the same set of two charts. -/
def SameItem (c c' : Chart t) (ref ref' : ItemRef) : Prop :=
  ref'.set = ref.set ∧ ∃ it, c.item? ref = some it ∧ c'.item? ref' = some it

/-- Sources with the same items in the same sets of two charts. -/
inductive SameSource (c c' : Chart t) : Source → Source → Prop where
  | completed {source trigger source' trigger' : ItemRef} (hsource : c.SameItem c' source source')
      (htrigger : c.SameItem c' trigger trigger') :
      SameSource c c' (.completed source trigger) (.completed source' trigger')
  | scanned {source source' : ItemRef} (start : Nat) (hsource : c.SameItem c' source source') :
      SameSource c c' (.scanned source start) (.scanned source' start)

/-- All items of a chart are in the same sets of another one, with all of their sources. -/
structure Within (c c' : Chart t) : Prop where
  item : ∀ ref it, c.item? ref = some it → ∃ ref', c.SameItem c' ref ref'
  source : ∀ ref ref', c.SameItem c' ref ref' → ∀ src ∈ c.sources ref,
    ∃ src' ∈ c'.sources ref', c.SameSource c' src src'

/-- What the items of a chart call for they also call for in a chart with the same items over
    more tokens. -/
theorem Calls.transfer {refs : List ItemRef} {a : Addition} (ha : c.Calls starts l refs a)
    (hl : l.Sub l') (hitems : ∀ ref it, c.item? ref = some it → ∃ ref', c.SameItem c' ref ref') :
    ∃ refs' src', c'.Calls starts l' refs' ⟨a.place, a.item, src'⟩ ∧
      ∀ src, a.source = some src → ∃ src'', src' = some src'' ∧ c.SameSource c' src src'' := by
  have hsame {ref : ItemRef} {it : Item} (hit : c.item? ref = some it) :
      ∃ ref', c'.item? ref' = some it ∧ ref'.set = ref.set ∧ c.SameItem c' ref ref' := by
    obtain ⟨ref', hset, it', hit', hit''⟩ := hitems ref it hit
    obtain rfl := Option.some_inj.mp (hit.symm.trans hit')
    exact ⟨ref', hit'', hset, hset, it, hit, hit''⟩
  cases ha with
  | start hs hid => exact ⟨_, none, .start hs hid, nofun⟩
  | predicted hit hs hid =>
    obtain ⟨ref', hit', hset, -⟩ := hsame hit
    refine ⟨[ref'], none, ?_, nofun⟩
    rw [← hset]
    exact .predicted hit' hs hid
  | completed hit hchild hs hlhs hnext horigin =>
    obtain ⟨source', hit', hset, hsource⟩ := hsame hit
    obtain ⟨trigger', hchild', hset', htrigger⟩ := hsame hchild
    refine ⟨[source', trigger'], some (.completed source' trigger'), ?_, ?_⟩
    · rw [← hset']
      exact .completed hit' hchild' hs hlhs hnext (horigin.trans hset.symm)
    · rintro _ ⟨⟩
      exact ⟨_, rfl, .completed hsource htrigger⟩
  | @scanned source it s j hit hs hterm hj =>
    obtain ⟨source', hit', hset, hsource⟩ := hsame hit
    obtain ⟨hj', hstart⟩ := hl _ _ _ hj
    rw [← hset] at hj' hstart
    refine ⟨[source'], some (.scanned source' (l'.start source'.set)),
      .scanned hit' hs hterm hj', ?_⟩
    rintro _ ⟨⟩
    refine ⟨_, rfl, ?_⟩
    rw [hstart, hset]
    exact .scanned _ hsource

/-- All items of a chart that arises are in a chart that has what its items call for over more
    tokens. -/
theorem Arises.exists_sameItem (hc : c.Arises starts l) (hc' : c'.Finished starts l')
    (hl : l.Sub l') {ref : ItemRef} {it : Item} (hit : c.item? ref = some it) :
    ∃ ref', c.SameItem c' ref ref' := by
  suffices hfound : ∃ ref', ref'.set = ref.set ∧ c'.item? ref' = some it by
    obtain ⟨ref', hset, hit'⟩ := hfound
    exact ⟨ref', hset, it, hit, hit'⟩
  induction hc generalizing ref it with
  | ofSize count => simp at hit
  | grow _ ih => exact ih (by simpa using hit)
  | @apply c refs a _ ha ih =>
    rcases item?_add_cases hit with hold | ⟨hset, rfl⟩
    · exact ih hold
    · obtain ⟨refs', src', hcalls, -⟩ := ha.transfer hl fun ref it hit => by
        obtain ⟨ref', hset, hit'⟩ := ih hit
        exact ⟨ref', hset, it, hit, hit'⟩
      obtain ⟨i, hi, -⟩ := hc'.saturated _ _ hcalls
      exact ⟨⟨a.place, i⟩, hset.symm, hi⟩

/-- A chart that arises is within one that has what its items call for over more tokens. -/
theorem Arises.within (hc : c.Arises starts l) (hc' : c'.Finished starts l') (hl : l.Sub l') :
    c.Within c' where
  item _ _ hit := hc.exists_sameItem hc' hl hit
  source ref ref' hsame src hsrc := by
    obtain ⟨hset, it, hit, hit'⟩ := hsame
    obtain ⟨refs, hcalls⟩ := hc.calls_of_mem_sources hit hsrc
    obtain ⟨refs', _, hcalls', hsource⟩ :=
      hcalls.transfer hl fun _ _ hit => hc.exists_sameItem hc' hl hit
    obtain ⟨src', rfl, hsame⟩ := hsource src rfl
    exact ⟨src', hc'.mem_sources hit' ⟨refs', hset ▸ hcalls'⟩, hsame⟩

end Chart

end Scannerless
