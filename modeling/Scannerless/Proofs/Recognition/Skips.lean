import Scannerless.Proofs.GrammarText.Places
import Scannerless.Proofs.Lexer.History

/-!
# Where skipping ends

Skipping from a place goes on for as long as anything is discarded, and it comes to an end since
each step takes a character at least. All who ask for the place where it ends get the same
answer: a lexer that was asked many things before, and the chart of a run.

## Main statements

- `Grammar.Tiles.length_le` — there are no more steps than bytes that are skipped.
- `Grammar.Coherent.skipFrom_congr` — numbers of steps that are large enough give one answer.
- `skip_exact` — where skipping ends, for lexers and for runs.
-/

namespace Scannerless

open Text

theorem Text.Indexed.HasPlace.le_size {text : Indexed} {offset : Nat}
    (h : text.HasPlace offset) : offset ≤ text.size := by
  obtain ⟨before, after, hchars, rfl⟩ := h
  rw [text.size_eq, hchars, byteLength_append]
  exact Nat.le_add_right _ _

theorem SkipsTo.not_discarded {discarded : Nat → Nat → Prop} {i j : Nat}
    (h : SkipsTo discarded i j) (k : Nat) : ¬discarded j k := by
  induction h with
  | stop hstop => exact hstop k
  | go _ _ _ ih => exact ih

namespace Grammar

variable {g : Grammar} {input : Indexed} {i j : Nat}

/-- Each step of skipping takes a byte at least. -/
theorem Tiles.length_le {events : List LexemeEvent} (h : g.Tiles input i events j) :
    i + events.length ≤ j := by
  induction h with
  | stop => exact Nat.le_refl _
  | go _ hik _ _ _ ih =>
    rw [List.length_cons]
    omega

/-- From a place within an input skipping does not leave it. -/
theorem Tiles.le_size {events : List LexemeEvent} (h : g.Tiles input i events j)
    (hi : i ≤ input.size) : j ≤ input.size := by
  induction h with
  | stop => exact hi
  | go _ _ hcovers _ _ ih => exact ih hcovers.le_size.2

/-- A match that is skipped is not empty and lies within the input. -/
theorem Coherent.of_getLast?_matchesAt (hg : g.Coherent) {s : SymbolId} {n : Nat}
    (h : (g.matchesAt g.discards (input.suffixAt i)).getLast? = some (s, n)) :
    0 < n ∧ i + n ≤ input.size := by
  obtain ⟨-, hpos, hcovers⟩ :=
    (mem_matchesAt_suffixAt_iff hg.lexicon hg.plainDiscards i s n).mp (List.mem_of_getLast? h)
  exact ⟨hpos, hcovers.le_size.2⟩

/-- Behind an input nothing is skipped, however many steps are allowed. -/
theorem Coherent.skipFrom_of_size_le (hg : g.Coherent) (hi : input.size ≤ i) (steps : Nat) :
    g.skipFrom input steps i = (i, []) := by
  cases steps with
  | zero => rfl
  | succ steps =>
    rw [skipFrom]
    split
    next => rfl
    next s n hlast =>
      have hmatch := hg.of_getLast?_matchesAt hlast
      omega

/-- It does not matter how many steps are allowed if they are enough for what is left. -/
theorem Coherent.skipFrom_congr (hg : g.Coherent) {m n : Nat} (hm : input.size ≤ m + i)
    (hn : input.size ≤ n + i) : g.skipFrom input m i = g.skipFrom input n i := by
  induction m generalizing n i with
  | zero => rw [hg.skipFrom_of_size_le (by omega), hg.skipFrom_of_size_le (by omega)]
  | succ m ih =>
    cases n with
    | zero => rw [hg.skipFrom_of_size_le (by omega), hg.skipFrom_of_size_le (by omega)]
    | succ n =>
      rw [skipFrom, skipFrom]
      split
      next => rfl
      next s length hlast =>
        have hmatch := hg.of_getLast?_matchesAt hlast
        rw [ih (by omega) (by omega : input.size ≤ n + (i + length))]

/-- Where skipping ended it ends again at once. -/
theorem Coherent.skipEnd_skipEnd (hg : g.Coherent) (i : Nat) :
    g.skipEnd input (g.skipEnd input i) = g.skipEnd input i :=
  (hg.skipsTo_skipEnd _).unique (.stop (hg.skipsTo_skipEnd i).not_discarded)

end Grammar

/-- A lexer's answer does not depend on its earlier ones. -/
theorem Lexer.skip_serveAll (g : Grammar) (input : Indexed) (requests : List Request) (i : Nat) :
    ((initial.serveAll g input requests).skip g input i).1 = g.skipEnd input i :=
  ((faithful_initial g input).serveAll requests).skip_eq i

/-- Skipping from a place of an input comes to an end, by steps that each take the longest text
    that is discarded. Nothing is discarded where it ends, which is a place of the input that is
    not before the first one, and from which it does not go on. A lexer gives this answer
    whatever it was asked before, and the chart of a run gives it for the places of all its
    sets. -/
theorem skip_exact {g : Grammar} (hg : g.IsCompiled) (input : Indexed) :
    (∀ offset, input.HasPlace offset → ∃ stop events,
      (∀ steps, input.size ≤ steps + offset →
        g.skipFrom input steps offset = (stop, events)) ∧
      (g.Tiles input offset events stop ∧ offset + events.length ≤ stop) ∧
      (∀ j, SkipsTo (g.Discarded input) offset j ↔ j = stop) ∧
      (∀ k, ¬g.Discarded input stop k) ∧
      (input.HasPlace stop ∧ offset ≤ stop ∧ stop ≤ input.size) ∧
      ∀ requests,
        ((Lexer.initial.serveAll g input requests).skip g input offset).1 = stop ∧
        ((Lexer.initial.serveAll g input requests).skip g input stop).1 = stop) ∧
    ∀ limit r, recognizeIndexed g limit input = .ok r →
      ∀ k, (r.run.chart.setAt k).isEmpty = false → input.HasPlace k ∧
        ∀ requests,
          r.skip k = ((Lexer.initial.serveAll g input requests).skip g input k).1 := by
  have hcoherent := hg.coherent
  constructor
  · intro offset hplace
    have hends : SkipsTo (g.Discarded input) offset (g.skipEnd input offset) :=
      hcoherent.skipsTo_skipEnd offset
    have htiles : g.Tiles input offset (g.skipFrom input (input.size - offset) offset).2
        (g.skipEnd input offset) :=
      Grammar.tiles_skipFrom hcoherent.lexicon hcoherent.plainDiscards (by omega)
    have hsize : offset ≤ input.size := hplace.le_size
    refine ⟨g.skipEnd input offset, _, fun steps hsteps => ?_, ⟨htiles, htiles.length_le⟩,
      fun j => ?_, hends.not_discarded, ⟨hasPlace_of_skipsTo hends hplace,
        Grammar.le_skipEnd offset, htiles.le_size hsize⟩, fun requests => ⟨?_, ?_⟩⟩
    · exact hcoherent.skipFrom_congr hsteps (by omega)
    · exact Grammar.skipsTo_iff hcoherent.lexicon hcoherent.plainDiscards offset j
    · exact Lexer.skip_serveAll g input requests offset
    · rw [Lexer.skip_serveAll, hcoherent.skipEnd_skipEnd]
  · intro limit r hr k hk
    obtain ⟨rfl, rfl, hended⟩ := hcoherent.ended hr
    refine ⟨hended.hasPlace_of_reached hk, fun requests => ?_⟩
    rw [hended.skip_eq hk, Lexer.skip_serveAll]

/-- Words with blanks and remarks between them, either of which may follow the other. -/
def Definition.remarks : Definition :=
  ⟨[.rule "text" ["word+"], .lexeme "word" ["[a-z]+"], .discarded "blanks", .discarded "remark",
    .lexeme "blanks" ["[\\s]+"], .lexeme "remark" ["'#'", "[^\\n]*"]], "remarks"⟩

/-- Blanks, a remark and blanks again are skipped in front of a word, and all who ask are told
    that they are. -/
theorem skip_exact_remarks :
    ∃ g r, Definition.remarks.compile = .ok g ∧ recognize g none "a #b\n c" = .ok r ∧
      r.failure? = none ∧
      SkipsTo (g.Discarded (.ofList "a #b\n c".toList)) 1 6 ∧ r.skip 1 = 6 ∧
      ((Lexer.initial.serveAll g (.ofList "a #b\n c".toList) [.skip 4, .lexemes 1 [1]]).skip g
        (.ofList "a #b\n c".toList) 1).1 = 6 := by
  have htest : Definition.remarks.compile.toOption.any (fun g =>
      (recognize g none "a #b\n c").toOption.any fun r =>
        r.failure?.isNone && !(r.run.chart.setAt 1).isEmpty &&
          g.skipFrom (.ofList "a #b\n c".toList) 7 1 ==
            (6, [⟨.discarded, 2, 1, 2⟩, ⟨.discarded, 3, 2, 4⟩, ⟨.discarded, 2, 4, 6⟩])) =
      true := by
    decide +kernel
  obtain ⟨g, hg, htest⟩ := exists_eq_ok_of_any htest
  obtain ⟨r, hr, htest⟩ := exists_eq_ok_of_any htest
  simp only [Bool.and_eq_true, Bool.not_eq_true', beq_iff_eq, Option.isNone_iff_eq_none] at htest
  obtain ⟨⟨hok, hreached⟩, hskipped⟩ := htest
  obtain ⟨hskips, hruns⟩ := skip_exact (Or.inl ⟨_, hg⟩) (.ofList "a #b\n c".toList)
  obtain ⟨hplace, hsame⟩ := hruns none r hr 1 hreached
  obtain ⟨stop, events, hsteps, -, hends, -, -, hanswers⟩ := hskips 1 hplace
  obtain ⟨rfl, -⟩ : (6, _) = (stop, events) := hskipped.symm.trans (hsteps 7 (by decide))
  refine ⟨g, r, hg, hr, hok, (hends 6).mpr rfl, ?_, (hanswers _).1⟩
  rw [hsame [], (hanswers []).1]

end Scannerless
