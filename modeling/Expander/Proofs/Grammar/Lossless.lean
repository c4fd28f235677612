import Expander.Proofs.Grammar.Entry

/-!
# Entries lose no token

What an entry gives back and what it leaves are together the tokens that it was given, where some
joined angles may have been cut (`capture_lossless`). The halves of an angle that the lexer made
stand where their characters stand (`exists_halves_of_lexedFrom`).
-/

set_option autoImplicit false

namespace Expander

open Grammar Machine

/-! ### Halves in a text -/

/-- Punctuation of some characters that stands behind a piece of text. -/
def punctAt (file : String) (before text : List Char) : Token :=
  .leaf .punct (String.ofList text)
    (some (.between file (Position.start.after before) (Position.start.after (before ++ text))))

theorem column_next {p : Position} {c : Char} (hc : c ≠ '\n') :
    p.next c = ⟨p.offset + 1, p.line, p.column + 1⟩ := by
  rw [Position.next, if_neg hc]

theorem line_pos (text : List Char) : 0 < (Position.start.after text).line := by
  have hall : ∀ p : Position, 0 < p.line → 0 < (p.after text).line := by
    induction text with
    | nil => exact fun _ hp ↦ hp
    | cons c text ih =>
      intro p hp
      rw [Position.after_cons]
      refine ih _ ?_
      rw [Position.next]
      split
      · exact Nat.succ_pos _
      · exact hp
  exact hall _ Nat.one_pos

/-- Two characters of a line are cut where the first of them ends. -/
theorem halves?_punctAt {file : String} {before : List Char} {c e : Char} (hc : c ≠ '\n')
    (he : e ≠ '\n') : (punctAt file before [c, e]).halves? =
      some (punctAt file before [c], punctAt file (before ++ [c]) [e]) := by
  have hline := line_pos before
  have hafter : Position.start.after (before ++ [c]) = (Position.start.after before).next c := by
    rw [Position.after_append]
    rfl
  have hbehind : Position.start.after (before ++ [c, e]) =
      ((Position.start.after before).next c).next e := by
    rw [Position.after_append]
    rfl
  have hboth : before ++ [c] ++ [e] = before ++ [c, e] := by simp
  have hlineEnd : ((Position.start.after before).line : Int) ≠ 0 := by
    exact_mod_cast Nat.pos_iff_ne_zero.mp hline
  have hsingle : ∀ x : Char, String.ofList [x] = String.singleton x := fun _ ↦ rfl
  simp only [punctAt, Token.halves?, String.toList_ofList, Option.map_some, Span.splitAt,
    Span.between, hboth, hafter, hbehind, column_next hc, column_next he, if_neg hlineEnd, hsingle]
  push_cast
  rfl

/-- Two angles that the lexer made in one are two characters of the text, and each half is one of
them, at its own place. -/
theorem exists_halves_of_lexedFrom {file : String} {source : List Char} {t : Token}
    (h : t.LexedFrom file source) (ht : t.isJoined = true) :
    ∃ before c behind, source = before ++ [c, c] ++ behind ∧ t = punctAt file before [c, c] ∧
      t.halves? = some (punctAt file before [c], punctAt file (before ++ [c]) [c]) := by
  obtain ⟨c, hc, hmark, hspells⟩ : ∃ c, c ≠ '\n' ∧ isMark (String.ofList [c, c]) = true ∧
      t.spells (String.ofList [c, c]) = true := by
    rcases Token.isJoined_iff.mp ht with ht | ht
    · exact ⟨'>', by decide, by decide, ht⟩
    · exact ⟨'<', by decide, by decide, ht⟩
  obtain ⟨span, hpunct⟩ := h.regular.eq_punct hmark hspells
  cases h with
  | @leaf kind l htaken hrole =>
    obtain ⟨before, behind, rfl, hfirst, hlast, -⟩ := htaken
    obtain ⟨rfl, htext, -⟩ := Token.leaf.inj hpunct
    rw [String.ofList_inj] at htext
    rw [hfirst, hlast, htext]
    exact ⟨before, c, behind, rfl, rfl, halves?_punctAt hc hc⟩
  | group => cases hpunct

/-! ### Outputs -/

/-- An entry that answers to a destination which keeps its outputs gives back tokens and leaves a
rest, and nothing is lost: together they are the tokens that were given, where some joined angles
may have been cut, each between its two characters. -/
theorem capture_lossless {σ : Type} {file source : String} {ts : List Token}
    (hlex : lex file source = .ok ts) {more : List (Callee × Handler σ)} {returnsTo : Destination}
    {last : Callee} (hleads : returnsTo.LeadsTo (Registry.standardAnd more) last)
    (hkeeps : (Registry.standardAnd more).handler last = Destinations.capture) (limits : Limits)
    (e : Entry) (w : World σ) {value : Value}
    (hvalue : ((runCall (Registry.standardAnd more) limits e.name ts returnsTo).outcome w).1 =
      .ok value) :
    (∃ first rest, value = .outputs [.ofTokens e.output first, .ofTokens "rest" rest] ∧
      first ≠ [] ∧ Cuts ts (first ++ rest) ∧ Behind ts rest) ∧
    ∀ t ∈ ts, t.isJoined = true → ∃ before c behind, source.toList = before ++ [c, c] ++ behind ∧
      t = punctAt file before [c, c] ∧
      t.halves? = some (punctAt file before [c], punctAt file (before ++ [c]) [c]) := by
  refine ⟨?_, fun t ht hjoined ↦ exists_halves_of_lexedFrom (lexedFrom_of_lex hlex t ht) hjoined⟩
  obtain ⟨ds, r, hreads⟩ := exists_reads_of_lex hlex e
  obtain ⟨hfits, hexceeds⟩ := runCall_entry hreads hleads (.capture hkeeps) limits w
  rw [hvalue] at hfits hexceeds
  by_cases hlimits : Fits limits limits.steps.toNat 0 (runDepths ds r)
  · have hresult := hfits hlimits
    cases r with
    | error f => cases hresult
    | ok parsed =>
      obtain ⟨first, rest⟩ := parsed
      rw [returned_entry] at hresult
      cases hresult
      have hlooks : ¬ (e.call ts).Looks := by cases e <;> exact id
      obtain ⟨taken, hfirst, htakes, hne⟩ := hreads.conserves hlooks rfl
      have hbefore : (e.call ts).before = [] := by cases e <;> rfl
      have hahead : (e.call ts).ahead = ts := by cases e <;> rfl
      have hconsumes : (e.call ts).Consumes := by cases e <;> exact trivial
      rw [hbefore, List.nil_append] at hfirst
      rw [hahead] at htakes
      subst hfirst
      exact ⟨first, rest, rfl, hne hconsumes, htakes.cuts, htakes.behind⟩
  · obtain ⟨f, -, hresult⟩ := hexceeds hlimits
    cases hresult

/-- A callee that is registered to keep its outputs. -/
def keeping : Callee := ⟨"keep", none⟩

/-- The callee that keeps its outputs is found by itself. -/
theorem leadsTo_keeping : (Destination.callee (.callee keeping)).LeadsTo
    (Registry.standardAnd (σ := Unit) [(keeping, Destinations.capture)]) keeping := .callee rfl

/-- Paths inside paths, of which the inner two end with one token. -/
def nestedPaths : List Token := (lex "<input>" "A<B<C>>").toOption.getD []

def nestedPathsRun : Except Failure Value :=
  ((runCall (Registry.standardAnd [(keeping, Destinations.capture)]) ⟨128, 100⟩ Entry.path.name
    nestedPaths (.callee (.callee keeping))).outcome (.initial ())).1

/-- Two closing angles are cut where the first of them ends an inner path and the second an outer
one. -/
theorem capture_lossless_nested : lex "<input>" "A<B<C>>" = .ok nestedPaths ∧
    ∃ value, nestedPathsRun = .ok value ∧
      ∃ first rest, value = .outputs [.ofTokens "path" first, .ofTokens "rest" rest] ∧
        first ≠ [] ∧ Cuts nestedPaths (first ++ rest) ∧ Behind nestedPaths rest := by
  have hlex : lex "<input>" "A<B<C>>" = .ok nestedPaths := rfl
  have hok : nestedPathsRun.isOk = true := by decide +kernel
  cases hrun : nestedPathsRun with
  | error f =>
    rw [hrun] at hok
    cases hok
  | ok value =>
    have hall := capture_lossless hlex (.callee rfl) rfl ⟨128, 100⟩ .path (.initial ()) hrun
    exact ⟨hlex, value, rfl, hall.1⟩

end Expander
