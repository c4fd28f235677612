import Expander.Diagnostic.Reporter
import Expander.Proofs.Lexing.Forming
import Expander.Proofs.Source.Lines

/-!
# What the carets are under

A report that is anchored at a token shows the line in which the token begins, with carets below
(`carets_underline`). They stand under the token, or under the part of it that is in that line if it
reaches over more than one. The token begins with a character of the line and is not empty, so there
is a caret that is due and none is added.

How many carets there are is told from lines and columns, and what is under them by counting
characters. That these agree is what is known of lines (`IsLine.place`, `IsLine.lt_lineNumber`).
Both lines begin with a gutter, and the two are equally wide, however many digits the number has.
-/

set_option autoImplicit false

namespace Expander

open Diagnostic

variable {file source : String} {ts : List Token} {t : Token} {r : Reporter} {d : Diagnostic}
  {text before line behind : List Char} {first last : Nat}

/-! ### Where tokens begin -/

/-- A lexeme that is a leaf does not begin with a line feed. -/
theorem head?_text_of_leaf {l : Lexeme} {kind : LeafKind} {behind : List Char} {n : Nat}
    (hfirst : Terminal.first? (l.text ++ behind) = some (l.terminal, n))
    (hrole : l.role = .leaf kind) : (l.text ++ behind).head? ≠ some '\n' := by
  intro hfeed
  obtain ⟨rest, hrest⟩ := Terminal.exists_of_head? hfeed
  rw [hrest, Terminal.first?_of_isBlank rfl, Option.some.injEq, Prod.mk.injEq] at hfirst
  have htrivia : l.role = .trivia := by rw [Lexeme.role, ← hfirst.1]
  cases htrivia.symm.trans hrole

/-- A token of a text is a part of it, and it does not begin with a line feed. -/
theorem Token.Inside.exists_place (h : Token.Inside ts t) (hlex : lex file source = .ok ts) :
    ∃ first last : Nat, t.span = some (spanAt file source.toList first last) ∧ first < last ∧
      last ≤ source.toList.length ∧ source.toList[first]? ≠ some '\n' := by
  cases t with
  | leaf kind text span =>
    cases h.lexedFrom (lexedFrom_of_lex hlex) with
    | @leaf _ l htaken hrole =>
      obtain ⟨-, -, -, -, -, hne⟩ := htaken.prefixes
      obtain ⟨before, behind, hsource, hbegin, hend, n, hfirst, -⟩ := htaken
      have hsource' : before ++ (l.text ++ behind) = source.toList := by
        rw [hsource, List.append_assoc]
      refine ⟨before.length, (before ++ l.text).length, ?_, ?_, ?_, ?_⟩
      · rw [Token.span, hbegin, hend, between_eq file ⟨_, hsource'⟩ ⟨_, hsource.symm⟩]
      · rw [List.length_append]
        exact Nat.lt_add_of_pos_right (List.length_pos_iff.mpr hne)
      · exact List.IsPrefix.length_le ⟨behind, hsource.symm⟩
      · rw [← hsource', List.getElem?_append_right (Nat.le_refl _), Nat.sub_self,
          ← List.head?_eq_getElem?]
        exact head?_text_of_leaf hfirst hrole
  | group d span stream =>
    obtain ⟨before, inner, behind, -, hsource, rfl, -⟩ := h.exists_brackets hlex
    refine ⟨_, _, rfl, by omega, ?_, ?_⟩
    · simp [hsource]
      omega
    · rw [hsource, List.getElem?_append_right (Nat.le_refl _)]
      cases d <;> simp [Delimiter.opening]
  | hollow => cases h.lexedFrom (lexedFrom_of_lex hlex)

/-! ### The number of carets -/

/-- There are as many carets as the token has characters in its first line. -/
theorem caretCount_eq (file : String) (h : IsLine text before line behind)
    (hbefore : before.length ≤ first) (hline : first < before.length + line.length)
    (hlast : first < last) (hle : last ≤ text.length) :
    caretCount (spanAt file text first last) line (first - before.length) =
      min last (before.length + line.length) - first := by
  obtain ⟨hnumber, hcolumn⟩ := h.place hbefore (Nat.le_of_lt hline)
  by_cases hend : last ≤ before.length + line.length
  · obtain ⟨hnumber', hcolumn'⟩ := h.place (Nat.le_trans hbefore (Nat.le_of_lt hlast)) hend
    simp only [caretCount, spanAt, hnumber, hcolumn, hnumber', hcolumn']
    rw [if_neg (by omega), if_pos (by omega)]
    omega
  · have hlater := h.lt_lineNumber (Nat.lt_of_not_le hend) hle
    simp only [caretCount, spanAt, hnumber]
    rw [if_pos (by omega)]
    omega

/-! ### The last lines of a report -/

/-- The gutter with the number of a line. -/
def numberGutter (number : Int) : List Char := (toString number ++ " | ").toList

/-- The gutter below that. -/
def emptyGutter (number : Int) : List Char := (spaces ((toString number).length + 1) ++ "| ").toList

/-- The gutter of the carets is as wide as that of the line above. -/
theorem length_emptyGutter (number : Int) :
    (emptyGutter number).length = (numberGutter number).length := by
  simp [emptyGutter, numberGutter, spaces, String.length_toList]

/-- A label with the blank before it, or nothing. -/
def labelText (d : Diagnostic) : List Char := (shown d.label).elim [] fun label ↦ ' ' :: label.toList

theorem feed_notMem_labelText (h : ∀ label ∈ d.label, '\n' ∉ label.toList) : '\n' ∉ labelText d := by
  rw [labelText]
  cases hshown : shown d.label with
  | none => exact List.not_mem_nil
  | some label =>
    have hlabel := h label (Option.mem_filter_iff.mp hshown).1
    simpa using hlabel

/-- Lines at the end of styled text are the last lines of its rendering, if they are lines. -/
theorem exists_splitLines_render {a b : StyledLine} (styled : StyledText)
    (ha : '\n' ∉ (a.render false).toList) (hb : '\n' ∉ (b.render false).toList) :
    ∃ front, splitLines (StyledText.render false (styled ++ [a, b])).toList =
      front ++ [(a.render false).toList, (b.render false).toList] := by
  induction styled with
  | nil =>
    refine ⟨[], ?_⟩
    have hrender : (StyledText.render false [a, b]).toList =
        (a.render false).toList ++ '\n' :: (b.render false).toList := by
      simp [StyledText.render]
    rw [List.nil_append, hrender, splitLines_append_feed, splitLines_of_notMem ha,
      splitLines_of_notMem hb]
    rfl
  | cons x styled ih =>
    obtain ⟨front, hfront⟩ := ih
    refine ⟨splitLines (x.render false).toList ++ front, ?_⟩
    obtain ⟨y, ys, hys⟩ := List.exists_cons_of_ne_nil (l := styled ++ [a, b]) (by simp)
    have hrender : (StyledText.render false (x :: styled ++ [a, b])).toList =
        (x.render false).toList ++ '\n' :: (StyledText.render false (styled ++ [a, b])).toList := by
      rw [List.cons_append, hys]
      simp [StyledText.render]
    rw [hrender, splitLines_append_feed, hfront, List.append_assoc]

/-- No number has a line feed in it. -/
theorem feed_notMem_toString (number : Nat) : '\n' ∉ (toString (number : Int)).toList := by
  intro hmem
  rcases isDigit_of_mem_toString hmem with hdigit | hsign
  · cases hdigit
  · cases hsign

/-- A line behind its number, and carets with the label below it, as they are styled. -/
def lastLines (d : Diagnostic) (number : Int) (line : List Char) (indent carets : Nat) :
    StyledLine × StyledLine :=
  ([gutter (toString number ++ " | "), .plain (String.ofList line)],
    [gutter (spaces ((toString number).length + 1) ++ "| "),
      heading (String.ofList (List.replicate indent ' ' ++ List.replicate carets '^') ++
        String.ofList (labelText d))])

/-- The line that is quoted stands behind its number. -/
theorem toList_numbered (d : Diagnostic) (number : Int) (line : List Char) (indent carets : Nat) :
    ((lastLines d number line indent carets).1.render false).toList =
      numberGutter number ++ line := by
  simp [lastLines, StyledLine.render, Segment.render, gutter, Segment.plain, numberGutter]

/-- The carets stand behind an empty gutter, as far in as the place in the line. -/
theorem toList_carets (d : Diagnostic) (number : Int) (line : List Char) (indent carets : Nat) :
    ((lastLines d number line indent carets).2.render false).toList = emptyGutter number ++
      (List.replicate indent ' ' ++ (List.replicate carets '^' ++ labelText d)) := by
  simp [lastLines, StyledLine.render, Segment.render, gutter, heading, emptyGutter]

section

variable {span : Span} {indent carets : Nat}

/-- Without help and note, a report ends with the line of its place and the carets. -/
theorem exists_styled_eq (hspan : d.span = some span) (hsource : r.source? span.file = some source)
    (hhelp : shown d.help = none) (hnote : shown d.note = none)
    (hline : lineAt source.toList span.line = line)
    (hindent : (max span.column 1 - 1).toNat = indent)
    (hcarets : caretCount span line indent = carets) : ∃ above : StyledText,
      d.styled r.source? = above ++ [(lastLines d span.line line indent carets).1,
        (lastLines d span.line line indent carets).2] := by
  subst hline hindent hcarets
  refine ⟨[d.headline, placeLine (toString span.line).length span.text,
    [gutter (spaces ((toString span.line).length + 1) ++ "|")]], ?_⟩
  have hblank (label : String) : String.ofList (' ' :: label.toList) = " " ++ label := by
    rw [← String.toList_inj]
    simp
  cases hshown : shown d.label with
  | none =>
    simp [styled, hspan, hsource, snippet, remarks, hhelp, hnote, lastLines, labelText, hshown]
  | some label =>
    simp [styled, hspan, hsource, snippet, remarks, hhelp, hnote, lastLines, labelText, hshown,
      hblank]

/-- The last two lines of a report, if there are no line feeds in them. -/
theorem exists_splitLines_format (hspan : d.span = some span)
    (hsource : r.source? span.file = some source) (hhelp : shown d.help = none)
    (hnote : shown d.note = none) (hline : lineAt source.toList span.line = line)
    (hindent : (max span.column 1 - 1).toNat = indent)
    (hcarets : caretCount span line indent = carets) (hnumber : '\n' ∉ (toString span.line).toList)
    (hfeeds : '\n' ∉ line) (hlabel : '\n' ∉ labelText d) :
    ∃ front, splitLines (r.format false d).toList = front ++ [numberGutter span.line ++ line,
      emptyGutter span.line ++ (List.replicate indent ' ' ++
        (List.replicate carets '^' ++ labelText d))] := by
  obtain ⟨above, habove⟩ := exists_styled_eq hspan hsource hhelp hnote hline hindent hcarets
  rw [Reporter.format, habove, ← toList_numbered d span.line line indent carets,
    ← toList_carets d span.line line indent carets]
  apply exists_splitLines_render
  · rw [toList_numbered]
    simpa [numberGutter, hfeeds] using hnumber
  · rw [toList_carets]
    simp [emptyGutter, spaces, hlabel]

end

/-! ### What is underlined -/

/-- The last two lines of a rendering are a line of a text behind its number, and carets with a
label behind them. Above the carets is the part of the text between two offsets. -/
structure Underlines (text rendering label before line : List Char) (first stop : Nat) : Prop where
  isLine : ∃ behind, IsLine text before line behind
  begins : before.length ≤ first
  filled : first < stop
  stops : stop ≤ before.length + line.length
  gutters : (emptyGutter (lineNumber text first)).length =
    (numberGutter (lineNumber text first)).length
  rendered : ∃ front, splitLines rendering = front ++
    [numberGutter (lineNumber text first) ++ line,
      emptyGutter (lineNumber text first) ++ (List.replicate (columnNumber text first - 1) ' ' ++
        (List.replicate (stop - first) '^' ++ label))]
  underlined : (line.drop (columnNumber text first - 1)).take (stop - first) =
    (text.take stop).drop first

/-- A report without help and note that is anchored at a token of a text ends with the line in which
the token begins, and with carets under the token up to the end of that line, and the label. -/
theorem carets_underline (hlex : lex file source = .ok ts) (ht : Token.Inside ts t)
    (hspan : d.span = t.span) (hsource : r.source? file = some source)
    (hhelp : shown d.help = none) (hnote : shown d.note = none)
    (hlabel : ∀ label ∈ d.label, '\n' ∉ label.toList) :
    ∃ (first last : Nat) (before line : List Char),
      t.span = some (spanAt file source.toList first last) ∧
      Underlines source.toList (r.format false d).toList (labelText d) before line first
        (min last (before.length + line.length)) := by
  obtain ⟨first, last, hplace, hlt, hle, hfeed⟩ := ht.exists_place hlex
  have hin : first < source.toList.length := Nat.lt_of_lt_of_le hlt hle
  obtain ⟨before, line, behind, hline, hbefore, hend⟩ := exists_isLine (Nat.le_of_lt hin)
  have hwithin := hline.lt_of_getElem? hend hin hfeed
  obtain ⟨hnumber, hcolumn⟩ := hline.place hbefore (Nat.le_of_lt hwithin)
  refine ⟨first, last, before, line, hplace, ⟨behind, hline⟩, hbefore, by omega, by omega,
    length_emptyGutter _, ?_, ?_⟩
  · have hat : lineAt source.toList (spanAt file source.toList first last).line = line := by
      rw [spanAt, hnumber]
      exact hline.lineAt_eq
    have hindent : (max (spanAt file source.toList first last).column 1 - 1).toNat =
        first - before.length := by
      simp only [spanAt]
      omega
    have hcarets := caretCount_eq file hline hbefore hwithin hlt hle
    have hnumeral := feed_notMem_toString (lineNumber source.toList first)
    rw [hcolumn, Nat.add_sub_cancel]
    have hrendered := exists_splitLines_format (hspan.trans hplace) hsource hhelp hnote hat hindent
      hcarets hnumeral hline.notMem (feed_notMem_labelText hlabel)
    exact hrendered
  · rw [hcolumn, Nat.add_sub_cancel]
    exact hline.take_drop hbefore (Nat.min_le_right _ _)

/-- A call over two lines. -/
def twoLineCall : List Token := (lex "<input>" "f(a,\n b)").toOption.getD []

/-- A report on its arguments. -/
def argumentReport : Diagnostic where
  message := "unexpected arguments"
  span := some (spanAt "<input>" "f(a,\n b)".toList 1 8)
  code := none
  help := none
  note := none
  label := some "here"

def callReporter : Reporter := .ofSources [("<input>", "f(a,\n b)")]

/-- The arguments are underlined up to the end of the first line. -/
theorem carets_underline_twoLineCall : lex "<input>" "f(a,\n b)" = .ok twoLineCall ∧
    ∃ t, Token.Inside twoLineCall t ∧ argumentReport.span = t.span ∧
      ∃ (first last : Nat) (before line : List Char),
        t.span = some (spanAt "<input>" "f(a,\n b)".toList first last) ∧
        Underlines "f(a,\n b)".toList (callReporter.format false argumentReport).toList
          (labelText argumentReport) before line first
          (min last (before.length + line.length)) := by
  have hlex : lex "<input>" "f(a,\n b)" = .ok twoLineCall := rfl
  obtain ⟨f, stream, htokens⟩ : ∃ f stream,
      twoLineCall = [f, .group .paren argumentReport.span stream] := ⟨_, _, rfl⟩
  have hgroup : Token.Inside twoLineCall (.group .paren argumentReport.span stream) := by
    rw [htokens]
    exact .here (List.mem_cons_of_mem f List.mem_cons_self)
  refine ⟨hlex, _, hgroup, rfl, ?_⟩
  exact carets_underline hlex hgroup rfl (by decide) rfl rfl (by simp [argumentReport])

example : callReporter.format false argumentReport =
    "error: unexpected arguments\n --> <input>:1:2\n  |\n1 | f(a,\n  |  ^^^ here" := by
  decide +kernel

end Expander
