import Expander.Proofs.Lexing.Forming
import Expander.Proofs.Lexing.Respacing

/-!
# Parts of a text

The lexemes of a text stay as they are when another rest that ends their line is put behind them,
unless that makes a comment of what was none (`Scans.resumes`). So a text can be cut off behind any
of its lexemes, and what stands between the brackets of a group is lexed on its own to the stream of
the group (`lex_between_brackets`).

Two texts, one line under the other, are lexed to the tokens of both, but for one case
(`lex_lines`). Where the first text opens a comment and does not close it, the two characters are
punctuation there, and if a comment ends in the second, all that is between becomes one comment
(`comment_over_lines`).
-/

set_option autoImplicit false

namespace Expander

open Terminal Token

variable {file s t : String} {before cs rest rest' x : List Char} {ls ls' : List Lexeme}
  {ts us stream : List Token} {d : Delimiter} {span : Option Span}

/-! ### Another rest -/

/-- What may stand at the end of a line: nothing, or another line. -/
def EndsLine (cs : List Char) : Prop := ∀ c ∈ cs.head?, c = '\n'

/-- Where a line ends there is a halt. -/
theorem EndsLine.halts (h : EndsLine cs) : Halts cs := by
  intro c hc
  rw [h c hc]
  decide

theorem endsLine_nil : EndsLine [] := nofun

/-- What ends a line does so in front of another rest, if that does. -/
theorem EndsLine.append {text : List Char} (h : EndsLine (text ++ rest)) (hrest : EndsLine rest') :
    EndsLine (text ++ rest') := by
  cases text with
  | nil => exact hrest
  | cons c text => exact h

/-- Wherever lexemes are, no comment begins with another rest behind them that does not begin with
the first. -/
def KeepsComments (ls : List Lexeme) (rest rest' : List Char) : Prop :=
  ∀ back, back <:+ ls → blockCommentWidth (back.flatMap Lexeme.text ++ rest) = none →
    blockCommentWidth (back.flatMap Lexeme.text ++ rest') = none

/-- What keeps the comments of some lexemes keeps those of the later ones. -/
theorem KeepsComments.tail {l : Lexeme} (h : KeepsComments (l :: ls) rest rest') :
    KeepsComments ls rest rest' :=
  fun back hback ↦ h back (hback.trans (List.suffix_cons l ls))

/-- What is lexed as blank is made of blanks. -/
theorem isBlank_of_first? (hfirst : first? (x ++ cs) = some (blank, x.length)) :
    ∀ c ∈ x, isBlank c = true := by
  obtain ⟨-, hrun⟩ := taken_eq_some_iff.mp (first?_eq_some_iff.mp hfirst).1
  have hall := of_mem_take_run isBlank (x ++ cs)
  rwa [hrun, List.take_left] at hall

/-- A line comment is two strokes and no line feed, and what is behind it ends the line. -/
theorem exists_of_first?_lineComment
    (hfirst : first? (x ++ cs) = some (lineComment, x.length)) :
    ∃ body, x = '/' :: '/' :: body ∧ (∀ c ∈ body, c ≠ '\n') ∧ EndsLine cs := by
  obtain ⟨body, behind, heq, hlength, hbody, hbehind⟩ :=
    exists_of_lineCommentWidth (first?_eq_some_iff.mp hfirst).1
  obtain ⟨rfl, rfl⟩ := List.append_inj heq hlength.symm
  exact ⟨body, rfl, hbody, hbehind⟩

/-- A line comment is taken in front of anything that ends the line. -/
theorem first?_lineComment (hfirst : first? (x ++ cs) = some (lineComment, x.length))
    (hrest : EndsLine rest) : first? (x ++ rest) = some (lineComment, x.length) := by
  obtain ⟨body, rfl, hbody, -⟩ := exists_of_first?_lineComment hfirst
  have hrun : run (· ≠ '\n') (body ++ rest) = body.length :=
    run_append (by simpa using hbody) fun c hc ↦ by simp [hrest c hc]
  refine first?_eq_some_iff.mpr ⟨?_, List.forall_mem_singleton.mpr rfl⟩
  exact congrArg (fun n ↦ some (n + 2)) hrun

/-- Behind lexemes, another rest that ends the line takes the place of the first, if it makes no
comment of what was none. -/
theorem Scans.resumes (h : Scans before cs ls rest) (hrest : EndsLine rest')
    (hcomments : KeepsComments ls rest rest') (hbehind : ScansAlike rest' ls') :
    ScansAlike (ls.flatMap Lexeme.text ++ rest') (ls ++ ls') ∧
      Resumes cs (ls.flatMap Lexeme.text ++ rest') := by
  induction h with
  | @nil before rest =>
    exact ⟨hbehind, ⟨[], rest, rest', rfl, rfl, hrest.halts⟩, .inl hrest.halts⟩
  | @cons before x cs rest terminal ls hfirst h ih =>
    obtain ⟨halike, hresumes⟩ := ih hcomments.tail
    have htext (tail : List Char) :
        (Lexeme.behind before terminal x :: ls).flatMap Lexeme.text ++ tail =
          x ++ (ls.flatMap Lexeme.text ++ tail) := List.append_assoc _ _ _
    rw [htext]
    by_cases hblank : terminal = blank
    · subst hblank
      have hx := isBlank_of_first? hfirst
      refine ⟨fun before' ↦ ?_, hresumes.alike.append x, .inl ?_⟩
      · obtain ⟨ms, hscans, hms⟩ := halike.behind_blanks hx before'
        exact ⟨ms, hscans, .right rfl hms⟩
      · refine halts_append (fun c hc ↦ mem_haltChars_of_isBlank (hx c hc)) fun hnil ↦ ?_
        rw [hnil] at hfirst
        exact absurd (first?_le hfirst).1 (Nat.lt_irrefl 0)
    · have hfirst' : first? (x ++ (ls.flatMap Lexeme.text ++ rest')) =
          some (terminal, x.length) := by
        by_cases hline : terminal = lineComment
        · subst hline
          obtain ⟨-, -, -, hends⟩ := exists_of_first?_lineComment hfirst
          rw [h.eq_append] at hends
          exact first?_lineComment hfirst (hends.append hrest)
        · have hcomment := hcomments _ List.suffix_rfl
          rw [htext, htext, ← h.eq_append] at hcomment
          exact hresumes.first?_eq hblank hline hcomment hfirst
      refine ⟨fun before' ↦ ?_, hresumes.alike.append x, .inr ⟨_, hfirst, hfirst'⟩⟩
      obtain ⟨ms, hscans, hms⟩ := halike (before' ++ x)
      exact ⟨_, .cons hfirst' hscans, .both rfl rfl hms⟩

/-- Where a text is cut off, no comment begins that did not begin before. -/
theorem keepsComments_nil : KeepsComments ls rest [] := by
  intro back _ hnone
  refine Option.eq_none_iff_forall_ne_some.mpr fun n hn ↦ ?_
  obtain ⟨text, more, heq, -, -, hall⟩ := closes_blockCommentWidth _ n hn
  rw [List.append_nil] at heq
  rw [heq, List.append_assoc, hall] at hnone
  cases hnone

/-- A text may be cut off behind any of its lexemes. -/
theorem Scans.scansAlike_text (h : Scans before cs ls rest) :
    ScansAlike (ls.flatMap Lexeme.text) ls := by
  obtain ⟨halike, -⟩ := h.resumes endsLine_nil keepsComments_nil scansAlike_nil
  rwa [List.append_nil, List.append_nil] at halike

/-- A text is lexed to what is formed of the lexemes that it is alike. -/
theorem ScansAlike.lex_same {text : List Char} (h : ScansAlike text ls) (hls : Forms file ls ts)
    (file' : String) :
    ∃ us, lex file' (String.ofList text) = .ok us ∧ sameAll us ts = true := by
  obtain ⟨ms, hscans, halike⟩ := h []
  have hsame := halike.lex_same hscans (hls.foldlM_eq .empty) rfl file'
  simpa [Lexing.Trees.empty] using hsame

/-! ### Groups -/

/-- Between the brackets of a group, at any depth, stands a text that is lexed on its own, to the
stream of the group. -/
theorem lex_between_brackets (hlex : lex file s = .ok ts)
    (hgroup : Token.Inside ts (.group d span stream)) (file' : String) :
    ∃ before inner behind, s.toList = before ++ d.opening :: (inner ++ d.closing :: behind) ∧
      span = some (spanAt file s.toList before.length (before.length + inner.length + 2)) ∧
      ∃ us, lex file' (String.ofList inner) = .ok us ∧ sameAll us stream = true := by
  obtain ⟨before, inner, behind, ls, hs, hspan, hscans, hforms⟩ := hgroup.exists_brackets hlex
  refine ⟨before, inner, behind, hs, hspan, ?_⟩
  have hinner : inner = ls.flatMap Lexeme.text := List.append_cancel_right hscans.eq_append
  exact hinner ▸ hscans.scansAlike_text.lex_same hforms file'

/-- The brackets in the string between the inner brackets, and the comment before them, make no
difference. -/
theorem lex_between_brackets_commented :
    lex "<input>" "f(/* ) */ 'a,\n[\"(\n\"]) // g(" = .ok commentedCall ∧
    ∃ span stream, Token.Inside commentedCall (.group .bracket span stream) ∧
      ∃ before inner behind, "f(/* ) */ 'a,\n[\"(\n\"]) // g(".toList =
          before ++ '[' :: (inner ++ ']' :: behind) ∧
        span = some (spanAt "<input>" "f(/* ) */ 'a,\n[\"(\n\"]) // g(".toList before.length
          (before.length + inner.length + 2)) ∧
        ∃ us, lex "<inner>" (String.ofList inner) = .ok us ∧ sameAll us stream = true := by
  have hlex : lex "<input>" "f(/* ) */ 'a,\n[\"(\n\"]) // g(" = .ok commentedCall := rfl
  obtain ⟨f, outer, a, comma, span, stream, htokens⟩ : ∃ f outer a comma span stream,
      commentedCall = [f, .group .paren outer [a, comma, .group .bracket span stream]] :=
    ⟨_, _, _, _, _, _, rfl⟩
  have hgroup : Token.Inside commentedCall (.group .bracket span stream) := by
    rw [htokens]
    exact .within (List.mem_cons_of_mem _ List.mem_cons_self) (.here (by simp))
  exact ⟨hlex, span, stream, hgroup, lex_between_brackets hlex hgroup "<inner>"⟩

/-! ### Lines -/

/-- A text opens a comment and does not close it: behind some lexemes stand the two characters with
which a comment begins, and behind them nothing with which one ends. -/
def LeavesCommentOpen (cs : List Char) : Prop :=
  ∃ ls rest, Scans [] cs ls ('/' :: '*' :: rest) ∧ ¬ commentEnd <:+: rest

/-- Another line makes a comment only of what was left open, and only if a comment ends in it. -/
theorem keepsComments_line {line : List Char} (h : Scans [] cs ls [])
    (hopen : LeavesCommentOpen cs → ¬ commentEnd <:+: line) : KeepsComments ls [] ('\n' :: line) := by
  intro back hback hnone
  obtain ⟨front, rfl⟩ := hback
  refine Option.eq_none_iff_forall_ne_some.mpr fun n hn ↦ ?_
  have hhalts : Halts ('\n' :: line) := by simp [Halts, haltChars]
  obtain ⟨body, behind, heq, -⟩ := exists_of_blockCommentWidth hn
  have hprefix : ['/', '*'] <+: back.flatMap Lexeme.text ++ '\n' :: line := ⟨_, heq.symm⟩
  obtain ⟨rest, hrest⟩ := prefix_of_halts (by simp [haltChars]) hhalts hprefix
  obtain ⟨mid, hfront, hmid⟩ := h.exists_append
  have hleft : ¬ commentEnd <:+: rest := by
    rw [← hrest, List.append_nil] at hnone
    exact blockCommentTail_eq_none_iff.mp (Option.map_eq_none_iff.mp hnone)
  have hmid' := hmid.eq_append
  rw [List.append_nil, ← hrest] at hmid'
  rw [hmid'] at hfront
  refine hopen ⟨front, rest, hfront, hleft⟩ ?_
  have hend : commentEnd <:+: rest ++ '\n' :: line := by
    rw [← hrest] at heq
    exact ⟨body, behind, by simpa using heq.symm⟩
  have hfeed : '*' ∉ ['\n'] := by simp
  exact commentEnd_infix_behind hfeed ((commentEnd_infix_append hhalts hend).resolve_left hleft)

/-- A text with another on the lines below it is lexed to the tokens of both, unless a comment that
the first leaves open ends in the second. -/
theorem lex_lines (hs : lex file s = .ok ts) (ht : lex file t = .ok us)
    (hopen : LeavesCommentOpen s.toList → ¬ commentEnd <:+: t.toList) (file' : String) :
    ∃ vs, lex file' (s ++ "\n" ++ t) = .ok vs ∧ sameAll vs (ts ++ us) = true := by
  obtain ⟨ls, hscans, hforms⟩ := lex_eq_ok_iff_forms.mp hs
  obtain ⟨ls', hscans', hforms'⟩ := lex_eq_ok_iff_forms.mp ht
  have hline : ScansAlike ('\n' :: t.toList) ls' := by
    have hchars' := hscans'.eq_append
    rw [List.append_nil] at hchars'
    have hfeed : ∀ c ∈ ['\n'], isBlank c = true := by simp [isBlank]
    exact hchars' ▸ hscans'.scansAlike_text.behind_blanks hfeed
  have hends : EndsLine ('\n' :: t.toList) := by simp [EndsLine]
  obtain ⟨hchain, -⟩ := hscans.resumes hends (keepsComments_line hscans hopen) hline
  have hchars := hscans.eq_append
  rw [List.append_nil] at hchars
  rw [← hchars] at hchain
  have htext : String.ofList (s.toList ++ '\n' :: t.toList) = s ++ "\n" ++ t := by
    rw [← String.toList_inj]
    simp
  exact htext ▸ hchain.lex_same (hforms.append hforms') file'

/-- The first line leaves a comment open, but none ends in the second. -/
theorem lex_lines_open : ∃ ts us, lex "<input>" "a /* b // c" = .ok ts ∧ lex "<input>" "d" = .ok us ∧
    ¬ commentEnd <:+: "d".toList ∧ ∃ vs, lex "<input>" ("a /* b // c" ++ "\n" ++ "d") = .ok vs ∧
      sameAll vs (ts ++ us) = true := by
  obtain ⟨ts, us, hs, ht⟩ : ∃ ts us, lex "<input>" "a /* b // c" = .ok ts ∧
      lex "<input>" "d" = .ok us := ⟨_, _, rfl, rfl⟩
  have hend : ¬ commentEnd <:+: "d".toList := by decide
  exact ⟨ts, us, hs, ht, hend, lex_lines hs ht (fun _ ↦ hend) "<input>"⟩

/-- A comment that is open in one line and ends in the next is punctuation in each of them, and
nothing in both. -/
theorem comment_over_lines : ∃ ts us, lex "<input>" "/*" = .ok ts ∧ lex "<input>" "*/" = .ok us ∧
    lex "<input>" ("/*" ++ "\n" ++ "*/") = .ok [] ∧
    ¬ ∃ vs, lex "<input>" ("/*" ++ "\n" ++ "*/") = .ok vs ∧ sameAll vs (ts ++ us) = true := by
  have hlines : lex "<input>" ("/*" ++ "\n" ++ "*/") = .ok [] := rfl
  refine ⟨_, _, rfl, rfl, hlines, ?_⟩
  rintro ⟨vs, hvs, hsame⟩
  obtain rfl : [] = vs := Except.ok.inj (hlines.symm.trans hvs)
  cases hsame

end Expander
