import Expander.Proofs.Lexing.Chain
import Expander.Token.Pattern

/-!
# Where tokens come from

Every token that the lexer makes stands in the source text, at every depth. A leaf is a lexeme: the
text that one terminal takes at a place, with the span of that place (`Lexeme.TakenFrom`). A group
reaches from a lexeme that opens it to one that closes it (`Token.LexedFrom`).

Two facts follow that the grammar relies on. No identifier is spelled like punctuation, and no group
is without a stream (`Token.Regular`). So a token that is to be cut into halves can be cut, and a
group that is to be looked into can be looked into.
-/

set_option autoImplicit false

namespace Expander

/-! ### Lexemes -/

/-- A lexeme of a text: what a terminal takes at a place of the text, with the place. -/
def Lexeme.TakenFrom (source : List Char) (l : Lexeme) : Prop :=
  ∃ before behind, source = before ++ l.text ++ behind ∧ l.first = Position.start.after before ∧
    l.last = Position.start.after (before ++ l.text) ∧
    ∃ n, Terminal.first? (l.text ++ behind) = some (l.terminal, n) ∧
      l.text = (l.text ++ behind).take n

/-- The lexemes of a chain stand in the text that it is a chain of. -/
theorem Scans.takenFrom {before cs rest : List Char} {ls : List Lexeme}
    (h : Scans before cs ls rest) : ∀ l ∈ ls, l.TakenFrom (before ++ cs) := by
  induction h with
  | nil => simp
  | @cons before text cs rest terminal ls hfirst _ ih =>
    intro l hl
    rcases List.mem_cons.mp hl with rfl | hl
    · exact ⟨before, cs, by simp [Lexeme.behind], rfl, rfl, _, hfirst,
        List.take_left.symm⟩
    · simpa using ih l hl

/-- A lexeme stands between the ends of two front parts of its text. -/
theorem Lexeme.TakenFrom.prefixes {source : List Char} {l : Lexeme} (h : l.TakenFrom source) :
    ∃ front, front <+: source ∧ front ++ l.text <+: source ∧
      l.first = Position.start.after front ∧
      l.last = Position.start.after (front ++ l.text) ∧ l.text ≠ [] := by
  obtain ⟨front, behind, rfl, hfirst, hlast, n, htaken, htext⟩ := h
  refine ⟨front, ?_, List.prefix_append _ _, hfirst, hlast, ?_⟩
  · rw [List.append_assoc]
    exact List.prefix_append _ _
  · rintro hnil
    rw [hnil, List.nil_append] at htaken htext
    obtain ⟨hpos, hle⟩ := Terminal.first?_le htaken
    have hlength := congrArg List.length htext
    rw [List.length_take_of_le hle] at hlength
    exact absurd hpos (hlength ▸ Nat.lt_irrefl 0)

/-! ### Tokens -/

/-- A token that the lexer makes of a text. -/
inductive Token.LexedFrom (file : String) (source : List Char) : Token → Prop
  | leaf {kind : LeafKind} {l : Lexeme} (htaken : l.TakenFrom source)
      (hrole : l.role = .leaf kind) :
      LexedFrom file source
        (.leaf kind (String.ofList l.text) (some (.between file l.first l.last)))
  | group {d : Delimiter} {opener closer : Lexeme} {stream : List Token}
      (hopener : opener.TakenFrom source) (hopening : opener.role = .opening d)
      (hcloser : closer.TakenFrom source) (hclosing : closer.role = .closing d)
      (hstream : ∀ t ∈ stream, LexedFrom file source t) :
      LexedFrom file source (.group d (some (.between file opener.first closer.last)) stream)

namespace Lexing

/-- Trees in the making that are made of lexemes of a text. -/
structure Trees.LexedFrom (file : String) (source : List Char) (t : Trees) : Prop where
  done : ∀ u ∈ t.done, u.LexedFrom file source
  levels : ∀ level ∈ t.levels, level.bracket.TakenFrom source ∧
    level.bracket.role = .opening level.delimiter ∧ ∀ u ∈ level.before, u.LexedFrom file source

/-- Where nothing is lexed yet, all tokens come from the source. -/
theorem lexedFrom_empty {file : String} {source : List Char} :
    Trees.empty.LexedFrom file source where
  done := List.forall_mem_nil _
  levels := List.forall_mem_nil _

/-- A lexeme of the source adds a token of it, or the bracket of a group. -/
theorem lexedFrom_push {file : String} {source : List Char} {t t' : Trees} {l : Lexeme}
    (ht : t.LexedFrom file source) (hl : l.TakenFrom source) (h : t.push file l = .ok t') :
    t'.LexedFrom file source := by
  rw [Trees.push] at h
  cases hrole : l.role with
  | trivia =>
    simp only [hrole, Except.ok.injEq] at h
    rwa [← h]
  | leaf kind =>
    simp only [hrole, Except.ok.injEq] at h
    rw [← h]
    refine ⟨?_, ht.levels⟩
    intro u hu
    rcases List.mem_cons.mp hu with rfl | hu
    · exact .leaf hl hrole
    · exact ht.done u hu
  | opening d =>
    simp only [hrole, Except.ok.injEq] at h
    rw [← h]
    refine ⟨by simp, ?_⟩
    intro level hlevel
    rcases List.mem_cons.mp hlevel with rfl | hlevel
    · exact ⟨hl, hrole, ht.done⟩
    · exact ht.levels level hlevel
  | closing d =>
    cases hlevels : t.levels with
    | nil => simp [hrole, hlevels] at h
    | cons level outer =>
      by_cases hd : level.delimiter = d
      · obtain ⟨hbracket, hopening, hbefore⟩ := ht.levels level (by simp [hlevels])
        simp only [hrole, hlevels, if_pos hd, Except.ok.injEq] at h
        rw [← h]
        refine ⟨?_, fun level hlevel ↦ ht.levels level (by simp [hlevels, hlevel])⟩
        intro u hu
        rcases List.mem_cons.mp hu with rfl | hu
        · rw [hd] at hopening
          exact .group hbracket hopening hl hrole fun u hu ↦ ht.done u (List.mem_reverse.mp hu)
        · exact hbefore u hu
      · simp [hrole, hlevels, if_neg hd] at h

/-- Lexemes that are taken one by one: the first of them, and then the others. -/
theorem foldlM_push_cons_iff {file : String} {l : Lexeme} {ls : List Lexeme} {t t' : Trees} :
    (l :: ls).foldlM (Trees.push file) t = .ok t' ↔
      ∃ t₁, t.push file l = .ok t₁ ∧ ls.foldlM (Trees.push file) t₁ = .ok t' := by
  rw [List.foldlM_cons]
  cases t.push file l with
  | error e => simp [bind, Except.bind]
  | ok t₁ => simp [bind, Except.bind]

/-- So do all its lexemes. -/
theorem lexedFrom_foldlM {file : String} {source : List Char} {ls : List Lexeme} {t t' : Trees}
    (ht : t.LexedFrom file source) (hls : ∀ l ∈ ls, l.TakenFrom source)
    (h : ls.foldlM (Trees.push file) t = .ok t') : t'.LexedFrom file source := by
  induction ls generalizing t with
  | nil =>
    cases h
    exact ht
  | cons l ls ih =>
    obtain ⟨t₁, hpush, hfold⟩ := foldlM_push_cons_iff.mp h
    exact ih (lexedFrom_push ht (hls l List.mem_cons_self) hpush)
      (fun l hl ↦ hls l (List.mem_cons_of_mem _ hl)) hfold

end Lexing

/-- Whatever the lexer makes of a text stands in that text. -/
theorem lexedFrom_of_lex {file source : String} {ts : List Token} (h : lex file source = .ok ts) :
    ∀ t ∈ ts, t.LexedFrom file source.toList := by
  obtain ⟨ls, t, hscans, hfold, -, rfl⟩ := lex_eq_ok_iff.mp h
  have ht : t.LexedFrom file source.toList :=
    Lexing.lexedFrom_foldlM Lexing.lexedFrom_empty hscans.takenFrom hfold
  exact fun u hu ↦ ht.done u (List.mem_reverse.mp hu)

/-! ### Tokens inside others -/

/-- A token of a sequence, at any depth. -/
inductive Token.Inside : List Token → Token → Prop
  | here {ts : List Token} {t : Token} (h : t ∈ ts) : Inside ts t
  | within {ts stream : List Token} {d : Delimiter} {span : Option Span} {t : Token}
      (hgroup : .group d span stream ∈ ts) (h : Inside stream t) : Inside ts t

section

variable {file : String} {ts us inner : List Token} {t u : Token} {d : Delimiter}
  {span : Option Span}

/-- What is inside a group that is inside a sequence is inside the sequence. -/
theorem Token.Inside.stream (h : Inside ts (.group d span inner)) (ht : t ∈ inner) :
    Inside ts t := by
  generalize hg : Token.group d span inner = g at h
  induction h with
  | here hmem => exact .within (hg ▸ hmem) (.here ht)
  | within hgroup _ ih => exact .within hgroup (ih hg)

/-- A token inside a sequence is the first, or inside it, or inside the rest. -/
theorem Token.inside_cons_iff : Inside (u :: us) t ↔
    t = u ∨ (∃ d span stream, u = .group d span stream ∧ Inside stream t) ∨ Inside us t := by
  constructor
  · rintro (hmem | ⟨hgroup, h⟩)
    · exact (List.mem_cons.mp hmem).imp_right fun hmem ↦ .inr (.here hmem)
    · rcases List.mem_cons.mp hgroup with rfl | hgroup
      · exact .inr (.inl ⟨_, _, _, rfl, h⟩)
      · exact .inr (.inr (.within hgroup h))
  · rintro (rfl | ⟨d, span, stream, rfl, h⟩ | hmem | ⟨hgroup, h⟩)
    · exact .here List.mem_cons_self
    · exact .within List.mem_cons_self h
    · exact .here (List.mem_cons_of_mem u hmem)
    · exact .within (List.mem_cons_of_mem u hgroup) h

/-- What is inside tokens of a source is of that source. -/
theorem Token.Inside.lexedFrom {source : List Char} (h : Token.Inside ts t)
    (hts : ∀ u ∈ ts, u.LexedFrom file source) : t.LexedFrom file source := by
  induction h with
  | here hmem => exact hts _ hmem
  | within hgroup _ ih =>
    cases hts _ hgroup with
    | group _ _ _ _ hstream => exact ih hstream

end

/-! ### Regular tokens -/

/-- Whether a spelling is not that of a word. A lone underscore is none. -/
def isMark (spelling : String) : Bool :=
  spelling = "_" || !(spelling.toList.head?.any Terminal.isWordStart)

/-- A token of which no identifier is spelled like punctuation and no group is without a stream. -/
inductive Token.Regular : Token → Prop
  | leaf {kind : LeafKind} {text : String} {span : Option Span}
      (h : kind = .ident → isMark text = false) : Regular (.leaf kind text span)
  | group {d : Delimiter} {span : Option Span} {stream : List Token}
      (h : ∀ t ∈ stream, Regular t) : Regular (.group d span stream)

/-- An identifier is a word, and not the underscore. -/
theorem word_of_ident {l : Lexeme} (h : l.role = .leaf .ident) :
    l.terminal = .word ∧ l.text ≠ ['_'] := by
  rw [Lexeme.role] at h
  cases hterminal : l.terminal <;> simp_all

/-- An identifier is spelled as no mark, since no mark begins as words do. -/
theorem isMark_of_ident {source : List Char} {l : Lexeme} (htaken : l.TakenFrom source)
    (hrole : l.role = .leaf .ident) : isMark (String.ofList l.text) = false := by
  obtain ⟨hterminal, hlone⟩ := word_of_ident hrole
  obtain ⟨-, -, -, -, -, hnil⟩ := htaken.prefixes
  obtain ⟨c, rest, htext⟩ := List.exists_cons_of_ne_nil hnil
  obtain ⟨before, behind, -, -, -, n, hfirst, -⟩ := htaken
  have hwidth := (Terminal.first?_eq_some_iff.mp hfirst).1
  rw [hterminal, htext, List.cons_append] at hwidth
  have hc : Terminal.isWordStart c = true := Terminal.isWordStart_of_wordWidth hwidth
  have hne : String.ofList l.text ≠ "_" := by
    intro h
    have hlist := congrArg String.toList h
    rw [String.toList_ofList] at hlist
    exact hlone hlist
  rw [isMark, String.toList_ofList, htext, List.head?_cons, Option.any_some, hc, ← htext]
  simpa using hne

/-- The tokens of a source are regular. -/
theorem Token.LexedFrom.regular {file : String} {source : List Char} {t : Token}
    (h : t.LexedFrom file source) : t.Regular := by
  induction h with
  | leaf htaken hrole =>
    refine .leaf ?_
    rintro rfl
    exact isMark_of_ident htaken hrole
  | group _ _ _ _ _ ih => exact .group ih

/-- So are those that the lexer makes of a text. -/
theorem regular_of_lex {file source : String} {ts : List Token} (h : lex file source = .ok ts) :
    ∀ t ∈ ts, t.Regular :=
  fun t ht ↦ (lexedFrom_of_lex h t ht).regular

/-- Of regular tokens, only punctuation has the spelling of a mark. -/
theorem Token.Regular.eq_punct {t : Token} (h : t.Regular) {s : String} (hmark : isMark s = true)
    (hs : t.spells s = true) : ∃ span, t = .leaf .punct s span := by
  cases h with
  | @leaf kind text span hident =>
    cases kind with
    | punct => exact ⟨span, by simpa [Token.spells] using hs⟩
    | ident =>
      have htext : text = s := by simpa [Token.spells] using hs
      rw [htext, hmark] at hident
      cases hident rfl
    | _ => cases hs
  | group => cases hs

end Expander
