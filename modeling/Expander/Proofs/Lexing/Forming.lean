import Expander.Proofs.Lexing.Brackets

/-!
# The trees of lexemes

The lexer makes trees with a stack of groups that are open. Without the stack, trees are formed of
balanced lexemes: a token of each that is a leaf, and a group of an opening bracket, its partner and
what is between them (`Forms`). The lexer makes of a text the trees that are formed of its chain
(`lex_eq_ok_iff_forms`). So the trees of lexemes behind one another are those of each behind one
another, and between the brackets of a group, however deep it is, are lexemes of which its stream is
formed (`Forms.exists_of_inside`).
-/

set_option autoImplicit false

namespace Expander

open Terminal

variable {file source : String} {ls ms : List Lexeme} {ts us stream : List Token} {d : Delimiter}
  {span : Option Span}

/-- The trees of lexemes of which every bracket has a partner. -/
inductive Forms (file : String) : List Lexeme → List Token → Prop
  | nil : Forms file [] []
  | trivia {l : Lexeme} {ls : List Lexeme} {ts : List Token} (hl : l.role = .trivia)
      (h : Forms file ls ts) : Forms file (l :: ls) ts
  | leaf {l : Lexeme} {kind : LeafKind} {ls : List Lexeme} {ts : List Token}
      (hl : l.role = .leaf kind) (h : Forms file ls ts) :
      Forms file (l :: ls)
        (.leaf kind (String.ofList l.text) (some (.between file l.first l.last)) :: ts)
  | group {d : Delimiter} {opener closer : Lexeme} {inner ls : List Lexeme}
      {stream ts : List Token} (hopener : opener.role = .opening d) (hinner : Forms file inner stream)
      (hcloser : closer.role = .closing d) (h : Forms file ls ts) :
      Forms file (opener :: (inner ++ closer :: ls))
        (.group d (some (.between file opener.first closer.last)) stream :: ts)

/-- Of balanced lexemes, trees are formed. -/
theorem Balanced.exists_forms (h : Balanced ls) (file : String) : ∃ ts, Forms file ls ts := by
  induction h with
  | nil => exact ⟨[], .nil⟩
  | @other l ls hl _ ih =>
    obtain ⟨ts, hts⟩ := ih
    cases hrole : l.role with
    | trivia => exact ⟨ts, .trivia hrole hts⟩
    | leaf kind => exact ⟨_, .leaf hrole hts⟩
    | opening d => exact absurd ⟨d, .inl hrole⟩ hl
    | closing d => exact absurd ⟨d, .inr hrole⟩ hl
  | group hopener _ hcloser _ ihinner ih =>
    obtain ⟨stream, hstream⟩ := ihinner
    obtain ⟨ts, hts⟩ := ih
    exact ⟨_, .group hopener hstream hcloser hts⟩

/-- Tokens that are formed one behind the other are formed of the lexemes one behind the other. -/
theorem Forms.append (h : Forms file ls ts) (h' : Forms file ms us) :
    Forms file (ls ++ ms) (ts ++ us) := by
  induction h with
  | nil => exact h'
  | trivia hl _ ih => exact .trivia hl ih
  | leaf hl _ ih => exact .leaf hl ih
  | group hopener hinner hcloser _ _ ih =>
    rw [List.cons_append, List.append_assoc, List.cons_append]
    exact .group hopener hinner hcloser ih

/-- Above the groups that are open, the lexer makes the trees that are formed. -/
theorem Forms.foldlM_eq (h : Forms file ls ts) (t : Lexing.Trees) :
    ls.foldlM (Lexing.Trees.push file) t = .ok ⟨t.levels, ts.reverse ++ t.done⟩ := by
  induction h generalizing t with
  | nil => rfl
  | @trivia l ls ts hl _ ih =>
    have hpush : t.push file l = .ok t := by simp only [Lexing.Trees.push, hl]
    rw [Lexing.foldlM_cons hpush, ih]
  | @leaf l kind ls ts hl _ ih =>
    have hpush : t.push file l = .ok ⟨t.levels, .leaf kind (String.ofList l.text)
        (some (.between file l.first l.last)) :: t.done⟩ := by simp only [Lexing.Trees.push, hl]
    rw [Lexing.foldlM_cons hpush, ih]
    simp
  | @group d opener closer inner ls stream ts hopener _ hcloser _ ihinner ih =>
    have hclose : Lexing.Trees.push file ⟨⟨d, opener, t.done⟩ :: t.levels, stream.reverse⟩ closer =
        .ok ⟨t.levels, .group d (some (.between file opener.first closer.last)) stream :: t.done⟩ := by
      simp [Lexing.Trees.push, hcloser]
    have hinner := ihinner ⟨⟨d, opener, t.done⟩ :: t.levels, []⟩
    rw [List.append_nil] at hinner
    rw [Lexing.foldlM_cons (Lexing.push_opening hopener t), Lexing.foldlM_append hinner,
      Lexing.foldlM_cons hclose, ih]
    simp

/-- The lexer makes of a text the trees that are formed of its chain. -/
theorem lex_eq_ok_iff_forms : lex file source = .ok ts ↔
    ∃ ls, Scans [] source.toList ls [] ∧ Forms file ls ts := by
  constructor
  · intro hlex
    rcases balanced_or_trouble source.toList with ⟨ls, hscans, hls⟩ | ⟨message, first, last, h⟩
    · obtain ⟨us, hus⟩ := hls.exists_forms file
      have hlex' := lex_eq_ok_iff.mpr ⟨ls, _, hscans, hus.foldlM_eq .empty, rfl, rfl⟩
      have heq : us = ts := by simpa [Lexing.Trees.empty] using hlex'.symm.trans hlex
      exact ⟨ls, hscans, heq ▸ hus⟩
    · obtain ⟨e, he, -⟩ := h.lex_eq file
      cases he.symm.trans hlex
  · rintro ⟨ls, hscans, h⟩
    exact lex_eq_ok_iff.mpr ⟨ls, _, hscans, h.foldlM_eq .empty, rfl, by simp [Lexing.Trees.empty]⟩

/-- Between the brackets of a group stand lexemes of which its stream is formed. -/
theorem Forms.exists_of_inside (h : Forms file ls ts) (hgroup : Token.Inside ts (.group d span stream)) :
    ∃ front opener inner closer back, ls = front ++ opener :: (inner ++ closer :: back) ∧
      opener.role = .opening d ∧ closer.role = .closing d ∧ Forms file inner stream ∧
        span = some (.between file opener.first closer.last) := by
  induction h with
  | nil =>
    cases hgroup with
    | here hmem => cases hmem
    | within hmem => cases hmem
  | @trivia l ls ts _ _ ih =>
    obtain ⟨front, opener, inner, closer, back, rfl, hrest⟩ := ih hgroup
    exact ⟨l :: front, opener, inner, closer, back, rfl, hrest⟩
  | @leaf l kind ls ts _ _ ih =>
    rcases Token.inside_cons_iff.mp hgroup with heq | ⟨_, _, _, heq, -⟩ | hgroup
    · cases heq
    · cases heq
    · obtain ⟨front, opener, inner, closer, back, rfl, hrest⟩ := ih hgroup
      exact ⟨l :: front, opener, inner, closer, back, rfl, hrest⟩
  | @group e o c mid ls us ts ho hmid hc _ ihinner ih =>
    rcases Token.inside_cons_iff.mp hgroup with heq | ⟨_, _, _, heq, hgroup⟩ | hgroup
    · cases heq
      exact ⟨[], o, mid, c, ls, rfl, ho, hc, hmid, rfl⟩
    · cases heq
      obtain ⟨front, opener, inner, closer, back, rfl, hrest⟩ := ihinner hgroup
      exact ⟨o :: front, opener, inner, closer, back ++ c :: ls, by simp, hrest⟩
    · obtain ⟨front, opener, inner, closer, back, rfl, hrest⟩ := ih hgroup
      exact ⟨o :: (mid ++ c :: front), opener, inner, closer, back, by simp, hrest⟩

/-- A lexeme of a chain stands behind those before it, and the others are a chain behind it. -/
theorem Scans.split {before cs rest : List Char} {l : Lexeme}
    (h : Scans before cs (ls ++ l :: ms) rest) :
    l = .behind (before ++ ls.flatMap Lexeme.text) l.terminal l.text ∧
      Scans (before ++ ls.flatMap Lexeme.text ++ l.text) (ms.flatMap Lexeme.text ++ rest) ms
        rest := by
  obtain ⟨mid, -, hback⟩ := h.exists_append
  cases hback with
  | cons _ hscans => exact ⟨rfl, hscans.eq_append ▸ hscans⟩

/-- A group of a text reaches from its opening bracket to its closing one, and its stream is formed
of the chain between them. -/
theorem Token.Inside.exists_brackets (hgroup : Inside ts (.group d span stream))
    (hlex : lex file source = .ok ts) : ∃ before inner behind ls,
      source.toList = before ++ d.opening :: (inner ++ d.closing :: behind) ∧
      span = some (spanAt file source.toList before.length (before.length + inner.length + 2)) ∧
      Scans (before ++ [d.opening]) (inner ++ d.closing :: behind) ls (d.closing :: behind) ∧
      Forms file ls stream := by
  obtain ⟨ls, hscans, hforms⟩ := lex_eq_ok_iff_forms.mp hlex
  obtain ⟨front, opener, inner, closer, back, rfl, hopener, hcloser, hinner, rfl⟩ :=
    hforms.exists_of_inside hgroup
  obtain ⟨hopening, -⟩ := (hscans.takenFrom opener (by simp)).opening hopener
  obtain ⟨hclosing, -⟩ := (hscans.takenFrom closer (by simp)).closing hcloser
  have hsource := hscans.eq_append
  obtain ⟨hfirst, hbehind⟩ := hscans.split
  obtain ⟨hlast, -⟩ := hbehind.split
  obtain ⟨mid, hmid, hback⟩ := hbehind.exists_append
  have hmid' := hback.eq_append
  rw [hopening, List.nil_append] at hfirst hlast hmid
  rw [hclosing] at hlast
  have hchars : source.toList = front.flatMap Lexeme.text ++ d.opening ::
      (inner.flatMap Lexeme.text ++ d.closing :: back.flatMap Lexeme.text) := by
    simpa [hopening, hclosing] using hsource
  refine ⟨_, _, _, inner, hchars, ?_, ?_, hinner⟩
  · have hopens : front.flatMap Lexeme.text <+: source.toList := ⟨_, hchars.symm⟩
    have hcloses : front.flatMap Lexeme.text ++ [d.opening] ++ inner.flatMap Lexeme.text ++
        [d.closing] <+: source.toList := ⟨back.flatMap Lexeme.text, by simp [hchars]⟩
    have hlength : (front.flatMap Lexeme.text ++ [d.opening] ++ inner.flatMap Lexeme.text ++
        [d.closing]).length = (front.flatMap Lexeme.text).length +
          (inner.flatMap Lexeme.text).length + 2 := by
      simp only [List.length_append, List.length_singleton]
      omega
    rw [hfirst, hlast, Lexeme.behind, Lexeme.behind, between_eq file hopens hcloses, hlength]
  · simpa [hmid', hclosing] using hmid

end Expander
