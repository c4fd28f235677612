import Expander.Proofs.Lexing.Stability
import Expander.Proofs.Lexing.Layout
import Expander.Proofs.Token.Erasure

/-!
# Texts that are spaced anew

A text that the lexer takes may be written down again piece by piece, without its comments and with
other blanks between the pieces (`Respaced`). Only where something stood between two pieces of which
none is a bracket, something has to stand again. The chain of lexemes is another one then, but of
the same pieces (`Scans.renewed`), and so the trees are the same but for the places of their tokens.
The rendering of token trees is such a text (`lex_respaced`).
-/

set_option autoImplicit false

namespace Expander

open Terminal Token

variable {file : String} {before cs text rest blanks : List Char} {ts us : List Token}
  {ls ms : List Lexeme} {l m : Lexeme} {p q : Piece} {ps qs : List Piece} {prev : Option Piece}
  {t : Terminal}

/-! ### Pieces with blanks between them -/

/-- A piece with the spelling of a bracket. -/
def Piece.IsBracket (p : Piece) : Prop :=
  ∃ d : Delimiter, p.text = [d.opening] ∨ p.text = [d.closing]

/-- A piece ends where another begins. -/
def Piece.Touches (p q : Piece) : Prop := ∃ a b c : Nat, p.At a b ∧ q.At b c

/-- A text of pieces in order, with blanks before each and behind the last. Behind another piece the
blanks may be missing if one of the two is a bracket, or if the two touch. -/
inductive Respaced : (prev : Option Piece) → List Piece → List Char → Prop
  | nil {prev : Option Piece} {blanks : List Char} (hblanks : ∀ c ∈ blanks, isBlank c = true) :
      Respaced prev [] blanks
  | cons {prev : Option Piece} {p : Piece} {ps : List Piece} {blanks text : List Char}
      (hblanks : ∀ c ∈ blanks, isBlank c = true)
      (hgap : blanks = [] → ∀ q ∈ prev, q.IsBracket ∨ p.IsBracket ∨ q.Touches p)
      (h : Respaced (some p) ps text) : Respaced prev (p :: ps) (blanks ++ (p.text ++ text))

/-- With a blank before it a piece may stand anywhere. -/
theorem Respaced.behind_blank {c : Char} (hc : isBlank c = true) (h : Respaced (some p) ps text) :
    Respaced prev (p :: ps) (c :: (p.text ++ text)) :=
  .cons (List.forall_mem_singleton.mpr hc) (fun hnil ↦ absurd hnil (List.cons_ne_nil c [])) h

/-- A bracket is taken whatever stands behind it. -/
theorem Piece.IsBracket.exists_first? (h : p.IsBracket) :
    ∃ t, ∀ cs, first? (p.text ++ cs) = some (t, p.text.length) := by
  obtain ⟨d, htext | htext⟩ := h
  · rw [htext]
    exact ⟨opening d, first?_opening d⟩
  · rw [htext]
    exact ⟨closing d, first?_closing d⟩

/-- A bracket is a halt. -/
theorem Piece.IsBracket.mem_haltChars (h : p.IsBracket) : ∀ c ∈ p.text, c ∈ haltChars := by
  obtain ⟨d, htext | htext⟩ := h
  all_goals
    rw [htext]
    exact List.forall_mem_singleton.mpr (by cases d <;> decide)

/-- A blank is a halt. -/
theorem mem_haltChars_of_isBlank {c : Char} (hc : isBlank c = true) : c ∈ haltChars :=
  List.mem_append_left ['(', ')', '[', ']', '\x7b', '\x7d'] (isBlank_iff.mp hc)

/-- What begins with characters that are halts halts. -/
theorem halts_append (htext : ∀ c ∈ text, c ∈ haltChars) (hrest : text = [] → Halts rest) :
    Halts (text ++ rest) := by
  cases text with
  | nil => exact hrest rfl
  | cons c text =>
    intro e he
    obtain rfl : c = e := by simpa using he
    exact htext c List.mem_cons_self

/-- No comment ends with characters of which none is an asterisk, nor at them. -/
theorem commentEnd_infix_behind (htext : '*' ∉ text) (h : commentEnd <:+: text ++ rest) :
    commentEnd <:+: rest := by
  induction text with
  | nil => exact h
  | cons c text ih =>
    rw [List.mem_cons, not_or] at htext
    rcases List.infix_cons_iff.mp h with hfront | hbehind
    · obtain ⟨rest, heq⟩ := commentEnd_prefix_iff.mp hfront
      exact absurd (List.cons.inj heq).1.symm htext.1
    · exact ih htext.2 hbehind

theorem asterisk_notMem_of_halts (htext : ∀ c ∈ text, c ∈ haltChars) : '*' ∉ text := by
  intro h
  have hhalt := htext _ h
  revert hhalt
  decide

/-- Behind a piece that is no bracket and touches none, a text that is spaced anew halts. -/
theorem Respaced.halts (h : Respaced (some q) ps text) (hq : ¬ q.IsBracket)
    (hps : ∀ p ∈ ps.head?, ¬ q.Touches p) : Halts text := by
  cases h with
  | nil hblanks =>
    intro c hc
    exact mem_haltChars_of_isBlank (hblanks c (List.mem_of_mem_head? hc))
  | @cons _ p ps blanks text hblanks hgap _ =>
    refine halts_append (fun c hc ↦ mem_haltChars_of_isBlank (hblanks c hc)) fun hnil ↦ ?_
    obtain hbracket | hbracket | htouches := hgap hnil q rfl
    · exact absurd hbracket hq
    · refine halts_append hbracket.mem_haltChars fun hempty ↦ ?_
      obtain ⟨d, htext | htext⟩ := hbracket
      all_goals cases htext.symm.trans hempty
    · exact absurd htouches (hps p rfl)

/-! ### The chain of a text that is spaced anew -/

/-- Lexemes that agree in what they are to the token trees: but for trivia, their roles and texts
are the same. -/
inductive Lexeme.Alike : List Lexeme → List Lexeme → Prop
  | nil : Alike [] []
  | left {l : Lexeme} {ls ms : List Lexeme} (hl : l.role = .trivia) (h : Alike ls ms) :
      Alike (l :: ls) ms
  | right {m : Lexeme} {ls ms : List Lexeme} (hm : m.role = .trivia) (h : Alike ls ms) :
      Alike ls (m :: ms)
  | both {l m : Lexeme} {ls ms : List Lexeme} (hrole : l.role = m.role) (htext : l.text = m.text)
      (h : Alike ls ms) : Alike (l :: ls) (m :: ms)

/-- Trivia may be left out of what is alike. -/
theorem Lexeme.Alike.of_trivia (hl : l.role = .trivia) (h : Alike (l :: ls) ms) : Alike ls ms := by
  generalize hcons : l :: ls = ks at h
  induction h with
  | nil => cases hcons
  | left _ h =>
    cases hcons
    exact h
  | right hm _ ih => exact .right hm (ih hcons)
  | both hrole _ h =>
    cases hcons
    exact .right (hrole.symm.trans hl) h

/-- A text that is, wherever it stands, a chain of lexemes that are alike some others. -/
def ScansAlike (cs : List Char) (ls : List Lexeme) : Prop :=
  ∀ before, ∃ ms, Scans before cs ms [] ∧ Lexeme.Alike ms ls

theorem scansAlike_nil : ScansAlike [] [] := fun _ ↦ ⟨[], .nil, .nil⟩

/-- Blanks in a row are one lexeme, up to what is no blank. -/
theorem first?_blanks (hblanks : ∀ c ∈ blanks, isBlank c = true) (hne : blanks ≠ [])
    (hrest : ∀ c ∈ rest.head?, isBlank c = false) :
    first? (blanks ++ rest) = some (blank, blanks.length) := by
  obtain ⟨c, blanks, rfl⟩ := List.exists_cons_of_ne_nil hne
  rw [← run_append hblanks hrest]
  exact first?_of_isBlank (hblanks c List.mem_cons_self) _

/-- Blanks are one lexeme more, or none, or more of the lexeme behind them. -/
theorem ScansAlike.behind_blanks (hblanks : ∀ c ∈ blanks, isBlank c = true) (h : ScansAlike rest ls) :
    ScansAlike (blanks ++ rest) ls := by
  intro before
  by_cases hne : blanks = []
  · obtain ⟨ms, hscans, halike⟩ := h before
    exact ⟨ms, by rwa [hne], halike⟩
  obtain ⟨more, tail, rfl, hmore, htail⟩ : ∃ more tail, rest = more ++ tail ∧
      (∀ c ∈ more, isBlank c = true) ∧ ∀ c ∈ tail.head?, isBlank c = false :=
    ⟨_, _, (List.take_append_drop (run isBlank rest) rest).symm, of_mem_take_run isBlank rest,
      fun _ ↦ head?_drop_run⟩
  obtain ⟨ms, hscans, halike⟩ := h (before ++ blanks)
  have hall : ∀ c ∈ blanks ++ more, isBlank c = true := List.forall_mem_append.mpr ⟨hblanks, hmore⟩
  have hfirst := first?_blanks hall (List.append_ne_nil_of_left_ne_nil hne more) htail
  rw [← List.append_assoc]
  by_cases hnone : more = []
  · rw [hnone, List.append_nil] at hfirst ⊢
    rw [hnone, List.nil_append] at hscans
    exact ⟨_, .cons hfirst hscans, .left rfl halike⟩
  · -- The lexeme behind the blanks is one of blanks, too.
    have hmid := first?_blanks hmore hnone htail
    generalize hcs : more ++ tail = cs at hscans hmid
    cases hscans with
    | nil => exact absurd (List.append_eq_nil_iff.mp hcs).1 hnone
    | @cons _ text cs _ terminal ms htext hscans =>
      rw [htext, Option.some.injEq, Prod.mk.injEq] at hmid
      obtain ⟨rfl, hlength⟩ := hmid
      obtain ⟨rfl, rfl⟩ := List.append_inj hcs hlength.symm
      rw [List.append_assoc] at hscans
      exact ⟨_, .cons hfirst hscans, .left rfl (halike.of_trivia rfl)⟩

/-- What is known of a text that may stand in place of a chain behind a piece. It is a chain of the
same pieces, no comment ends in it that does not end in the other, and if the piece before it
is no bracket and ends where the chain begins, it is a sequel. -/
structure Renewed (before cs : List Char) (ls : List Lexeme) (prev : Option Piece)
    (text : List Char) : Prop where
  chain : ∀ before', ∃ ms, Scans before' text ms [] ∧ Lexeme.Alike ms ls
  comment : commentEnd <:+: text → commentEnd <:+: cs
  sequel : ∀ q ∈ prev, ¬ q.IsBracket → ∀ a, q.At a before.length → Sequel cs text

/-- A text that begins with a halt may follow in place of another, unless it ends a comment that the
other does not. -/
theorem sequel_of_halts (hhalts : Halts text)
    (hcomment : commentEnd <:+: text → commentEnd <:+: cs) : Sequel cs text :=
  ⟨agrees_of_halts hhalts hcomment, .inl hhalts⟩

theorem renewed_nil (h : Respaced prev [] text) : Renewed before [] [] prev text := by
  cases h with
  | nil hblanks =>
    have hhalts : ∀ c ∈ text, c ∈ haltChars := fun c hc ↦ mem_haltChars_of_isBlank (hblanks c hc)
    have hcomment : commentEnd <:+: text → commentEnd <:+: [] := fun h ↦
      commentEnd_infix_behind (asterisk_notMem_of_halts hhalts) (by rwa [List.append_nil])
    refine ⟨fun before' ↦ ?_, hcomment, fun _ _ _ _ _ ↦ ?_⟩
    · simpa using scansAlike_nil.behind_blanks hblanks before'
    · exact sequel_of_halts (fun c hc ↦ hhalts c (List.mem_of_mem_head? hc)) hcomment

/-- Trivia may be left out. -/
theorem renewed_trivia (hl : l.role = .trivia) (hls : ∀ m ∈ ls, before.length < m.first.offset)
    (h : Respaced prev (Lexeme.pieces ls) text) (hnext : Renewed (before ++ rest) cs ls prev text) :
    Renewed before (rest ++ cs) (l :: ls) prev text := by
  have hcomment : commentEnd <:+: text → commentEnd <:+: rest ++ cs := fun h ↦
    (hnext.comment h).trans (List.suffix_append rest cs).isInfix
  refine ⟨fun before' ↦ ?_, hcomment, fun q hq hbracket a hat ↦ ?_⟩
  · obtain ⟨ms, hscans, halike⟩ := hnext.chain before'
    exact ⟨ms, hscans, .right hl halike⟩
  · -- The next piece begins behind the trivia, and touches nothing that ends before it.
    obtain rfl : prev = some q := hq
    refine sequel_of_halts (h.halts hbracket fun p hp ↦ ?_) hcomment
    rintro ⟨a', b, c, hq', hp'⟩
    obtain ⟨m, hm, rfl⟩ := List.mem_map.mp (List.mem_of_mem_head? hp)
    obtain ⟨-, rfl⟩ := hq'.unique hat
    obtain ⟨hfirst, -⟩ := hp'.unique (piece_at m)
    exact absurd (hls m (List.mem_of_mem_filter hm)) (hfirst ▸ Nat.lt_irrefl _)

/-- What is taken in front of a chain is taken in front of a text that may stand in its place, and
the two agree with it before them. -/
theorem Renewed.keeps {x : List Char} (h : Renewed (before ++ x) cs ls
      (some (Lexeme.behind before t x).piece) text)
    (hfirst : first? (x ++ cs) = some (t, x.length)) (hblank : t ≠ blank)
    (hline : t ≠ lineComment) :
    first? (x ++ text) = some (t, x.length) ∧ Agrees (x ++ cs) (x ++ text) := by
  by_cases hbracket : (Lexeme.behind before t x).piece.IsBracket
  · -- A bracket halts what is before it, so that nothing need be known of what is behind it.
    obtain ⟨t', ht'⟩ : ∃ t, ∀ cs, first? (x ++ cs) = some (t, x.length) := hbracket.exists_first?
    have hhalts : ∀ c ∈ x, c ∈ haltChars := hbracket.mem_haltChars
    refine ⟨by rw [ht' text, ← hfirst, ht' cs], agrees_of_halts ?_ fun hend ↦ ?_⟩
    · refine halts_append hhalts fun hnil ↦ ?_
      rw [hnil] at hfirst
      exact absurd (first?_le hfirst).1 (Nat.lt_irrefl 0)
    · have hbehind := commentEnd_infix_behind (asterisk_notMem_of_halts hhalts) hend
      exact (h.comment hbehind).trans (List.suffix_append x cs).isInfix
  · have hat : (Lexeme.behind before t x).piece.At before.length (before ++ x).length := by
      rw [Piece.At, Lexeme.piece, Lexeme.behind, start_after before [],
        start_after (before ++ x) []]
    have hsequel := h.sequel _ rfl hbracket _ hat
    exact ⟨hsequel.first?_eq hblank hline hfirst, hsequel.agrees.append x⟩

/-- A lexeme that is no trivia may stand behind other blanks. -/
theorem renewed_significant {x : List Char} (hfirst : first? (x ++ cs) = some (t, x.length))
    (hblank : t ≠ blank) (hline : t ≠ lineComment) (hblanks : ∀ c ∈ blanks, isBlank c = true)
    (hnext : Renewed (before ++ x) cs ls (some (Lexeme.behind before t x).piece) text) :
    Renewed before (x ++ cs) (.behind before t x :: ls) prev (blanks ++ (x ++ text)) := by
  obtain ⟨hfirst', hagrees⟩ := hnext.keeps hfirst hblank hline
  have hhalts : ∀ c ∈ blanks, c ∈ haltChars := fun c hc ↦ mem_haltChars_of_isBlank (hblanks c hc)
  have hcomment : commentEnd <:+: blanks ++ (x ++ text) → commentEnd <:+: x ++ cs := fun h ↦
    hagrees.commentEnd_infix (commentEnd_infix_behind (asterisk_notMem_of_halts hhalts) h)
  refine ⟨fun before' ↦ ?_, hcomment, fun _ _ _ _ _ ↦ ?_⟩
  · refine ScansAlike.behind_blanks hblanks (fun before'' ↦ ?_) before'
    obtain ⟨ms, hscans, halike⟩ := hnext.chain (before'' ++ x)
    exact ⟨_, .cons hfirst' hscans, .both rfl rfl halike⟩
  · cases blanks with
    | nil => exact ⟨hagrees, .inr ⟨_, hfirst, hfirst'⟩⟩
    | cons c blanks => exact sequel_of_halts (halts_append hhalts nofun) hcomment

/-- A text that is spaced anew from the pieces of a chain may stand in its place. -/
theorem Scans.renewed (h : Scans before cs ls rest) (hrest : rest = [])
    (hspaced : Respaced prev (Lexeme.pieces ls) text) : Renewed before cs ls prev text := by
  induction h generalizing prev text with
  | nil =>
    obtain rfl := hrest
    exact renewed_nil hspaced
  | @cons before x cs rest terminal ls hfirst h ih =>
    have hpieces := pieces_append [.behind before terminal x] ls
    rw [List.singleton_append] at hpieces
    rw [hpieces] at hspaced
    by_cases hrole : (Lexeme.behind before terminal x).role = .trivia
    · rw [pieces_trivia hrole, List.nil_append] at hspaced
      refine renewed_trivia hrole (fun m hm ↦ ?_) hspaced (ih hrest hspaced)
      have hbehind := h.pairwise.1 m hm
      have hpos := (first?_le hfirst).1
      rw [List.length_append] at hbehind
      omega
    · rw [pieces_singleton hrole, List.singleton_append] at hspaced
      cases hspaced with
      | cons hblanks hgap hbehind =>
        refine renewed_significant hfirst ?_ ?_ hblanks (ih hrest hbehind)
        · rintro rfl
          exact hrole rfl
        · rintro rfl
          exact hrole rfl

/-! ### The trees of a text that is spaced anew -/

theorem sameAll_reverse (h : sameAll ts us = true) : sameAll ts.reverse us.reverse = true :=
  sameAll_iff.mpr (List.rel_reverse (sameAll_iff.mp h))

namespace Lexing

/-- Trees in the making that are the same but for the places of their tokens. -/
structure Trees.Same (t u : Trees) : Prop where
  levels : List.Forall₂ (fun a b : Level ↦ a.delimiter = b.delimiter ∧
    sameAll a.before b.before = true) t.levels u.levels
  done : sameAll t.done u.done = true

/-- Trivia leave the trees as they are. -/
theorem push_trivia (h : l.role = .trivia) (t : Trees) : t.push file l = .ok t := by
  simp [Trees.push, h]

/-- What one lexeme does to trees, another of its role and text does to the same trees. -/
theorem same_push {t u u' : Trees} (h : t.Same u) (hrole : l.role = m.role)
    (htext : l.text = m.text) (file' : String) (hpush : u.push file m = .ok u') :
    ∃ t', t.push file' l = .ok t' ∧ t'.Same u' := by
  rw [Trees.push] at hpush
  rw [Trees.push, hrole]
  cases hm : m.role with
  | trivia =>
    simp only [hm, Except.ok.injEq] at hpush
    exact ⟨t, rfl, hpush ▸ h⟩
  | leaf kind =>
    simp only [hm, Except.ok.injEq] at hpush
    refine ⟨_, rfl, hpush ▸ ⟨h.levels, ?_⟩⟩
    simp [sameAll, Token.same, htext, h.done]
  | opening d =>
    simp only [hm, Except.ok.injEq] at hpush
    exact ⟨_, rfl, hpush ▸ ⟨.cons ⟨rfl, h.done⟩ h.levels, rfl⟩⟩
  | closing d =>
    obtain ⟨hlevels, hdone⟩ := h
    cases hu : u.levels with
    | nil => simp [hm, hu] at hpush
    | cons b outer =>
      rw [hu] at hlevels
      obtain ⟨a, outer', ⟨hd, hbefore⟩, houter, ht⟩ := List.forall₂_cons_right_iff.mp hlevels
      by_cases hb : b.delimiter = d
      · simp only [hm, hu, if_pos hb, Except.ok.injEq] at hpush
        simp only [ht, if_pos (hd.trans hb), Except.ok.injEq, exists_eq_left']
        refine hpush ▸ ⟨houter, ?_⟩
        simp [sameAll, Token.same, sameAll_reverse hdone, hbefore]
      · simp [hm, hu, if_neg hb] at hpush

/-- Lexemes that are alike build trees that compare equal. -/
theorem same_foldlM {t u u' : Trees} (hls : Lexeme.Alike ls ms) (h : t.Same u) (file' : String)
    (hfold : ms.foldlM (Trees.push file) u = .ok u') :
    ∃ t', ls.foldlM (Trees.push file') t = .ok t' ∧ t'.Same u' := by
  induction hls generalizing t u with
  | nil =>
    cases hfold
    exact ⟨t, rfl, h⟩
  | left hl _ ih =>
    obtain ⟨t', hfold', hsame⟩ := ih h hfold
    exact ⟨t', foldlM_push_cons_iff.mpr ⟨t, push_trivia hl t, hfold'⟩, hsame⟩
  | right hm _ ih =>
    obtain ⟨u₁, hpush, hfold⟩ := foldlM_push_cons_iff.mp hfold
    obtain rfl : u = u₁ := Except.ok.inj ((push_trivia hm u).symm.trans hpush)
    exact ih h hfold
  | both hrole htext _ ih =>
    obtain ⟨u₁, hpush, hfold⟩ := foldlM_push_cons_iff.mp hfold
    obtain ⟨t₁, hpush', hsame⟩ := same_push h hrole htext file' hpush
    obtain ⟨t', hfold', hsame'⟩ := ih hsame hfold
    exact ⟨t', foldlM_push_cons_iff.mpr ⟨t₁, hpush', hfold'⟩, hsame'⟩

end Lexing

/-- Lexemes that are alike those of some trees make the same trees. -/
theorem Lexeme.Alike.lex_same {t : Lexing.Trees} (h : Alike ms ls) (hscans : Scans [] text ms [])
    (hfold : ls.foldlM (Lexing.Trees.push file) Lexing.Trees.empty = .ok t) (hlevels : t.levels = [])
    (file' : String) : ∃ ts', lex file' (String.ofList text) = .ok ts' ∧
      sameAll ts' t.done.reverse = true := by
  have hempty : Lexing.Trees.empty.Same Lexing.Trees.empty := ⟨.nil, rfl⟩
  obtain ⟨t', hfold', hlevels', hdone⟩ := Lexing.same_foldlM h hempty file' hfold
  rw [hlevels, List.forall₂_nil_right_iff] at hlevels'
  rw [← String.toList_ofList (l := text)] at hscans
  exact ⟨_, lex_eq_ok_iff.mpr ⟨ms, t', hscans, hfold', hlevels', rfl⟩, sameAll_reverse hdone⟩

/-- A text that is spaced anew has the trees of the one it was made from. -/
theorem Respaced.lex_same {source : String} (h : Respaced none (piecesAll ts) text)
    (hlex : lex file source = .ok ts) (file' : String) :
    ∃ ts', lex file' (String.ofList text) = .ok ts' ∧ sameAll ts' ts = true := by
  obtain ⟨ls, t, hscans, hfold, hlevels, rfl⟩ := lex_eq_ok_iff.mp hlex
  rw [hscans.pieces_eq hfold hlevels] at h
  obtain ⟨ms, hscans', halike⟩ := (hscans.renewed rfl h).chain []
  exact halike.lex_same hscans' hfold hlevels file'

/-! ### The rendering of token trees -/

/-- A text that stands for some pieces wherever a blank or a bracket is before it, and in front of
whatever may stand behind the last of them. -/
structure Spells (ps : List Piece) (s : List Char) : Prop where
  ne_nil : s ≠ []
  respaced : ∀ prev blanks qs text, (∀ c ∈ blanks, isBlank c = true) →
    (blanks = [] → ∀ q ∈ prev, q.IsBracket) → (∀ q, Respaced (some q) qs text) →
    Respaced prev (ps ++ qs) (blanks ++ (s ++ text))

theorem spells_piece (h : p.text ≠ []) : Spells [p] p.text where
  ne_nil := h
  respaced _ _ _ _ hblanks hprev hbehind :=
    .cons hblanks (fun hnil q hq ↦ .inl (hprev hnil q hq)) (hbehind p)

/-- One behind the other, with a blank between them. -/
theorem Spells.join {s s' : List Char} (h : Spells ps s) (h' : Spells qs s') :
    Spells (ps ++ qs) (s ++ ' ' :: s') where
  ne_nil := List.append_ne_nil_of_left_ne_nil h.ne_nil _
  respaced prev blanks rs text hblanks hprev hbehind := by
    rw [List.append_assoc, List.append_assoc]
    exact h.respaced _ _ _ _ hblanks hprev fun q ↦
      h'.respaced (some q) [' '] _ _ (by simp [isBlank]) nofun hbehind

/-- Behind a bracket no blank is needed. -/
theorem Spells.behind {s : List Char} (hp : p.IsBracket) (h : Spells ps s) :
    Spells (p :: ps) (p.text ++ s) where
  ne_nil := List.append_ne_nil_of_right_ne_nil _ h.ne_nil
  respaced prev blanks qs text hblanks hprev hbehind := by
    rw [List.append_assoc]
    refine .cons hblanks (fun hnil q hq ↦ .inl (hprev hnil q hq)) ?_
    refine h.respaced (some p) [] _ _ (List.forall_mem_nil _) (fun _ q hq ↦ ?_) hbehind
    cases hq
    exact hp

/-- The brackets of a group around nothing, and around something. -/
theorem spells_nothing {d : Delimiter} (hp : p.text = [d.opening]) (hq : q.text = [d.closing]) :
    Spells [p, q] (Token.enclose d "").toList := by
  have hclose : Spells [q] q.text := spells_piece (by simp [hq])
  have hboth := hclose.behind ⟨d, .inl hp⟩
  rw [hp, hq] at hboth
  simpa [Token.enclose] using hboth

/-- A text that spells some pieces does so between brackets. -/
theorem Spells.enclose {d : Delimiter} {s : String} (h : Spells ps s.toList)
    (hp : p.text = [d.opening]) (hq : q.text = [d.closing]) :
    Spells (p :: (ps ++ [q])) (Token.enclose d s).toList := by
  have hopen : Spells [p] p.text := spells_piece (by simp [hp])
  have hclose : Spells [q] q.text := spells_piece (by simp [hq])
  have hall := hopen.join (h.join hclose)
  have hne : s ≠ "" := fun hs ↦ h.ne_nil (by rw [hs]; rfl)
  rw [hp, hq] at hall
  simpa [Token.enclose, hne] using hall

theorem renderAll_cons_cons (t u : Token) (us : List Token) :
    renderAll (t :: u :: us) = t.render ++ " " ++ renderAll (u :: us) := by
  rw [renderAll, List.map_cons, List.map_cons, String.intercalate_cons_cons, ← List.map_cons,
    ← renderAll]

/-- Tokens that are rendered with blanks between them spell their pieces. -/
theorem spells_renderAll (hne : ts ≠ []) (h : ∀ t ∈ ts, Spells t.pieces t.render.toList) :
    Spells (piecesAll ts) (renderAll ts).toList := by
  induction ts with
  | nil => exact absurd rfl hne
  | cons t ts ih =>
    have ht := h t List.mem_cons_self
    cases ts with
    | nil =>
      rw [renderAll, List.map_singleton, String.intercalate_singleton, piecesAll_cons,
        piecesAll_nil, List.append_nil]
      exact ht
    | cons u us =>
      have hus := ih (List.cons_ne_nil _ _) fun u hu ↦ h u (List.mem_cons_of_mem _ hu)
      rw [renderAll_cons_cons, piecesAll_cons]
      simpa using ht.join hus

/-- A token of the lexer is rendered as its pieces are spelled. -/
theorem Token.LexedFrom.spells {t : Token} {source : List Char} (h : t.LexedFrom file source) :
    Spells t.pieces t.render.toList := by
  induction h with
  | @leaf kind l htaken hrole =>
    obtain ⟨-, -, -, -, -, htext⟩ := htaken.prefixes
    exact spells_piece (by simpa using htext)
  | @group d opener closer stream hopener hopening hcloser hclosing hstream ih =>
    rw [Token.pieces, Token.render, renderEach_eq_map, ← renderAll]
    cases stream with
    | nil =>
      rw [piecesAll_nil, List.nil_append]
      exact spells_nothing rfl rfl
    | cons t ts => exact (spells_renderAll (List.cons_ne_nil t ts) ih).enclose rfl rfl

/-- The rendering of trees that the lexer makes is the text spaced anew. -/
theorem respaced_render {source : String} (hlex : lex file source = .ok ts) :
    Respaced none (piecesAll ts) (renderAll ts).toList := by
  have hts := lexedFrom_of_lex hlex
  cases ts with
  | nil => exact .nil (by simp [renderAll])
  | cons t ts =>
    have hspells := spells_renderAll (List.cons_ne_nil t ts) fun u hu ↦ (hts u hu).spells
    simpa using hspells.respaced none [] [] [] (List.forall_mem_nil _)
      (fun _ q hq ↦ absurd hq (Option.not_mem_none q)) fun q ↦ .nil (List.forall_mem_nil _)

/-- However the pieces of a text are spaced anew, the lexer makes the same trees of them, and so it
does of their rendering. -/
theorem lex_respaced {source : String} (hlex : lex file source = .ok ts) (file' : String) :
    (∀ text, Respaced none (piecesAll ts) text →
      ∃ ts', lex file' (String.ofList text) = .ok ts' ∧ sameAll ts' ts = true) ∧
    ∃ ts', lex file' (renderAll ts) = .ok ts' ∧ sameAll ts' ts = true := by
  refine ⟨fun text h ↦ h.lex_same hlex file', ?_⟩
  simpa using (respaced_render hlex).lex_same hlex file'

/-- A shift of a group with a comment before it. -/
def shiftedGroup : List Token := (lex "<input>" "a<<b /* ( */ (c)").toOption.getD []

/-- The comment is left out, what touched goes on to touch, and the group comes up to what is before
it and is broken up within. -/
theorem lex_respaced_shift :
    lex "<input>" "a<<b /* ( */ (c)" = .ok shiftedGroup ∧
    ∃ ts, lex "<other>" "\ta <<b(c\n)" = .ok ts ∧ sameAll ts shiftedGroup = true := by
  have hlex : lex "<input>" "a<<b /* ( */ (c)" = .ok shiftedGroup := rfl
  have hpieces : piecesAll shiftedGroup = [⟨['a'], some (0, 1)⟩, ⟨['<', '<'], some (1, 3)⟩,
      ⟨['b'], some (3, 4)⟩, ⟨['('], some (13, 14)⟩, ⟨['c'], some (14, 15)⟩,
      ⟨[')'], some (15, 16)⟩] := by decide +kernel
  have hspaced : Respaced none (piecesAll shiftedGroup) "\ta <<b(c\n)".toList := by
    rw [hpieces]
    refine .behind_blank (c := '\t') rfl (.behind_blank (c := ' ') rfl ?_)
    refine @Respaced.cons _ _ _ [] _ (List.forall_mem_nil _) (fun _ q hq ↦ .inr (.inr ?_)) ?_
    · cases hq
      exact ⟨1, 3, 4, rfl, rfl⟩
    refine @Respaced.cons _ _ _ [] _ (List.forall_mem_nil _) (fun _ _ _ ↦ .inr (.inl ?_)) ?_
    · exact ⟨.paren, .inl rfl⟩
    refine @Respaced.cons _ _ _ [] _ (List.forall_mem_nil _) (fun _ q hq ↦ .inl ?_) ?_
    · cases hq
      exact ⟨.paren, .inl rfl⟩
    exact .behind_blank (c := '\n') rfl (.nil (List.forall_mem_nil _))
  obtain ⟨ts, hts, hsame⟩ := (lex_respaced hlex "<other>").1 _ hspaced
  exact ⟨hlex, ts, by simpa using hts, hsame⟩

end Expander
