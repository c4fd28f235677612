import Expander.Proofs.Lexing.Pieces

/-!
# Where tokens stand

Token trees that the lexer makes lie over their text without a gap that matters: their leaves and
brackets stand in it in order, each the text at its extent, and what is before, between and behind
them is blanks and comments (`laidOut_of_lex`). Each token knows the lines and columns of where it
begins and ends, and a group encloses all that is in it.
-/

set_option autoImplicit false

namespace Expander

open Terminal Token

variable {file : String} {source before cs rest : List Char} {ts : List Token}
  {ls ls' : List Lexeme} {l : Lexeme} {p q : Piece} {ps qs : List Piece}

/-! ### Trivia -/

/-- Blanks and comments, one behind the other. A line comment goes up to the end of its line, and a
block comment up to the first of its ends. -/
inductive Trivia : List Char → Prop
  | nil : Trivia []
  | blanks {text rest : List Char} (htext : ∀ c ∈ text, isBlank c = true) (h : Trivia rest) :
      Trivia (text ++ rest)
  | lineComment {text rest : List Char} (htext : ∀ c ∈ text, c ≠ '\n')
      (hrest : ∀ c ∈ rest.head?, c = '\n') (h : Trivia rest) : Trivia ('/' :: '/' :: (text ++ rest))
  | blockComment {text rest : List Char} (htext : ¬ commentEnd <:+: text ++ ['*'])
      (h : Trivia rest) : Trivia ('/' :: '*' :: (text ++ commentEnd ++ rest))

/-- Lexemes that are all trivia are trivia as a text. -/
theorem Scans.trivia (h : Scans before cs ls rest) (hls : ∀ l ∈ ls, l.role = .trivia) :
    Trivia (ls.flatMap Lexeme.text) := by
  induction h with
  | nil => exact .nil
  | @cons before text cs rest terminal ls hfirst h ih =>
    have hbehind := ih fun l hl ↦ hls l (List.mem_cons_of_mem _ hl)
    have hwidth := (first?_eq_some_iff.mp hfirst).1
    have htrivia : terminal = .blank ∨ terminal = .lineComment ∨ terminal = .blockComment := by
      have hrole := hls _ List.mem_cons_self
      cases terminal with
      | word =>
        obtain ⟨kind, hkind⟩ := role_of_word (l := .behind before .word text) rfl
        cases hkind.symm.trans hrole
      | _ => simp_all [Lexeme.role, Lexeme.behind]
    rw [List.flatMap_cons]
    rcases htrivia with rfl | rfl | rfl
    · obtain ⟨-, hrun⟩ := taken_eq_some_iff.mp hwidth
      refine .blanks ?_ hbehind
      have hall := of_mem_take_run isBlank (text ++ cs)
      rwa [hrun, List.take_left] at hall
    · obtain ⟨body, behind, hsplit, hlength, hbody, hend⟩ := exists_of_lineCommentWidth hwidth
      obtain ⟨rfl, rfl⟩ := List.append_inj hsplit hlength.symm
      refine .lineComment hbody (fun c hc ↦ hend c ?_) hbehind
      rw [h.eq_append, List.head?_append, hc]
      rfl
    · obtain ⟨body, behind, hsplit, hlength, hbody⟩ := exists_of_blockCommentWidth hwidth
      obtain ⟨rfl, rfl⟩ := List.append_inj hsplit hlength.symm
      exact .blockComment hbody hbehind

/-! ### Pieces in a text -/

/-- A piece begins and ends at some offsets of a text. -/
def Piece.At (p : Piece) (first last : Nat) : Prop := p.extent = some ((first : Int), (last : Int))

/-- A piece is over where another begins, or before that. -/
def Piece.Before (p q : Piece) : Prop := ∀ a b a' b' : Nat, p.At a b → q.At a' b' → b ≤ a'

/-- A piece has one place. -/
theorem Piece.At.unique {a b a' b' : Nat} (h : p.At a b) (h' : p.At a' b') : a = a' ∧ b = b' := by
  have heq := Prod.mk.inj (Option.some.inj (h.symm.trans h'))
  exact ⟨Int.ofNat_inj.mp heq.1, Int.ofNat_inj.mp heq.2⟩

/-- A lexeme is a piece between its two positions. -/
theorem piece_at (l : Lexeme) : l.piece.At l.first.offset l.last.offset := rfl

/-- Before the first piece of some lexemes there are trivia only. -/
theorem exists_of_pieces_eq_cons (h : Lexeme.pieces ls = p :: ps) : ∃ trivia l ls',
    ls = trivia ++ l :: ls' ∧ (∀ m ∈ trivia, m.role = .trivia) ∧ l.piece = p ∧
      Lexeme.pieces ls' = ps := by
  rw [Lexeme.pieces, List.map_eq_cons_iff] at h
  obtain ⟨l, significant, hfilter, hl, hps⟩ := h
  obtain ⟨trivia, ls', rfl, htrivia, -, rfl⟩ := List.filter_eq_cons_iff.mp hfilter
  refine ⟨trivia, l, ls', rfl, fun m hm ↦ ?_, hl, hps⟩
  simpa [Lexeme.isSignificant] using htrivia m hm

/-- Where the pieces are divided, the lexemes can be. -/
theorem exists_of_pieces_eq_append (h : Lexeme.pieces ls = ps ++ qs) : ∃ front back,
    ls = front ++ back ∧ Lexeme.pieces front = ps ∧ Lexeme.pieces back = qs := by
  rw [Lexeme.pieces, List.map_eq_append_iff] at h
  obtain ⟨_, _, hfilter, hps, hqs⟩ := h
  obtain ⟨front, back, rfl, rfl, rfl⟩ := List.filter_eq_append_iff.mp hfilter
  exact ⟨front, back, rfl, hps, hqs⟩

theorem role_of_pieces_eq_nil (h : Lexeme.pieces ls = []) : ∀ l ∈ ls, l.role = .trivia := by
  intro l hl
  rw [Lexeme.pieces, List.map_eq_nil_iff, List.filter_eq_nil_iff] at h
  simpa [Lexeme.isSignificant] using h l hl

/-- A lexeme of a chain ends where it begins and its text is over. -/
theorem Scans.piece_at (h : Scans [] cs (ls ++ l :: ls') rest) : l.text ≠ [] ∧
    l.piece.At (ls.flatMap Lexeme.text).length (ls.flatMap Lexeme.text ++ l.text).length := by
  obtain ⟨mid, -, hback⟩ := h.exists_append
  cases hback with
  | @cons _ text cs' _ terminal _ hfirst _ =>
    constructor
    · rintro rfl
      exact absurd (first?_le hfirst).1 (Nat.lt_irrefl 0)
    · simp only [Piece.At, Lexeme.piece, Lexeme.behind, List.nil_append]
      rw [start_after (ls.flatMap Lexeme.text) [],
        start_after (ls.flatMap Lexeme.text ++ text) []]

/-- The lexemes of a chain stand one behind the other. -/
theorem Scans.pairwise (h : Scans before cs ls rest) :
    (∀ l ∈ ls, before.length ≤ l.first.offset) ∧
      ls.Pairwise fun l m ↦ l.last.offset ≤ m.first.offset := by
  induction h with
  | nil => simp
  | @cons before text cs rest terminal ls hfirst h ih =>
    obtain ⟨hbehind, hpairwise⟩ := ih
    have hlast : (Lexeme.behind before terminal text).last.offset = (before ++ text).length := by
      rw [Lexeme.behind, start_after (before ++ text) []]
    refine ⟨?_, List.pairwise_cons.mpr ⟨fun m hm ↦ hlast ▸ hbehind m hm, hpairwise⟩⟩
    intro l hl
    rcases List.mem_cons.mp hl with rfl | hl
    · exact Nat.le_of_eq (congrArg Position.offset (start_after before [])).symm
    · exact Nat.le_trans (by simp) (hbehind l hl)

/-- Nothing but trivia stands between lexemes of which the pieces are neighbours. -/
theorem Scans.trivia_between {mid : List Lexeme} (h : Scans [] cs (ls ++ (mid ++ ls')) rest)
    (hmid : ∀ l ∈ mid, l.role = .trivia) :
    Trivia ((cs.take ((ls ++ mid).flatMap Lexeme.text).length).drop
      (ls.flatMap Lexeme.text).length) := by
  obtain ⟨behind, -, hback⟩ := h.exists_append
  obtain ⟨behind', hmiddle, -⟩ := hback.exists_append
  have hcs := h.eq_append
  rw [List.flatMap_append, List.flatMap_append, ← List.append_assoc, List.append_assoc] at hcs
  rw [hcs, List.flatMap_append, List.take_left, List.drop_left]
  exact hmiddle.trivia hmid

/-- The pieces of a chain are the text at their extents. -/
theorem stands_of_scans (h : Scans [] cs ls []) (hp : p ∈ Lexeme.pieces ls) :
    ∃ first last : Nat, p.At first last ∧ first < last ∧ last ≤ cs.length ∧
      (cs.take last).drop first = p.text := by
  obtain ⟨l, hl, rfl⟩ := List.mem_map.mp hp
  obtain ⟨front, back, rfl⟩ := List.append_of_mem (List.mem_of_mem_filter hl)
  obtain ⟨htext, hat⟩ := h.piece_at
  have hcs := h.eq_append
  rw [List.flatMap_append, List.flatMap_cons, List.append_nil, ← List.append_assoc] at hcs
  refine ⟨_, _, hat, ?_, ?_, ?_⟩
  · rw [List.length_append]
    exact Nat.lt_add_of_pos_right (List.length_pos_iff.mpr htext)
  · rw [hcs]
    exact (List.prefix_append _ _).length_le
  · rw [hcs, List.take_left, List.drop_left]
    rfl

/-- The pieces of a chain stand one behind the other. -/
theorem ordered_of_scans (h : Scans [] cs ls []) :
    (Lexeme.pieces ls).Pairwise Piece.Before := by
  refine List.Pairwise.map _ (fun l m hlm a b a' b' hl hm ↦ ?_) (h.pairwise.2.filter _)
  obtain ⟨-, rfl⟩ := hl.unique (piece_at l)
  obtain ⟨rfl, -⟩ := hm.unique (piece_at m)
  exact hlm

/-- What stands before the first piece of a text is trivia. -/
theorem trivia_before (h : Scans [] cs ls []) (hps : Lexeme.pieces ls = p :: ps) {a b : Nat}
    (hp : p.At a b) : Trivia (cs.take a) := by
  obtain ⟨trivia, l, ls', rfl, htrivia, rfl, -⟩ := exists_of_pieces_eq_cons hps
  obtain ⟨rfl, -⟩ := hp.unique h.piece_at.2
  have hscans : Scans [] cs ([] ++ (trivia ++ l :: ls')) [] := h
  simpa using hscans.trivia_between htrivia

/-- What stands between two pieces that are neighbours is trivia. -/
theorem trivia_neighbours (h : Scans [] cs ls []) (hps : Lexeme.pieces ls = ps ++ p :: q :: qs)
    {a b a' b' : Nat} (hp : p.At a b) (hq : q.At a' b') : Trivia ((cs.take a').drop b) := by
  obtain ⟨front, back, rfl, -, hback⟩ := exists_of_pieces_eq_append hps
  obtain ⟨trivia, l, ls, rfl, -, rfl, hls⟩ := exists_of_pieces_eq_cons hback
  obtain ⟨mid, m, ls', rfl, hmid, rfl, -⟩ := exists_of_pieces_eq_cons hls
  have hleft : Scans [] cs (front ++ trivia ++ l :: (mid ++ m :: ls')) [] := by simpa using h
  have hright : Scans [] cs (front ++ trivia ++ [l] ++ mid ++ m :: ls') [] := by simpa using h
  have hboth : Scans [] cs (front ++ trivia ++ [l] ++ (mid ++ m :: ls')) [] := by simpa using h
  obtain ⟨-, rfl⟩ := hp.unique hleft.piece_at.2
  obtain ⟨rfl, -⟩ := hq.unique hright.piece_at.2
  simpa using hboth.trivia_between hmid

/-- What stands behind the last piece of a text is trivia. -/
theorem trivia_behind (h : Scans [] cs ls []) (hps : Lexeme.pieces ls = ps ++ [p]) {a b : Nat}
    (hp : p.At a b) : Trivia (cs.drop b) := by
  obtain ⟨front, back, rfl, -, hback⟩ := exists_of_pieces_eq_append hps
  obtain ⟨trivia, l, ls, rfl, -, rfl, hls⟩ := exists_of_pieces_eq_cons hback
  have hleft : Scans [] cs (front ++ trivia ++ l :: ls) [] := by simpa using h
  have hboth : Scans [] cs (front ++ trivia ++ [l] ++ (ls ++ [])) [] := by simpa using h
  obtain ⟨-, rfl⟩ := hp.unique hleft.piece_at.2
  have hcs := hboth.eq_append
  have htrivia := hboth.trivia_between (role_of_pieces_eq_nil hls)
  rw [List.take_of_length_le (by simp [hcs])] at htrivia
  simpa using htrivia

/-! ### Tokens that know their place -/

/-- A token that knows its place in a text, as do all that are in it. A group encloses what is in
it, and has its brackets at its ends. -/
inductive Token.Placed (file : String) (source : List Char) : Token → Prop
  | leaf {kind : LeafKind} {text : String} {first last : Nat} (h : first < last) :
      Placed file source (.leaf kind text (some (spanAt file source first last)))
  | group {d : Delimiter} {stream : List Token} {first last : Nat} (h : first + 1 < last)
      (hstream : ∀ t ∈ stream, Placed file source t)
      (hencloses : ∀ t ∈ stream, ∃ a b : Nat, t.span = some (spanAt file source a b) ∧
        first < a ∧ b < last) :
      Placed file source (.group d (some (spanAt file source first last)) stream)

/-- The pieces of a token are among those of its sequence, in order. -/
theorem pieces_sublist {t : Token} (h : t ∈ ts) : t.pieces.Sublist (piecesAll ts) := by
  obtain ⟨front, back, rfl⟩ := List.append_of_mem h
  rw [piecesAll_append, piecesAll_cons]
  exact (List.sublist_append_left _ _).trans (List.sublist_append_right _ _)

/-- A token of the lexer has a span of its text. -/
theorem Token.LexedFrom.span_eq {t : Token} (h : t.LexedFrom file source) : ∃ first last : Nat,
    t.span = some (spanAt file source first last) ∧ (∃ p ∈ t.pieces, ∃ b, p.At first b) ∧
      ∃ p ∈ t.pieces, ∃ a, p.At a last := by
  cases h with
  | @leaf kind l htaken hrole =>
    obtain ⟨front, hfront, hlast, heq, heq', -⟩ := htaken.prefixes
    rw [heq, heq', between_eq file hfront hlast]
    refine ⟨_, _, rfl, ?_, ?_⟩
    · exact ⟨_, List.mem_singleton_self _, _, rfl⟩
    · exact ⟨_, List.mem_singleton_self _, _, rfl⟩
  | @group d opener closer stream hopener hopening hcloser hclosing hstream =>
    obtain ⟨front, hfront, -, heq, -⟩ := hopener.prefixes
    obtain ⟨front', -, hlast, heq₁, heq₂, -⟩ := hcloser.prefixes
    obtain ⟨hbracket, -⟩ := hcloser.closing hclosing
    rw [heq, heq₂, between_eq file hfront hlast]
    refine ⟨_, _, rfl, ?_, ?_⟩
    · exact ⟨_, List.mem_cons_self, front.length + 1, rfl⟩
    · refine ⟨_, List.mem_cons_of_mem _ (List.mem_append_right _ (List.mem_singleton_self _)),
        front'.length, ?_⟩
      simp [Piece.At, spanAt, hbracket]

/-- A token whose pieces are in order has its text at its place, and so has all that is inside
it. -/
theorem Token.LexedFrom.placed {t : Token} (h : t.LexedFrom file source)
    (hordered : t.pieces.Pairwise Piece.Before) : t.Placed file source := by
  induction h with
  | @leaf kind l htaken hrole =>
    obtain ⟨front, hfront, hlast, heq, heq', htext⟩ := htaken.prefixes
    rw [heq, heq', between_eq file hfront hlast]
    refine .leaf ?_
    rw [List.length_append]
    exact Nat.lt_add_of_pos_right (List.length_pos_iff.mpr htext)
  | @group d opener closer stream hopener hopening hcloser hclosing hstream ih =>
    obtain ⟨front, hfront, -, heq, -⟩ := hopener.prefixes
    obtain ⟨front', -, hlast, -, heq', -⟩ := hcloser.prefixes
    obtain ⟨hbracket, -⟩ := hcloser.closing hclosing
    rw [heq, heq', between_eq file hfront hlast] at hordered ⊢
    rw [Token.pieces, List.pairwise_cons, List.pairwise_append] at hordered
    obtain ⟨hopen, hinner, -, hclose⟩ := hordered
    have hat : Piece.At ⟨[d.opening], some (front.length, front.length + 1)⟩ front.length
      (front.length + 1) := rfl
    have hat' : Piece.At ⟨[d.closing], some ((front' ++ closer.text).length - 1,
        (front' ++ closer.text).length)⟩ front'.length (front' ++ closer.text).length := by
      simp [Piece.At, hbracket]
    refine .group ?_ (fun t ht ↦ ih t ht (hinner.sublist (pieces_sublist ht))) ?_
    · have hle := hopen _ (List.mem_append_right _ (List.mem_singleton_self _)) _ _ _ _ hat hat'
      simp [hbracket]
      omega
    · intro t ht
      obtain ⟨a, b, hspan, ⟨p, hp, b', hpat⟩, q, hq, a', hqat⟩ := (hstream t ht).span_eq
      have hp' := (pieces_sublist ht).mem hp
      have hq' := (pieces_sublist ht).mem hq
      refine ⟨a, b, hspan, ?_, ?_⟩
      · exact hopen p (List.mem_append_left _ hp') _ _ _ _ hat hpat
      · have hle := hclose q hq' _ (List.mem_singleton_self _) _ _ _ _ hqat hat'
        simp [hbracket]
        omega

/-! ### Trees over a text -/

/-- Token trees that lie over a text. Each leaf and each bracket is the text at its extent, with at
least one character. They stand one behind the other. Before the first of them, between neighbours
and behind the last is nothing but trivia. And every token knows its place. -/
structure LaidOut (file : String) (source : List Char) (ts : List Token) : Prop where
  stands : ∀ p ∈ piecesAll ts, ∃ first last : Nat, p.At first last ∧ first < last ∧
    last ≤ source.length ∧ (source.take last).drop first = p.text
  ordered : (piecesAll ts).Pairwise Piece.Before
  before : ∀ p ps a b, piecesAll ts = p :: ps → p.At a b → Trivia (source.take a)
  between : ∀ ps p q qs a b a' b', piecesAll ts = ps ++ p :: q :: qs → p.At a b → q.At a' b' →
    Trivia ((source.take a').drop b)
  behind : ∀ ps p a b, piecesAll ts = ps ++ [p] → p.At a b → Trivia (source.drop b)
  alone : piecesAll ts = [] → Trivia source
  placed : ∀ t ∈ ts, t.Placed file source

/-- The trees that the lexer makes of a text lie over it. -/
theorem laidOut_of_lex {source : String} (hlex : lex file source = .ok ts) :
    LaidOut file source.toList ts := by
  obtain ⟨ls, hscans, hpieces⟩ := pieces_of_lex hlex
  have hordered : (piecesAll ts).Pairwise Piece.Before := hpieces ▸ ordered_of_scans hscans
  constructor
  case stands => exact hpieces ▸ fun p hp ↦ stands_of_scans hscans hp
  case ordered => exact hordered
  case before => exact hpieces ▸ fun p ps a b hps hp ↦ trivia_before hscans hps hp
  case between =>
    exact hpieces ▸ fun ps p q qs a b a' b' hps hp hq ↦ trivia_neighbours hscans hps hp hq
  case behind => exact hpieces ▸ fun ps p a b hps hp ↦ trivia_behind hscans hps hp
  case alone =>
    intro hnone
    rw [hscans.eq_append, List.append_nil]
    exact hscans.trivia (role_of_pieces_eq_nil (hpieces ▸ hnone))
  case placed =>
    exact fun t ht ↦ (lexedFrom_of_lex hlex t ht).placed (hordered.sublist (pieces_sublist ht))

/-- Brackets in a comment and in a string, on several lines. -/
def commentedCall : List Token := (lex "<input>" "f(/* ) */ 'a,\n[\"(\n\"]) // g(").toOption.getD []

/-- The brackets of the comment and of the string are no pieces, and the lines are counted through
the string. -/
theorem laidOut_of_lex_commented :
    lex "<input>" "f(/* ) */ 'a,\n[\"(\n\"]) // g(" = .ok commentedCall ∧
    LaidOut "<input>" "f(/* ) */ 'a,\n[\"(\n\"]) // g(".toList commentedCall ∧
    (piecesAll commentedCall).map (·.text) =
      [['f'], ['('], ['\x27', 'a'], [','], ['['], ['"', '(', '\n', '"'], [']'], [')']] ∧
    commentedCall.map Token.span = [some ⟨"<input>", 1, 1, 0, 1, 1, 2⟩,
      some ⟨"<input>", 1, 2, 1, 21, 3, 4⟩] := by
  have hlex : lex "<input>" "f(/* ) */ 'a,\n[\"(\n\"]) // g(" = .ok commentedCall := rfl
  exact ⟨hlex, laidOut_of_lex hlex, by decide +kernel, by decide +kernel⟩

end Expander
