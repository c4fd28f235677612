import Expander.Proofs.Lexing.Provenance
import Expander.Proofs.Source.Places

/-!
# The pieces of token trees

Token trees are a way to write down a sequence: leaf by leaf, and for a group its opening bracket,
what is in it, and its closing bracket. `Token.pieces` is that sequence, each piece with the extent
that its token gives it. The pieces of what the lexer makes are the lexemes of the text that are no
trivia, one for one and in order (`pieces_of_lex`).
-/

set_option autoImplicit false

namespace Expander

open Token

variable {file source : String} {ts us : List Token} {l : Lexeme} {ls : List Lexeme}

/-- A leaf or a bracket of a group: its text, and the offsets where it begins and ends. -/
structure Piece where
  text : List Char
  extent : Option (Int × Int)
deriving DecidableEq

mutual

/-- The leaves and brackets of a token, in order. The brackets of a group are the first character
and the last of its span. -/
def Token.pieces : Token → List Piece
  | leaf _ text span => [⟨text.toList, span.map fun s ↦ (s.start, s.stop)⟩]
  | group d span stream =>
    ⟨[d.opening], span.map fun s ↦ (s.start, s.start + 1)⟩ ::
      (Token.piecesAll stream ++ [⟨[d.closing], span.map fun s ↦ (s.stop - 1, s.stop)⟩])
  | hollow d span => [⟨[d.opening], span.map fun s ↦ (s.start, s.start + 1)⟩]

def Token.piecesAll : List Token → List Piece
  | [] => []
  | t :: ts => t.pieces ++ Token.piecesAll ts

end

@[simp] theorem piecesAll_nil : piecesAll [] = [] := by rw [piecesAll]

@[simp] theorem piecesAll_cons (t : Token) (ts : List Token) :
    piecesAll (t :: ts) = t.pieces ++ piecesAll ts := by rw [piecesAll]

@[simp] theorem piecesAll_append (ts us : List Token) :
    piecesAll (ts ++ us) = piecesAll ts ++ piecesAll us := by
  induction ts with
  | nil => simp
  | cons t ts ih => simp [ih]

/-! ### Lexemes as pieces -/

/-- A lexeme as a piece of a text. -/
def Lexeme.piece (l : Lexeme) : Piece := ⟨l.text, some (l.first.offset, l.last.offset)⟩

/-- Whether a lexeme is more than a blank or a comment. -/
def Lexeme.isSignificant (l : Lexeme) : Bool := l.role ≠ .trivia

/-- A word becomes a token, and is no trivia nor a bracket. -/
theorem role_of_word (h : l.terminal = .word) : ∃ kind, l.role = .leaf kind := by
  rw [Lexeme.role, h]
  by_cases htext : l.text = ['_']
  · exact ⟨.punct, if_pos htext⟩
  · exact ⟨.ident, if_neg htext⟩

theorem terminal_of_opening {d : Delimiter} (h : l.role = .opening d) :
    l.terminal = .opening d := by
  cases hterminal : l.terminal with
  | word =>
    obtain ⟨kind, hkind⟩ := role_of_word hterminal
    cases hkind.symm.trans h
  | _ => simp_all [Lexeme.role]

theorem terminal_of_closing {d : Delimiter} (h : l.role = .closing d) :
    l.terminal = .closing d := by
  cases hterminal : l.terminal with
  | word =>
    obtain ⟨kind, hkind⟩ := role_of_word hterminal
    cases hkind.symm.trans h
  | _ => simp_all [Lexeme.role]

/-- A lexeme that is a bracket is one character. -/
theorem Lexeme.TakenFrom.bracket {source : List Char} {c : Char} (h : l.TakenFrom source)
    (hwidth : l.terminal.width = Terminal.bracketWidth c) :
    l.text = [c] ∧ l.last.offset = l.first.offset + 1 := by
  obtain ⟨before, behind, -, hfirst, hlast, n, htaken, htext⟩ := h
  have hbracket := (Terminal.first?_eq_some_iff.mp htaken).1
  rw [hwidth] at hbracket
  obtain ⟨rest, hrest, rfl⟩ := Terminal.bracketWidth_eq_some_iff.mp hbracket
  rw [hrest, List.take_succ_cons, List.take_zero] at htext
  rw [hfirst, hlast, htext, start_after before [], start_after (before ++ [c]) []]
  exact ⟨rfl, List.length_append⟩

/-- An opening bracket is the one character that it is named for. -/
theorem Lexeme.TakenFrom.opening {source : List Char} {d : Delimiter} (h : l.TakenFrom source)
    (hrole : l.role = .opening d) :
    l.text = [d.opening] ∧ l.last.offset = l.first.offset + 1 :=
  h.bracket (by rw [terminal_of_opening hrole]; rfl)

/-- So is a closing bracket. -/
theorem Lexeme.TakenFrom.closing {source : List Char} {d : Delimiter} (h : l.TakenFrom source)
    (hrole : l.role = .closing d) :
    l.text = [d.closing] ∧ l.last.offset = l.first.offset + 1 :=
  h.bracket (by rw [terminal_of_closing hrole]; rfl)

/-- The span of a lexeme of a text is that between its offsets. -/
theorem Lexeme.TakenFrom.between_eq {source : List Char} (h : l.TakenFrom source) (file : String) :
    Span.between file l.first l.last = spanAt file source l.first.offset l.last.offset := by
  obtain ⟨front, hfront, hlast, heq, heq', -⟩ := h.prefixes
  rw [heq, heq', Expander.between_eq file hfront hlast, start_after front [],
    start_after (front ++ l.text) []]

/-- The pieces that some lexemes make. -/
def Lexeme.pieces (ls : List Lexeme) : List Piece :=
  (ls.filter Lexeme.isSignificant).map Lexeme.piece

/-- The pieces of lexemes one behind the other are their pieces one behind the other. -/
theorem pieces_append (ls ls' : List Lexeme) :
    Lexeme.pieces (ls ++ ls') = Lexeme.pieces ls ++ Lexeme.pieces ls' := by
  rw [Lexeme.pieces, List.filter_append, List.map_append]
  rfl

theorem pieces_singleton (h : l.role ≠ .trivia) : Lexeme.pieces [l] = [l.piece] := by
  simp [Lexeme.pieces, Lexeme.isSignificant, h]

/-- Trivia leave no piece. -/
theorem pieces_trivia (h : l.role = .trivia) : Lexeme.pieces [l] = [] := by
  simp [Lexeme.pieces, Lexeme.isSignificant, h]

namespace Lexing

/-- The pieces of trees in the making: of each open group what stands before it, outermost first,
and its bracket, and then the tokens of the innermost. -/
def Trees.pieces (t : Trees) : List Piece :=
  t.levels.reverse.flatMap (fun level ↦
    piecesAll level.before.reverse ++ [level.bracket.piece]) ++ piecesAll t.done.reverse

/-- A lexeme that is taken adds itself to the pieces, if it is no trivia. -/
theorem pieces_push {source : List Char} {t t' : Trees} (ht : t.LexedFrom file source)
    (hl : l.TakenFrom source) (h : t.push file l = .ok t') :
    t'.pieces = t.pieces ++ Lexeme.pieces [l] := by
  rw [Trees.push] at h
  cases hrole : l.role with
  | trivia =>
    simp only [hrole, Except.ok.injEq] at h
    rw [pieces_trivia hrole, List.append_nil, h]
  | leaf kind =>
    simp only [hrole, Except.ok.injEq] at h
    rw [pieces_singleton (by simp [hrole])]
    simp [← h, Trees.pieces, Token.pieces, Lexeme.piece, Span.between]
  | opening d =>
    simp only [hrole, Except.ok.injEq] at h
    rw [pieces_singleton (by simp [hrole])]
    simp [← h, Trees.pieces]
  | closing d =>
    rw [pieces_singleton (by simp [hrole])]
    cases hlevels : t.levels with
    | nil => simp [hrole, hlevels] at h
    | cons level outer =>
      by_cases hd : level.delimiter = d
      · obtain ⟨hbracket, hopening, -⟩ := ht.levels level (by simp [hlevels])
        obtain ⟨hopen, hfirst⟩ := hbracket.opening hopening
        obtain ⟨hclose, hlast⟩ := hl.closing hrole
        simp only [hrole, hlevels, if_pos hd, Except.ok.injEq] at h
        simp [← h, Trees.pieces, hlevels, Token.pieces, Lexeme.piece, Span.between, hopen, hclose,
          hfirst, hlast, hd]
      · simp [hrole, hlevels, if_neg hd] at h

/-- When the trees are built, no piece is lost: each lexeme adds its own. -/
theorem pieces_foldlM {source : List Char} {t t' : Trees} (ht : t.LexedFrom file source)
    (hls : ∀ l ∈ ls, l.TakenFrom source) (h : ls.foldlM (Trees.push file) t = .ok t') :
    t'.pieces = t.pieces ++ Lexeme.pieces ls := by
  induction ls generalizing t with
  | nil =>
    cases h
    exact (List.append_nil _).symm
  | cons l ls ih =>
    obtain ⟨t₁, hpush, hfold⟩ := foldlM_push_cons_iff.mp h
    have hl := hls l List.mem_cons_self
    rw [ih (lexedFrom_push ht hl hpush) (fun l hl ↦ hls l (List.mem_cons_of_mem _ hl)) hfold,
      pieces_push ht hl hpush, List.append_assoc, ← pieces_append, List.singleton_append]

end Lexing

/-! ### Sources -/

/-- The trees of a chain have the pieces of its lexemes. -/
theorem Scans.pieces_eq {t : Lexing.Trees} {cs : List Char} (h : Scans [] cs ls [])
    (hfold : ls.foldlM (Lexing.Trees.push file) Lexing.Trees.empty = .ok t)
    (hlevels : t.levels = []) : piecesAll t.done.reverse = Lexeme.pieces ls := by
  have hpieces := Lexing.pieces_foldlM Lexing.lexedFrom_empty h.takenFrom hfold
  simpa [Lexing.Trees.pieces, hlevels, Lexing.Trees.empty] using hpieces

/-- The pieces of what the lexer makes are the lexemes of the text that are no trivia. -/
theorem pieces_of_lex (hlex : lex file source = .ok ts) :
    ∃ ls, Scans [] source.toList ls [] ∧ piecesAll ts = Lexeme.pieces ls := by
  obtain ⟨ls, t, hscans, hfold, hlevels, rfl⟩ := lex_eq_ok_iff.mp hlex
  exact ⟨ls, hscans, hscans.pieces_eq hfold hlevels⟩

end Expander
