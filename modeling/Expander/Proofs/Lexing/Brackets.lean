import Expander.Failure
import Expander.Proofs.Lexing.Pieces

/-!
# The first thing wrong with a text

A text has trees if and only if something is taken everywhere in it and its brackets are balanced.
Otherwise it has one trouble: the first character at which nothing is taken, the first closing
bracket that has no partner, or, where there is neither, the bracket opened last of those that stay
open. That is what is reported, and where (`lex_reports`).

What stays open is found by a second walk, which takes brackets off a stack without looking at them.
It finds the right one because it is only taken over lexemes of which no closing bracket is without
a partner (`Unclosed.foldl_track`).
-/

set_option autoImplicit false

namespace Expander

open Terminal

variable {file source : String} {cs rest : List Char} {ls ms os : List Lexeme} {l o : Lexeme}
  {d : Delimiter}

/-! ### Balanced lexemes -/

def Lexeme.IsBracket (l : Lexeme) : Prop := ∃ d, l.role = .opening d ∨ l.role = .closing d

/-- Lexemes of which every bracket has a partner. -/
inductive Balanced : List Lexeme → Prop
  | nil : Balanced []
  | other {l : Lexeme} {ls : List Lexeme} (hl : ¬ l.IsBracket) (h : Balanced ls) :
      Balanced (l :: ls)
  | group {d : Delimiter} {opener closer : Lexeme} {inner ls : List Lexeme}
      (hopener : opener.role = .opening d) (hinner : Balanced inner)
      (hcloser : closer.role = .closing d) (h : Balanced ls) :
      Balanced (opener :: (inner ++ closer :: ls))

/-- Lexemes of which some opening brackets have no partner but every closing bracket has one, with
the former, the last of them first. -/
inductive Unclosed : List Lexeme → List Lexeme → Prop
  | balanced {ls : List Lexeme} (h : Balanced ls) : Unclosed ls []
  | opens {d : Delimiter} {opener : Lexeme} {ls ms os : List Lexeme} (h : Unclosed ls os)
      (hopener : opener.role = .opening d) (hms : Balanced ms) :
      Unclosed (ls ++ opener :: ms) (opener :: os)

/-- Balanced texts one behind the other are balanced. -/
theorem Balanced.append (h : Balanced ls) (h' : Balanced ms) : Balanced (ls ++ ms) := by
  induction h with
  | nil => exact h'
  | other hl _ ih => exact .other hl ih
  | group hopener hinner hcloser _ _ ih =>
    rw [List.cons_append, List.append_assoc, List.cons_append]
    exact .group hopener hinner hcloser ih

/-- A balanced text closes nothing of what is open before it. -/
theorem Unclosed.append (h : Unclosed ls os) (h' : Balanced ms) : Unclosed (ls ++ ms) os := by
  cases h with
  | balanced h => exact .balanced (h.append h')
  | opens h hopener hms =>
    rw [List.append_assoc, List.cons_append]
    exact .opens h hopener (hms.append h')

/-- A closing bracket is the partner of the bracket opened last. -/
theorem Unclosed.closes (h : Unclosed ls (o :: os)) (ho : o.role = .opening d)
    (hl : l.role = .closing d) : Unclosed (ls ++ [l]) os := by
  cases h with
  | opens h hopener hms =>
    rw [List.append_assoc, List.cons_append]
    exact h.append (.group ho hms hl .nil)

/-- A closing bracket without a partner among lexemes. -/
def HasStray (ls : List Lexeme) : Prop := ∃ front l back os d, ls = front ++ l :: back ∧
  Unclosed front os ∧ l.role = .closing d ∧ ∀ o ∈ os.head?, o.role ≠ .opening d

/-- A text leaves some brackets open, or closes one that is not open. -/
theorem unclosed_or_hasStray (ls : List Lexeme) : (∃ os, Unclosed ls os) ∨ HasStray ls := by
  induction ls using List.reverseRecOn with
  | nil => exact .inl ⟨[], .balanced .nil⟩
  | append_singleton ls l ih =>
    rcases ih with ⟨os, hos⟩ | ⟨front, m, back, os, d, rfl, hfront, hm, hhead⟩
    · cases hrole : l.role with
      | trivia =>
        have hl : ¬ l.IsBracket := by simp [Lexeme.IsBracket, hrole]
        exact .inl ⟨os, hos.append (.other hl .nil)⟩
      | leaf =>
        have hl : ¬ l.IsBracket := by simp [Lexeme.IsBracket, hrole]
        exact .inl ⟨os, hos.append (.other hl .nil)⟩
      | opening d => exact .inl ⟨l :: os, .opens hos hrole .nil⟩
      | closing d =>
        by_cases hhead : ∀ o ∈ os.head?, o.role ≠ .opening d
        · exact .inr ⟨ls, l, [], os, d, rfl, hos, hrole, hhead⟩
        · cases os with
          | nil => simp at hhead
          | cons o os =>
            have ho : o.role = .opening d := by simpa using hhead
            exact .inl ⟨os, hos.closes ho hrole⟩
    · exact .inr ⟨front, m, back ++ [l], os, d, by simp, hfront, hm, hhead⟩

/-! ### What the lexer makes of brackets -/

namespace Lexing

/-- What is no bracket goes to the innermost level, and leaves the levels as they are. -/
theorem push_of_not_bracket (file : String) (hl : ¬ l.IsBracket) (t : Trees) :
    ∃ t', t.push file l = .ok t' ∧ t'.levels = t.levels := by
  cases hrole : l.role with
  | trivia => exact ⟨t, by simp [Trees.push, hrole], rfl⟩
  | leaf kind =>
    refine ⟨{ t with done := .leaf kind (.ofList l.text) (some (.between file l.first l.last)) ::
      t.done }, ?_, rfl⟩
    simp [Trees.push, hrole]
  | opening d => exact absurd ⟨d, .inl hrole⟩ hl
  | closing d => exact absurd ⟨d, .inr hrole⟩ hl

theorem foldlM_cons {t t' : Trees} (h : t.push file l = .ok t') (ls : List Lexeme) :
    (l :: ls).foldlM (Trees.push file) t = ls.foldlM (Trees.push file) t' := by
  rw [List.foldlM_cons, h]
  rfl

theorem foldlM_append {t t' : Trees} (h : ls.foldlM (Trees.push file) t = .ok t')
    (ms : List Lexeme) :
    (ls ++ ms).foldlM (Trees.push file) t = ms.foldlM (Trees.push file) t' := by
  rw [List.foldlM_append, h]
  rfl

/-- An opening bracket opens a level of its own. -/
theorem push_opening (h : l.role = .opening d) (t : Trees) :
    t.push file l = .ok ⟨⟨d, l, t.done⟩ :: t.levels, []⟩ := by
  simp [Trees.push, h]

/-- A closing bracket that fits closes the innermost level. -/
theorem push_closing (file : String) (h : l.role = .closing d) {t : Trees} {level : Level}
    {outer : List Level} (hlevels : t.levels = level :: outer) (hd : level.delimiter = d) :
    ∃ t', t.push file l = .ok t' ∧ t'.levels = outer := by
  simp [Trees.push, h, hlevels, hd]

/-- Balanced lexemes leave the groups that are open as they are. -/
theorem foldlM_of_balanced (file : String) (h : Balanced ls) (t : Trees) :
    ∃ t', ls.foldlM (Trees.push file) t = .ok t' ∧ t'.levels = t.levels := by
  induction h generalizing t with
  | nil => exact ⟨t, rfl, rfl⟩
  | other hl _ ih =>
    obtain ⟨t₁, hpush, hlevels⟩ := push_of_not_bracket file hl t
    obtain ⟨t', hfold, hlevels'⟩ := ih t₁
    exact ⟨t', (foldlM_cons hpush _).trans hfold, hlevels'.trans hlevels⟩
  | @group d opener closer inner ls hopener _ hcloser _ ihinner ih =>
    obtain ⟨t₁, hinner, hlevels⟩ := ihinner ⟨⟨d, opener, t.done⟩ :: t.levels, []⟩
    obtain ⟨t₂, hclose, houter⟩ := push_closing file hcloser hlevels rfl
    obtain ⟨t', hfold, hlevels'⟩ := ih t₂
    refine ⟨t', ?_, hlevels'.trans houter⟩
    rw [foldlM_cons (push_opening hopener t), foldlM_append hinner, foldlM_cons hclose, hfold]

/-- The groups that are open are those of the brackets without a partner. -/
theorem foldlM_of_unclosed (file : String) (h : Unclosed ls os) :
    ∃ t, ls.foldlM (Trees.push file) Trees.empty = .ok t ∧
      List.Forall₂ (fun level o ↦ o.role = .opening level.delimiter) t.levels os := by
  induction h with
  | balanced h =>
    obtain ⟨t, hfold, hlevels⟩ := foldlM_of_balanced file h Trees.empty
    exact ⟨t, hfold, hlevels ▸ .nil⟩
  | @opens d opener ls ms os _ hopener hms ih =>
    obtain ⟨t₁, hfold, hlevels⟩ := ih
    obtain ⟨t, hfold', hlevels'⟩ :=
      foldlM_of_balanced file hms ⟨⟨d, opener, t₁.done⟩ :: t₁.levels, []⟩
    refine ⟨t, ?_, hlevels' ▸ .cons hopener hlevels⟩
    rw [foldlM_append hfold, foldlM_cons (push_opening hopener t₁), hfold']

/-- A closing bracket without a partner is where the trees break off. -/
theorem push_of_stray {t : Trees} (hl : l.role = .closing d)
    (hlevels : List.Forall₂ (fun level o ↦ o.role = .opening level.delimiter) t.levels os)
    (hos : ∀ o ∈ os.head?, o.role ≠ .opening d) :
    t.push file l = .error (.strayCloser d, some (.between file l.first l.last)) := by
  cases hlevels' : t.levels with
  | nil => simp [Trees.push, hl, hlevels']
  | cons level outer =>
    rw [hlevels'] at hlevels
    cases hlevels with
    | @cons _ o _ os ho _ =>
      have hd : level.delimiter ≠ d := fun hd ↦ hos o rfl (hd ▸ ho)
      simp [Trees.push, hl, hlevels', hd]

/-! ### The second walk -/

/-- Behind a balanced text the second walk has the brackets open that it had before. -/
theorem foldl_track_of_balanced (h : Balanced ls) (os : List Lexeme) : ls.foldl track os = os := by
  induction h generalizing os with
  | nil => rfl
  | @other l ls hl _ ih =>
    have htrack : track os l = os := by
      rw [track]
      split
      · next d hrole => exact absurd ⟨d, .inl hrole⟩ hl
      · next d hrole => exact absurd ⟨d, .inr hrole⟩ hl
      · rfl
    rw [List.foldl_cons, htrack, ih]
  | @group d opener closer inner ls hopener _ hcloser _ ihinner ih =>
    have hopens : track os opener = opener :: os := by simp [track, hopener]
    have hcloses : track (opener :: os) closer = os := by simp [track, hcloser]
    rw [List.foldl_cons, hopens, List.foldl_append, ihinner, List.foldl_cons, hcloses, ih]

/-- A walk that takes the bracket opened last for the partner of any closing bracket is left with
the brackets that have none. -/
theorem foldl_track (h : Unclosed ls os) : ls.foldl track [] = os := by
  induction h with
  | balanced h => exact foldl_track_of_balanced h []
  | @opens d opener ls ms os _ hopener hms ih =>
    have hopens : track os opener = opener :: os := by simp [track, hopener]
    rw [List.foldl_append, ih, List.foldl_cons, hopens, foldl_track_of_balanced hms]

end Lexing

/-! ### Troubles -/

/-- What is wrong first with a text: what is said of it, and the offsets between which it stands. -/
inductive Trouble (source : List Char) : (message : String) → (first last : Nat) → Prop
  | unknownStart {ls os : List Lexeme} {c : Char} {rest : List Char}
      (hscans : Scans [] source ls (c :: rest)) (hls : Unclosed ls os)
      (hnone : first? (c :: rest) = none) :
      Trouble source ("unknown start of token: " ++ ticked (String.singleton c))
        (ls.flatMap Lexeme.text).length ((ls.flatMap Lexeme.text).length + 1)
  | strayCloser {ls os : List Lexeme} {l : Lexeme} {rest : List Char} {d : Delimiter}
      (hscans : Scans [] source (ls ++ [l]) rest) (hls : Unclosed ls os)
      (hl : l.role = .closing d) (hos : ∀ o ∈ os.head?, o.role ≠ .opening d) :
      Trouble source ("unexpected closing delimiter: " ++ ticked (String.singleton d.closing))
        l.first.offset l.last.offset
  | unclosed {ls os : List Lexeme} {o : Lexeme} (hscans : Scans [] source ls [])
      (hls : Unclosed ls (o :: os)) :
      Trouble source "this input contains an unclosed delimiter" o.first.offset o.last.offset

/-- A chain that was begun can be gone through to where no terminal matches. -/
theorem Scans.extend (h : Scans [] cs ls rest) : ∃ ms rest', Scans [] cs (ls ++ ms) rest' ∧
    first? rest' = none := by
  obtain ⟨ms, rest', h', hrest'⟩ := exists_scans (ls.flatMap Lexeme.text) rest
  exact ⟨ms, rest', h.append h', hrest'⟩

/-- A character at which nothing is taken does not end a line, and stands between its offsets. -/
theorem unknownSpan_eq {before : List Char} {c : Char} (hnone : first? (c :: rest) = none)
    (file : String) :
    Lexing.unknownSpan file ⟨c, Position.start.after before⟩ =
      spanAt file (before ++ c :: rest) before.length (before.length + 1) := by
  have hc : c ≠ '\n' := by
    rintro rfl
    cases hnone.symm.trans (first?_of_isBlank rfl rest)
  have hnext : Position.start.after (before ++ [c]) = ⟨(Position.start.after before).offset + 1,
      (Position.start.after before).line, (Position.start.after before).column + 1⟩ := by
    rw [Position.after_append, Position.after_cons, Position.after_nil, Position.next, if_neg hc]
  have hlast : before ++ [c] <+: before ++ c :: rest := ⟨rest, by simp⟩
  rw [Lexing.unknownSpan, ← hnext, between_eq file (List.prefix_append before (c :: rest)) hlast,
    List.length_append, List.length_singleton]

/-- A trouble of a text is what is reported of it. -/
theorem Trouble.lex_eq {message : String} {first last : Nat}
    (h : Trouble source.toList message first last) (file : String) : ∃ e,
    lex file source = .error e ∧ e.cause.message = message ∧
      e.span = some (spanAt file source.toList first last) ∧ e.source = source := by
  cases h with
  | @unknownStart ls os c rest hscans hls hnone =>
    obtain ⟨t, hfold, -⟩ := Lexing.foldlM_of_unclosed file hls
    rw [hscans.lex_eq hnone, Lexing.trees, hfold]
    refine ⟨_, rfl, rfl, ?_, rfl⟩
    rw [hscans.eq_append]
    exact congrArg some (unknownSpan_eq hnone file)
  | @strayCloser ls os l rest d hscans hls hl hos =>
    obtain ⟨ms, rest', hscans', hrest'⟩ := hscans.extend
    obtain ⟨t, hfold, hlevels⟩ := Lexing.foldlM_of_unclosed file hls
    rw [hscans'.lex_eq hrest', Lexing.trees, List.append_assoc, Lexing.foldlM_append hfold,
      List.singleton_append, List.foldlM_cons, Lexing.push_of_stray hl hlevels hos]
    refine ⟨_, rfl, rfl, ?_, rfl⟩
    exact congrArg some ((hscans.takenFrom l (by simp)).between_eq file)
  | @unclosed ls os o hscans hls =>
    obtain ⟨t, hfold, hlevels⟩ := Lexing.foldlM_of_unclosed file hls
    have htrack := Lexing.foldl_track hls
    have ho : o ∈ ls := by
      cases hls with
      | opens => simp
    cases hlevels' : t.levels with
    | nil =>
      rw [hlevels'] at hlevels
      cases hlevels
    | cons level outer =>
      refine ⟨⟨.unclosed, some (.between file o.first o.last), source⟩, ?_, rfl, ?_, rfl⟩
      · rw [hscans.lex_eq rfl, Lexing.trees, hfold]
        simp [Lexing.Trees.finish, hlevels', Lexing.unclosedSpan, htrack, bind, Except.bind]
      · exact congrArg some ((hscans.takenFrom o ho).between_eq file)

/-- A text of terminals whose brackets match is a sequence of tokens. -/
theorem lex_of_balanced (hscans : Scans [] source.toList ls []) (hls : Balanced ls)
    (file : String) : ∃ ts, lex file source = .ok ts := by
  obtain ⟨t, hfold, hlevels⟩ := Lexing.foldlM_of_balanced file hls Lexing.Trees.empty
  exact ⟨_, lex_eq_ok_iff.mpr ⟨ls, t, hscans, hfold, hlevels, rfl⟩⟩

/-- A text without trouble is a chain of balanced lexemes. -/
theorem balanced_or_trouble (source : List Char) :
    (∃ ls, Scans [] source ls [] ∧ Balanced ls) ∨
      ∃ message first last, Trouble source message first last := by
  obtain ⟨ls, rest, hscans, hrest⟩ := exists_scans [] source
  rcases unclosed_or_hasStray ls with ⟨os, hos⟩ | ⟨front, l, back, os, d, rfl, hfront, hl, hhead⟩
  · cases rest with
    | cons c rest => exact .inr ⟨_, _, _, .unknownStart hscans hos hrest⟩
    | nil =>
      cases hos with
      | balanced h => exact .inl ⟨ls, hscans, h⟩
      | opens h hopener hms => exact .inr ⟨_, _, _, .unclosed hscans (.opens h hopener hms)⟩
  · rw [List.append_cons] at hscans
    obtain ⟨mid, hscans, -⟩ := hscans.exists_append
    exact .inr ⟨_, _, _, .strayCloser hscans hfront hl hhead⟩

/-- The trouble of a text is what is reported of it, with its span in the text. A text has trees if
and only if it has no trouble, and that is if something is taken everywhere in it and its brackets
are balanced. -/
theorem lex_reports (file source : String) :
    (∀ message first last, Trouble source.toList message first last → ∃ e,
      lex file source = .error e ∧ e.cause.message = message ∧
        e.span = some (spanAt file source.toList first last) ∧ e.source = source) ∧
    ((∃ ts, lex file source = .ok ts) ↔
      ¬ ∃ message first last, Trouble source.toList message first last) ∧
    ((∃ ts, lex file source = .ok ts) ↔ ∃ ls, Scans [] source.toList ls [] ∧ Balanced ls) := by
  have hnone : (∃ ts, lex file source = .ok ts) →
      ¬ ∃ message first last, Trouble source.toList message first last := by
    rintro ⟨ts, hts⟩ ⟨message, first, last, htrouble⟩
    obtain ⟨e, he, -⟩ := htrouble.lex_eq file
    cases hts.symm.trans he
  have hchain : (∃ ls, Scans [] source.toList ls [] ∧ Balanced ls) →
      ∃ ts, lex file source = .ok ts :=
    fun ⟨ls, hscans, hls⟩ ↦ lex_of_balanced hscans hls file
  have hsome := balanced_or_trouble source.toList
  refine ⟨fun message first last h ↦ h.lex_eq file, ⟨hnone, fun h ↦ ?_⟩, fun h ↦ ?_, hchain⟩
  · exact hchain (hsome.resolve_right h)
  · exact hsome.resolve_right (hnone h)

/-- Two brackets are open, and the one reported is the second. -/
theorem lex_reports_unclosed :
    Trouble "([\nx".toList "this input contains an unclosed delimiter" 1 2 ∧
    ∃ e, lex "<input>" "([\nx" = .error e ∧
      e.cause.message = "this input contains an unclosed delimiter" ∧
      e.span = some ⟨"<input>", 1, 2, 1, 2, 1, 3⟩ := by
  have hscans : Scans [] "([\nx".toList _ [] :=
    @Scans.cons [] ['('] ['[', '\n', 'x'] [] (.opening .paren) _ (by decide)
      (@Scans.cons _ ['['] ['\n', 'x'] [] (.opening .bracket) _ (by decide)
      (@Scans.cons _ ['\n'] ['x'] [] .blank _ (by decide)
      (@Scans.cons _ ['x'] [] [] .word _ (by decide) .nil)))
  have htrouble : Trouble "([\nx".toList "this input contains an unclosed delimiter" 1 2 := by
    refine .unclosed hscans (@Unclosed.opens .bracket _ [_] _ _
      (@Unclosed.opens .paren _ [] [] [] (.balanced .nil) rfl .nil) rfl
      (.other ?_ (.other ?_ .nil)))
    · simp [Lexeme.IsBracket, Lexeme.role, Lexeme.behind]
    · simp [Lexeme.IsBracket, Lexeme.role, Lexeme.behind]
  obtain ⟨e, he, hmessage, hspan, -⟩ := (lex_reports "<input>" "([\nx").1 _ _ _ htrouble
  exact ⟨htrouble, e, he, hmessage, hspan.trans (by decide)⟩

end Expander
