import Expander.Proofs.Lexing.Choice
import Expander.Lexing.Tree

/-!
# The chain of lexemes

A text is passed over lexeme by lexeme, each behind the one before, up to a rest at which nothing is
taken (`exists_scans`). This is what the scan walks over and where it stops (`scan_eq`).
-/

set_option autoImplicit false

namespace Expander

open Terminal

variable {before cs text rest : List Char} {ls ls' : List Lexeme} {terminal : Terminal}

/-- What a terminal takes behind a piece of text. -/
def Lexeme.behind (before : List Char) (terminal : Terminal) (text : List Char) : Lexeme :=
  ⟨terminal, text, Position.start.after before, Position.start.after (before ++ text)⟩

/-- Behind a piece of text, some lexemes are taken in turn, and a rest is left. -/
inductive Scans : (before cs : List Char) → List Lexeme → (rest : List Char) → Prop
  | nil {before rest : List Char} : Scans before rest [] rest
  | cons {before text cs rest : List Char} {terminal : Terminal} {ls : List Lexeme}
      (hfirst : first? (text ++ cs) = some (terminal, text.length))
      (h : Scans (before ++ text) cs ls rest) :
      Scans before (text ++ cs) (.behind before terminal text :: ls) rest

/-- A chain and what is left behind it make up the text. -/
theorem Scans.eq_append (h : Scans before cs ls rest) : cs = ls.flatMap Lexeme.text ++ rest := by
  induction h with
  | nil => rfl
  | cons _ _ ih =>
    rw [List.flatMap_cons, List.append_assoc, ← ih]
    rfl

/-- Chains that meet are one chain. -/
theorem Scans.append (h : Scans before cs ls text)
    (h' : Scans (before ++ ls.flatMap Lexeme.text) text ls' rest) :
    Scans before cs (ls ++ ls') rest := by
  induction h with
  | nil => simpa using h'
  | cons hfirst _ ih =>
    refine .cons hfirst (ih ?_)
    rw [List.flatMap_cons, ← List.append_assoc] at h'
    exact h'

/-- Every text is passed over, up to where nothing is taken. -/
theorem exists_scans (before cs : List Char) :
    ∃ ls rest, Scans before cs ls rest ∧ first? rest = none := by
  induction hlength : cs.length using Nat.strongRecOn generalizing before cs with
  | ind length ih =>
    cases hfirst : first? cs with
    | none => exact ⟨[], cs, .nil, hfirst⟩
    | some taken =>
      obtain ⟨terminal, n⟩ := taken
      obtain ⟨hpos, hle⟩ := first?_le hfirst
      have hdrop : (cs.drop n).length < length := by
        rw [List.length_drop]
        omega
      obtain ⟨ls, rest, h, hrest⟩ := ih _ hdrop (before ++ cs.take n) (cs.drop n) rfl
      have htake : (cs.take n).length = n := List.length_take_of_le hle
      refine ⟨.behind before terminal (cs.take n) :: ls, rest, ?_, hrest⟩
      have hcons : Scans before (cs.take n ++ cs.drop n)
          (.behind before terminal (cs.take n) :: ls) rest :=
        .cons (by rw [List.take_append_drop, htake, hfirst]) h
      rwa [List.take_append_drop] at hcons

/-- The lexer takes the lexeme that is at the front, and goes on at the place behind it. -/
theorem scan_cons (hfirst : first? (text ++ cs) = some (terminal, text.length)) :
    Lexeme.scan (Position.start.after before) 0 (text ++ cs) =
      let behind := Lexeme.scan (Position.start.after (before ++ text)) 0 cs
      (.behind before terminal text :: behind.1, behind.2) := by
  cases text with
  | nil => exact absurd (first?_le hfirst).1 (Nat.lt_irrefl 0)
  | cons c text =>
    rw [List.cons_append] at hfirst ⊢
    rw [Lexeme.scan, hfirst]
    simp only [List.length_cons, Nat.add_sub_cancel, List.take_succ_cons, List.take_left]
    rw [Lexeme.scan_inside, List.take_left, List.drop_left, Lexeme.behind, Position.after_append,
      Position.after_cons]

/-- The scan walks over the chain, and goes on behind it. -/
theorem Scans.scan_eq (h : Scans before cs ls rest) :
    Lexeme.scan (Position.start.after before) 0 cs =
      let behind := Lexeme.scan (Position.start.after (before ++ ls.flatMap Lexeme.text)) 0 rest
      (ls ++ behind.1, behind.2) := by
  induction h with
  | nil => simp
  | cons hfirst _ ih =>
    rw [scan_cons hfirst, ih, List.flatMap_cons, ← List.append_assoc]
    rfl

/-- The scan stops at a rest at which nothing is taken. -/
theorem Scans.scan_eq_of_stop (h : Scans before cs ls rest) (hrest : first? rest = none) :
    Lexeme.scan (Position.start.after before) 0 cs = (ls, rest.head?.map fun c ↦
      ⟨c, Position.start.after (before ++ ls.flatMap Lexeme.text)⟩) := by
  rw [h.scan_eq]
  cases rest with
  | nil => simp
  | cons c rest =>
    rw [Lexeme.scan, hrest]
    simp

/-- The lexemes between the front and the back of a chain are a chain of their own. -/
theorem Scans.exists_append (h : Scans before cs (ls ++ ls') rest) : ∃ mid,
    Scans before cs ls mid ∧ Scans (before ++ ls.flatMap Lexeme.text) mid ls' rest := by
  induction ls generalizing before cs with
  | nil => exact ⟨cs, .nil, by simpa using h⟩
  | cons l ls ih =>
    cases h with
    | cons hfirst h =>
      obtain ⟨mid, hfront, hback⟩ := ih h
      refine ⟨mid, .cons hfirst hfront, ?_⟩
      rwa [List.flatMap_cons, ← List.append_assoc]

/-! ### The lexer on a chain -/

section

variable {file source : String} {ts : List Token}

/-- The lexer makes trees of the chain of its text. -/
theorem Scans.lex_eq (h : Scans [] source.toList ls rest) (hrest : first? rest = none)
    (file : String) : lex file source =
      match Lexing.trees file (ls, rest.head?.map fun c ↦
        ⟨c, Position.start.after (ls.flatMap Lexeme.text)⟩) with
      | .ok ts => .ok ts
      | .error (cause, span) => .error ⟨cause, span, source⟩ := by
  have hscan := h.scan_eq_of_stop hrest
  rw [Position.after_nil, List.nil_append] at hscan
  rw [← hscan]
  rfl

/-- A text has trees if its chain reaches the end and the lexemes leave no group open. -/
theorem lex_eq_ok_iff : lex file source = .ok ts ↔ ∃ ls t, Scans [] source.toList ls [] ∧
    ls.foldlM (Lexing.Trees.push file) Lexing.Trees.empty = .ok t ∧ t.levels = [] ∧
    t.done.reverse = ts := by
  constructor
  · intro hlex
    obtain ⟨ls, rest, hscans, hrest⟩ := exists_scans [] source.toList
    rw [hscans.lex_eq hrest, Lexing.trees] at hlex
    cases hfold : ls.foldlM (Lexing.Trees.push file) Lexing.Trees.empty with
    | error e => simp [hfold, bind, Except.bind] at hlex
    | ok t =>
      cases rest with
      | cons c rest => simp [hfold, bind, Except.bind] at hlex
      | nil =>
        cases hlevels : t.levels with
        | cons level outer =>
          simp [hfold, hlevels, Lexing.Trees.finish, bind, Except.bind] at hlex
        | nil =>
          refine ⟨ls, t, hscans, hfold, hlevels, ?_⟩
          simpa [hfold, hlevels, Lexing.Trees.finish, bind, Except.bind] using hlex
  · rintro ⟨ls, t, hscans, hfold, hlevels, rfl⟩
    rw [hscans.lex_eq rfl, Lexing.trees]
    simp [hfold, hlevels, Lexing.Trees.finish, bind, Except.bind]

end

end Expander
