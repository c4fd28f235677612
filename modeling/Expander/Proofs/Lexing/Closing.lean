import Expander.Lexing.Terminal
import Mathlib.Data.List.Basic

/-!
# Terminals with an end

Strings, characters and block comments end at something of their own: a mark, a quote, the two
characters behind which a comment is over. What they take is taken whatever stands behind it
(`Closes`), and they take at least one character and no more than there are (`Closes.le`).
-/

set_option autoImplicit false

namespace Expander.Terminal

variable {p : Char → Bool} {c : Char} {cs text rest : List Char} {m n : Nat}
  {f g : List Char → Option Nat}

/-! ### Runs -/

/-- A run is within the text. -/
theorem run_le (p : Char → Bool) (cs : List Char) : run p cs ≤ cs.length := by
  induction cs with
  | nil => exact Nat.le_refl 0
  | cons c cs ih =>
    rw [run]
    split
    · exact Nat.succ_le_succ ih
    · exact Nat.zero_le _

/-- A run is of characters of its class. -/
theorem of_mem_take_run (p : Char → Bool) (cs : List Char) :
    ∀ c ∈ cs.take (run p cs), p c = true := by
  induction cs with
  | nil => simp
  | cons c cs ih =>
    rw [run]
    split
    · next hc => simpa [hc] using ih
    · simp

/-- No character of the class follows a run. -/
theorem head?_drop_run (hc : c ∈ (cs.drop (run p cs)).head?) : p c = false := by
  induction cs with
  | nil => simp at hc
  | cons e cs ih =>
    rw [run] at hc
    split at hc
    · exact ih hc
    · next he =>
      obtain rfl : e = c := by simpa using hc
      simpa using he

/-- A run stops in front of a character that is not of its class. -/
theorem run_append (htext : ∀ c ∈ text, p c = true) (hrest : ∀ c ∈ rest.head?, p c = false) :
    run p (text ++ rest) = text.length := by
  induction text with
  | nil =>
    cases rest with
    | nil => rfl
    | cons c rest =>
      rw [List.nil_append, run, hrest c rfl, if_neg Bool.false_ne_true, List.length_nil]
  | cons c text ih =>
    rw [List.cons_append, run, if_pos (htext c List.mem_cons_self), List.length_cons,
      ih fun c hc ↦ htext c (List.mem_cons_of_mem _ hc)]

/-! ### Ends -/

/-- At the front of a text so many characters are taken, and they are whatever stands behind. -/
def ClosesAt (f : List Char → Option Nat) (cs : List Char) (n : Nat) : Prop :=
  ∃ text rest, cs = text ++ rest ∧ text.length = n ∧ text ≠ [] ∧
    ∀ rest', f (text ++ rest') = some n

/-- What is taken is taken whatever stands behind it. -/
def Closes (f : List Char → Option Nat) : Prop := ∀ cs n, f cs = some n → ClosesAt f cs n

theorem ClosesAt.of_append (text : List Char) (htext : text ≠ [])
    (h : ∀ rest, f (text ++ rest) = some text.length) : ClosesAt f (text ++ rest) text.length :=
  ⟨text, rest, rfl, rfl, htext, h⟩

/-- Something in front of what closes. -/
theorem ClosesAt.behind (front : List Char) (h : ClosesAt f cs n)
    (hfront : ∀ cs', cs'.head? = cs.head? →
      g (front ++ cs') = (f cs').map (· + front.length)) :
    ClosesAt g (front ++ cs) (n + front.length) := by
  obtain ⟨text, rest, rfl, rfl, htext, hrest⟩ := h
  refine ⟨front ++ text, rest, (List.append_assoc _ _ _).symm, ?_, ?_, fun rest' ↦ ?_⟩
  · rw [List.length_append, Nat.add_comm]
  · exact List.append_ne_nil_of_right_ne_nil front htext
  · rw [List.append_assoc, hfront, hrest, Option.map_some]
    rw [List.head?_append_of_ne_nil _ htext, List.head?_append_of_ne_nil _ htext]

/-- What closes does so with a front before it. -/
theorem Closes.behind (front : List Char) (hf : Closes f)
    (hfront : ∀ cs, g (front ++ cs) = (f cs).map (· + front.length))
    (hn : (f cs).map (· + front.length) = some n) : ClosesAt g (front ++ cs) n := by
  obtain ⟨m, hm, rfl⟩ := Option.map_eq_some_iff.mp hn
  exact (hf cs m hm).behind front fun cs' _ ↦ hfront cs'

theorem Closes.le (hf : Closes f) (hn : f cs = some n) : 0 < n ∧ n ≤ cs.length := by
  obtain ⟨text, rest, rfl, rfl, htext, -⟩ := hf cs n hn
  rw [List.length_append]
  exact ⟨List.length_pos_iff.mpr htext, Nat.le_add_right _ _⟩

/-- What has closed has the same width whatever follows. -/
theorem Closes.append (hf : Closes f) (hn : f (text ++ rest) = some text.length)
    (rest' : List Char) : f (text ++ rest') = some text.length := by
  obtain ⟨text', rest'', happend, hlength, -, hrest⟩ := hf _ _ hn
  obtain ⟨rfl, -⟩ := List.append_inj happend hlength.symm
  exact hrest rest'

/-! ### Strings -/

/-- A string goes on at every character but a quote and a backslash. -/
theorem stringTail_cons (hmark : c ≠ '"') (hescape : c ≠ '\\') (cs : List Char) :
    stringTail (c :: cs) = (stringTail cs).map (· + 1) := by
  rw [stringTail.eq_def]
  split
  · next h => cases h
  · next h => exact absurd (List.cons.inj h).1 hmark
  · next h => exact absurd (List.cons.inj h).1 hescape
  · next h => exact absurd (List.cons.inj h).1 hescape
  · next h =>
    cases h
    rfl

/-- A string is closed by the first quote that is not escaped. -/
theorem closes_stringTail : Closes stringTail := by
  intro cs n h
  fun_induction stringTail cs generalizing n with
  | case1 | case4 => cases h
  | case2 cs =>
    cases h
    exact .of_append ['"'] (List.cons_ne_nil _ _) fun _ ↦ rfl
  | case3 c cs ih =>
    obtain ⟨m, hm, rfl⟩ := Option.map_eq_some_iff.mp h
    exact (ih m hm).behind ['\\', c] fun _ _ ↦ rfl
  | case5 c cs hmark hescape hlast ih =>
    obtain ⟨m, hm, rfl⟩ := Option.map_eq_some_iff.mp h
    have hnoEscape : c ≠ '\\' := by
      rintro rfl
      cases cs with
      | nil => exact hlast rfl rfl
      | cons e cs => exact hescape e cs rfl rfl
    exact (ih m hm).behind [c] fun cs' _ ↦ stringTail_cons hmark hnoEscape cs'

/-- So what follows a string does not matter to its width. -/
theorem closes_stringWidth : Closes stringWidth := by
  intro cs n h
  rw [stringWidth.eq_def] at h
  split at h
  · exact closes_stringTail.behind ['b', 'r', '"'] (fun _ ↦ rfl) h
  · exact closes_stringTail.behind ['b', '"'] (fun _ ↦ rfl) h
  · exact closes_stringTail.behind ['r', '"'] (fun _ ↦ rfl) h
  · exact closes_stringTail.behind ['"'] (fun _ ↦ rfl) h
  · cases h

/-! ### Characters -/

/-- A closing quote is added where one stands. -/
theorem closeQuote_eq_some_iff :
    closeQuote m cs = some n ↔ (cs.drop m).head? = some '\x27' ∧ m + 1 = n := by
  rw [closeQuote, Option.ite_none_right_eq_some, Option.some.injEq]

/-- Something is closed by the quote behind it. -/
theorem closeQuote_append (text rest : List Char) :
    closeQuote text.length (text ++ '\x27' :: rest) = some (text.length + 1) := by
  rw [closeQuote_eq_some_iff, List.drop_left]
  exact ⟨rfl, rfl⟩

theorem exists_of_head? {c : Char} (h : cs.head? = some c) : ∃ rest, cs = c :: rest := by
  cases cs with
  | nil => cases h
  | cons e rest =>
    cases h
    exact ⟨rest, rfl⟩

/-- The three forms of an escape, with the quote behind them. -/
inductive Escape : List Char → Prop
  | braced {hex : List Char} (hhex : ∀ c ∈ hex, isHexDigit c = true) (hpos : 1 ≤ hex.length)
      (hle : hex.length ≤ 6) : Escape ('u' :: '\x7b' :: (hex ++ ['\x7d', '\x27']))
  | byte {a b : Char} (ha : isHexDigit a = true) (hb : isHexDigit b = true) :
      Escape ['x', a, b, '\x27']
  | single {c : Char} (hc : c ≠ '\n') : Escape [c, '\x27']

/-- An escape has its own width. -/
theorem Escape.width (h : Escape text) (rest : List Char) :
    escapeWidth (text ++ rest) = some text.length := by
  have hquote : isHexDigit '\x27' = false := by decide
  cases h with
  | @braced hex hhex hpos hle =>
    have hrun : run isHexDigit (hex ++ '\x7d' :: '\x27' :: rest) = hex.length :=
      run_append hhex fun c hc ↦ by
        obtain rfl : '\x7d' = c := by simpa using hc
        decide
    have hclose := closeQuote_append ('u' :: '\x7b' :: (hex ++ ['\x7d'])) rest
    simp only [List.cons_append, List.append_assoc, List.nil_append, List.length_cons,
      List.length_append, List.length_nil] at hclose ⊢
    rw [escapeWidth, hrun, if_pos ⟨hpos, hle, by simp⟩, hclose]
    rfl
  | byte ha hb => simp [escapeWidth, ha, hb, closeQuote]
  | @single c hc =>
    have hclose : closeQuote 1 (c :: '\x27' :: rest) = some 2 := rfl
    rw [List.cons_append, List.cons_append, List.nil_append, escapeWidth.eq_def]
    simp only [if_neg hc, hclose]
    split
    · next heq => cases heq
    · split
      · next heq =>
        cases heq
        rw [hquote]
        rfl
      · rfl

/-- What has the width of an escape is one. -/
theorem exists_of_escapeWidth (h : escapeWidth cs = some n) :
    ∃ text rest, cs = text ++ rest ∧ text.length = n ∧ Escape text := by
  rw [escapeWidth.eq_def, Option.or_eq_some_iff, Option.or_eq_some_iff] at h
  rcases h with h | ⟨-, h | ⟨-, h⟩⟩
  · split at h
    · next hex =>
      obtain ⟨⟨hpos, hle, hbrace⟩, h⟩ := Option.ite_none_right_eq_some.mp h
      obtain ⟨hquote, rfl⟩ := closeQuote_eq_some_iff.mp h
      obtain ⟨taken, rest, rfl, hlength, htaken⟩ : ∃ taken rest, hex = taken ++ '\x7d' :: rest ∧
          taken.length = run isHexDigit hex ∧ ∀ c ∈ taken, isHexDigit c = true := by
        obtain ⟨rest, hrest⟩ := exists_of_head? hbrace
        refine ⟨hex.take (run isHexDigit hex), rest, ?_, ?_, of_mem_take_run isHexDigit hex⟩
        · rw [← hrest, List.take_append_drop]
        · exact List.length_take_of_le (run_le isHexDigit hex)
      rw [← hlength] at hpos hle hquote ⊢
      obtain ⟨rest, rfl⟩ : ∃ rest', rest = '\x27' :: rest' := by
        refine exists_of_head? ?_
        rwa [List.drop_succ_cons, List.drop_succ_cons, List.drop_append, Nat.add_sub_cancel_left,
          List.drop_of_length_le (Nat.le_succ _)] at hquote
      exact ⟨_, rest, by simp, by simp, .braced htaken hpos hle⟩
    · cases h
  · split at h
    · next a b rest =>
      obtain ⟨hbyte, h⟩ := Option.ite_none_right_eq_some.mp h
      obtain ⟨hquote, rfl⟩ := closeQuote_eq_some_iff.mp h
      obtain ⟨rest, rfl⟩ := exists_of_head? hquote
      obtain ⟨ha, hb⟩ := Bool.and_eq_true_iff.mp hbyte
      exact ⟨_, rest, rfl, rfl, .byte ha hb⟩
    · cases h
  · split at h
    · next c rest =>
      obtain ⟨hc, h⟩ := Option.ite_none_left_eq_some.mp h
      obtain ⟨hquote, rfl⟩ := closeQuote_eq_some_iff.mp h
      obtain ⟨rest, rfl⟩ := exists_of_head? hquote
      exact ⟨_, rest, rfl, rfl, .single hc⟩
    · cases h

theorem closes_escapeWidth : Closes escapeWidth := by
  intro cs n h
  obtain ⟨text, rest, rfl, rfl, hescape⟩ := exists_of_escapeWidth h
  refine .of_append text ?_ hescape.width
  rintro rfl
  cases hescape

theorem charTail_cons (hescape : c ≠ '\\') (hquote : c ≠ '\x27') (hline : c ≠ '\n')
    (rest : List Char) : charTail (c :: '\x27' :: rest) = some 2 := by
  rw [charTail.eq_def]
  split
  · next h => cases h
  · next h => exact absurd (List.cons.inj h).1 hescape
  · next h =>
    cases h
    rw [if_neg (by simp [hquote, hline])]
    rfl

/-- A character is closed by the quote behind it, or behind its escape. -/
theorem closes_charTail : Closes charTail := by
  intro cs n h
  rw [charTail.eq_def] at h
  split at h
  · cases h
  · exact closes_escapeWidth.behind ['\\'] (fun _ ↦ rfl) h
  · next c cs hescape =>
    obtain ⟨hc, h⟩ := Option.ite_none_left_eq_some.mp h
    obtain ⟨hquote, hline⟩ := not_or.mp hc
    obtain ⟨hclose, rfl⟩ := closeQuote_eq_some_iff.mp h
    obtain ⟨rest, rfl⟩ := exists_of_head? hclose
    exact .of_append [c, '\x27'] (List.cons_ne_nil _ _)
      fun rest' ↦ charTail_cons (fun hc ↦ hescape hc) hquote hline rest'

/-- So what follows a character does not matter to its width. -/
theorem closes_charWidth : Closes charWidth := by
  intro cs n h
  rw [charWidth.eq_def] at h
  split at h
  · exact closes_charTail.behind ['b', '\x27'] (fun _ ↦ rfl) h
  · exact closes_charTail.behind ['\x27'] (fun _ ↦ rfl) h
  · cases h

/-! ### Block comments -/

/-- A block comment is closed by the first mark of its end. -/
theorem closes_blockCommentTail : Closes blockCommentTail := by
  intro cs n h
  fun_induction blockCommentTail cs generalizing n with
  | case1 cs =>
    cases h
    exact .of_append ['*', '/'] (List.cons_ne_nil _ _) fun _ ↦ rfl
  | case2 c cs hend ih =>
    obtain ⟨m, hm, rfl⟩ := Option.map_eq_some_iff.mp h
    refine (ih m hm).behind [c] fun cs' hcs' ↦ ?_
    rw [List.singleton_append, blockCommentTail.eq_def]
    split
    · next heq =>
      cases heq
      obtain ⟨rest, rfl⟩ := exists_of_head? hcs'.symm
      exact absurd rfl (hend rest rfl)
    · next heq =>
      cases heq
      rfl
    · next heq => cases heq
  | case3 => cases h

/-- So what follows a block comment does not matter to its width. -/
theorem closes_blockCommentWidth : Closes blockCommentWidth := by
  intro cs n h
  rw [blockCommentWidth.eq_def] at h
  split at h
  · exact closes_blockCommentTail.behind ['/', '*'] (fun _ ↦ rfl) h
  · cases h

/-- The two characters with which a block comment is over. -/
def commentEnd : List Char := ['*', '/']

theorem commentEnd_prefix_iff : commentEnd <+: cs ↔ ∃ rest, cs = '*' :: '/' :: rest := by
  constructor
  · rintro ⟨rest, rfl⟩
    exact ⟨rest, rfl⟩
  · rintro ⟨rest, rfl⟩
    exact ⟨rest, rfl⟩

/-- Without an end in the text a block comment is none. -/
theorem blockCommentTail_eq_none_iff : blockCommentTail cs = none ↔ ¬ commentEnd <:+: cs := by
  fun_induction blockCommentTail cs with
  | case1 cs =>
    rw [List.infix_cons_iff, commentEnd_prefix_iff]
    simp
  | case2 c cs hend ih =>
    rw [Option.map_eq_none_iff, ih, List.infix_cons_iff, commentEnd_prefix_iff, not_or]
    refine (and_iff_right ?_).symm
    rintro ⟨rest, heq⟩
    obtain ⟨rfl, rfl⟩ := List.cons.inj heq
    exact hend rest rfl rfl
  | case3 => simp [commentEnd]

/-- A block comment is over with the first end in the text. -/
theorem exists_of_blockCommentTail (h : blockCommentTail cs = some n) : ∃ body rest,
    cs = body ++ commentEnd ++ rest ∧ body.length + 2 = n ∧ ¬ commentEnd <:+: body ++ ['*'] := by
  fun_induction blockCommentTail cs generalizing n with
  | case1 cs =>
    cases h
    exact ⟨[], cs, rfl, rfl, fun hinfix ↦ absurd hinfix.length_le (by decide)⟩
  | case2 c cs hend ih =>
    obtain ⟨m, hm, rfl⟩ := Option.map_eq_some_iff.mp h
    obtain ⟨body, rest, rfl, rfl, hbody⟩ := ih hm
    refine ⟨c :: body, rest, rfl, rfl, ?_⟩
    rw [List.cons_append, List.infix_cons_iff, not_or, commentEnd_prefix_iff]
    refine ⟨?_, hbody⟩
    rintro ⟨more, heq⟩
    obtain ⟨rfl, hsolidus⟩ := List.cons.inj heq
    cases body with
    | nil => cases hsolidus
    | cons e body =>
      obtain ⟨rfl, -⟩ := List.cons.inj hsolidus
      exact hend _ rfl rfl
  | case3 => cases h

/-- A block comment has its marks around a body in which none of its end is found. -/
theorem exists_of_blockCommentWidth (h : blockCommentWidth cs = some n) : ∃ body rest,
    cs = '/' :: '*' :: (body ++ commentEnd) ++ rest ∧
      ('/' :: '*' :: (body ++ commentEnd)).length = n ∧ ¬ commentEnd <:+: body ++ ['*'] := by
  rw [blockCommentWidth.eq_def] at h
  split at h
  · obtain ⟨m, hm, rfl⟩ := Option.map_eq_some_iff.mp h
    obtain ⟨body, rest, rfl, rfl, hbody⟩ := exists_of_blockCommentTail hm
    exact ⟨body, rest, rfl, by simp [commentEnd], hbody⟩
  · cases h

end Expander.Terminal
