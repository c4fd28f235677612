import Expander.Proofs.Lexing.Choice

/-!
# What stands behind a lexeme

What a terminal takes may depend on all of the text behind it: a mark that is closed somewhere makes
a string of the word `b` before it, and the end of a comment makes one of `/` and `*` however far
away it is. Here two texts are held against each other that may stand behind a piece of text. They
begin alike up to where the second halts, and if the second does not halt at once, the same terminal
is taken at the front of both (`Resumes`). Then what is taken in front of the first is taken in
front of the second, unless the second makes a comment of it (`Resumes.first?_eq`). It makes none
where no comment ends in the second alone (`Agrees`, `Sequel.first?_eq`).
-/

set_option autoImplicit false

namespace Expander.Terminal

variable {c : Char} {cs cs' text u v w : List Char} {n : Nat} {t : Terminal}
  {f : List Char → Option Nat}

/-! ### Rivals that cannot both match -/

/-- A character is no string. -/
theorem stringWidth_of_charWidth (h : charWidth cs = some n) : stringWidth cs = none := by
  rw [charWidth.eq_def] at h
  split at h
  · rfl
  · rfl
  · cases h

/-- What is a lifetime is no character. -/
theorem charWidth_of_lifetimeWidth (h : lifetimeWidth cs = some n) : charWidth cs = none := by
  obtain ⟨rest, rfl, hpos, hquote, -⟩ := lifetimeWidth_eq_some_iff.mp h
  cases rest with
  | nil => rfl
  | cons c rest =>
    have hc : isWordStart c = true := of_headed_pos hpos
    have hescape : c ≠ '\\' := by
      rintro rfl
      cases hc
    -- A quote behind the one character of a word is what a lifetime does not have.
    have hclose : closeQuote 1 (c :: rest) = none := by
      refine Option.eq_none_iff_forall_ne_some.mpr fun m hm ↦ hquote ?_
      obtain ⟨hbehind, -⟩ := closeQuote_eq_some_iff.mp hm
      obtain ⟨rest, rfl⟩ := exists_of_head? hbehind
      have hword : plainWord (c :: '\x27' :: rest) = 1 := by
        rw [plainWord, headed, if_pos hc]
        rfl
      rw [hword]
      rfl
    have htail : charTail (c :: rest) = none := by
      rw [charTail.eq_def]
      split
      · rfl
      · next heq => exact absurd (List.cons.inj heq).1 hescape
      · next heq =>
        cases heq
        rw [hclose, ite_self]
    rw [charWidth, htail]
    rfl

/-- A string or a character is taken wherever it matches. -/
theorem first?_of_word_rival (ht : t ∈ word.rivals) (h : t.width cs = some n) :
    first? cs = some (t, n) := by
  obtain rfl | rfl : t = string ∨ t = char := by simpa [rivals] using ht
  · exact first?_eq_some_iff.mpr ⟨h, List.forall_mem_nil _⟩
  · exact first?_eq_some_iff.mpr
      ⟨h, List.forall_mem_singleton.mpr (stringWidth_of_charWidth h)⟩

/-- A word in front of a text is a mark in front of a text that is as long. -/
theorem eq_of_word_of_mark {z rest : List Char}
    (hword : wordWidth (text ++ cs) = some text.length) (heq : text ++ cs = z ++ rest)
    (hmark : wordWidth (z ++ rest) = some z.length) : text = z ∧ cs = rest := by
  rw [heq, hmark] at hword
  exact List.append_inj heq (Option.some.inj hword).symm

/-- Where a string or a character begins with a word, the word is its mark: what is behind the mark
is one without it. -/
theorem exists_of_word_rival (hword : wordWidth (text ++ cs) = some text.length)
    (ht : t ∈ word.rivals) (h : t.width (text ++ cs) = some n) : ∃ c rest, cs = c :: rest ∧
      c ∉ haltChars ∧ ∀ rest, t.width (text ++ c :: rest) = none ↔ t.width (c :: rest) = none := by
  have hmarked {g : List Char → Option Nat} {k l : Nat} (rest : List Char) :
      (g rest).map (· + k) = none ↔ (g rest).map (· + l) = none := by simp
  obtain rfl | rfl : t = string ∨ t = char := by simpa [rivals] using ht
  · rw [width, stringWidth.eq_def] at h
    split at h
    · next rest heq =>
      obtain ⟨rfl, rfl⟩ := eq_of_word_of_mark (z := ['b', 'r']) hword heq rfl
      exact ⟨_, rest, rfl, by decide, hmarked⟩
    · next rest heq =>
      obtain ⟨rfl, rfl⟩ := eq_of_word_of_mark (z := ['b']) hword heq rfl
      exact ⟨_, rest, rfl, by decide, hmarked⟩
    · next rest heq =>
      obtain ⟨rfl, rfl⟩ := eq_of_word_of_mark (z := ['r']) hword heq rfl
      exact ⟨_, rest, rfl, by decide, hmarked⟩
    · next heq =>
      rw [heq] at hword
      cases hword
    · cases h
  · rw [width, charWidth.eq_def] at h
    split at h
    · next rest heq =>
      obtain ⟨rfl, rfl⟩ := eq_of_word_of_mark (z := ['b']) hword heq rfl
      exact ⟨_, rest, rfl, by decide, hmarked⟩
    · next heq =>
      rw [heq] at hword
      cases hword
    · cases h

/-! ### Texts that begin alike -/

/-- What is no halt does not reach over one. -/
theorem commentEnd_infix_append (hv : Halts v) (h : commentEnd <:+: u ++ v) :
    commentEnd <:+: u ∨ commentEnd <:+: v := by
  induction u with
  | nil => exact .inr h
  | cons c u ih =>
    rcases List.infix_cons_iff.mp h with hfront | hbehind
    · exact .inl (prefix_of_halts (by simp [commentEnd, haltChars]) hv hfront).isInfix
    · exact (ih hbehind).imp_left fun hu ↦ List.infix_cons_iff.mpr (.inr hu)

/-- Two texts that begin alike up to where the second halts. -/
def BeginsAlike (cs cs' : List Char) : Prop :=
  ∃ u v v', cs = u ++ v ∧ cs' = u ++ v' ∧ Halts v'

/-- Texts that begin alike do so behind a common front. -/
theorem BeginsAlike.append (h : BeginsAlike cs cs') (text : List Char) :
    BeginsAlike (text ++ cs) (text ++ cs') := by
  obtain ⟨u, v, v', rfl, rfl, hv'⟩ := h
  rw [← List.append_assoc, ← List.append_assoc]
  exact ⟨text ++ u, v, v', rfl, rfl, hv'⟩

/-- What settles in front of the first text settles in front of the second. -/
theorem BeginsAlike.settles (h : BeginsAlike cs cs') (hf : Settles f)
    (htext : f (text ++ cs) = some text.length) : f (text ++ cs') = some text.length := by
  obtain ⟨u, v, v', rfl, rfl, hv'⟩ := h
  rw [← List.append_assoc] at htext ⊢
  exact hf _ v v' _ hv' htext (by simp)

/-- What has no halt in it and is at the front of the second text is at the front of the first. -/
theorem BeginsAlike.exists_behind {z : List Char} (h : BeginsAlike cs (z ++ cs'))
    (hz : ∀ c ∈ z, c ∉ haltChars) : ∃ behind, cs = z ++ behind := by
  obtain ⟨u, v, v', rfl, heq, hv'⟩ := h
  obtain ⟨u, rfl⟩ : z <+: u := prefix_of_halts hz hv' (heq ▸ List.prefix_append z cs')
  exact ⟨u ++ v, List.append_assoc _ _ _⟩

/-- No line comment begins in front of the second text alone. -/
theorem BeginsAlike.lineCommentWidth_eq_none (h : BeginsAlike cs cs')
    (hnone : lineCommentWidth cs = none) : lineCommentWidth cs' = none := by
  refine Option.eq_none_iff_forall_ne_some.mpr fun n hn ↦ ?_
  obtain ⟨body, rest, rfl, -⟩ := exists_of_lineCommentWidth hn
  obtain ⟨behind, rfl⟩ := h.exists_behind (z := ['/', '/']) (by simp [haltChars])
  cases hnone

/-- Two texts that begin alike up to where the second halts. If a comment ends behind the halt, one
ends in the first text there. -/
def Agrees (cs cs' : List Char) : Prop :=
  ∃ u v v', cs = u ++ v ∧ cs' = u ++ v' ∧ Halts v' ∧ (commentEnd <:+: v' → commentEnd <:+: v)

/-- A text that begins with a halt agrees with any, unless it brings the end of a comment along. -/
theorem agrees_of_halts (hhalts : Halts cs') (hend : commentEnd <:+: cs' → commentEnd <:+: cs) :
    Agrees cs cs' :=
  ⟨[], cs, cs', rfl, rfl, hhalts, hend⟩

/-- Texts that agree begin alike. -/
theorem Agrees.beginsAlike (h : Agrees cs cs') : BeginsAlike cs cs' := by
  obtain ⟨u, v, v', hcs, hcs', hv', -⟩ := h
  exact ⟨u, v, v', hcs, hcs', hv'⟩

/-- Texts that agree do so behind a common front. -/
theorem Agrees.append (h : Agrees cs cs') (text : List Char) :
    Agrees (text ++ cs) (text ++ cs') := by
  obtain ⟨u, v, v', rfl, rfl, hv', hend⟩ := h
  rw [← List.append_assoc, ← List.append_assoc]
  exact ⟨text ++ u, v, v', rfl, rfl, hv', hend⟩

theorem Agrees.commentEnd_infix (h : Agrees cs cs') (hend : commentEnd <:+: cs') :
    commentEnd <:+: cs := by
  obtain ⟨u, v, v', rfl, rfl, hv', hcomment⟩ := h
  rcases commentEnd_infix_append hv' hend with hu | hbehind
  · exact hu.trans (List.prefix_append u v).isInfix
  · exact (hcomment hbehind).trans (List.suffix_append u v).isInfix

/-- What has no halt in it is at the front of both, and what is behind it agrees. -/
theorem Agrees.of_append {z : List Char} (h : Agrees cs (z ++ cs'))
    (hz : ∀ c ∈ z, c ∉ haltChars) : ∃ behind, cs = z ++ behind ∧ Agrees behind cs' := by
  obtain ⟨u, v, v', rfl, heq, hv', hend⟩ := h
  obtain ⟨u, rfl⟩ : z <+: u := prefix_of_halts hz hv' (heq ▸ List.prefix_append z cs')
  rw [List.append_assoc, List.append_cancel_left_eq] at heq
  exact ⟨u ++ v, List.append_assoc _ _ _, u, v, v', rfl, heq, hv', hend⟩

/-- No block comment begins in front of the second text alone. -/
theorem Agrees.blockCommentWidth_eq_none (h : Agrees cs cs') (hnone : blockCommentWidth cs = none) :
    blockCommentWidth cs' = none := by
  refine Option.eq_none_iff_forall_ne_some.mpr fun n hn ↦ ?_
  obtain ⟨body, rest, rfl, -⟩ := exists_of_blockCommentWidth hn
  obtain ⟨behind, rfl, hbehind⟩ := h.of_append (z := ['/', '*']) (by simp [haltChars])
  have hend : commentEnd <:+: behind := hbehind.commentEnd_infix ⟨body, rest, rfl⟩
  exact blockCommentTail_eq_none_iff.mp (Option.map_eq_none_iff.mp hnone) hend

/-! ### Sequels -/

/-- A text that may stand behind a piece of text in place of another, if it makes no comment of it:
it begins as the other does, and halts or begins with what the other begins with. -/
structure Resumes (cs cs' : List Char) : Prop where
  alike : BeginsAlike cs cs'
  next : Halts cs' ∨ ∃ taken, first? cs = some taken ∧ first? cs' = some taken

/-- A text that may stand behind a piece of text in place of another: it agrees with that, and halts
or begins with what the other begins with. -/
structure Sequel (cs cs' : List Char) : Prop where
  agrees : Agrees cs cs'
  next : Halts cs' ∨ ∃ taken, first? cs = some taken ∧ first? cs' = some taken

/-- Behind a sequel the lexer goes on as it would have done. -/
theorem Sequel.resumes (h : Sequel cs cs') : Resumes cs cs' := ⟨h.agrees.beginsAlike, h.next⟩

/-- A word is not made the mark of anything by what may stand behind it. -/
theorem Resumes.word_rival (h : Resumes cs cs') (hword : wordWidth (text ++ cs') = some text.length)
    (ht : t ∈ word.rivals) (hnone : t.width (text ++ cs) = none) :
    t.width (text ++ cs') = none := by
  refine Option.eq_none_iff_forall_ne_some.mpr fun n hn ↦ ?_
  obtain ⟨c, rest, rfl, hc, hmark⟩ := exists_of_word_rival hword ht hn
  obtain ⟨m, hm⟩ : ∃ m, t.width (c :: rest) = some m := by
    rw [← Option.ne_none_iff_exists', ne_eq, ← hmark, hn]
    exact Option.some_ne_none n
  obtain ⟨behind, rfl⟩ := h.alike.exists_behind (z := [c]) (by simpa using hc)
  rcases h.next with hhalts | ⟨taken, hfirst, hfirst'⟩
  · exact hc (hhalts c rfl)
  · obtain rfl := Option.some.inj (hfirst'.symm.trans (first?_of_word_rival ht hm))
    have hsome := (first?_eq_some_iff.mp hfirst).1
    exact Option.some_ne_none m (hsome.symm.trans ((hmark behind).mp hnone))

/-- What is taken in front of a text is taken in front of one that may stand in its place, unless it
goes on with blanks or with its line, or becomes a comment. -/
theorem Resumes.first?_eq (h : Resumes cs cs') (hblank : t ≠ blank) (hline : t ≠ lineComment)
    (hcomment : blockCommentWidth (text ++ cs) = none → blockCommentWidth (text ++ cs') = none)
    (hfirst : first? (text ++ cs) = some (t, text.length)) :
    first? (text ++ cs') = some (t, text.length) := by
  obtain ⟨hwidth, hrivals⟩ := first?_eq_some_iff.mp hfirst
  cases t with
  | string =>
    exact first?_eq_some_iff.mpr ⟨closes_stringWidth.append hwidth cs', List.forall_mem_nil _⟩
  | char =>
    have hchar : charWidth (text ++ cs') = some text.length := closes_charWidth.append hwidth cs'
    exact first?_eq_some_iff.mpr
      ⟨hchar, List.forall_mem_singleton.mpr (stringWidth_of_charWidth hchar)⟩
  | lifetime =>
    have hlifetime := h.alike.settles settles_lifetime hwidth
    exact first?_eq_some_iff.mpr
      ⟨hlifetime, List.forall_mem_singleton.mpr (charWidth_of_lifetimeWidth hlifetime)⟩
  | number =>
    refine first?_eq_some_iff.mpr ⟨?_, List.forall_mem_nil _⟩
    rw [width, numberWidth_eq] at hwidth ⊢
    exact h.alike.settles greedy_numeral.settles_taken hwidth
  | word =>
    rw [width, wordWidth_eq] at hwidth
    have hword := wordWidth_eq ▸ h.alike.settles greedy_anyWord.settles_taken hwidth
    exact first?_eq_some_iff.mpr ⟨hword, fun t' ht' ↦ h.word_rival hword ht' (hrivals t' ht')⟩
  | punct =>
    have hline' := (h.alike.append text).lineCommentWidth_eq_none
      (hrivals lineComment (by simp [rivals]))
    have hblock := hcomment (hrivals blockComment (by simp [rivals]))
    refine first?_eq_some_iff.mpr ⟨h.alike.settles settles_punct hwidth, ?_⟩
    simpa [rivals, width] using ⟨hblock, hline'⟩
  | blockComment =>
    exact first?_eq_some_iff.mpr ⟨closes_blockCommentWidth.append hwidth cs', List.forall_mem_nil _⟩
  | blank => exact absurd rfl hblank
  | lineComment => exact absurd rfl hline
  | opening | closing =>
    exact first?_eq_some_iff.mpr
      ⟨(closes_bracketWidth _).append hwidth cs', List.forall_mem_nil _⟩

/-- What is taken in front of a text is taken in front of its sequel, unless it goes on with
blanks or with its line. -/
theorem Sequel.first?_eq (h : Sequel cs cs') (hblank : t ≠ blank) (hline : t ≠ lineComment)
    (hfirst : first? (text ++ cs) = some (t, text.length)) :
    first? (text ++ cs') = some (t, text.length) :=
  h.resumes.first?_eq hblank hline (h.agrees.append text).blockCommentWidth_eq_none hfirst

end Expander.Terminal
