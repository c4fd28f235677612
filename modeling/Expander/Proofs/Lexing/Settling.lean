import Expander.Proofs.Lexing.Closing

/-!
# Terminals without an end

Lifetimes, numbers, words and punctuation take what they can get, so what stands behind them counts:
an exponent needs its digits, a raw word its word. But nothing counts that stands behind a blank or
a bracket, nor which of these it is (`Settles`). Numbers and words are put together from a few
pieces, each of which settles as its parts do (`Greedy`).
-/

set_option autoImplicit false

namespace Expander.Terminal

variable {p : Char → Bool} {c : Char} {cs text v v' z : List Char} {n : Nat}

/-! ### Halts -/

/-- The characters that no lifetime, number, word or punctuation goes on with: the blanks and the
brackets. -/
def haltChars : List Char :=
  [' ', '\t', '\x0c', '\r', '\n', '(', ')', '[', ']', '\x7b', '\x7d']

/-- A text with nothing at its front that could belong to what stands before it. -/
def Halts (v : List Char) : Prop := ∀ c ∈ v.head?, c ∈ haltChars

/-- How many characters are taken, where what stands behind them counts only up to a halt. -/
structure Greedy (g : List Char → Nat) : Prop where
  le : ∀ cs, g cs ≤ cs.length
  settles : ∀ z v v', Halts v' → g (z ++ v) ≤ z.length → g (z ++ v') = g (z ++ v)

/-- A class of characters without halts holds of none of them. -/
theorem of_mem_haltChars (hp : haltChars.any p = false) (hc : c ∈ haltChars) : p c = false :=
  Bool.eq_false_iff.mpr (List.any_eq_false.mp hp c hc)

section

variable {g h : List Char → Nat}

/-- A run of one class of characters is settled by a halt, which ends the run. -/
theorem greedy_run (hp : haltChars.any p = false) : Greedy (run p) where
  le := run_le p
  settles z v v' hv' hle := by
    induction z with
    | nil =>
      have hnone : run p v' = 0 :=
        run_append (List.forall_mem_nil _) fun c hc ↦ of_mem_haltChars hp (hv' c hc)
      exact hnone.trans (Nat.le_zero.mp hle).symm
    | cons c z ih =>
      rw [List.cons_append, run] at hle
      rw [List.cons_append, List.cons_append, run, run]
      split
      · next hc =>
        rw [if_pos hc] at hle
        rw [ih (Nat.le_of_succ_le_succ hle)]
      · rfl

/-- One character, and what is taken behind it. -/
def headed (p : Char → Bool) (g : List Char → Nat) : List Char → Nat
  | c :: cs => if p c then g cs + 1 else 0
  | [] => 0

/-- Where a halt follows, nothing that needs a first character begins. -/
theorem headed_of_halts (hp : haltChars.any p = false) (hv : Halts v) : headed p g v = 0 := by
  cases v with
  | nil => rfl
  | cons c v => rw [headed, of_mem_haltChars hp (hv c rfl), if_neg Bool.false_ne_true]

/-- What begins with a character and goes on with a settled width is settled: a halt is no such
character, and behind the character the width is settled. -/
theorem Greedy.headed (hp : haltChars.any p = false) (hg : Greedy g) :
    Greedy (headed p g) where
  le cs := by
    cases cs with
    | nil => exact Nat.le_refl 0
    | cons c cs =>
      rw [Terminal.headed]
      split
      · exact Nat.succ_le_succ (hg.le cs)
      · exact Nat.zero_le _
  settles z v v' hv' hle := by
    cases z with
    | nil => exact (headed_of_halts hp hv').trans (Nat.le_zero.mp hle).symm
    | cons c z =>
      rw [List.cons_append, Terminal.headed] at hle
      rw [List.cons_append, List.cons_append, Terminal.headed, Terminal.headed]
      split
      · next hc =>
        rw [if_pos hc] at hle
        rw [hg.settles z v v' hv' (Nat.le_of_succ_le_succ hle)]
      · rfl

/-- One character and what is taken behind it, if anything is. -/
def marked (p : Char → Bool) (g : List Char → Nat) : List Char → Nat
  | c :: cs => if p c ∧ g cs ≠ 0 then g cs + 1 else 0
  | [] => 0

/-- The same for a mark that is taken only if something follows it. -/
theorem Greedy.marked (hp : haltChars.any p = false) (hg : Greedy g) :
    Greedy (marked p g) where
  le cs := by
    cases cs with
    | nil => exact Nat.le_refl 0
    | cons c cs =>
      rw [Terminal.marked]
      split
      · exact Nat.succ_le_succ (hg.le cs)
      · exact Nat.zero_le _
  settles z v v' hv' hle := by
    cases z with
    | nil =>
      have hnone : Terminal.marked p g v' = 0 := by
        cases v' with
        | nil => rfl
        | cons c v' =>
          rw [Terminal.marked, of_mem_haltChars hp (hv' c rfl),
            if_neg fun h ↦ Bool.false_ne_true h.1]
      exact hnone.trans (Nat.le_zero.mp hle).symm
    | cons c z =>
      rw [List.cons_append, Terminal.marked, List.length_cons] at hle
      rw [List.cons_append, List.cons_append, Terminal.marked, Terminal.marked]
      by_cases hc : p c = true
      · -- Where nothing is taken behind the character, that settles as well.
        have hbehind : g (z ++ v) ≤ z.length := by
          by_cases hnone : g (z ++ v) = 0
          · rw [hnone]
            exact Nat.zero_le _
          · rw [if_pos ⟨hc, hnone⟩] at hle
            exact Nat.le_of_succ_le_succ hle
        rw [hg.settles z v v' hv' hbehind]
      · rw [if_neg fun h ↦ hc h.1, if_neg fun h ↦ hc h.1]

/-- One thing and another behind it. -/
def followed (g h : List Char → Nat) (cs : List Char) : Nat := g cs + h (cs.drop (g cs))

/-- Two settled widths one behind the other are settled, the second at what the first leaves. -/
theorem Greedy.followed (hg : Greedy g) (hh : Greedy h) : Greedy (followed g h) where
  le cs := by
    have hlength := hh.le (cs.drop (g cs))
    have := hg.le cs
    rw [List.length_drop] at hlength
    rw [Terminal.followed]
    omega
  settles z v v' hv' hle := by
    rw [Terminal.followed] at hle
    have hfirst : g (z ++ v) ≤ z.length := by omega
    have hdrop (w : List Char) : (z ++ w).drop (g (z ++ v)) = z.drop (g (z ++ v)) ++ w :=
      List.drop_append_of_le_length hfirst
    rw [hdrop] at hle
    rw [Terminal.followed, Terminal.followed, hg.settles z v v' hv' hfirst, hdrop, hdrop,
      hh.settles _ v v' hv' (by rw [List.length_drop]; omega)]

/-- One thing, or another where there is nothing of it. -/
def orElse (g h : List Char → Nat) (cs : List Char) : Nat := if g cs = 0 then h cs else g cs

/-- So is a width that is tried where another one finds nothing. -/
theorem Greedy.orElse (hg : Greedy g) (hh : Greedy h) : Greedy (orElse g h) where
  le cs := by
    rw [Terminal.orElse]
    split
    · exact hh.le cs
    · exact hg.le cs
  settles z v v' hv' hle := by
    rw [Terminal.orElse] at hle
    rw [Terminal.orElse, Terminal.orElse]
    split at hle
    · next hnone =>
      rw [hg.settles z v v' hv' (hnone ▸ Nat.zero_le _), hh.settles z v v' hv' hle]
    · next hsome => rw [hg.settles z v v' hv' hle, if_neg hsome, if_neg hsome]

end

/-! ### Numbers, words and lifetimes -/

/-- The fraction of a number is a point with digits behind it, in terms of the widths above. -/
theorem fractionWidth_eq :
    fractionWidth = marked (· = '.') (headed Char.isDigit (run isDigitChar)) := by
  funext cs
  rw [fractionWidth.eq_def]
  split
  · next d cs =>
    by_cases hd : d.isDigit = true
    · simp [marked, headed, hd]
    · simp [marked, headed, hd]
  · next hpoint =>
    rcases cs with _ | ⟨c, _ | ⟨d, cs⟩⟩
    · rfl
    · simp [marked, headed]
    · rw [marked, if_neg]
      rintro ⟨hc, -⟩
      exact hpoint d cs (by simpa using hc)

theorem signWidth_cons (c : Char) (cs : List Char) :
    signWidth (c :: cs) = if c = '+' ∨ c = '-' then 1 else 0 := by
  rw [signWidth.eq_def]
  split
  · next heq => rw [(List.cons.inj heq).1, if_pos (.inl rfl)]
  · next heq => rw [(List.cons.inj heq).1, if_pos (.inr rfl)]
  · next hplus hminus =>
    refine (if_neg ?_).symm
    rintro (rfl | rfl)
    · exact hplus cs rfl
    · exact hminus cs rfl

/-- The digits of an exponent, with their sign if there is one. -/
def signed : List Char → Nat :=
  orElse (marked (fun c ↦ c = '+' || c = '-') (run isDigitChar)) (run isDigitChar)

/-- A sign counts only with a digit behind it. -/
theorem signed_eq (cs : List Char) : signed cs =
    if run isDigitChar (cs.drop (signWidth cs)) = 0 then 0
    else signWidth cs + run isDigitChar (cs.drop (signWidth cs)) := by
  cases cs with
  | nil => rfl
  | cons c cs =>
    rw [signWidth_cons, signed, orElse, marked]
    by_cases hc : c = '+' ∨ c = '-'
    · have hdigit : run isDigitChar (c :: cs) = 0 := by
        rcases hc with rfl | rfl <;> rfl
      simp only [Bool.or_eq_true, decide_eq_true_eq, hc, true_and, if_true, hdigit,
        List.drop_succ_cons, List.drop_zero, ne_eq, ite_not]
      split
      · rfl
      · rw [if_neg (Nat.succ_ne_zero _), Nat.add_comm]
    · simp only [Bool.or_eq_true, decide_eq_true_eq, hc, false_and, if_false, if_true,
        List.drop_zero, Nat.zero_add]
      split
      · assumption
      · rfl

/-- The exponent of a number is a letter with digits behind it, perhaps signed. -/
theorem exponentWidth_eq : exponentWidth = marked (fun c ↦ c = 'e' || c = 'E') signed := by
  funext cs
  cases cs with
  | nil => rfl
  | cons c cs =>
    rw [exponentWidth, marked, signed_eq]
    by_cases hc : c = 'e' ∨ c = 'E'
    · by_cases hn : run isDigitChar (cs.drop (signWidth cs)) = 0
      · simp [hc, hn]
      · simp [hc, hn]
        omega
    · simp [hc]

/-- Something is taken if it has characters. -/
def taken (g : List Char → Nat) (cs : List Char) : Option Nat :=
  if g cs = 0 then none else some (g cs)

/-- Where nothing is taken behind a halt, nothing more or less is taken if it is another. -/
def Settles (f : List Char → Option Nat) : Prop :=
  ∀ z v v' n, Halts v' → f (z ++ v) = some n → n ≤ z.length → f (z ++ v') = some n

/-- A width is taken if it is that of something. -/
theorem taken_eq_some_iff {g : List Char → Nat} : taken g cs = some n ↔ 0 < n ∧ g cs = n := by
  rw [taken, Option.ite_none_left_eq_some, Option.some.injEq]
  constructor
  · rintro ⟨hpos, rfl⟩
    exact ⟨Nat.pos_of_ne_zero hpos, rfl⟩
  · rintro ⟨hpos, rfl⟩
    exact ⟨Nat.ne_of_gt hpos, rfl⟩

/-- What is taken is some of the characters. -/
theorem Greedy.taken_le {g : List Char → Nat} (hg : Greedy g) (h : taken g cs = some n) :
    0 < n ∧ n ≤ cs.length := by
  obtain ⟨hpos, rfl⟩ := taken_eq_some_iff.mp h
  exact ⟨hpos, hg.le cs⟩

/-- A lexeme of a settled width is settled: what follows behind a halt does not matter to it. -/
theorem Greedy.settles_taken {g : List Char → Nat} (hg : Greedy g) : Settles (taken g) := by
  intro z v v' n hv' h hle
  obtain ⟨hpos, rfl⟩ := taken_eq_some_iff.mp h
  exact taken_eq_some_iff.mpr ⟨hpos, hg.settles z v v' hv' hle⟩

/-- What a number takes. -/
def numeral : List Char → Nat :=
  headed Char.isDigit (followed (run isDigitChar) (followed fractionWidth
    (followed exponentWidth (run isWordChar))))

/-- Where a number ends does not depend on what follows a halt. -/
theorem greedy_numeral : Greedy numeral := by
  have hdigits : Greedy (run isDigitChar) := greedy_run (by decide)
  have hfraction : Greedy fractionWidth := by
    rw [fractionWidth_eq]
    exact (hdigits.headed (by decide)).marked (by decide)
  have hsigned : Greedy signed := (hdigits.marked (by decide)).orElse hdigits
  have hexponent : Greedy exponentWidth := by
    rw [exponentWidth_eq]
    exact hsigned.marked (by decide)
  have hsuffix : Greedy (run isWordChar) := greedy_run (by decide)
  exact (hdigits.followed (hfraction.followed (hexponent.followed hsuffix))).headed (by decide)

/-- The width of a number, in terms of the widths above. -/
theorem numberWidth_eq : numberWidth = taken numeral := by
  funext cs
  cases cs with
  | nil => rfl
  | cons c cs =>
    by_cases hc : c.isDigit = true
    · simp [numberWidth, taken, numeral, headed, followed, hc]
      omega
    · simp [numberWidth, taken, numeral, headed, hc]

/-- What a word takes that is not marked as raw. -/
def plainWord : List Char → Nat := headed isWordStart (run isWordChar)

/-- Where a word ends does not depend on what follows a halt. -/
theorem greedy_plainWord : Greedy plainWord :=
  (greedy_run (by decide)).headed (by decide)

theorem plainWordWidth_eq : plainWordWidth = taken plainWord := by
  funext cs
  cases cs with
  | nil => rfl
  | cons c cs =>
    by_cases hc : isWordStart c = true
    · simp [plainWordWidth, taken, plainWord, headed, hc]
    · simp [plainWordWidth, taken, plainWord, headed, hc]

/-- What a word takes, raw or not. -/
def anyWord : List Char → Nat :=
  orElse (marked (· = 'r') (marked (· = '#') plainWord)) plainWord

/-- Nor does it for a raw word, of which the hash is no halt. -/
theorem greedy_anyWord : Greedy anyWord :=
  ((greedy_plainWord.marked (by decide)).marked (by decide)).orElse greedy_plainWord

/-- Without the mark of a raw word, a word is a plain one. -/
theorem anyWord_of_not_raw (h : ∀ rest, cs ≠ 'r' :: '#' :: rest) : anyWord cs = plainWord cs := by
  have hnone : marked (· = 'r') (marked (· = '#') plainWord) cs = 0 := by
    rcases cs with _ | ⟨c, _ | ⟨d, cs⟩⟩
    · rfl
    · simp [marked]
    · rw [marked, if_neg]
      rintro ⟨hc, hd⟩
      rw [marked, ne_eq, ite_eq_right_iff, not_forall] at hd
      obtain ⟨⟨hd, -⟩, -⟩ := hd
      rw [of_decide_eq_true hc, of_decide_eq_true hd] at h
      exact h cs rfl
  rw [anyWord, orElse, if_pos hnone]

/-- The width of a word, raw or not, in terms of the widths above. -/
theorem wordWidth_eq : wordWidth = taken anyWord := by
  funext cs
  rw [wordWidth.eq_def, plainWordWidth_eq]
  split
  · next cs =>
    have hmark : plainWord ('r' :: '#' :: cs) = 1 := rfl
    by_cases hnone : plainWord cs = 0
    · simp [taken, anyWord, orElse, marked, hnone, hmark]
    · simp [taken, anyWord, orElse, marked, hnone]
  · next hraw => rw [taken, taken, anyWord_of_not_raw fun rest h ↦ hraw rest h]

/-- A lifetime is a quote and a word behind which no quote closes a character. -/
theorem lifetimeWidth_eq_some_iff : lifetimeWidth cs = some n ↔ ∃ rest, cs = '\x27' :: rest ∧
    0 < plainWord rest ∧ (rest.drop (plainWord rest)).head? ≠ some '\x27' ∧
    plainWord rest + 1 = n := by
  rw [lifetimeWidth.eq_def]
  split
  · next c cs =>
    by_cases hc : isWordStart c = true
    · simp [plainWord, headed, hc]
    · simp [plainWord, headed, hc]
  · next hshape =>
    refine ⟨nofun, ?_⟩
    rintro ⟨rest, rfl, hpos, -⟩
    cases rest with
    | nil => cases hpos
    | cons c rest => exact absurd rfl (hshape c rest)

/-- The quote that could make a character of a lifetime is looked for right behind the word, and a
halt is no quote. -/
theorem settles_lifetime : Settles lifetimeWidth := by
  intro z v v' n hv' h hle
  obtain ⟨rest, hrest, hpos, hquote, rfl⟩ := lifetimeWidth_eq_some_iff.mp h
  cases z with
  | nil => exact absurd hle (Nat.not_succ_le_zero _)
  | cons c z =>
    obtain ⟨rfl, rfl⟩ : c = '\x27' ∧ z ++ v = rest := List.cons.inj hrest
    have hword : plainWord (z ++ v) ≤ z.length := Nat.le_of_succ_le_succ hle
    have hsame := greedy_plainWord.settles z v v' hv' hword
    refine lifetimeWidth_eq_some_iff.mpr ⟨z ++ v', rfl, hsame ▸ hpos, ?_, by rw [hsame]⟩
    rw [List.drop_append_of_le_length hword] at hquote
    rw [hsame, List.drop_append_of_le_length hword]
    cases hbehind : z.drop (plainWord (z ++ v)) with
    | nil =>
      intro hhead
      have hhalt := hv' _ hhead
      revert hhalt
      decide
    | cons e rest => rwa [hbehind] at hquote

/-! ### Punctuation -/

/-- Punctuation is of the first spelling in the table that stands at the front. -/
theorem punctWidth_eq_some_iff : punctWidth cs = some n ↔ ∃ s, s.length = n ∧ s.toList <+: cs ∧
    ∃ shorter others, spellings = shorter ++ s :: others ∧ ∀ s' ∈ shorter, ¬ s'.toList <+: cs := by
  simp only [punctWidth, Option.map_eq_some_iff, List.find?_eq_some_iff_append, Bool.not_eq_true',
    List.isPrefixOf_iff_prefix, Bool.eq_false_iff, ne_eq]
  constructor
  · rintro ⟨s, ⟨hfront, hspellings⟩, hlength⟩
    exact ⟨s, hlength, hfront, hspellings⟩
  · rintro ⟨s, hlength, hfront, hspellings⟩
    exact ⟨s, ⟨hfront, hspellings⟩, hlength⟩

theorem punctWidth_le (h : punctWidth cs = some n) : 0 < n ∧ n ≤ cs.length := by
  obtain ⟨s, rfl, hfront, shorter, others, hspellings, -⟩ := punctWidth_eq_some_iff.mp h
  have hpos : ∀ s ∈ spellings, 0 < s.length := by decide
  refine ⟨hpos s (by simp [hspellings]), ?_⟩
  rw [← String.length_toList]
  exact hfront.length_le

/-- What has no halt in it and stands at the front of a text stands in front of any halt of it. -/
theorem prefix_of_halts (htext : ∀ c ∈ text, c ∉ haltChars) (hv : Halts v)
    (h : text <+: z ++ v) : text <+: z := by
  rcases List.prefix_or_prefix_of_prefix h (List.prefix_append z v) with hz | ⟨more, rfl⟩
  · exact hz
  · cases more with
    | nil => simp
    | cons c more =>
      obtain ⟨behind, hbehind⟩ := (List.prefix_append_right_inj z).mp h
      exact absurd (hv c (by rw [← hbehind]; rfl)) (htext c (by simp))

/-- No spelling has a halt in it, so that a longer one cannot reach beyond. -/
theorem settles_punct : Settles punctWidth := by
  intro z v v' n hv' h hle
  obtain ⟨s, rfl, hfront, shorter, others, hspellings, hnone⟩ := punctWidth_eq_some_iff.mp h
  have hhalts : ∀ s ∈ spellings, ∀ c ∈ s.toList, c ∉ haltChars := by
    have hall : spellings.all (fun s ↦ s.toList.all (· ∉ haltChars)) = true := by decide
    simpa only [List.all_eq_true, decide_eq_true_eq] using hall
  have hz : s.toList <+: z :=
    List.prefix_of_prefix_length_le hfront (List.prefix_append z v) (by rwa [String.length_toList])
  refine punctWidth_eq_some_iff.mpr
    ⟨s, rfl, hz.trans (List.prefix_append z v'), shorter, others, hspellings, ?_⟩
  intro s' hs' hfront'
  have hz' : s'.toList <+: z := prefix_of_halts (hhalts s' (by simp [hspellings, hs'])) hv' hfront'
  exact hnone s' hs' (hz'.trans (List.prefix_append z v))

end Expander.Terminal
