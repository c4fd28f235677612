import Expander.Proofs.Lexing.Settling

/-!
# Which terminal is taken

Which terminals can match is told by the first character of a text, but for a few that compete for a
quote, a solidus or one of the letters `b` and `r` (`front_mem`). So a terminal is taken if it
matches and none of its rivals does (`first?_eq_some_iff`): a blank is taken as a blank and a
bracket as a bracket, whatever stands behind it.
-/

set_option autoImplicit false

namespace Expander.Terminal

variable {c : Char} {cs : List Char} {n : Nat} {t : Terminal} {d : Delimiter}

/-! ### Widths -/

/-- A line comment goes up to the end of its line. -/
theorem exists_of_lineCommentWidth (h : lineCommentWidth cs = some n) : ∃ body rest,
    cs = '/' :: '/' :: body ++ rest ∧ ('/' :: '/' :: body).length = n ∧
      (∀ c ∈ body, c ≠ '\n') ∧ ∀ c ∈ rest.head?, c = '\n' := by
  rw [lineCommentWidth.eq_def] at h
  split at h
  · next behind =>
    obtain rfl := Option.some.inj h
    refine ⟨behind.take (run (· ≠ '\n') behind), behind.drop (run (· ≠ '\n') behind),
      ?_, ?_, ?_, ?_⟩
    · simp
    · simp [run_le]
    · exact fun c hc ↦ of_decide_eq_true (of_mem_take_run _ _ c hc)
    · exact fun c hc ↦ of_not_not (of_decide_eq_false (head?_drop_run hc))
  · cases h

theorem bracketWidth_eq_some_iff {bracket : Char} :
    bracketWidth bracket cs = some n ↔ ∃ rest, cs = bracket :: rest ∧ 1 = n := by
  cases cs with
  | nil => simp [bracketWidth]
  | cons c cs => simp [bracketWidth, eq_comm]

/-- A bracket is one character, whatever follows. -/
theorem closes_bracketWidth (bracket : Char) : Closes (bracketWidth bracket) := by
  intro cs n h
  obtain ⟨rest, rfl, rfl⟩ := bracketWidth_eq_some_iff.mp h
  exact .of_append [bracket] (List.cons_ne_nil _ _) fun _ ↦ if_pos rfl

/-- A terminal takes at least one character, and no more than there are. -/
theorem width_le (h : t.width cs = some n) : 0 < n ∧ n ≤ cs.length := by
  cases t with
  | string => exact closes_stringWidth.le h
  | char => exact closes_charWidth.le h
  | lifetime =>
    obtain ⟨rest, rfl, -, -, rfl⟩ := lifetimeWidth_eq_some_iff.mp h
    exact ⟨Nat.succ_pos _, Nat.succ_le_succ (greedy_plainWord.le rest)⟩
  | number => exact greedy_numeral.taken_le (numberWidth_eq ▸ h)
  | word => exact greedy_anyWord.taken_le (wordWidth_eq ▸ h)
  | blockComment => exact closes_blockCommentWidth.le h
  | blank =>
    obtain ⟨hpos, rfl⟩ := taken_eq_some_iff.mp h
    exact ⟨hpos, run_le isBlank cs⟩
  | lineComment =>
    obtain ⟨body, rest, rfl, rfl, -⟩ := exists_of_lineCommentWidth h
    rw [List.length_append]
    exact ⟨Nat.succ_pos _, Nat.le_add_right _ _⟩
  | punct => exact punctWidth_le h
  | opening | closing => exact (closes_bracketWidth _).le h

/-! ### First characters -/

/-- The classes of characters that terminals begin with. -/
inductive Front
  | mark
  | quote
  | digit
  | b
  | r
  | letter
  | blank
  | solidus
  | opening (delimiter : Delimiter)
  | closing (delimiter : Delimiter)
  | other
deriving DecidableEq

/-- The class of a character. -/
def front (c : Char) : Front :=
  if c = '"' then .mark
  else if c = '\x27' then .quote
  else if c = 'b' then .b
  else if c = 'r' then .r
  else if c = '/' then .solidus
  else if c.isDigit then .digit
  else if isWordStart c then .letter
  else if isBlank c then .blank
  else match Delimiter.all.find? (c = ·.opening), Delimiter.all.find? (c = ·.closing) with
    | some d, _ => .opening d
    | none, some d => .closing d
    | none, none => .other

/-- The classes of the characters that a terminal begins with. -/
def fronts : Terminal → List Front
  | string => [.mark, .b, .r]
  | char => [.quote, .b]
  | lifetime => [.quote]
  | number => [.digit]
  | word => [.b, .r, .letter]
  | blockComment | lineComment => [.solidus]
  | blank => [.blank]
  | punct => [.solidus, .other]
  | opening d => [.opening d]
  | closing d => [.closing d]

theorem front_of_isDigit (hc : c.isDigit = true) : front c = .digit := by
  have hother (e : Char) (he : e.isDigit = false) : c ≠ e := by
    rintro rfl
    cases hc.symm.trans he
  simp [front, hother, hc]

theorem isDigit_of_isWordStart (hc : isWordStart c = true) : c.isDigit = false := by
  have hdigit : c.isDigit = (decide (48 ≤ c.val) && decide (c.val ≤ 57)) := rfl
  have halpha : c.isAlpha = (decide (65 ≤ c.val ∧ c.val ≤ 90) ||
      decide (97 ≤ c.val) && decide (c.val ≤ 122)) := rfl
  rw [isWordStart, Bool.or_eq_true, decide_eq_true_eq] at hc
  rcases hc with hc | rfl
  · simp only [halpha, Bool.or_eq_true, Bool.and_eq_true, decide_eq_true_eq,
      UInt32.le_iff_toNat_le, UInt32.reduceToNat] at hc
    simp only [hdigit, Bool.and_eq_false_iff, decide_eq_false_iff_not, UInt32.le_iff_toNat_le,
      UInt32.reduceToNat]
    omega
  · decide

/-- What may begin a word is among the first characters of words. -/
theorem front_of_isWordStart (hc : isWordStart c = true) : front c ∈ word.fronts := by
  have hother (e : Char) (he : isWordStart e = false) : c ≠ e := by
    rintro rfl
    cases hc.symm.trans he
  by_cases hb : c = 'b'
  · subst hb
    decide
  by_cases hr : c = 'r'
  · subst hr
    decide
  have hletter : front c = .letter := by
    rw [front, if_neg (hother _ rfl), if_neg (hother _ rfl), if_neg hb, if_neg hr,
      if_neg (hother _ rfl), isDigit_of_isWordStart hc, hc]
    rfl
  rw [hletter]
  decide

/-- There are five blanks. -/
theorem isBlank_iff : isBlank c = true ↔ c ∈ [' ', '\t', '\x0c', '\r', '\n'] := by
  simp [isBlank, or_assoc]

theorem front_of_isBlank (hc : isBlank c = true) : front c = .blank := by
  have hall : [' ', '\t', '\x0c', '\r', '\n'].all (front · = .blank) = true := by decide
  exact of_decide_eq_true (List.all_eq_true.mp hall c (isBlank_iff.mp hc))

theorem of_headed_pos {p : Char → Bool} {g : List Char → Nat} (h : 0 < headed p g (c :: cs)) :
    p c = true := by
  rw [headed] at h
  split at h
  · assumption
  · cases h

theorem of_marked_pos {p : Char → Bool} {g : List Char → Nat} (h : 0 < marked p g (c :: cs)) :
    p c = true := by
  rw [marked] at h
  split at h
  · next hc => exact hc.1
  · cases h

theorem of_run_pos {p : Char → Bool} (h : 0 < run p (c :: cs)) : p c = true := by
  rw [run] at h
  split at h
  · assumption
  · cases h

/-- A word begins with what may begin one. -/
theorem isWordStart_of_wordWidth (h : wordWidth (c :: cs) = some n) : isWordStart c = true := by
  rw [wordWidth_eq] at h
  obtain ⟨hpos, rfl⟩ := taken_eq_some_iff.mp h
  rw [anyWord, orElse] at hpos
  split at hpos
  · exact of_headed_pos hpos
  · next hraw =>
    -- The mark of a raw word begins with a letter.
    have hmark : 0 < marked (· = 'r') (marked (· = '#') plainWord) (c :: cs) :=
      Nat.pos_of_ne_zero hraw
    obtain rfl : c = 'r' := of_decide_eq_true (of_marked_pos hmark)
    decide

/-- A terminal that matches begins with a character of its classes. -/
theorem front_mem (h : t.width (c :: cs) = some n) : front c ∈ t.fronts := by
  cases t with
  | string =>
    rw [width, stringWidth.eq_def] at h
    split at h
    all_goals first
      | cases h
      | next heq =>
        cases heq
        decide
  | char =>
    rw [width, charWidth.eq_def] at h
    split at h
    all_goals first
      | cases h
      | next heq =>
        cases heq
        decide
  | lifetime =>
    obtain ⟨rest, hrest, -⟩ := lifetimeWidth_eq_some_iff.mp h
    cases hrest
    decide
  | number =>
    rw [width, numberWidth_eq] at h
    obtain ⟨hpos, rfl⟩ := taken_eq_some_iff.mp h
    rw [front_of_isDigit (of_headed_pos hpos)]
    decide
  | word => exact front_of_isWordStart (isWordStart_of_wordWidth h)
  | blockComment =>
    rw [width, blockCommentWidth.eq_def] at h
    split at h
    · next heq =>
      cases heq
      decide
    · cases h
  | blank =>
    obtain ⟨hpos, rfl⟩ := taken_eq_some_iff.mp h
    rw [front_of_isBlank (of_run_pos hpos)]
    decide
  | lineComment =>
    obtain ⟨body, rest, hrest, -⟩ := exists_of_lineCommentWidth h
    cases hrest
    decide
  | punct =>
    obtain ⟨s, -, ⟨behind, hbehind⟩, shorter, others, hspellings, -⟩ := punctWidth_eq_some_iff.mp h
    have hfronts : spellings.all (fun s ↦ s.toList.head?.any (front · ∈ punct.fronts)) = true := by
      decide
    obtain ⟨e, he, hfront⟩ :=
      (Option.any_eq_true _ _).mp (List.all_eq_true.mp hfronts s (by simp [hspellings]))
    obtain ⟨rest, hrest⟩ := exists_of_head? he
    rw [hrest] at hbehind
    cases hbehind
    exact of_decide_eq_true hfront
  | opening d =>
    rw [width] at h
    obtain ⟨rest, hrest, -⟩ := bracketWidth_eq_some_iff.mp h
    cases hrest
    cases d <;> decide
  | closing d =>
    rw [width] at h
    obtain ⟨rest, hrest, -⟩ := bracketWidth_eq_some_iff.mp h
    cases hrest
    cases d <;> decide

/-! ### The choice -/

theorem mem_order (t : Terminal) : t ∈ order := by
  rcases t with _ | _ | _ | _ | _ | _ | _ | _ | _ | d | d
  all_goals first
    | decide
    | cases d <;> decide

/-- The terminals that are tried before another. -/
def earlier (t : Terminal) : List Terminal := order.takeWhile (· ≠ t)

/-- The terminals that are tried before another and may begin with the same character. -/
def rivals : Terminal → List Terminal
  | char => [string]
  | lifetime => [char]
  | word => [string, char]
  | lineComment => [blockComment]
  | punct => [blockComment, lineComment]
  | _ => []

/-- In the order of the terminals each has its place, with the earlier ones before it. -/
theorem order_eq (t : Terminal) : order = t.earlier ++ t :: order.drop (t.earlier.length + 1) := by
  have hall : ∀ t ∈ order, order = t.earlier ++ t :: order.drop (t.earlier.length + 1) := by decide
  exact hall t (mem_order t)

/-- The rivals of a terminal are the earlier ones with which it has a first character in common. -/
theorem mem_rivals_iff (t t' : Terminal) :
    t' ∈ t.rivals ↔ t' ∈ t.earlier ∧ ∃ f ∈ t.fronts, f ∈ t'.fronts := by
  have hall : ∀ t ∈ order, ∀ t' ∈ order, t' ∈ t.rivals ↔
      t' ∈ t.earlier ∧ ∃ f ∈ t.fronts, f ∈ t'.fronts := by decide
  exact hall t (mem_order t) t' (mem_order t')

/-- A terminal is chosen if it matches and no earlier one does. -/
theorem first?_eq_some_iff_earlier : first? cs = some (t, n) ↔
    t.width cs = some n ∧ ∀ t' ∈ t.earlier, t'.width cs = none := by
  rw [first?, List.findSome?_eq_some_iff]
  constructor
  · rintro ⟨before, t', behind, horder, htaken, hnone⟩
    obtain ⟨m, hm, heq⟩ := Option.map_eq_some_iff.mp htaken
    obtain ⟨rfl, rfl⟩ : t' = t ∧ m = n := Prod.mk.inj heq
    refine ⟨hm, ?_⟩
    have hother : ∀ t ∈ before, decide (t ≠ t') = true := by
      rintro t ht
      rw [decide_eq_true_eq]
      rintro rfl
      cases hm.symm.trans (Option.map_eq_none_iff.mp (hnone t ht))
    have hearlier : t'.earlier = before := by
      rw [earlier, horder, List.takeWhile_append_of_pos hother,
        List.takeWhile_cons_of_neg (by simp), List.append_nil]
    intro t ht
    exact Option.map_eq_none_iff.mp (hnone t (hearlier ▸ ht))
  · rintro ⟨hwidth, hnone⟩
    refine ⟨t.earlier, t, _, order_eq t, by rw [hwidth]; rfl, fun t' ht' ↦ ?_⟩
    rw [hnone t' ht']
    rfl

/-- A terminal is taken if it matches and none of its rivals does. -/
theorem first?_eq_some_iff : first? cs = some (t, n) ↔
    t.width cs = some n ∧ ∀ t' ∈ t.rivals, t'.width cs = none := by
  rw [first?_eq_some_iff_earlier]
  refine and_congr_right fun h ↦ ⟨fun hnone t' ht' ↦ hnone t' ((mem_rivals_iff t t').mp ht').1,
    fun hnone t' ht' ↦ ?_⟩
  obtain ⟨c, cs, rfl⟩ : ∃ c rest, cs = c :: rest := by
    cases cs with
    | nil => exact absurd (width_le h).2 (Nat.not_le.mpr (width_le h).1)
    | cons c cs => exact ⟨c, cs, rfl⟩
  cases hwidth : t'.width (c :: cs) with
  | none => rfl
  | some m =>
    rw [hnone t' ((mem_rivals_iff t t').mpr ⟨ht', _, front_mem h, front_mem hwidth⟩)] at hwidth
    cases hwidth

/-- What is taken has a character, and no more than there are. -/
theorem first?_le (h : first? cs = some (t, n)) : 0 < n ∧ n ≤ cs.length :=
  width_le (first?_eq_some_iff.mp h).1

/-- A blank is taken as a blank, with those behind it. -/
theorem first?_of_isBlank (hc : isBlank c = true) (cs : List Char) :
    first? (c :: cs) = some (blank, run isBlank (c :: cs)) := by
  refine first?_eq_some_iff.mpr ⟨taken_eq_some_iff.mpr ⟨?_, rfl⟩, List.forall_mem_nil _⟩
  rw [run, if_pos hc]
  exact Nat.succ_pos _

/-- A bracket is taken as a bracket. -/
theorem first?_opening (d : Delimiter) (cs : List Char) :
    first? (d.opening :: cs) = some (opening d, 1) :=
  first?_eq_some_iff.mpr ⟨bracketWidth_eq_some_iff.mpr ⟨cs, rfl, rfl⟩, List.forall_mem_nil _⟩

/-- A closing bracket is chosen by its character. -/
theorem first?_closing (d : Delimiter) (cs : List Char) :
    first? (d.closing :: cs) = some (closing d, 1) :=
  first?_eq_some_iff.mpr ⟨bracketWidth_eq_some_iff.mpr ⟨cs, rfl, rfl⟩, List.forall_mem_nil _⟩

end Expander.Terminal
