import Expander.Diagnostic.Rendering
import Expander.Proofs.Source.Places

/-!
# Lines of a text

A line of a text is what stands between two line feeds, or between one and an end of the text
(`IsLine`). Every offset is in one line (`exists_isLine`), whose number and whose place in the text
are the line and the column of the offset (`IsLine.place`), and that is the line with this number
when the text is cut at its line feeds (`IsLine.lineAt_eq`).
-/

set_option autoImplicit false

namespace Expander

variable {text before line behind front : List Char} {offset : Nat}

/-! ### Cutting at line feeds -/

theorem splitLines_ne_nil (text : List Char) : splitLines text ≠ [] := by
  cases text with
  | nil => exact List.cons_ne_nil _ _
  | cons c cs =>
    rw [splitLines]
    split
    · exact List.cons_ne_nil _ _
    · split <;> exact List.cons_ne_nil _ _

theorem splitLines_of_notMem (h : '\n' ∉ line) : splitLines line = [line] := by
  induction line with
  | nil => rfl
  | cons c line ih =>
    rw [List.mem_cons, not_or] at h
    rw [splitLines, if_neg fun hc ↦ h.1 hc.symm, ih h.2]

/-- A line feed ends the last line of what is before it. -/
theorem splitLines_append_feed (front behind : List Char) :
    splitLines (front ++ '\n' :: behind) = splitLines front ++ splitLines behind := by
  induction front with
  | nil => rfl
  | cons c front ih =>
    rw [List.cons_append, splitLines, splitLines, ih]
    obtain ⟨line, lines, hlines⟩ := List.exists_cons_of_ne_nil (splitLines_ne_nil front)
    rw [hlines]
    split <;> rfl

/-- There is one line more than there are line feeds. -/
theorem length_splitLines (text : List Char) :
    (splitLines text).length = text.count '\n' + 1 := by
  induction text with
  | nil => rfl
  | cons c text ih =>
    obtain ⟨line, lines, hlines⟩ := List.exists_cons_of_ne_nil (splitLines_ne_nil text)
    rw [hlines] at ih
    rw [splitLines, hlines]
    by_cases hc : c = '\n'
    · rw [if_pos hc, hc, List.count_cons_self, ← ih]
      rfl
    · rw [if_neg hc, List.count_cons_of_ne hc, ← ih]
      rfl

/-- Lines have no other characters than the text. -/
theorem mem_of_mem_splitLines {c : Char} (hline : line ∈ splitLines text)
    (hc : c ∈ line) : c ∈ text := by
  induction text generalizing line with
  | nil =>
    rw [splitLines, List.mem_singleton] at hline
    rw [hline] at hc
    exact hc
  | cons d text ih =>
    rw [splitLines] at hline
    split at hline
    · rcases List.mem_cons.mp hline with rfl | hmore
      · cases hc
      · exact List.mem_cons_of_mem d (ih hmore hc)
    · obtain ⟨first, lines, hlines⟩ := List.exists_cons_of_ne_nil (splitLines_ne_nil text)
      rw [hlines] at hline ih
      rcases List.mem_cons.mp hline with rfl | hmore
      · rcases List.mem_cons.mp hc with rfl | hfirst
        · exact List.mem_cons_self
        · exact List.mem_cons_of_mem d (ih List.mem_cons_self hfirst)
      · exact List.mem_cons_of_mem d (ih (List.mem_cons_of_mem first hmore) hc)

/-- A line is made of characters of the text, whatever its number. -/
theorem mem_of_mem_lineAt {number : Int} {c : Char} (h : c ∈ lineAt text number) : c ∈ text := by
  rw [lineAt] at h
  split at h
  · cases h
  · cases hline : (splitLines text)[(number - 1).toNat]? with
    | none =>
      rw [hline] at h
      cases h
    | some line =>
      rw [hline] at h
      exact mem_of_mem_splitLines (List.mem_of_getElem? hline) h

/-! ### Lines -/

/-- A line of a text, with what stands before it and behind it. -/
structure IsLine (text before line behind : List Char) : Prop where
  eq_append : text = before ++ (line ++ behind)
  notMem : '\n' ∉ line
  begins : ∀ c ∈ before.getLast?, c = '\n'
  ends : ∀ c ∈ behind.head?, c = '\n'

/-- Before a line there is nothing, or a line feed. -/
theorem IsLine.eq_nil_or_concat (h : IsLine text before line behind) :
    before = [] ∨ ∃ front, before = front ++ ['\n'] := by
  cases before using List.reverseRecOn with
  | nil => exact .inl rfl
  | append_singleton front c =>
    obtain rfl : c = '\n' := h.begins c (by simp)
    exact .inr ⟨front, rfl⟩

/-- Behind a line there is nothing, or a line feed. -/
theorem IsLine.eq_nil_or_cons (h : IsLine text before line behind) :
    behind = [] ∨ ∃ more, behind = '\n' :: more := by
  cases behind with
  | nil => exact .inl rfl
  | cons c more =>
    obtain rfl : c = '\n' := h.ends c rfl
    exact .inr ⟨more, rfl⟩

/-- Every text ends with a line. -/
theorem exists_lastLine (front : List Char) : ∃ before line, front = before ++ line ∧ '\n' ∉ line ∧
    ∀ c ∈ before.getLast?, c = '\n' := by
  induction front using List.reverseRecOn with
  | nil => exact ⟨[], [], rfl, List.not_mem_nil, nofun⟩
  | append_singleton front c ih =>
    by_cases hc : c = '\n'
    · exact ⟨front ++ [c], [], (List.append_nil _).symm, List.not_mem_nil, by simpa using hc⟩
    · obtain ⟨before, line, rfl, hline, hbefore⟩ := ih
      refine ⟨before, line ++ [c], List.append_assoc _ _ _, ?_, hbefore⟩
      simpa [hline] using fun h ↦ hc h.symm

/-- Every text begins with a line. -/
theorem exists_firstLine (text : List Char) : ∃ line behind, text = line ++ behind ∧ '\n' ∉ line ∧
    ∀ c ∈ behind.head?, c = '\n' := by
  induction text with
  | nil => exact ⟨[], [], rfl, List.not_mem_nil, nofun⟩
  | cons c text ih =>
    by_cases hc : c = '\n'
    · exact ⟨[], c :: text, rfl, List.not_mem_nil, by simpa using hc⟩
    · obtain ⟨line, behind, rfl, hline, hbehind⟩ := ih
      refine ⟨c :: line, behind, rfl, ?_, hbehind⟩
      simpa [hline] using fun h ↦ hc h.symm

/-- Every offset into a text is in a line of it, or at its end. -/
theorem exists_isLine (h : offset ≤ text.length) : ∃ before line behind,
    IsLine text before line behind ∧ before.length ≤ offset ∧
      offset ≤ before.length + line.length := by
  obtain ⟨before, first, hfirst, hfeeds, hbegins⟩ := exists_lastLine (text.take offset)
  obtain ⟨last, behind, hlast, hfeeds', hends⟩ := exists_firstLine (text.drop offset)
  have htext : text = before ++ ((first ++ last) ++ behind) := by
    rw [List.append_assoc, ← hlast, ← List.append_assoc, ← hfirst, List.take_append_drop]
  have hlength : before.length + first.length = offset := by
    rw [← List.length_append, ← hfirst, List.length_take_of_le h]
  refine ⟨before, first ++ last, behind, ⟨htext, by simp [hfeeds, hfeeds'], hbegins, hends⟩, ?_, ?_⟩
  · omega
  · rw [List.length_append]
    omega

/-- A character that is no line feed is in its line, and not at the end of it. -/
theorem IsLine.lt_of_getElem? (h : IsLine text before line behind)
    (hline : offset ≤ before.length + line.length) (hlt : offset < text.length)
    (hfeed : text[offset]? ≠ some '\n') : offset < before.length + line.length := by
  refine Nat.lt_of_le_of_ne hline fun heq ↦ ?_
  have hfront : text = (before ++ line) ++ behind := by rw [h.eq_append, List.append_assoc]
  rcases h.eq_nil_or_cons with rfl | ⟨more, rfl⟩
  · rw [hfront, List.append_nil, List.length_append, heq] at hlt
    exact Nat.lt_irrefl _ hlt
  · rw [hfront, heq, ← List.length_append, List.getElem?_append_right (Nat.le_refl _),
      Nat.sub_self] at hfeed
    exact hfeed rfl

/-- A part of a line is a part of the text. -/
theorem IsLine.take_drop (h : IsLine text before line behind) (hbefore : before.length ≤ offset)
    {stop : Nat} (hstop : stop ≤ before.length + line.length) :
    (line.drop (offset - before.length)).take (stop - offset) = (text.take stop).drop offset := by
  by_cases hle : stop ≤ offset
  · rw [Nat.sub_eq_zero_of_le hle, List.take_zero, List.drop_of_length_le]
    exact Nat.le_trans (List.length_take_le _ _) hle
  · have htake : text.take stop = before ++ line.take (stop - before.length) := by
      rw [h.eq_append, List.take_append, List.take_of_length_le (by omega),
        List.take_append_of_le_length (by omega)]
    rw [htake, List.drop_append, List.drop_of_length_le hbefore, List.nil_append, List.drop_take]
    congr 1
    omega

/-- What is in a line is on its number, as many columns behind its begin as there are characters. -/
theorem IsLine.place (h : IsLine text before line behind) (hbefore : before.length ≤ offset)
    (hline : offset ≤ before.length + line.length) :
    lineNumber text offset = before.count '\n' + 1 ∧
      columnNumber text offset = offset - before.length + 1 := by
  have htake : text.take offset = before ++ line.take (offset - before.length) := by
    rw [h.eq_append, List.take_append, List.take_of_length_le hbefore,
      List.take_append_of_le_length (by omega)]
  have hpart : ∀ c ∈ line.take (offset - before.length), c ≠ '\n' := by
    rintro c hc rfl
    exact h.notMem (List.mem_of_mem_take hc)
  constructor
  · rw [lineNumber, htake, List.count_append, List.count_eq_zero.mpr fun hmem ↦ hpart _ hmem rfl]
    omega
  · have hback : before.reverse.takeWhile (· ≠ '\n') = [] := by
      rcases h.eq_nil_or_concat with rfl | ⟨front, rfl⟩
      · rfl
      · simp
    rw [columnNumber, htake, List.reverse_append,
      List.takeWhile_append_of_pos (by simpa using hpart), hback, List.append_nil,
      List.length_reverse, List.length_take_of_le (by omega)]

/-- What is behind a line is on a later one. -/
theorem IsLine.lt_lineNumber (h : IsLine text before line behind)
    (hline : before.length + line.length < offset) (hle : offset ≤ text.length) :
    before.count '\n' + 1 < lineNumber text offset := by
  rcases h.eq_nil_or_cons with rfl | ⟨more, rfl⟩
  · rw [h.eq_append, List.append_nil, List.length_append] at hle
    omega
  · have hprefix : before ++ (line ++ ['\n']) <+: text.take offset := by
      rw [List.prefix_take_iff]
      refine ⟨⟨more, by simp [h.eq_append]⟩, ?_⟩
      simp only [List.length_append, List.length_singleton]
      omega
    have hcount := hprefix.sublist.count_le '\n'
    simp only [List.count_append, List.count_singleton_self] at hcount
    rw [lineNumber]
    omega

/-- A line is the one with its number. -/
theorem IsLine.lineAt_eq (h : IsLine text before line behind) :
    lineAt text (before.count '\n' + 1 : Nat) = line := by
  obtain ⟨back, hback⟩ : ∃ back, splitLines (line ++ behind) = line :: back := by
    rcases h.eq_nil_or_cons with rfl | ⟨more, rfl⟩
    · exact ⟨[], by rw [List.append_nil, splitLines_of_notMem h.notMem]⟩
    · rw [splitLines_append_feed, splitLines_of_notMem h.notMem]
      exact ⟨_, rfl⟩
  obtain ⟨front, hsplit, hlength⟩ : ∃ front, splitLines text = front ++ line :: back ∧
      front.length = before.count '\n' := by
    rcases h.eq_nil_or_concat with rfl | ⟨front, rfl⟩
    · exact ⟨[], by rw [h.eq_append, List.nil_append, hback]; rfl, rfl⟩
    · refine ⟨splitLines front, ?_, ?_⟩
      · rw [h.eq_append, List.append_assoc, List.singleton_append, splitLines_append_feed, hback]
      · rw [length_splitLines, List.count_append, List.count_singleton_self]
  have hnumber : ¬ ((before.count '\n' + 1 : Nat) : Int) < 1 := by omega
  have hindex : (((before.count '\n' + 1 : Nat) : Int) - 1).toNat = front.length := by omega
  rw [lineAt, if_neg hnumber, hindex, hsplit, List.getElem?_append_right (Nat.le_refl _)]
  simp

end Expander
