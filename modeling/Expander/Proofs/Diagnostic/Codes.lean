import Expander.Proofs.Source.Lines
import Expander.Diagnostic.Reporter
import Mathlib.Data.List.Forall2

/-!
# Escape codes in reports

A report with colour and the same report without differ in the codes alone (`uncoded_formatAll`):
when the codes are taken out of the one, the other is left.

Codes are found by reading (`uncoded`), not by remembering where they were put in. So what is
rendered with colour has to become the plain text whatever follows it (`Fades`), which then holds of
segments, lines and reports one by one. It would fail for a text that brings an escape character
along: behind it the text itself could look like a code, or finish one. Nothing that the formatter
adds has one in it (`Diagnostic.Bare.styled`), so it is enough that the texts it is given have none.
-/

set_option autoImplicit false

namespace Expander

open Diagnostic

/-! ### Taking codes out -/

/-- The characters between the bracket of a code and its end. -/
def isCodeParameter (c : Char) : Bool := c.isDigit || c = ';'

/-- What is behind the code with which a text begins. -/
def behindCode? : List Char → Option (List Char)
  | '\x1b' :: '[' :: cs =>
    match cs.dropWhile isCodeParameter with
    | 'm' :: rest => some rest
    | _ => none
  | _ => none

/-- A code has characters of its own, so that taking codes out comes to an end. -/
theorem length_lt_of_behindCode? {text rest : List Char} (h : behindCode? text = some rest) :
    rest.length < text.length := by
  unfold behindCode? at h
  split at h
  · next cs =>
    split at h
    · next hdrop =>
      cases h
      have hsuffix := (List.dropWhile_suffix isCodeParameter (l := cs)).length_le
      rw [hdrop] at hsuffix
      simp only [List.length_cons] at hsuffix ⊢
      omega
    · cases h
  · cases h

/-- A text without the codes in it, as they are found from its begin to its end. -/
def uncoded : List Char → List Char
  | [] => []
  | c :: cs =>
    match h : behindCode? (c :: cs) with
    | some rest =>
      have := length_lt_of_behindCode? h
      uncoded rest
    | none => c :: uncoded cs
termination_by text => text.length
decreasing_by
  · exact this
  · exact Nat.lt_succ_self _

/-- A code at the front is taken out, whatever stands behind it. -/
theorem uncoded_of_behindCode? {text rest : List Char} (h : behindCode? text = some rest) :
    uncoded text = uncoded rest := by
  cases text with
  | nil => cases h
  | cons c cs =>
    rw [uncoded]
    split
    · next hsome => exact congrArg uncoded (Option.some.inj (hsome.symm.trans h))
    · next hnone => cases hnone.symm.trans h

/-- A character that begins no code stays. -/
theorem uncoded_cons {c : Char} (h : c ≠ '\x1b') (cs : List Char) :
    uncoded (c :: cs) = c :: uncoded cs := by
  have hnone : behindCode? (c :: cs) = none := by
    unfold behindCode?
    split
    · next heq =>
      cases heq
      exact absurd rfl h
    · rfl
  rw [uncoded]
  split
  · next hsome => cases hsome.symm.trans hnone
  · rfl

/-- A text in which no code can begin stays. -/
theorem uncoded_append {cs : List Char} (h : '\x1b' ∉ cs) (behind : List Char) :
    uncoded (cs ++ behind) = cs ++ uncoded behind := by
  induction cs with
  | nil => rfl
  | cons c cs ih =>
    rw [List.mem_cons, not_or] at h
    rw [List.cons_append, uncoded_cons fun hc ↦ h.1 hc.symm, ih h.2, List.cons_append]

/-! ### Fading -/

/-- When the codes are taken out of the one text the other is left, whatever stands behind. -/
def Fades (coloured plain : String) : Prop :=
  ∀ behind, uncoded (coloured.toList ++ behind) = plain.toList ++ uncoded behind

/-- A text without an escape character. -/
def Bare (s : String) : Prop := '\x1b' ∉ s.toList

instance (s : String) : Decidable (Bare s) := inferInstanceAs (Decidable ('\x1b' ∉ s.toList))

/-- A text that fades to another one is the other one without its codes. -/
theorem Fades.uncoded_eq {s t : String} (h : Fades s t) : uncoded s.toList = t.toList := by
  have hend := h []
  rwa [List.append_nil, uncoded, List.append_nil] at hend

theorem fades_empty : Fades "" "" := fun _ ↦ rfl

/-- Texts fade one behind the other: a code never reaches beyond the text it stands in. -/
theorem Fades.append {s t s' t' : String} (h : Fades s t) (h' : Fades s' t') :
    Fades (s ++ s') (t ++ t') := by
  intro behind
  rw [String.toList_append, String.toList_append, List.append_assoc, h, h', List.append_assoc]

/-- A text without the character of codes fades to itself. -/
theorem Bare.fades {s : String} (h : Bare s) : Fades s s :=
  uncoded_append h

/-- A code fades to nothing. -/
theorem fades_of_behindCode? {code : String}
    (h : ∀ behind, behindCode? (code.toList ++ behind) = some behind) : Fades code "" :=
  fun behind ↦ uncoded_of_behindCode? (h behind)

/-- What a paint is switched on with is a code, and so nothing is left of it. -/
theorem fades_code (p : Paint) : Fades p.code "" := by
  apply fades_of_behindCode?
  intro behind
  cases p <;> rfl

/-- Nothing is left either of what all paint is switched off with. -/
theorem fades_reset : Fades Paint.reset "" :=
  fades_of_behindCode? fun _ ↦ rfl

section

variable {α : Type} {xs : List α} {ss ts : List String}

/-- Texts that fade one by one fade when they are put together. -/
theorem fades_join (h : List.Forall₂ Fades ss ts) : Fades (String.join ss) (String.join ts) := by
  induction h with
  | nil => exact fades_empty
  | cons hfirst _ ih =>
    rw [String.join_cons, String.join_cons]
    exact hfirst.append ih

/-- Texts that fade one by one fade with separators between them, if these have no codes. -/
theorem fades_intercalate {separator : String} (hseparator : Bare separator)
    (h : List.Forall₂ Fades ss ts) :
    Fades (separator.intercalate ss) (separator.intercalate ts) := by
  induction h with
  | nil => exact fades_empty
  | cons hfirst hmore ih =>
    cases hmore with
    | nil =>
      rw [String.intercalate_singleton, String.intercalate_singleton]
      exact hfirst
    | cons =>
      rw [String.intercalate_cons_cons, String.intercalate_cons_cons]
      exact (hfirst.append hseparator.fades).append ih

theorem forall₂_fades_map {f g : α → String} (h : ∀ x ∈ xs, Fades (f x) (g x)) :
    List.Forall₂ Fades (xs.map f) (xs.map g) := by
  rw [List.forall₂_map_left_iff, List.forall₂_map_right_iff, List.forall₂_same]
  exact h

end

/-! ### Styled text -/

/-- No text of any segment has an escape character. -/
def StyledText.Bare (text : StyledText) : Prop := ∀ line ∈ text, ∀ s ∈ line, Expander.Bare s.text

theorem fades_codes (paints : List Paint) : Fades (String.join (paints.map Paint.code)) "" := by
  induction paints with
  | nil => exact fades_empty
  | cons p ps ih =>
    rw [List.map_cons, String.join_cons]
    exact (fades_code p).append ih

/-- A painted segment fades to the plain one: before it stand the codes of its paints, behind it the
reset. -/
theorem Segment.fades {s : Segment} (h : Bare s.text) : Fades (s.render true) (s.render false) := by
  cases hpaints : s.paints with
  | nil =>
    simp only [Segment.render, hpaints]
    exact h.fades
  | cons p ps =>
    -- A painted text stands between its codes and the reset.
    have hpainted := ((fades_codes s.paints).append h.fades).append fades_reset
    simpa [Segment.render, hpaints] using hpainted

/-- A painted line fades to the plain one, segment by segment. -/
theorem StyledLine.fades {line : StyledLine} (h : ∀ s ∈ line, Bare s.text) :
    Fades (line.render true) (line.render false) := by
  apply fades_join
  apply forall₂_fades_map
  intro s hs
  exact Segment.fades (h s hs)

/-- A painted text fades to the plain one, line by line. -/
theorem StyledText.Bare.fades {text : StyledText} (h : text.Bare) :
    Fades (text.render true) (text.render false) := by
  apply fades_intercalate (by decide : Expander.Bare "\n")
  apply forall₂_fades_map
  intro line hline
  exact StyledLine.fades (h line hline)

/-! ### What a report is made of -/

@[simp] theorem bare_append {s t : String} : Bare (s ++ t) ↔ Bare s ∧ Bare t := by
  rw [Bare, String.toList_append, List.mem_append, not_or]
  rfl

@[simp] theorem bare_ofList {cs : List Char} : Bare (String.ofList cs) ↔ '\x1b' ∉ cs := by
  rw [Bare, String.toList_ofList]

@[simp] theorem bare_spaces (n : Nat) : Bare (spaces n) := by
  simp [spaces]

/-- Digits and a sign are no codes, so that numbers of lines and columns are bare. -/
@[simp] theorem bare_toString (number : Int) : Bare (toString number) := by
  intro hmem
  rcases isDigit_of_mem_toString hmem with hdigit | hsign
  · cases hdigit
  · cases hsign

namespace Diagnostic

/-- No text that a diagnostic brings along has an escape character. -/
structure Bare (d : Diagnostic) : Prop where
  message : Expander.Bare d.message
  code : ∀ s ∈ d.code, Expander.Bare s
  help : ∀ s ∈ d.help, Expander.Bare s
  note : ∀ s ∈ d.note, Expander.Bare s
  label : ∀ s ∈ d.label, Expander.Bare s
  file : ∀ span ∈ d.span, Expander.Bare span.file

variable {d : Diagnostic}

/-- Of a text that may be missing or empty, what is shown is bare if the text is. -/
theorem bare_of_shown {text : Option String} {s : String} (h : ∀ s ∈ text, Expander.Bare s)
    (hshown : shown text = some s) : Expander.Bare s :=
  h s (Option.mem_filter_iff.mp hshown).1

/-- The first line of a diagnostic is put together from texts of its own and words of the report. -/
theorem Bare.headline (h : d.Bare) : ∀ s ∈ d.headline, Expander.Bare s.text := by
  intro s hs
  simp only [Diagnostic.headline, List.mem_cons, List.not_mem_nil, or_false] at hs
  rcases hs with rfl | rfl
  · refine bare_append.mpr ⟨by decide, ?_⟩
    cases hshown : shown d.code with
    | none => exact (by decide : Expander.Bare "")
    | some code =>
      have hcode := bare_of_shown h.code hshown
      exact bare_append.mpr ⟨bare_append.mpr ⟨by decide, hcode⟩, by decide⟩
  · exact bare_append.mpr ⟨by decide, h.message⟩

theorem bare_placeLine {place : String} (h : Expander.Bare place) (width : Nat) :
    ∀ s ∈ placeLine width place, Expander.Bare s.text := by
  intro s hs
  simp only [placeLine, List.mem_cons, List.not_mem_nil, or_false] at hs
  rcases hs with rfl | rfl
  · exact bare_append.mpr ⟨bare_spaces width, by decide⟩
  · exact h

/-- The remarks below are texts of the diagnostic as well. -/
theorem Bare.remarks (h : d.Bare) (width : Nat) : StyledText.Bare (d.remarks width) := by
  have hpad (s : String) (hs : Expander.Bare s) : Expander.Bare (spaces (width + 1) ++ s) :=
    bare_append.mpr ⟨bare_spaces _, hs⟩
  have hremark (title text : String) (htitle : Expander.Bare title) (htext : Expander.Bare text) :
      ∀ s ∈ [remark (spaces (width + 1) ++ "= "), strong (title ++ ": "), .plain text],
        Expander.Bare s.text := by
    intro s hs
    simp only [List.mem_cons, List.not_mem_nil, or_false] at hs
    rcases hs with rfl | rfl | rfl
    · exact hpad _ (by decide)
    · exact bare_append.mpr ⟨htitle, by decide⟩
    · exact htext
  intro line hline
  rw [Diagnostic.remarks] at hline
  split at hline
  · cases hline
  · rcases List.mem_cons.mp hline with rfl | hline
    · intro s hs
      rw [List.mem_singleton.mp hs]
      exact hpad _ (by decide)
    · rcases List.mem_append.mp hline with hhelp | hnote
      · obtain ⟨text, htext, rfl⟩ := List.mem_map.mp hhelp
        exact hremark "help" text (by decide) (bare_of_shown h.help (Option.mem_toList.mp htext))
      · obtain ⟨text, htext, rfl⟩ := List.mem_map.mp hnote
        exact hremark "note" text (by decide) (bare_of_shown h.note (Option.mem_toList.mp htext))

/-- The lines that are quoted come from the source, and the carets below them are none of its
characters. -/
theorem Bare.snippet (h : d.Bare) {source : String} (hsource : Expander.Bare source) (span : Span)
    (width : Nat) : StyledText.Bare (d.snippet span source width) := by
  intro line hline s hs
  simp only [Diagnostic.snippet, List.mem_cons, List.not_mem_nil, or_false] at hline
  rcases hline with rfl | rfl | rfl <;>
    simp only [List.mem_cons, List.not_mem_nil, or_false] at hs
  · rw [hs]
    exact bare_append.mpr ⟨bare_spaces _, by decide⟩
  · rcases hs with rfl | rfl
    · exact bare_append.mpr ⟨bare_toString _, by decide⟩
    · exact bare_ofList.mpr fun hmem ↦ hsource (mem_of_mem_lineAt hmem)
  · rcases hs with rfl | rfl
    · exact bare_append.mpr ⟨bare_spaces _, by decide⟩
    · refine bare_append.mpr ⟨bare_ofList.mpr (by simp), ?_⟩
      cases hshown : shown d.label with
      | none => exact (by decide : Expander.Bare "")
      | some label => exact bare_append.mpr ⟨by decide, bare_of_shown h.label hshown⟩

theorem Bare.span {span : Span} (h : d.Bare) (hspan : d.span = some span) :
    Expander.Bare span.text := by
  rw [Span.text]
  simp only [bare_append, bare_toString, and_true]
  exact ⟨⟨h.file span hspan, by decide⟩, by decide⟩

/-- The formatter brings no escape character into a diagnostic. -/
theorem Bare.styled (h : d.Bare) {source? : String → Option String}
    (hsource : ∀ file source, source? file = some source → Expander.Bare source) :
    StyledText.Bare (d.styled source?) := by
  -- With or without a source, the headline and the place come first.
  have hhead (width : Nat) (place : String) (hplace : Expander.Bare place) (more : StyledText)
      (hmore : more.Bare) : StyledText.Bare ([d.headline, placeLine width place] ++ more) := by
    intro line hline
    rcases List.mem_append.mp hline with hfirst | hrest
    · simp only [List.mem_cons, List.not_mem_nil, or_false] at hfirst
      rcases hfirst with rfl | rfl
      · exact h.headline
      · exact bare_placeLine hplace width
    · exact hmore line hrest
  rw [Diagnostic.styled]
  split
  · exact hhead _ _ (by decide) _ (h.remarks 1)
  · next span hspan =>
    split
    · exact hhead _ _ (h.span hspan) _ (h.remarks 1)
    · next source hfile =>
      dsimp only
      rw [List.append_assoc]
      apply hhead _ _ (h.span hspan)
      intro line hline
      rcases List.mem_append.mp hline with hsnippet | hremarks
      · exact h.snippet (hsource _ _ hfile) _ _ line hsnippet
      · exact h.remarks _ line hremarks

end Diagnostic

namespace Reporter

/-- No text that a reporter was given has an escape character. -/
structure Bare (r : Reporter) : Prop where
  diagnostics : ∀ d ∈ r.diagnostics, d.Bare
  sources : ∀ source ∈ r.sources, Expander.Bare source.1 ∧ Expander.Bare source.2

variable {r : Reporter}

theorem Bare.source (h : r.Bare) (file source : String) (hfile : r.source? file = some source) :
    Expander.Bare source := by
  obtain ⟨before, behind, hsources, -⟩ := List.lookup_eq_some_iff.mp hfile
  have hmem : (file, source) ∈ r.sources := by
    rw [hsources]
    exact List.mem_append_right _ List.mem_cons_self
  exact (h.sources _ hmem).2

theorem bare_summary (count : Nat) : ∀ s ∈ summary count, Expander.Bare s.text := by
  have hcount : Expander.Bare (toString count) := bare_toString count
  have hplural : Expander.Bare (if count = 1 then "" else "s") := by
    split <;> decide
  intro s hs
  simp only [summary, List.mem_cons, List.not_mem_nil, or_false] at hs
  rcases hs with rfl | rfl
  · exact (by decide : Expander.Bare "error")
  · simp only [strong, bare_append]
    exact ⟨⟨⟨by decide, hcount⟩, by decide⟩, hplural⟩

/-- A report with colour becomes the one without when its codes are taken out. -/
theorem uncoded_formatAll (h : r.Bare) :
    uncoded (r.formatAll true).toList = (r.formatAll false).toList := by
  apply Fades.uncoded_eq
  apply fades_intercalate (by decide)
  apply List.rel_append
  · apply forall₂_fades_map
    intro d hd
    exact ((h.diagnostics d hd).styled h.source).fades
  · exact .cons (StyledLine.fades (bare_summary _)) .nil

/-- A report of one diagnostic, with all that a diagnostic can show. -/
def remarked : Reporter where
  sources := [("<input>", "f(a,\n b)")]
  diagnostics := [{
    message := "unexpected arguments"
    span := some ⟨"<input>", 1, 2, 1, 8, 2, 4⟩
    code := some "E0001"
    help := some "leave them out"
    note := some "none is needed"
    label := some "here" }]

/-- There is such a report: one with a place, a label, notes and a help. -/
theorem bare_remarked : remarked.Bare where
  diagnostics d hd := by
    rw [List.mem_singleton.mp hd]
    constructor <;> decide
  sources source hsource := by
    rw [List.mem_singleton.mp hsource]
    decide

/-- On it the codes are seen to make all the difference. -/
theorem uncoded_formatAll_remarked : remarked.Bare ∧
    uncoded (remarked.formatAll true).toList = (remarked.formatAll false).toList :=
  ⟨bare_remarked, uncoded_formatAll bare_remarked⟩

example : (Reporter.ofSources []).formatAll true =
    "\x1b[1m\x1b[31merror\x1b[0m\x1b[1m: aborting due to 0 previous errors\x1b[0m" := by
  decide +kernel

end Reporter

end Expander
