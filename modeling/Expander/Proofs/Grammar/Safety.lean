import Expander.CommandLine.Answer
import Expander.Proofs.Grammar.Entry

/-!
# Entries keep the protocol

A run of an entry on tokens that the lexer made ends with a value, with a fault of the tokens, or
with a limit, whatever the limits are (`endsWell_runCall`). So an expansion of an entry fails with
nothing else but what is wrong with the settings, and the command line has no internal error to
print (`entries_keep_protocol`).
-/

set_option autoImplicit false

namespace Expander

open Grammar Machine CommandLine

variable {σ : Type} {more : List (Callee × Handler σ)}

/-! ### Runs -/

/-- The ends of a run in which no callee breaks the protocol and no operation is applied to a value
that it has no use for. -/
inductive EndsWell : Except Failure Value → Prop
  | value (v : Value) : EndsWell (.ok v)
  | fault (f : Fault) : EndsWell (.error (.fault f))
  | limit (bound : Bound) (n : Int) (callee : String) : EndsWell (.error (.limit bound n callee))

/-- The run of an entry on tokens of the lexer ends well, whatever the limits. -/
theorem endsWell_runCall {file source : String} {ts : List Token}
    (hlex : lex file source = .ok ts) (e : Entry) {returnsTo : Destination} {last : Callee}
    (hleads : returnsTo.LeadsTo (Registry.standardAnd more) last)
    {final : List Argument → Except Failure Value}
    (hfinishes : Finishes (Registry.standardAnd more) last final) (limits : Limits) (w : World σ) :
    EndsWell ((runCall (Registry.standardAnd more) limits e.name ts returnsTo).outcome w).1 := by
  obtain ⟨ds, r, hreads⟩ := exists_reads_of_lex hlex e
  obtain ⟨hfits, hexceeds⟩ := runCall_entry hreads hleads hfinishes limits w
  by_cases hlimits : Fits limits limits.steps.toNat 0 (runDepths ds r)
  · rw [hfits hlimits]
    cases r with
    | error f => exact .fault f
    | ok parsed =>
      rw [returned_entry]
      rcases hfinishes.final_outputs e parsed.1 parsed.2 with ⟨v, hv, -⟩ | ⟨f, hf⟩
      · rw [show (Except.ok (e.outputs parsed.1 parsed.2) >>= final) = .ok v from hv]
        exact .value v
      · rw [show (Except.ok (e.outputs parsed.1 parsed.2) >>= final) = .error (.fault f) from hf]
        exact .fault f
  · obtain ⟨f, hf, hresult⟩ := hexceeds hlimits
    rw [hresult]
    rcases hf with ⟨-, callee, rfl⟩ | ⟨-, callee, rfl⟩
    · exact .limit _ _ callee
    · exact .limit _ _ callee

/-! ### Expansions -/

/-- An expansion fails with what is wrong with the limits, or as its run fails. Faults are none of
its failures. -/
theorem outcome_expandTokens {registry : Registry (Handler σ)} {limits : Except Failure Limits}
    {reporter : Reporter} {callee : String} {input : List Token} {returnsTo : Destination}
    {w : World σ} {f : Failure}
    (h : ((expandTokens registry limits reporter callee input returnsTo).outcome w).1 = .error f) :
    limits = .error f ∨ ∃ bounds, limits = .ok bounds ∧
      ((runCall registry bounds callee input returnsTo).outcome w).1 = .error f ∧
      ∀ fault, f ≠ .fault fault := by
  cases limits with
  | error f' =>
    cases h
    exact .inl rfl
  | ok bounds =>
    refine .inr ⟨bounds, rfl, ?_⟩
    unfold expandTokens at h
    rw [Action.outcome_bind, Action.outcome_lift] at h
    rcases hrun : (runCall registry bounds callee input returnsTo).outcome w with ⟨f' | v, w'⟩
    · simp only [Action.outcome_tryCatch, Action.outcome_bind, hrun] at h
      cases f' with
      | fault fault => cases h
      | _ =>
        cases h
        exact ⟨rfl, nofun⟩
    · simp only [Action.outcome_tryCatch, Action.outcome_bind, hrun] at h
      cases h

/-- An expansion of an entry fails only with a limit or with what is wrong with the limits. -/
theorem outcome_expand (e : Entry) {returnsTo : Destination} {last : Callee}
    (hleads : returnsTo.LeadsTo (Registry.standardAnd more) last)
    {final : List Argument → Except Failure Value}
    (hfinishes : Finishes (Registry.standardAnd more) last final) (limits : Except Failure Limits)
    (file source : String) (w : World σ) {f : Failure}
    (hf : ((expand (Registry.standardAnd more) limits e.name file source returnsTo).outcome w).1 =
      .error f) : limits = .error f ∨ ∃ bound n callee, f = .limit bound n callee := by
  rw [expand, Action.outcome_bind, Action.outcome_note] at hf
  cases hlex : lex file source with
  | error err =>
    rw [hlex] at hf
    cases hf
  | ok ts =>
    simp only [hlex] at hf
    rw [Action.outcome_bind, Action.outcome_note] at hf
    rcases outcome_expandTokens hf with hlimits | ⟨bounds, -, hrun, hnoFault⟩
    · exact .inl hlimits
    · have hends : EndsWell (.error f) :=
        hrun ▸ endsWell_runCall hlex e hleads hfinishes bounds _
      cases hends with
      | fault fault => exact absurd rfl (hnoFault fault)
      | limit bound n callee => exact .inr ⟨bound, n, callee, rfl⟩

/-! ### Answers -/

/-- How a line begins that blames the callees. -/
def internalError : String := "ttcall: internal error: "

/-- A text that begins with no `t` is no internal error. -/
theorem ne_internalError {text : String} {c : Char} (hc : c ≠ 't')
    (htext : text.toList.head? = some c) (message : String) : text ≠ internalError ++ message := by
  rintro rfl
  have hstart : internalError.toList.head? = some 't' := rfl
  rw [String.toList_append, List.head?_append, hstart, Option.some_or, Option.some.injEq] at htext
  exact hc htext.symm

theorem empty_ne_internalError (message : String) : "" ≠ internalError ++ message := by
  intro heq
  have hlength := congrArg String.length heq
  have hpositive : internalError.length = 24 := rfl
  rw [String.length_append, hpositive, String.length_empty] at hlength
  omega

/-- A line that reports an error is told from one that reports an internal error. -/
theorem errorLine_ne (text message : String) :
    errorLine text ++ "\n" ≠ internalError ++ message := by
  intro heq
  have hchar := congrArg (fun s : String ↦ s.toList[8]?) heq
  simp only [errorLine, String.toList_append] at hchar
  cases hchar

/-- How a headline begins, with colour or without. -/
def headlineStart (color : Bool) : Char := if color then '\x1b' else 'e'

/-- The first character of a heading is that of its paint, or of the word. -/
theorem head?_render_heading (color : Bool) (text : String) (more : StyledLine) :
    (StyledLine.render color (Diagnostic.heading ("error" ++ text) :: more)).toList.head? =
      some (headlineStart color) := by
  have hcode : Paint.bold.code.toList.head? = some '\x1b' := rfl
  cases color with
  | true =>
    simp [StyledLine.render, Segment.render, Diagnostic.heading, headlineStart, hcode]
  | false =>
    simp [StyledLine.render, Segment.render, Diagnostic.heading, headlineStart]

theorem head?_intercalate {separator first : String} {more : List String} {c : Char}
    (h : first.toList.head? = some c) :
    (separator.intercalate (first :: more)).toList.head? = some c := by
  cases more with
  | nil => rwa [String.intercalate_singleton]
  | cons second more =>
    rw [String.intercalate_cons_cons, String.toList_append, List.head?_append,
      String.toList_append, List.head?_append, h, Option.some_or, Option.some_or]

/-- Every report begins with a headline or with the summary. -/
theorem head?_formatAll (r : Reporter) (color : Bool) :
    (r.formatAll color).toList.head? = some (headlineStart color) := by
  rw [Reporter.formatAll]
  cases r.diagnostics with
  | nil => exact head?_intercalate (head?_render_heading color "" _)
  | cons d ds =>
    have hstyled : ∃ more, d.styled r.source? = d.headline :: more := by
      rw [Diagnostic.styled]
      split
      · exact ⟨_, rfl⟩
      · split <;> exact ⟨_, rfl⟩
    obtain ⟨more, hmore⟩ := hstyled
    have hformat : (r.format color d).toList.head? = some (headlineStart color) := by
      rw [Reporter.format, hmore, StyledText.render, List.map_cons]
      exact head?_intercalate (head?_render_heading color _ _)
    exact head?_intercalate hformat

/-- The log stands in front of what an outcome is answered with otherwise. -/
theorem stderr_ofOutcome (color : Bool) (log : String) (result : Except Failure Expansion) :
    (Answer.ofOutcome color log result).stderr =
      log ++ (Answer.ofOutcome color "" result).stderr := by
  cases result with
  | error f => cases f <;> simp [Answer.ofOutcome, String.append_assoc]
  | ok x =>
    rw [Answer.ofOutcome, Answer.ofOutcome]
    split
    · simp
    · split <;> simp [String.append_assoc]

/-- Only a breach of the protocol is answered with an internal error. -/
theorem stderr_ofOutcome_ne (color : Bool) {result : Except Failure Expansion}
    (h : ∀ b callee, result ≠ .error (.breach b callee)) (message : String) :
    (Answer.ofOutcome color "" result).stderr ≠ internalError ++ message := by
  cases result with
  | error f =>
    cases f with
    | breach b callee => exact absurd rfl (h b callee)
    | limit bound n callee =>
      rw [Answer.ofOutcome, String.empty_append]
      exact errorLine_ne _ message
    | _ => exact empty_ne_internalError message
  | ok x =>
    rw [Answer.ofOutcome]
    split
    · exact empty_ne_internalError message
    · split
      · next r _ =>
        have hstart : ("" ++ r.formatAll color ++ "\n").toList.head? =
            some (headlineStart color) := by
          rw [String.empty_append, String.toList_append, List.head?_append, head?_formatAll,
            Option.some_or]
        exact ne_internalError (by cases color <;> decide) hstart message
      · exact empty_ne_internalError message

/-- A limit that cannot be read is unfit, and nothing worse. -/
theorem readLimit_error {setting : String} {text : Option String} {default : Int} {f : Failure}
    (h : readLimit setting text default = .error f) : ∃ cause, f = .unfit cause := by
  rw [readLimit] at h
  split at h
  · cases h
  · split at h
    · cases h
      exact ⟨_, rfl⟩
    · split at h
      · cases h
        exact ⟨_, rfl⟩
      · cases h

/-- Limits that the environment does not give are wrong as settings. -/
theorem limits_error {env : Environment} {f : Failure} (h : env.limits none none = .error f) :
    ∃ cause, f = .unfit cause := by
  simp only [Environment.limits, bind, Except.bind] at h
  cases hrecursion : env.recursionLimit? with
  | error f' =>
    simp only [hrecursion] at h
    cases h
    exact readLimit_error hrecursion
  | ok recursion =>
    cases hsteps : env.stepLimit? with
    | error f' =>
      simp only [hrecursion, hsteps] at h
      cases h
      exact readLimit_error hsteps
    | ok steps =>
      simp only [hrecursion, hsteps] at h
      cases h

section

variable (e : Entry) (memory : σ) (env : Environment)

/-- An answer to a call of an entry says no internal error behind the log. -/
theorem stderr_expandAnswer (file source : String) : ∃ events report,
    (∀ message, report ≠ internalError ++ message) ∧ ∀ verbose,
      (expandAnswer (Registry.standardAnd more) memory env verbose e.name file source).stderr =
        (if verbose then logText events else "") ++ report := by
  rcases hexpand : (expand (Registry.standardAnd more) (env.limits none none) e.name file source
    (.callee (.callee Destinations.debugReturn))).outcome (.initial memory) with ⟨result, w⟩
  have hbreach : ∀ b callee, result ≠ .error (.breach b callee) := by
    rintro b callee rfl
    rcases outcome_expand e (.callee rfl) .debug (env.limits none none) file source
      (.initial memory) (by rw [hexpand]) with hlimits | ⟨bound, n, callee, hlimit⟩
    · obtain ⟨cause, hcause⟩ := limits_error hlimits
      cases hcause
    · cases hlimit
  refine ⟨w.log, _, stderr_ofOutcome_ne env.useColor hbreach, fun verbose ↦ ?_⟩
  rw [expandAnswer, hexpand]
  exact stderr_ofOutcome env.useColor _ result

/-- What a request writes for a reader is no internal error. -/
theorem stderr_answerRequest (directory : String) (contents? : String → Option (List UInt8))
    (source file : Option String) : ∃ events report,
    (∀ message, report ≠ internalError ++ message) ∧ ∀ verbose,
      (answerRequest (Registry.standardAnd more) memory env directory contents?
        (.expand e.name source file verbose)).stderr =
          (if verbose then logText events else "") ++ report := by
  have hplain : ∀ report : String, (∀ message, report ≠ internalError ++ message) →
      ∃ events report', (∀ message, report' ≠ internalError ++ message) ∧
        ∀ verbose : Bool, report = (if verbose then logText events else "") ++ report' := by
    refine fun report hreport ↦ ⟨[], report, hreport, fun verbose ↦ ?_⟩
    have hlog : logText [] = "" := rfl
    rw [hlog, ite_self, String.empty_append]
  cases file with
  | some file =>
    simp only [answerRequest]
    split
    · exact hplain _ (empty_ne_internalError)
    · split
      · exact hplain _ (errorLine_ne _)
      · split
        · exact hplain _ (empty_ne_internalError)
        · exact stderr_expandAnswer e memory env _ _
  | none =>
    cases source with
    | some source => exact stderr_expandAnswer e memory env _ _
    | none => exact hplain _ (errorLine_ne _)

end

/-- No call of an entry breaks the protocol. A run on tokens that the lexer made ends with a value,
a fault or a limit; and whatever the words of a command line give an entry to expand, what is
answered behind the log is no internal error. -/
theorem entries_keep_protocol (more : List (Callee × Handler σ)) (e : Entry) :
    (∀ {file source : String} {ts : List Token}, lex file source = .ok ts →
      ∀ {returnsTo : Destination} {last : Callee} {final : List Argument → Except Failure Value},
        returnsTo.LeadsTo (Registry.standardAnd more) last →
        Finishes (Registry.standardAnd more) last final → ∀ (limits : Limits) (w : World σ),
        EndsWell ((runCall (Registry.standardAnd more) limits e.name ts returnsTo).outcome w).1) ∧
    ∀ (memory : σ) (env : Environment) (directory : String)
      (contents? : String → Option (List UInt8)) (source file : Option String), ∃ events report,
      (∀ message, report ≠ internalError ++ message) ∧ ∀ words verbose,
        read words = .ok (.expand e.name source file verbose) →
        (answer (Registry.standardAnd more) memory env directory contents? words).stderr =
          (if verbose then logText events else "") ++ report := by
  refine ⟨fun hlex _ _ _ hleads hfinishes ↦ endsWell_runCall hlex e hleads hfinishes, ?_⟩
  intro memory env directory contents? source file
  obtain ⟨events, report, hreport, hstderr⟩ :=
    stderr_answerRequest (σ := σ) e memory env directory contents? source file
  refine ⟨events, report, hreport, fun words verbose hwords ↦ ?_⟩
  rw [answer, hwords]
  exact hstderr verbose

/-- A path that is left open, and a command line that gives it. -/
theorem entries_keep_protocol_open : ∃ ts, lex "<input>" "A<" = .ok ts ∧
    EndsWell ((runCall (σ := Unit) Registry.standard ⟨128, 100⟩ Entry.path.name ts
      .identity).outcome (.initial ())).1 ∧
    ∀ message, (answer Registry.standard () ⟨none, none, none, none⟩ "/" (fun _ ↦ none)
      ["parse_path", "A<"]).stderr ≠ internalError ++ message := by
  obtain ⟨hruns, hanswers⟩ := entries_keep_protocol (σ := Unit) [] .path
  have hlex : lex "<input>" "A<" = .ok ((lex "<input>" "A<").toOption.getD []) := rfl
  refine ⟨_, hlex, hruns hlex .identity .identity _ _, fun message ↦ ?_⟩
  obtain ⟨events, report, hreport, hstderr⟩ :=
    hanswers () ⟨none, none, none, none⟩ "/" (fun _ ↦ none) (some "A<") none
  have hplain := hstderr ["parse_path", "A<"] false rfl
  rw [if_neg Bool.false_ne_true, String.empty_append] at hplain
  exact hplain ▸ hreport message

end Expander
