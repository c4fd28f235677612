import Expander.Expansion
import Expander.Proofs.Protocol.Outcome

/-!
# How expansions end

An expansion on tokens ends as its run does (`outcome_expand_of_lex`): a value is its result, a
fault of the tokens becomes its only diagnostic, and any other failure is its own. One on a text
that is no sequence of tokens reports what the lexer found (`outcome_expand_of_error`), whatever the
limits are.
-/

set_option autoImplicit false

namespace Expander

variable {σ : Type} {registry : Registry (Handler σ)} {limits : Limits} {callee file source : String}
  {returnsTo : Destination} {ts : List Token} {w : World σ} {f : Failure}

/-! ### Results -/

namespace Expansion

/-- An expansion with a value and nothing to report. -/
def Succeeds (x : Expansion) (value : Value) : Prop :=
  x.success = true ∧ x.value = value ∧ x.reporter.map Reporter.diagnostics = some []

/-- An expansion that has no value and reports one diagnostic. -/
def Reports (x : Expansion) (d : Diagnostic) : Prop :=
  x.success = false ∧ x.value = .nothing ∧ x.reporter.map Reporter.diagnostics = some [d]

/-- What becomes of the end of a run. -/
def ofRun (r : Reporter) : Except Failure Value → Except Failure Expansion
  | .ok value => .ok (.succeeded value r)
  | .error (.fault f) => .ok (.failed (r.report f.diagnostic))
  | .error other => .error other

/-- The failures of a run other than its faults are those of its expansion. -/
theorem ofRun_eq_error_iff {r : Reporter} {result : Except Failure Value} {f : Failure} :
    ofRun r result = .error f ↔ result = .error f ∧ ∀ fault, f ≠ .fault fault := by
  constructor
  · intro h
    rcases result with g | value
    · cases g with
      | fault fault => cases h
      | _ =>
        cases h
        exact ⟨rfl, nofun⟩
    · cases h
  · rintro ⟨rfl, hfault⟩
    cases f with
    | fault fault => exact absurd rfl (hfault fault)
    | _ => rfl

/-- A value that is wrapped up is one that succeeds, with nothing to report. -/
theorem succeeds_succeeded (value : Value) (sources : List (String × String)) :
    (succeeded value (.ofSources sources)).Succeeds value :=
  ⟨rfl, rfl, rfl⟩

/-- A diagnostic that is wrapped up is the one that is reported, with no value. -/
theorem reports_failed (d : Diagnostic) (sources : List (String × String)) :
    (failed ((Reporter.ofSources sources).report d)).Reports d :=
  ⟨rfl, rfl, rfl⟩

end Expansion

/-! ### Outcomes -/

/-- The world in which an expansion calls its callee. -/
def opened (w : World σ) (callee file : String) (ts : List Token) : World σ :=
  { w with events := .lexed ts.length file :: .expanding callee file :: w.events }

/-- An expansion of tokens comes to what its run comes to, wrapped up. -/
theorem outcome_expandTokens_fst {reporter : Reporter} :
    ((expandTokens registry (.ok limits) reporter callee ts returnsTo).outcome w).1 =
      Expansion.ofRun reporter ((runCall registry limits callee ts returnsTo).outcome w).1 := by
  unfold expandTokens
  rw [Action.outcome_bind, Action.outcome_lift]
  simp only [Action.outcome_tryCatch, Action.outcome_bind]
  rcases (runCall registry limits callee ts returnsTo).outcome w with ⟨failure | value, w'⟩
  · cases failure <;> rfl
  · rfl

/-- Where a text is lexed, it is expanded as its tokens are. -/
theorem outcome_expand_of_lex (hlex : lex file source = .ok ts) :
    ((expand registry (.ok limits) callee file source returnsTo).outcome w).1 =
      Expansion.ofRun (.ofSources [(file, source)])
        ((runCall registry limits callee ts returnsTo).outcome (opened w callee file ts)).1 := by
  rw [expand, Action.outcome_bind, Action.outcome_note]
  simp only [hlex]
  rw [Action.outcome_bind, Action.outcome_note]
  exact outcome_expandTokens_fst

/-- What is wrong with the limits is found behind the lexer and before the callee. -/
theorem outcome_expand_of_limits (hlex : lex file source = .ok ts) :
    ((expand registry (.error f) callee file source returnsTo).outcome w).1 = .error f := by
  rw [expand, Action.outcome_bind, Action.outcome_note]
  simp only [hlex]
  rfl

/-- Where it is not, the error of the lexer is reported, whatever the limits and the callee. -/
theorem outcome_expand_of_error {limits : Except Failure Limits} {err : LexError}
    (hlex : lex file source = .error err) :
    ((expand registry limits callee file source returnsTo).outcome w).1 =
      .ok (.failed ((Reporter.ofSources [(file, source)]).report err.diagnostic)) := by
  rw [expand, Action.outcome_bind, Action.outcome_note]
  simp only [hlex]
  rfl

end Expander
