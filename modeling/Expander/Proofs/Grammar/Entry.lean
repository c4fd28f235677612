import Expander.Expansion
import Expander.Proofs.Grammar.Rules
import Expander.Proofs.Grammar.Totality
import Expander.Proofs.Protocol.RuleRun

/-!
# Runs of the entries

Two nonterminals are meant to be called from outside. A call of one of them on tokens, in a registry
that has the standard callees, ends as the tokens are read (`runCall_entry`): if the limits let it,
with what the destination makes of the outputs, or with the fault; else with a limit. On tokens
that the lexer made there is always something that is read (`exists_reads_of_lex`).
-/

set_option autoImplicit false

namespace Expander

open Grammar Machine

variable {σ : Type}

/-! ### The standard callees -/

section

variable {α : Type} {entries more : List (Callee × α)} {entry : Callee × α}

/-- What is registered under a name of its own is found, whatever is registered behind it. -/
theorem Registry.find?_of_mem (hnames : (entries.map (·.1.name)).Nodup) (h : entry ∈ entries) :
    (⟨entries ++ more⟩ : Registry α).find? entry.1.name = some entry := by
  rw [Registry.find?]
  induction entries with
  | nil => cases h
  | cons first entries ih =>
    rw [List.map_cons, List.nodup_cons] at hnames
    rcases List.mem_cons.mp h with rfl | hmem
    · rw [List.cons_append, List.find?_cons_of_pos (by simp)]
    · have hne : first.1.name ≠ entry.1.name := by
        intro heq
        exact hnames.1 (heq ▸ List.mem_map.mpr ⟨entry, hmem, rfl⟩)
      rw [List.cons_append, List.find?_cons_of_neg (by simpa using hne)]
      exact ih hnames.2 hmem

end

section

variable {more : List (Callee × Handler σ)}

/-- No two standard callees have one name. -/
theorem nodup_names_standardCallees :
    ((standardCallees (σ := σ)).map (·.1.name)).Nodup := by
  have hnames : (standardCallees (σ := σ)).map (·.1.name) =
      [identityReturn, branchReturn, Destinations.debugReturn].map Callee.name ++
        (Predicate.all.map (·.callee.name) ++ Nonterminal.all.map Nonterminal.name) := rfl
  rw [hnames]
  decide

/-- A standard callee is found by its name, whatever is added behind. -/
theorem find?_standardAnd {entry : Callee × Handler σ} (h : entry ∈ standardCallees) :
    (Registry.standardAnd more).find? entry.1.name = some entry :=
  Registry.find?_of_mem nodup_names_standardCallees h

/-- A standard callee is handled as it is entered, whatever is added. -/
theorem handler_of_mem_standardCallees {entry : Callee × Handler σ}
    (h : entry ∈ standardCallees) : (Registry.standardAnd more).handler entry.1 = entry.2 := by
  rw [Registry.handler, Registry.lookupD, find?_standardAnd h]
  rfl

theorem mem_standardCallees (n : Nonterminal) :
    (n.callee, n.rule.handler) ∈ standardCallees (σ := σ) := by
  have hall : n ∈ Nonterminal.all := by cases n <;> decide
  exact List.mem_append_right _ (List.mem_map.mpr ⟨n, hall, rfl⟩)

/-- A callee that a rule serves is handled by that rule. -/
theorem handler_of_serves {c : Callee} {rule : Rule} (h : Serves c rule) :
    (Registry.standardAnd more).handler c = rule.handler := by
  obtain ⟨n, rfl, rfl⟩ := h
  exact handler_of_mem_standardCallees (mem_standardCallees n)

/-- The name of a nonterminal stands for it. -/
theorem resolveName_nonterminal (n : Nonterminal) :
    (Registry.standardAnd more).resolveName n.name = .ok n.callee := by
  have hfind : (Registry.standardAnd more).find? n.name = some (n.callee, n.rule.handler) :=
    find?_standardAnd (mem_standardCallees n)
  rw [Registry.resolveName, hfind]

end

/-! ### Entries -/

/-- The nonterminals that are called from outside. -/
inductive Entry
  | path
  | type
deriving DecidableEq, Repr

namespace Entry

def nonterminal : Entry → Nonterminal
  | path => .path
  | type => .type

def name (e : Entry) : String := e.nonterminal.name

/-- The name of the first output. -/
def output : Entry → String
  | path => "path"
  | type => "type"

def call (ts : List Token) : Entry → Call
  | path => .path ts
  | type => .type ts

end Entry

/-- What an entry gives back and leaves, under their names. -/
def Entry.outputs (e : Entry) (first rest : List Token) : List Argument :=
  [.ofTokens e.output first, .ofTokens "rest" rest]

/-- What an entry gives back are its outputs, with its own names. -/
theorem returned_entry (e : Entry) (ts first rest : List Token) :
    (e.call ts).returned (.ok (first, rest)) = .ok (e.outputs first rest) := by
  cases e <;> rfl

/-- On tokens that the lexer made, an entry comes to a result or to a fault. -/
theorem exists_reads_of_lex {file source : String} {ts : List Token}
    (hlex : lex file source = .ok ts) (e : Entry) : ∃ ds r, Reads (e.call ts) ds r := by
  refine exists_reads ?_
  cases e with
  | path => exact sound_of_input (regular_of_lex hlex) rfl trivial
  | type => exact sound_of_input (regular_of_lex hlex) rfl trivial

/-! ### Destinations -/

/-- A destination that is a frame of one callee, without state. -/
inductive Destination.LeadsTo {α : Type} (registry : Registry α) : Destination → Callee → Prop
  | identity : LeadsTo registry .identity identityReturn
  | callee {ref : CalleeRef} {c : Callee} (h : registry.resolve ref = .ok c) :
      LeadsTo registry (.callee ref) c

theorem Destination.LeadsTo.open_eq {α : Type} {registry : Registry α} {returnsTo : Destination}
    {last : Callee} (h : returnsTo.LeadsTo registry last) :
    returnsTo.open registry = (do return [← Action.frame last []] : Action σ Chain) := by
  cases h with
  | identity => rfl
  | callee h =>
    rw [Destination.open, h]
    rfl

/-- What the callee of a destination makes of outputs. -/
inductive Finishes (registry : Registry (Handler σ)) :
    Callee → (List Argument → Except Failure Value) → Prop
  | identity : Finishes registry identityReturn Destinations.identity
  | debug : Finishes registry Destinations.debugReturn
      fun outs ↦ .ok (.text (String.intercalate "\n" (outs.map Argument.text)))
  | capture {c : Callee} (h : registry.handler c = Destinations.capture) :
      Finishes registry c fun outs ↦ .ok (.outputs outs)

section

variable {more : List (Callee × Handler σ)} {last : Callee}
  {final : List Argument → Except Failure Value}

/-- Notes that are made one after the other do not fail. -/
theorem outcome_forM_note {α : Type} (events : α → Event) (as : List α) (w : World σ) :
    ∃ w', (as.forM fun a ↦ (Action.note (events a) : Action σ Unit)).outcome w = (.ok (), w') := by
  induction as generalizing w with
  | nil => exact ⟨w, rfl⟩
  | cons a as ih =>
    rw [List.forM_eq_forM, List.forM_cons, Action.outcome_bind]
    exact ih _

/-- The destination that shows its outputs ends with the text of them all. -/
theorem outcome_debug (caller : Chain) (outs : List Argument) (w : World σ) :
    ((Destinations.debug caller outs : Action σ Value).outcome w).1 =
      .ok (.text (String.intercalate "\n" (outs.map Argument.text))) := by
  obtain ⟨w', hnotes⟩ := outcome_forM_note Event.shown (outs.map Argument.text) w
  unfold Destinations.debug
  rw [Action.outcome_bind, hnotes]
  rfl

/-- What is done with the outputs at the end is what the last callee does. -/
theorem Finishes.outcome (h : Finishes (Registry.standardAnd more) last final)
    (outs : List Argument) (w : World σ) :
    (((Registry.standardAnd more).handler last [] outs).outcome w).1 = final outs := by
  cases h with
  | identity =>
    have hmem : (⟨identityReturn, fun _ args ↦ liftM (Destinations.identity args)⟩ :
        Callee × Handler σ) ∈ standardCallees := List.mem_cons_self
    rw [handler_of_mem_standardCallees hmem, Action.outcome_lift]
  | debug =>
    have hmem : (⟨Destinations.debugReturn, Destinations.debug⟩ : Callee × Handler σ) ∈
        standardCallees := List.mem_cons_of_mem _ (List.mem_cons_of_mem _ List.mem_cons_self)
    rw [handler_of_mem_standardCallees hmem, outcome_debug]
  | capture hcapture =>
    rw [hcapture]
    rfl

/-- A result and a rest are finished with a value that is no step, or with a fault. -/
theorem Finishes.final_given {registry : Registry (Handler σ)} (h : Finishes registry last final)
    (name : String) (first rest : List Token) :
    (∃ value, final (given [name, "rest"] first rest) = .ok value ∧ value.IsFinal) ∨
      ∃ f, final (given [name, "rest"] first rest) = .error (.fault f) := by
  cases h with
  | identity =>
    cases rest with
    | nil => exact .inl ⟨.tokens first, rfl, nofun⟩
    | cons t rest => exact .inr ⟨.unexpected t, rfl⟩
  | debug => exact .inl ⟨_, rfl, nofun⟩
  | capture => exact .inl ⟨_, rfl, nofun⟩

/-- The outputs of an entry are finished with a value that is no step, or with a fault. -/
theorem Finishes.final_outputs {registry : Registry (Handler σ)} (h : Finishes registry last final)
    (e : Entry) (first rest : List Token) :
    (∃ value, final (e.outputs first rest) = .ok value ∧ value.IsFinal) ∨
      ∃ f, final (e.outputs first rest) = .error (.fault f) :=
  h.final_given e.output first rest

/-- Where nothing is left, every destination finishes with a value. -/
theorem Finishes.exists_value {registry : Registry (Handler σ)} (h : Finishes registry last final)
    (e : Entry) (first : List Token) : ∃ value, final (e.outputs first []) = .ok value := by
  cases h with
  | identity => exact ⟨.tokens first, rfl⟩
  | debug => exact ⟨_, rfl⟩
  | capture => exact ⟨_, rfl⟩

end

/-! ### Runs -/

section

variable {more : List (Callee × Handler σ)} {e : Entry} {ts : List Token} {ds : List Nat}
  {r : Parsed} {returnsTo : Destination} {last : Callee}
  {final : List Argument → Except Failure Value}

/-- The depths of the steps of a run of an entry. -/
def runDepths (ds : List Nat) : Parsed → List Nat
  | .error _ => ds.map (· + 1)
  | .ok _ => ds.map (· + 1) ++ [0]

/-- A call of a nonterminal on one sequence, of which it gives back a result and a rest, makes a
step, and the run of that step without limits goes as the nonterminal evaluates, to its end with the
fault or with what the destination makes of the outputs. -/
theorem evaluated_goes {c : Call} (hargs : c.args = [.ofTokens "input" ts])
    (hwaiting : c.waiting = []) {name : String} (houtputs : c.outputs = [name, "rest"])
    (hname : name ≠ "rest") (h : c.Evaluated ds r)
    (hleads : returnsTo.LeadsTo (Registry.standardAnd more) last)
    (hfinishes : Finishes (Registry.standardAnd more) last final) (w : World σ) :
    ∃ step w₁ w', (call (Registry.standardAnd more) (.name c.owner.name)
        (.ok [.ofTokens "input" ts]) returnsTo).outcome w = (.ok step, w₁) ∧
      (Stage.start w₁ step).Goes (Registry.standardAnd more).handler 0 (runDepths ds r)
        (.ended (c.returned r >>= final, w')) := by
  have hevaluates : Evaluates Serves (.run c.owner.callee [.ofTokens "input" ts]) ds
      (c.returned r) := hargs ▸ (evaluated_iff hwaiting).mp h
  have hdepths : deliveryDepths ds (c.returned r) = runDepths ds r := by
    cases r <;> rfl
  have houts : ∀ outs, c.returned r = .ok outs → ∃ first rest,
      outs = given [name, "rest"] first rest := by
    intro outs hreturned
    cases r with
    | error f => cases hreturned
    | ok parsed =>
      rw [Call.returned, houtputs, Except.ok.injEq] at hreturned
      exact ⟨_, _, hreturned.symm⟩
  rw [← hdepths]
  refine call_goes (fun _ _ ↦ handler_of_serves) (resolveName_nonterminal _) hleads.open_eq
    hevaluates ?_ (fun outs _ w ↦ hfinishes.outcome outs w) ?_ w
  · intro outs hreturned
    obtain ⟨first, rest, rfl⟩ := houts outs hreturned
    have hshape : shape (given [name, "rest"] first rest) = [name, "rest"] := rfl
    rw [hshape]
    simpa using hname
  · intro outs value hreturned hvalue
    obtain ⟨first, rest, rfl⟩ := houts outs hreturned
    rcases hfinishes.final_given name first rest with ⟨v, hv, hfinal⟩ | ⟨f, hf⟩
    · rw [hvalue, Except.ok.injEq] at hv
      exact hv ▸ hfinal
    · rw [hvalue] at hf
      cases hf

/-- A run of a nonterminal that is called on one sequence, and gives back a result and a rest, ends
as the nonterminal evaluates. -/
theorem runCall_evaluated {c : Call} (hargs : c.args = [.ofTokens "input" ts])
    (hwaiting : c.waiting = []) {name : String} (houtputs : c.outputs = [name, "rest"])
    (hname : name ≠ "rest") (h : c.Evaluated ds r)
    (hleads : returnsTo.LeadsTo (Registry.standardAnd more) last)
    (hfinishes : Finishes (Registry.standardAnd more) last final) (limits : Limits)
    (w : World σ) :
    (Fits limits limits.steps.toNat 0 (runDepths ds r) →
      ((runCall (Registry.standardAnd more) limits c.owner.name ts returnsTo).outcome w).1 =
        c.returned r >>= final) ∧
    (¬ Fits limits limits.steps.toNat 0 (runDepths ds r) → ∃ f,
      Exceeds limits limits.steps.toNat 0 (runDepths ds r) f ∧
        ((runCall (Registry.standardAnd more) limits c.owner.name ts returnsTo).outcome w).1 =
          .error f) := by
  obtain ⟨step, w₁, w', hcall, hgoes⟩ :=
    evaluated_goes hargs hwaiting houtputs hname h hleads hfinishes w
  exact runCall_of_goes hcall hgoes limits

/-- A run of an entry ends as its nonterminal evaluates. -/
theorem runCall_entry_of_evaluated (h : (e.call ts).Evaluated ds r)
    (hleads : returnsTo.LeadsTo (Registry.standardAnd more) last)
    (hfinishes : Finishes (Registry.standardAnd more) last final) (limits : Limits)
    (w : World σ) :
    (Fits limits limits.steps.toNat 0 (runDepths ds r) →
      ((runCall (Registry.standardAnd more) limits e.name ts returnsTo).outcome w).1 =
        (e.call ts).returned r >>= final) ∧
    (¬ Fits limits limits.steps.toNat 0 (runDepths ds r) → ∃ f,
      Exceeds limits limits.steps.toNat 0 (runDepths ds r) f ∧
        ((runCall (Registry.standardAnd more) limits e.name ts returnsTo).outcome w).1 =
          .error f) := by
  cases e with
  | path => exact runCall_evaluated rfl rfl rfl (by decide) h hleads hfinishes limits w
  | type => exact runCall_evaluated rfl rfl rfl (by decide) h hleads hfinishes limits w

/-- A run of an entry ends as its tokens are read. -/
theorem runCall_entry (h : Reads (e.call ts) ds r)
    (hleads : returnsTo.LeadsTo (Registry.standardAnd more) last)
    (hfinishes : Finishes (Registry.standardAnd more) last final) (limits : Limits)
    (w : World σ) :
    (Fits limits limits.steps.toNat 0 (runDepths ds r) →
      ((runCall (Registry.standardAnd more) limits e.name ts returnsTo).outcome w).1 =
        (e.call ts).returned r >>= final) ∧
    (¬ Fits limits limits.steps.toNat 0 (runDepths ds r) → ∃ f,
      Exceeds limits limits.steps.toNat 0 (runDepths ds r) f ∧
        ((runCall (Registry.standardAnd more) limits e.name ts returnsTo).outcome w).1 =
          .error f) :=
  runCall_entry_of_evaluated h.evaluated hleads hfinishes limits w

end

end Expander
