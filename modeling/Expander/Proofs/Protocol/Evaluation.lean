import Mathlib.Data.List.Nodup
import Expander.Protocol.Rule

/-!
# Evaluation of rules

A rule does not see its callers, so what a callee of a rule comes to can be said without them: it
gives back outputs or fails, after some steps, each at a depth of its own below the call
(`Evaluates`). A move that calls is evaluated by evaluating the callee and then the resumptions that
wait for it, one after another. An evaluation has no names that collide, so every check of names is
passed on its way: what the checks come to then is said here too, for calls, tail calls and returns.
-/

set_option autoImplicit false

namespace Expander

/-- The outputs that are given back in the end, or the failure. -/
abbrev Returned := Except Failure (List Argument)

/-- What is to be evaluated: a callee on its arguments, or resumptions that wait for a return. -/
inductive Task
  | run (callee : Callee) (args : List Argument)
  | resume (waiting : List Resumption) (returned : Returned)

/-- What a task comes to, where `serves` says by which rule a callee goes. The numbers are the
depths of its steps, in order, counted from the chain that the task answers to. -/
inductive Evaluates (serves : Callee → Rule → Prop) : Task → List Nat → Returned → Prop
  | fails {c : Callee} {rule : Rule} {args : List Argument} {f : Failure} (hc : serves c rule)
      (h : rule args = .error f) : Evaluates serves (.run c args) [0] (.error f)
  | gives {c : Callee} {rule : Rule} {args outs : List Argument} (hc : serves c rule)
      (h : rule args = .ok (.giveBack outs)) : Evaluates serves (.run c args) [0] (.ok outs)
  | tails {c target : Callee} {rule : Rule} {args targs : List Argument} {ds : List Nat}
      {r : Returned} (hc : serves c rule) (h : rule args = .ok (.tail target targs))
      (hnames : (shape targs).Nodup) (hrest : Evaluates serves (.run target targs) ds r) :
      Evaluates serves (.run c args) (0 :: ds) r
  | calls {c target : Callee} {rule : Rule} {args targs : List Argument} {near : Resumption}
      {outer : List Resumption} {ds ds' : List Nat} {r r' : Returned} (hc : serves c rule)
      (h : rule args = .ok (.call target targs near outer)) (hnames : (shape targs).Nodup)
      (hfree : ∀ names, target.outputs = some names → ∀ n ∈ shape near.state, n ∉ names)
      (hcall : Evaluates serves (.run target targs) ds r)
      (hrest : Evaluates serves (.resume (near :: outer) r) ds' r') :
      Evaluates serves (.run c args) (0 :: (ds.map (· + (outer.length + 1)) ++ ds')) r'
  | lost {waiting : List Resumption} {f : Failure} :
      Evaluates serves (.resume waiting (.error f)) [] (.error f)
  | done {outs : List Argument} : Evaluates serves (.resume [] (.ok outs)) [] (.ok outs)
  | resumes {near : Resumption} {outer : List Resumption} {outs : List Argument}
      {ds ds' : List Nat} {r r' : Returned} (hnames : (shape (near.state ++ outs)).Nodup)
      (hrun : Evaluates serves (.run near.callee (near.state ++ outs)) ds r)
      (hrest : Evaluates serves (.resume outer r) ds' r') :
      Evaluates serves (.resume (near :: outer) (.ok outs)) (ds.map (· + outer.length) ++ ds') r'

/-! ### Resumptions -/

section

variable {serves : Callee → Rule → Prop} {waiting : List Resumption} {near : Resumption}
  {ds ds' : List Nat} {r r₁ r₂ : Returned}

/-- With nothing waiting, what was given back is the result, and no step is taken. -/
theorem evaluates_resume_nil_iff : Evaluates serves (.resume [] r₁) ds r ↔ ds = [] ∧ r = r₁ := by
  constructor
  · intro h
    cases h <;> exact ⟨rfl, rfl⟩
  · rintro ⟨rfl, rfl⟩
    cases r with
    | error f => exact .lost
    | ok outs => exact .done

/-- A failure goes past all that waits. -/
theorem evaluates_resume_error_iff {f : Failure} :
    Evaluates serves (.resume waiting (.error f)) ds r ↔ ds = [] ∧ r = .error f := by
  constructor
  · intro h
    cases h
    exact ⟨rfl, rfl⟩
  · rintro ⟨rfl, rfl⟩
    exact .lost

/-- One resumption is given its state and the outputs, and runs on those. -/
theorem evaluates_resume_singleton {outs : List Argument}
    (hnames : (shape (near.state ++ outs)).Nodup)
    (h : Evaluates serves (.run near.callee (near.state ++ outs)) ds r) :
    Evaluates serves (.resume [near] (.ok outs)) ds r := by
  have hresumes := Evaluates.resumes hnames h (evaluates_resume_nil_iff.mpr ⟨rfl, rfl⟩)
  simpa using hresumes

/-- What waits behind other resumptions is resumed last. -/
theorem Evaluates.concat (h : Evaluates serves (.resume waiting r) ds r₁)
    (hlast : Evaluates serves (.resume [near] r₁) ds' r₂) :
    Evaluates serves (.resume (waiting ++ [near]) r) (ds.map (· + 1) ++ ds') r₂ := by
  induction waiting generalizing r ds with
  | nil =>
    obtain ⟨rfl, rfl⟩ := evaluates_resume_nil_iff.mp h
    exact hlast
  | cons first waiting ih =>
    cases h with
    | lost =>
      obtain ⟨rfl, rfl⟩ := evaluates_resume_error_iff.mp hlast
      exact .lost
    | @resumes _ _ outs ds₁ ds₂ _ _ hnames hrun hrest =>
      have hall := Evaluates.resumes hnames hrun (ih hrest)
      rw [List.length_append, List.length_singleton] at hall
      simpa [Function.comp_def, Nat.add_assoc] using hall

end

/-! ### Names -/

/-- No name is there twice if the names are all different, and different from those seen before. -/
theorem repeatedName?_eq_none {seen : List String} {args : List Argument} :
    repeatedName? seen args = none ↔ (shape args).Nodup ∧ ∀ n ∈ shape args, n ∉ seen := by
  induction args generalizing seen with
  | nil => simp [repeatedName?, shape]
  | cons a args ih =>
    rw [repeatedName?]
    by_cases h : a.name ∈ seen
    · rw [if_pos (by simpa using h)]
      simp [shape, h]
    · rw [if_neg (by simpa using h), ih]
      simp only [shape, List.map_cons, List.nodup_cons, List.mem_cons, not_or, forall_eq_or_imp]
      constructor
      · rintro ⟨hnodup, hall⟩
        exact ⟨⟨fun hmem ↦ (hall _ hmem).1 rfl, hnodup⟩, h, fun n hn ↦ (hall n hn).2⟩
      · rintro ⟨⟨hnotMem, hnodup⟩, -, hall⟩
        exact ⟨hnodup, fun n hn ↦ ⟨fun heq ↦ hnotMem (heq ▸ hn), hall n hn⟩⟩

/-- Arguments of different names are accepted. -/
theorem distinct_of_nodup {args : List Argument} (h : (shape args).Nodup) :
    distinct args = .ok args := by
  rw [distinct, repeatedName?_eq_none.mpr ⟨h, by simp⟩]

/-- So are outputs that share no name with the state they are to join. -/
theorem checkDisjoint_of_disjoint {state : List Argument} {outputs : List String}
    {blamed : String} (h : ∀ n ∈ shape state, n ∉ outputs) :
    checkDisjoint state outputs blamed = .ok () := by
  have hnone : (shape state).filter outputs.contains = [] := by
    simpa [List.filter_eq_nil_iff] using h
  rw [checkDisjoint, hnone]

/-- The step that resumes a frame for the callers behind it. -/
def Frame.resumed (f : Frame) (outer : Chain) (outs : List Argument) : Invocation :=
  ⟨f.callee, outer, f.state ++ outs, some f⟩

/-- A return with names that do not collide resumes the nearest frame. -/
theorem returnTo_cons {f : Frame} {outer : Chain} {outs : List Argument}
    (h : (shape (f.state ++ outs)).Nodup) :
    returnTo (f :: outer) (.ok outs) = .ok (.pending (f.resumed outer outs)) := by
  have hsplit := h
  rw [shape, List.map_append, List.nodup_append] at hsplit
  have houts : distinct outs = .ok outs := distinct_of_nodup hsplit.2.1
  have hfree : checkDisjoint f.state (shape outs) f.callee.name = .ok () :=
    checkDisjoint_of_disjoint fun n hn hmem ↦ hsplit.2.2 n hn n hmem rfl
  have hall : distinct (f.state ++ outs) = .ok (f.state ++ outs) := distinct_of_nodup h
  simp only [returnTo, houts, hfree, hall, bind, Except.bind, pure, Except.pure, Frame.resumed]

/-- A call that hands the callers on is made, if its arguments have different names. -/
theorem tailCall_of_nodup {target : Callee} {caller : Chain} {args : List Argument}
    (h : (shape args).Nodup) :
    tailCall target caller (.ok args) = .ok (.pending ⟨target, caller, args, none⟩) := by
  simp only [tailCall, distinct_of_nodup h, bind, Except.bind, pure, Except.pure]

/-- A call for a frame is made, if the state of the frame shares no name with what the callee
declares. -/
theorem callFor_cons {target : Callee} {f : Frame} {outer : Chain} {args : List Argument}
    (h : (shape args).Nodup)
    (hfree : ∀ names, target.outputs = some names → ∀ n ∈ shape f.state, n ∉ names) :
    callFor target (f :: outer) (.ok args) = .ok (.pending ⟨target, f :: outer, args, none⟩) := by
  cases houts : target.outputs with
  | none =>
    simp only [callFor, houts, distinct_of_nodup h, bind, Except.bind, pure, Except.pure]
  | some names =>
    simp only [callFor, houts, checkDisjoint_of_disjoint (hfree names houts),
      distinct_of_nodup h, bind, Except.bind, pure, Except.pure]

end Expander
