import Expander.Proofs.Grammar.Acceptance

/-!
# Linear bounds

How many steps a call takes, and how deep they are, is bounded by the tokens ahead of it. A single
step is affordable (`affords_of_advances`), and so a whole reading is, in steps (`Reads.length_le`)
and in depth (`Reads.depth_le`). A token weighs two at most, which gives limits that are linear in
the number of tokens and that no run of an entry reaches (`linear_limits_suffice`).
-/

set_option autoImplicit false

namespace Expander

open Token

/-! ### Numbers of tokens -/

mutual

/-- How many tokens a token is: itself and those inside it. -/
def Token.count : Token → Nat
  | leaf .. => 1
  | group _ _ stream => Token.countAll stream + 1
  | hollow .. => 1

def Token.countAll : List Token → Nat
  | [] => 0
  | t :: ts => t.count + Token.countAll ts

end

mutual

/-- A token weighs two at most for each token that it is made of. -/
theorem weight_le_count : (t : Token) → t.weight ≤ 2 * t.count
  | .leaf kind text span => by
    rw [Token.weight, Token.count]
    split <;> omega
  | .group d span stream => by
    have hstream := weightAll_le_countAll stream
    rw [Token.weight, Token.count]
    omega
  | .hollow d span => by
    rw [Token.weight, Token.count]
    omega

theorem weightAll_le_countAll : (ts : List Token) → weightAll ts ≤ 2 * countAll ts
  | [] => by simp
  | t :: ts => by
    have hhead := weight_le_count t
    have htail := weightAll_le_countAll ts
    rw [weightAll_cons, Token.countAll]
    omega

end

namespace Grammar

/-- The weight of what is left. Behind a fault nothing is. -/
def Parsed.left : Parsed → Nat
  | .ok (_, rest) => weightAll rest
  | .error _ => 0

variable {c : Call}

/-! ### Readings -/

/-- The step of a call, if it takes one of its own. -/
theorem length_own_le (c : Call) : (if c.waiting.isEmpty then [0] else []).length ≤ 1 := by
  split <;> decide

theorem eq_zero_of_mem_own {d : Nat} (h : d ∈ if c.waiting.isEmpty then [0] else []) : d = 0 := by
  split at h
  · exact List.mem_singleton.mp h
  · cases h

/-- The steps of a reading and what is left behind it are within the cost of the call. By induction
on the reading, where each step is paid for by `affords_of_advances`. -/
theorem Reads.length_le {ds : List Nat} {r : Parsed} (h : Reads c ds r) :
    ds.length + 8 * r.left ≤ c.cost := by
  induction h with
  | fault h => exact Call.cost_pos _
  | done h =>
    have haffords : 8 * weightAll _ < _ := affords_of_advances h
    rw [List.length_singleton, Parsed.left]
    omega
  | go h _ ih =>
    have haffords := (affords_of_advances h).1
    rw [List.length_cons]
    omega
  | @part c c' next _ _ first rest r h hpart _ ihpart ihnext =>
    -- What the part leaves, which its own tokens did not pay for, pays for what comes next.
    have haffords := (affords_of_advances h first rest hpart.weightAll_rest_le).1
    rw [Parsed.left] at ihpart
    rw [List.length_append, List.length_append, List.length_map]
    have hown := length_own_le c
    omega
  | @lost c c' next _ _ h _ ihpart =>
    have haffords := (affords_of_advances h [] [] (Nat.zero_le _)).1
    have hown := length_own_le c
    rw [Parsed.left] at ihpart ⊢
    rw [weightAll_nil] at haffords
    rw [List.length_append, List.length_map]
    omega

/-- The depths of a reading are within the height of the call. -/
theorem Reads.depth_le {ds : List Nat} {r : Parsed} (h : Reads c ds r) : ∀ d ∈ ds, d ≤ c.height := by
  induction h with
  | fault h => simp
  | done h => simp
  | go h _ ih =>
    have haffords := (affords_of_advances h).2
    simp only [List.mem_cons, forall_eq_or_imp]
    exact ⟨Nat.zero_le _, fun d hd ↦ Nat.le_trans (ih d hd) haffords⟩
  | @part c c' next _ _ first rest r h hpart _ ihpart ihnext =>
    obtain ⟨-, hlower, hbehind⟩ := affords_of_advances h first rest hpart.weightAll_rest_le
    simp only [List.mem_append, List.mem_map]
    rintro d (hd | ⟨d', hd', rfl⟩ | hd)
    · exact (eq_zero_of_mem_own hd).symm ▸ Nat.zero_le _
    · exact Nat.le_trans (Nat.succ_le_succ (ihpart d' hd')) hlower
    · exact Nat.le_trans (ihnext d hd) hbehind
  | @lost c c' next _ _ h _ ihpart =>
    have hlower := (affords_of_advances h [] [] (Nat.zero_le _)).2.1
    simp only [List.mem_append, List.mem_map]
    rintro d (hd | ⟨d', hd', rfl⟩)
    · exact (eq_zero_of_mem_own hd).symm ▸ Nat.zero_le _
    · exact Nat.le_trans (Nat.succ_le_succ (ihpart d' hd')) hlower

end Grammar

/-! ### Runs -/

open Grammar Machine

variable {σ : Type} {ts : List Token} {e : Entry} {ds : List Nat} {r : Parsed} {limits : Limits}

/-- The steps of a run of an entry fit in limits that are linear in the number of tokens. -/
theorem fits_runDepths (h : Reads (e.call ts) ds r)
    (hrecursion : 8 * ((countAll ts : Int) + 1) ≤ limits.recursion)
    (hsteps : 16 * ((countAll ts : Int) + 1) ≤ limits.steps) :
    Fits limits limits.steps.toNat 0 (runDepths ds r) := by
  have hahead : (e.call ts).ahead = ts := by cases e <;> rfl
  have hspare : (e.call ts).spare ≤ 3 := by cases e <;> simp [Entry.call]
  have hlift : (e.call ts).lift ≤ 1 := by cases e <;> simp [Entry.call]
  have hweight := weightAll_le_countAll ts
  have hlength : ds.length ≤ 16 * countAll ts + 3 := by
    have hcost := h.length_le
    rw [Call.cost, hahead] at hcost
    omega
  have hdepth : ∀ d ∈ ds, d ≤ 8 * countAll ts + 1 := by
    intro d hd
    have hheight := h.depth_le d hd
    rw [Call.height, hahead] at hheight
    omega
  refine ⟨?_, fun d hd ↦ ?_⟩
  · have hone : (runDepths ds r).length ≤ ds.length + 1 := by cases r <;> simp [runDepths]
    omega
  · have hmem : d ∈ ds.map (· + 1) ++ [0] := by
      cases r with
      | error f => exact List.mem_append_left [0] hd
      | ok parsed => exact hd
    rcases List.mem_append.mp hmem with hmap | hlast
    · obtain ⟨d', hd', rfl⟩ := List.mem_map.mp hmap
      have hle := hdepth d' hd'
      omega
    · rw [List.mem_singleton.mp hlast]
      omega

/-- A run of an entry on `n` tokens, of which some may be inside others, takes no more than
`16 * (n + 1)` steps and is no deeper than `8 * (n + 1)`: with limits that high it ends with a value
or with a fault. -/
theorem linear_limits_suffice {file source : String} (hlex : lex file source = .ok ts)
    (more : List (Callee × Handler σ)) (e : Entry) {returnsTo : Destination} {last : Callee}
    (hleads : returnsTo.LeadsTo (Registry.standardAnd more) last)
    {final : List Argument → Except Failure Value}
    (hfinishes : Finishes (Registry.standardAnd more) last final)
    (hrecursion : 8 * ((countAll ts : Int) + 1) ≤ limits.recursion)
    (hsteps : 16 * ((countAll ts : Int) + 1) ≤ limits.steps) (w : World σ) :
    (∃ value, value.IsFinal ∧ e.result more limits ts returnsTo w = .ok value) ∨
      ∃ f, e.result more limits ts returnsTo w = .error (.fault f) := by
  obtain ⟨ds, r, hreads⟩ := exists_reads_of_lex hlex e
  have hresult : e.result more limits ts returnsTo w = (e.call ts).returned r >>= final :=
    (runCall_entry hreads hleads hfinishes limits w).1 (fits_runDepths hreads hrecursion hsteps)
  rw [hresult]
  cases r with
  | error f => exact .inr ⟨f, rfl⟩
  | ok parsed =>
    rw [returned_entry]
    rcases hfinishes.final_outputs e parsed.1 parsed.2 with ⟨v, hv, hfinal⟩ | ⟨f, hf⟩
    · exact .inl ⟨v, hfinal, hv⟩
    · exact .inr ⟨f, hf⟩

/-- The type of functions on pairs, of which five tokens are in a group. -/
def pairFunction : List Token := (lex "<input>" "fn(&A, B) -> C<D>").toOption.getD []

/-- Eleven tokens are read on 96 levels and in 192 steps. -/
theorem linear_limits_suffice_pairFunction : lex "<input>" "fn(&A, B) -> C<D>" = .ok pairFunction ∧
    countAll pairFunction = 11 ∧
    ((∃ value, value.IsFinal ∧ Entry.type.result (σ := Unit) [] ⟨96, 192⟩ pairFunction .identity
      (.initial ()) = .ok value) ∨
    ∃ f, Entry.type.result (σ := Unit) [] ⟨96, 192⟩ pairFunction .identity (.initial ()) =
      .error (.fault f)) := by
  have hlex : lex "<input>" "fn(&A, B) -> C<D>" = .ok pairFunction := rfl
  have hcount : countAll pairFunction = 11 := by decide +kernel
  refine ⟨hlex, hcount, ?_⟩
  exact linear_limits_suffice hlex [] .type .identity .identity (by rw [hcount]; decide)
    (by rw [hcount]; decide) (.initial ())

end Expander
