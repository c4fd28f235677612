import Expander.Proofs.Grammar.Completeness
import Expander.Proofs.Grammar.Entry
import Expander.Proofs.Grammar.Soundness

/-!
# What is accepted is the language

An entry accepts its tokens when nothing of them is left. It does so for the sequences of its symbol
and for no others, where joined tokens count as the two that they stand for, and where `mut` behind
an ampersand marks the reference and begins no path (`accepts_iff_derives`). A grammar in which the
word may begin a path there has a sequence that is not accepted (`reference_mark_alone`).

No limit takes part in this as long as it is not reached, and for any tokens there are limits that
are not.
-/

set_option autoImplicit false

namespace Expander

open Grammar Machine Token

variable {σ : Type} {more : List (Callee × Handler σ)} {file source : String} {ts : List Token}

/-! ### Readings -/

/-- The symbol of which an entry reads a sequence. -/
def Entry.symbol : Entry → Symbol
  | path => .path
  | type => .type

/-- What an entry gives back is a sequence of its symbol. -/
theorem derives_of_reads (hlex : lex file source = .ok ts) {e : Entry} {ds : List Nat}
    {first rest : List Token} (h : Reads (e.call ts) ds (.ok (first, rest))) :
    Derives False e.symbol (unfuse first) := by
  cases e with
  | path =>
    have hsound : (Call.path ts).Sound := sound_of_input (regular_of_lex hlex) rfl trivial
    exact h.means hsound rfl (by rw [Entry.call, Call.before, unfuse_nil, List.nil_append])
  | type =>
    have hsound : (Call.type ts).Sound := sound_of_input (regular_of_lex hlex) rfl trivial
    exact h.means hsound rfl (by rw [Entry.call, Call.before, unfuse_nil, List.nil_append])

/-- What is read of tokens of which nothing is left is all of them. -/
theorem unfuse_of_reads {e : Entry} {ds : List Nat} {first : List Token}
    (h : Reads (e.call ts) ds (.ok (first, []))) : unfuse ts = unfuse first := by
  have hlooks : ¬ (e.call ts).Looks := by cases e <;> exact id
  have hbefore : (e.call ts).before = [] := by cases e <;> rfl
  have hahead : (e.call ts).ahead = ts := by cases e <;> rfl
  obtain ⟨taken, hfirst, htakes, -⟩ := h.conserves hlooks rfl
  rw [hbefore, List.nil_append] at hfirst
  rw [hahead] at htakes
  rw [hfirst, htakes.unfuse_eq, unfuse_nil, List.append_nil]

/-- A sequence of its symbol is read by an entry to the end. -/
theorem reads_of_derives (hts : RegularAll ts) {e : Entry}
    (h : Derives False e.symbol (unfuse ts)) :
    ∃ ds first, Reads (e.call ts) ds (.ok (first, [])) := by
  have hfollows : Follows ts (unfuse ts) [] [] :=
    .of_no_plus hts (List.append_nil _).symm bare_nil rfl
  have hreaches : Reaches (e.call ts) [] [] := by
    cases e with
    | path => exact h.completes ts [] [] hfollows
    | type => exact h.completes ts [] [] hfollows
  obtain ⟨ds, first, rest, hreads, hrest⟩ := hreaches
  obtain rfl : rest = [] := unfuse_eq_nil_iff.mp (or_self_iff.mp hrest)
  exact ⟨ds, first, hreads⟩

/-- On tokens that the lexer made, an entry reads all if and only if they are a sequence of its
symbol. -/
theorem exists_reads_iff (hlex : lex file source = .ok ts) (e : Entry) :
    ∃ ds r, Reads (e.call ts) ds r ∧
      ((∃ first, r = .ok (first, [])) ↔ Derives False e.symbol (unfuse ts)) := by
  by_cases hderives : Derives False e.symbol (unfuse ts)
  · obtain ⟨ds, first, hreads⟩ := reads_of_derives (regular_of_lex hlex) hderives
    exact ⟨ds, _, hreads, fun _ ↦ hderives, fun _ ↦ ⟨first, rfl⟩⟩
  · obtain ⟨ds, r, hreads⟩ := exists_reads_of_lex hlex e
    refine ⟨ds, r, hreads, ?_, fun h ↦ absurd h hderives⟩
    rintro ⟨first, rfl⟩
    rw [unfuse_of_reads hreads]
    exact derives_of_reads hlex hreads

/-! ### Limits -/

/-- What a run of an entry comes to. -/
def Entry.result (more : List (Callee × Handler σ)) (limits : Limits) (ts : List Token)
    (returnsTo : Destination) (w : World σ) (e : Entry) : Except Failure Value :=
  ((runCall (Registry.standardAnd more) limits e.name ts returnsTo).outcome w).1

/-- A result that no limit had a part in. -/
def Unlimited (r : Except Failure Value) : Prop :=
  ∀ bound n callee, r ≠ .error (.limit bound n callee)

theorem unlimited_of_isOk {r : Except Failure Value} (h : r.isOk = true) : Unlimited r := by
  rintro bound n callee rfl
  cases h

/-- For any steps there are limits that they fit in. -/
theorem exists_fits (ds : List Nat) : ∃ n : Nat, ∀ limits : Limits,
    n ≤ limits.recursion → n ≤ limits.steps → Fits limits limits.steps.toNat 0 ds := by
  let deepest := (0 :: ds).max (List.cons_ne_nil 0 ds)
  refine ⟨max deepest ds.length, fun limits hrecursion hsteps ↦ ⟨by omega, fun d hd ↦ ?_⟩⟩
  have hle : d ≤ deepest := List.le_max_of_mem (List.mem_cons_of_mem 0 hd)
  omega

section

variable {e : Entry} {ds : List Nat} {r : Parsed} {returnsTo : Destination} {last : Callee}
  {final : List Argument → Except Failure Value} {limits : Limits} {w : World σ}

/-- Steps that would exceed a limit fit if no limit had a part in what came of them. -/
theorem fits_of_unlimited {left depth : Nat} {result : Except Failure Value}
    (hexceeds : ¬ Fits limits left depth ds →
      ∃ f, Exceeds limits left depth ds f ∧ result = .error f)
    (hresult : Unlimited result) : Fits limits left depth ds := by
  by_contra hfails
  obtain ⟨f, hf, heq⟩ := hexceeds hfails
  rcases hf with ⟨-, callee, rfl⟩ | ⟨-, callee, rfl⟩
  · exact hresult _ _ _ heq
  · exact hresult _ _ _ heq

/-- A run that no limit had a part in comes to what its nonterminal evaluates to. -/
theorem result_of_evaluated (h : (e.call ts).Evaluated ds r)
    (hleads : returnsTo.LeadsTo (Registry.standardAnd more) last)
    (hfinishes : Finishes (Registry.standardAnd more) last final)
    (hlimits : Unlimited (e.result more limits ts returnsTo w)) :
    e.result more limits ts returnsTo w = (e.call ts).returned r >>= final := by
  obtain ⟨hfits, hexceeds⟩ := runCall_entry_of_evaluated h hleads hfinishes limits w
  exact hfits (fits_of_unlimited hexceeds hlimits)

/-- A run that no limit had a part in comes to what its tokens are read as. -/
theorem result_of_unlimited (h : Reads (e.call ts) ds r)
    (hleads : returnsTo.LeadsTo (Registry.standardAnd more) last)
    (hfinishes : Finishes (Registry.standardAnd more) last final)
    (hlimits : Unlimited (e.result more limits ts returnsTo w)) :
    e.result more limits ts returnsTo w = (e.call ts).returned r >>= final :=
  result_of_evaluated h.evaluated hleads hfinishes hlimits

/-- Limits that the steps fit in are not reached. -/
theorem unlimited_of_evaluated (h : (e.call ts).Evaluated ds r)
    (hleads : returnsTo.LeadsTo (Registry.standardAnd more) last)
    (hfinishes : Finishes (Registry.standardAnd more) last final)
    (hlimits : Fits limits limits.steps.toNat 0 (runDepths ds r)) :
    Unlimited (e.result more limits ts returnsTo w) := by
  intro bound n callee hresult
  rw [Entry.result, (runCall_entry_of_evaluated h hleads hfinishes limits w).1 hlimits] at hresult
  cases r with
  | error f => cases hresult
  | ok parsed =>
    rw [returned_entry] at hresult
    rcases hfinishes.final_outputs e parsed.1 parsed.2 with ⟨v, hv, -⟩ | ⟨f, hf⟩
    · cases hv.symm.trans hresult
    · cases hf.symm.trans hresult

theorem unlimited_of_fits (h : Reads (e.call ts) ds r)
    (hleads : returnsTo.LeadsTo (Registry.standardAnd more) last)
    (hfinishes : Finishes (Registry.standardAnd more) last final)
    (hlimits : Fits limits limits.steps.toNat 0 (runDepths ds r)) :
    Unlimited (e.result more limits ts returnsTo w) :=
  unlimited_of_evaluated h.evaluated hleads hfinishes hlimits

end

/-! ### Acceptance -/

/-- An entry that answers to no one gives a value if and only if its tokens are a sequence of its
symbol. One that answers to a destination which keeps its outputs leaves nothing if and only if they
are, and gives back such a sequence whatever it leaves. This is so unless a limit is reached, and
limits that are high enough are not. -/
theorem accepts_iff_derives (hlex : lex file source = .ok ts) (more : List (Callee × Handler σ))
    (e : Entry) :
    (∀ limits w, Unlimited (e.result more limits ts .identity w) →
      ((∃ value, e.result more limits ts .identity w = .ok value) ↔
        Derives False e.symbol (unfuse ts))) ∧
    (∀ returnsTo last, returnsTo.LeadsTo (Registry.standardAnd more) last →
      (Registry.standardAnd more).handler last = Destinations.capture → ∀ limits w,
      Unlimited (e.result more limits ts returnsTo w) →
        ((∃ first, e.result more limits ts returnsTo w = .ok (.outputs (e.outputs first []))) ↔
          Derives False e.symbol (unfuse ts)) ∧
        ∀ first rest, e.result more limits ts returnsTo w = .ok (.outputs (e.outputs first rest)) →
          Derives False e.symbol (unfuse first)) ∧
    ∃ n : Nat, ∀ limits : Limits, n ≤ limits.recursion → n ≤ limits.steps →
      ∀ returnsTo last final, returnsTo.LeadsTo (Registry.standardAnd more) last →
        Finishes (Registry.standardAnd more) last final → ∀ w,
        Unlimited (e.result more limits ts returnsTo w) := by
  obtain ⟨ds, r, hreads, hiff⟩ := exists_reads_iff hlex e
  refine ⟨fun limits w hlimits ↦ ?_, fun returnsTo last hleads hkeeps limits w hlimits ↦ ?_, ?_⟩
  · rw [result_of_unlimited hreads .identity .identity hlimits, ← hiff]
    cases r with
    | error f => exact ⟨nofun, nofun⟩
    | ok parsed =>
      obtain ⟨first, rest⟩ := parsed
      rw [returned_entry]
      cases rest with
      | nil => exact ⟨fun _ ↦ ⟨first, rfl⟩, fun _ ↦ ⟨.tokens first, rfl⟩⟩
      | cons t rest => exact ⟨nofun, nofun⟩
  · rw [result_of_unlimited hreads hleads (.capture hkeeps) hlimits, ← hiff]
    cases r with
    | error f => exact ⟨⟨nofun, nofun⟩, nofun⟩
    | ok parsed =>
      obtain ⟨first, rest⟩ := parsed
      rw [returned_entry]
      refine ⟨⟨?_, ?_⟩, ?_⟩
      · rintro ⟨first', heq⟩
        cases heq
        exact ⟨first, rfl⟩
      · rintro ⟨first', heq⟩
        cases heq
        exact ⟨first, rfl⟩
      · intro first' rest' heq
        cases heq
        exact derives_of_reads hlex hreads
  · obtain ⟨n, hn⟩ := exists_fits (runDepths ds r)
    refine ⟨n, fun limits hrecursion hsteps returnsTo last final hleads hfinishes w ↦ ?_⟩
    exact unlimited_of_fits hreads hleads hfinishes (hn limits hrecursion hsteps)

/-- References and paths, of which some begin or end with one token. -/
def fusedReferences : List Token := (lex "<input>" "&&A<B<C>>").toOption.getD []

def fusedReferencesResult : Except Failure Value :=
  Entry.type.result (σ := Unit) [] ⟨128, 100⟩ fusedReferences .identity (.initial ())

/-- That a type is accepted tells that it is one of the grammar. -/
theorem accepts_iff_derives_fused : lex "<input>" "&&A<B<C>>" = .ok fusedReferences ∧
    Unlimited fusedReferencesResult ∧ (∃ value, fusedReferencesResult = .ok value) ∧
      Derives False .type (unfuse fusedReferences) := by
  have hlex : lex "<input>" "&&A<B<C>>" = .ok fusedReferences := rfl
  have hok : fusedReferencesResult.isOk = true := by decide +kernel
  have hvalue : ∃ value, fusedReferencesResult = .ok value := by
    cases hresult : fusedReferencesResult with
    | error f =>
      rw [hresult] at hok
      cases hok
    | ok value => exact ⟨value, rfl⟩
  have hunlimited : Unlimited fusedReferencesResult := by
    obtain ⟨value, hresult⟩ := hvalue
    exact hresult ▸ nofun
  have hiff := (accepts_iff_derives (σ := Unit) hlex [] .type).1 _ _ hunlimited
  exact ⟨hlex, hunlimited, hvalue, hiff.mp hvalue⟩

/-- A reference to the path `mut`, or the mark of a reference without a type. -/
def markedAlone : List Token := (lex "<input>" "& mut").toOption.getD []

/-- Where the word behind an ampersand may begin a path, a sequence is in the grammar that is not
accepted: the word is read as the mark, and then the type is missing. -/
theorem reference_mark_alone : lex "<input>" "& mut" = .ok markedAlone ∧
    Derives True .type (unfuse markedAlone) ∧
    ∃ m ∈ markedAlone, m.spells "mut" = true ∧
      Entry.type.result (σ := Unit) [] ⟨128, 100⟩ markedAlone .identity (.initial ()) =
        .error (.fault (.unexpected m)) := by
  have hlex : lex "<input>" "& mut" = .ok markedAlone := rfl
  obtain ⟨a, m, htokens, ha, hm, hident⟩ : ∃ a m, markedAlone = [a, m] ∧ a.spells "&" = true ∧
      m.spells "mut" = true ∧ m.isIdent = true := ⟨_, _, rfl, rfl, rfl, rfl⟩
  have hunfused : unfuse markedAlone = [a, m] := by
    simp [htokens, unfused_of_spells ha (by decide), unfused_of_isIdent hident]
  have hpath : Derives True .type [m] := by
    refine .typePath (.path .none hident (.plain .pathEnd)) fun s hs ↦ ?_
    refine startsWith_false_of_spells hm ?_
    rintro rfl
    revert hs
    decide
  have hreads : Reads (Entry.type.call markedAlone) [0] (.error (.unexpected m)) := by
    rw [htokens]
    exact .fault (.referenceLast (.inl ha) .none (.one hm) rfl)
  have hfits : Fits ⟨128, 100⟩ 100 0 [1] := ⟨by decide, by decide⟩
  refine ⟨hlex, ?_, m, by simp [htokens], hm, ?_⟩
  · rw [hunfused]
    exact .reference ha .none .none (fun _ ↦ .inl trivial) hpath
  · exact (runCall_entry hreads .identity .identity ⟨128, 100⟩ _).1 hfits

end Expander
