import Expander.Proofs.Grammar.Locality
import Expander.Proofs.Grammar.Lossless

/-!
# The qualifiers of function pointer types

A function pointer type is documented to begin with `unsafe` at most once, and behind that with
`extern` at most once, which a literal may follow. The rule reads one qualifier at a time and calls
itself on what is behind it, and what it has in hand has no part in what it reads next. So it reads
any number of both, in any order (`exists_of_reads_pointer`), and whatever it reads behind some of
them it reads behind any others (`Function.reads_pointer`).

In an accepted type, the tokens before `fn` are therefore of the documented form if and only if
their marks stand in the documented order, each of them once at most (`qualifiers_read`). There is a
type for which they do not (`doubly_qualified`).
-/

set_option autoImplicit false

namespace Expander

namespace Grammar

/-! ### Qualifiers -/

/-- What tells a qualifier, in the order in which they are documented. -/
inductive Mark
  | safety
  | linkage
deriving DecidableEq, Repr

def Mark.spelling : Mark → String
  | safety => "unsafe"
  | linkage => "extern"

/-- One qualifier, by its mark. -/
inductive Qualifier : Mark → List Token → Prop
  | safety {t : Token} (ht : t.spells Mark.safety.spelling = true) : Qualifier .safety [t]
  | linkage {t : Token} {ls : List Token} (ht : t.spells Mark.linkage.spelling = true)
      (hls : Maybe Token.isLiteral ls) : Qualifier .linkage (t :: ls)

/-- Qualifiers one behind the other, by their marks. -/
inductive Qualified : List Mark → List Token → Prop
  | nil : Qualified [] []
  | cons {m : Mark} {ms : List Mark} {q qs : List Token} (hq : Qualifier m q)
      (hqs : Qualified ms qs) : Qualified (m :: ms) (q ++ qs)

/-- Qualifiers of the documented form: nothing or `unsafe`, and behind that nothing or `extern` with
a literal or without. -/
def Documented (qs : List Token) : Prop :=
  ∃ us es, qs = us ++ es ∧ Maybe (Token.spells Mark.safety.spelling) us ∧
    (es = [] ∨ ∃ e ls, es = e :: ls ∧ e.spells Mark.linkage.spelling = true ∧
      Maybe Token.isLiteral ls)

/-- The marks among some tokens. -/
def marksOf (ts : List Token) : List Mark :=
  ts.filterMap fun t ↦ [Mark.safety, .linkage].find? fun m ↦ t.spells m.spelling

section

variable {m : Mark} {ms : List Mark} {q qs us ts first rest before : List Token} {t : Token}

/-- A qualifier is told by the mark it begins with. -/
theorem Qualifier.marksOf_eq (h : Qualifier m q) : marksOf q = [m] := by
  cases h with
  | safety ht => simp [marksOf, ht]
  | linkage ht hls =>
    cases hls with
    | none => simp [marksOf, Token.spells_eq ht, Mark.spelling]
    | one hl => simp [marksOf, Token.spells_eq ht, Mark.spelling, Token.spells_of_isLiteral hl]

/-- The marks of qualifiers can be told from the tokens. -/
theorem Qualified.marksOf_eq (h : Qualified ms qs) : marksOf qs = ms := by
  induction h with
  | nil => rfl
  | cons hq _ ih =>
    have happend : ∀ q qs : List Token, marksOf (q ++ qs) = marksOf q ++ marksOf qs :=
      fun _ _ ↦ List.filterMap_append
    rw [happend, hq.marksOf_eq, ih, List.singleton_append]

theorem Qualifier.not_fn (h : Qualifier m q) : ∀ t ∈ q, t.spells "fn" = false := by
  cases h with
  | safety ht => simp [Token.spells_eq ht, Mark.spelling]
  | linkage ht hls =>
    cases hls with
    | none => simp [Token.spells_eq ht, Mark.spelling]
    | one hl => simp [Token.spells_eq ht, Mark.spelling, Token.spells_of_isLiteral hl]

/-- The word that begins a function is no qualifier. -/
theorem Qualified.not_fn (h : Qualified ms qs) : ∀ t ∈ qs, t.spells "fn" = false := by
  induction h with
  | nil => exact List.forall_mem_nil _
  | cons hq _ ih => exact List.forall_mem_append.mpr ⟨hq.not_fn, ih⟩

/-- Qualifiers that are no more than a linkage are one word, perhaps with a literal. -/
theorem Qualified.linkage (h : Qualified ms qs) (hms : ms.Sublist [.linkage]) :
    qs = [] ∨ ∃ e ls, qs = e :: ls ∧ e.spells Mark.linkage.spelling = true ∧
      Maybe Token.isLiteral ls := by
  cases h with
  | nil => exact .inl rfl
  | cons hq hqs =>
    cases hq with
    | safety => cases List.mem_singleton.mp (hms.mem List.mem_cons_self)
    | @linkage e ls he hls =>
      obtain rfl := List.sublist_nil.mp (List.cons_sublist_cons.mp hms)
      cases hqs
      exact .inr ⟨e, ls, by simp, he, hls⟩

/-- Qualifiers are of the documented form if and only if their marks are in order. -/
theorem documented_iff (h : Qualified ms qs) : Documented qs ↔ ms.Sublist [.safety, .linkage] := by
  constructor
  · rintro ⟨us, es, rfl, hus, hes⟩
    have hmarks : marksOf (us ++ es) = marksOf us ++ marksOf es := List.filterMap_append
    have hfirst : (marksOf us).Sublist [.safety] := by
      cases hus with
      | none => exact List.nil_sublist _
      | one hu => rw [(Qualifier.safety hu).marksOf_eq]
    have hsecond : (marksOf es).Sublist [.linkage] := by
      rcases hes with rfl | ⟨e, ls, rfl, he, hls⟩
      · exact List.nil_sublist _
      · rw [(Qualifier.linkage he hls).marksOf_eq]
    rw [← h.marksOf_eq, hmarks]
    exact hfirst.append hsecond
  · intro hms
    cases h with
    | nil => exact ⟨[], [], rfl, .none, .inl rfl⟩
    | @cons m ms q qs hq hqs =>
      cases hq with
      | @safety t ht =>
        exact ⟨[t], qs, rfl, .one ht, hqs.linkage (List.cons_sublist_cons.mp hms)⟩
      | linkage ht hls =>
        have hlinkage : (Mark.linkage :: ms).Sublist [.linkage] := by
          cases hms with
          | cons _ h => exact h
        exact ⟨[], _, rfl, .none, (Qualified.cons (.linkage ht hls) hqs).linkage hlinkage⟩

/-! ### Functions behind qualifiers -/

/-- A function behind its qualifiers, with what is read of it and what is left: the word, the types
of the arguments, and the result, which is read the same whatever is in hand. -/
inductive Function : List Token → List Token → List Token → Prop
  | fn {f : Token} {span : Option Span} {inner us result rest : List Token} {ds ds' : List Nat}
      {looked : List Token × List Token} (hf : f.spells "fn" = true)
      (hargs : Reads (.list .fnArgs inner) ds (.ok looked))
      (hresult : ∀ before, Reads (.arrow before us) ds' (.ok (before ++ result, rest))) :
      Function (f :: .group .paren span inner :: us) (f :: .group .paren span inner :: result) rest

/-- What follows the arguments is read behind anything. -/
theorem exists_of_reads_arrow {ds : List Nat} (h : Reads (.arrow before us) ds (.ok (first, rest))) :
    ∃ result, first = before ++ result ∧
      ∀ before', Reads (.arrow before' us) ds (.ok (before' ++ result, rest)) := by
  cases h with
  | done h =>
    cases h with
    | noArrow hnone =>
      refine ⟨[], by simp, fun before' ↦ ?_⟩
      simpa using Reads.done (.noArrow hnone)
  | go h => cases h
  | @part _ _ _ _ _ read _ _ h hpart hnext =>
    cases h with
    | @arrow _ us a ha hus =>
      cases hnext with
      | done h =>
        cases h with
        | back =>
          refine ⟨a :: read, by simp [Return.kept], fun before' ↦ ?_⟩
          have hback : Reads (.back .arrow (before' ++ [a]) read rest) [0]
              (.ok (before' ++ [a] ++ read, rest)) := .done .back
          have hreads := Reads.part (.arrow ha hus) hpart hback
          rw [List.append_assoc] at hreads
          exact hreads
      | go h => cases h
      | part h => cases h

theorem Qualified.not_literal (h : Qualified ms qs) {fn : List Token} (hfn : Function us fn rest) :
    startsWith (qs ++ us) [literal] = false := by
  cases h with
  | nil =>
    cases hfn with
    | fn hf => simp [Token.isLiteral_of_spells hf]
  | cons hq _ =>
    cases hq with
    | safety ht => simp [Token.isLiteral_of_spells ht]
    | linkage ht => simp [Token.isLiteral_of_spells ht]

/-- Any qualifiers are read in front of a function. -/
theorem Function.reads_pointer {fn : List Token} (hfn : Function us fn rest)
    (h : Qualified ms qs) (before : List Token) :
    ∃ ds, Reads (.pointer before (qs ++ us)) ds (.ok (before ++ qs ++ fn, rest)) := by
  induction h generalizing before with
  | nil =>
    cases hfn with
    | fn hf hargs hresult => exact ⟨_, by simpa using Reads.part (.fn hf) hargs (hresult _)⟩
  | @cons m ms q qs hq hqs ih =>
    obtain ⟨ds, hreads⟩ := ih (before ++ q)
    cases hq with
    | safety ht => exact ⟨_, by simpa using Reads.go (.unsafeFn ht) hreads⟩
    | linkage ht hls =>
      have hstep := Reads.go (.externFn ht hls fun _ ↦ hqs.not_literal hfn) hreads
      exact ⟨_, by simpa using hstep⟩

/-- The rule of function pointer types reads qualifiers and then a function. -/
theorem exists_of_reads_pointer {c : Call} {ds : List Nat} {r : Parsed} (h : Reads c ds r)
    (hc : c = .pointer before ts) (hr : r = .ok (first, rest)) :
    ∃ ms qs us fn, Qualified ms qs ∧ Function us fn rest ∧ ts = qs ++ us ∧
      first = before ++ qs ++ fn := by
  induction h generalizing before ts with
  | fault => cases hr
  | done h =>
    subst hc
    cases h
  | go h _ ih =>
    subst hc
    cases h with
    | @unsafeFn _ ts t ht =>
      obtain ⟨ms, qs, us, fn, hqs, hfn, rfl, rfl⟩ := ih rfl hr
      exact ⟨_, [t] ++ qs, us, fn, .cons (.safety ht) hqs, hfn, rfl, by simp⟩
    | @externFn _ ls ts t ht hls =>
      obtain ⟨ms, qs, us, fn, hqs, hfn, rfl, rfl⟩ := ih rfl hr
      exact ⟨_, t :: ls ++ qs, us, fn, .cons (.linkage ht hls) hqs, hfn, by simp, by simp⟩
  | part h hpart hnext =>
    subst hc hr
    cases h with
    | fn hf =>
      obtain ⟨result, rfl, hresult⟩ := exists_of_reads_arrow hnext
      exact ⟨[], [], _, _, .nil, .fn hf hpart hresult, rfl, by simp⟩
  | lost => cases hr

/-! ### Function pointer types -/

/-- Whether a type begins as a function pointer type does. -/
def StartsFunction (ts : List Token) : Prop :=
  ∃ t us, ts = t :: us ∧
    (t.spells "fn" = true ∨ t.spells "unsafe" = true ∨ t.spells "extern" = true)

/-- With its qualifiers a function begins with one of the three words. -/
theorem Qualified.startsFunction (h : Qualified ms qs) {fn : List Token}
    (hfn : Function us fn rest) : StartsFunction (qs ++ us) := by
  cases h with
  | nil =>
    cases hfn with
    | fn hf => exact ⟨_, _, rfl, .inl hf⟩
  | cons hq _ =>
    cases hq with
    | safety ht => exact ⟨_, _, rfl, .inr (.inl ht)⟩
    | linkage ht => exact ⟨_, _, rfl, .inr (.inr ht)⟩

/-- A type that begins with one of the three words is read as a function pointer. -/
theorem advances_function {p : Plan}
    (ht : t.spells "fn" = true ∨ t.spells "unsafe" = true ∨ t.spells "extern" = true)
    (h : Advances (.type (t :: ts)) p) :
    p = .part (.pointer [] (t :: ts)) (.back .typePath []) := by
  have hother : ∀ s, s ∉ ["fn", "unsafe", "extern"] → t.spells s = false := by
    intro s hs
    rcases ht with ht | ht | ht <;>
      simp_all [Token.spells_eq ht, eq_comm]
  have hword : ∃ s ∈ typeStarts, t.spells s = true := by
    rcases ht with ht | ht | ht
    · exact ⟨_, by decide, ht⟩
    · exact ⟨_, by decide, ht⟩
    · exact ⟨_, by decide, ht⟩
  cases h with
  | fnPointer => rfl
  | tuple | bracketed | bracketedEmpty => simp [Token.spells] at ht
  | reference ha | referenceLast ha | lone ha | bounded ha | boundedLast ha =>
    simp [hother] at ha
  | pointer ha | pointerLast ha | pointerNoMark ha | pointerOnly ha | qualified ha
  | qualifiedLast ha | qualifiedFused ha =>
    simp [hother] at ha
  | typePath _ hnone | noTypeStart _ _ hnone =>
    obtain ⟨s, hs, hspells⟩ := hword
    simp [hnone s hs] at hspells

/-- What is read of a function pointer type are qualifiers, in any number and order, and a
function. -/
theorem exists_of_reads_function {ds : List Nat} (hts : StartsFunction ts)
    (h : Reads (.type ts) ds (.ok (first, rest))) :
    ∃ ms qs us fn, Qualified ms qs ∧ Function us fn rest ∧ ts = qs ++ us ∧ first = qs ++ fn := by
  obtain ⟨t, us, rfl, ht⟩ := hts
  cases h with
  | done h => cases advances_function ht h
  | go h => cases advances_function ht h
  | part h hpart hnext =>
    cases advances_function ht h
    cases hnext with
    | done h =>
      cases h with
      | back => exact exists_of_reads_pointer hpart rfl rfl
    | go h => cases h
    | part h => cases h

/-- And with any qualifiers before it, a function is read. -/
theorem Function.reads_type {fn : List Token} (hfn : Function us fn rest) (h : Qualified ms qs) :
    ∃ ds, Reads (.type (qs ++ us)) ds (.ok (qs ++ fn, rest)) := by
  obtain ⟨ds, hreads⟩ := hfn.reads_pointer h []
  obtain ⟨t, vs, heq, ht⟩ := h.startsFunction hfn
  rw [heq] at hreads ⊢
  exact ⟨_, .part (.fnPointer ht) hreads (.done .back)⟩

end

end Grammar

open Grammar Machine

variable {σ : Type} {more : List (Callee × Handler σ)} {returnsTo : Destination} {last : Callee}

/-- A function is given back behind any qualifiers, unless a limit is reached. -/
theorem Grammar.Function.kept {us fn rest : List Token} (hfn : Function us fn rest)
    (hleads : returnsTo.LeadsTo (Registry.standardAnd more) last)
    (hkeeps : (Registry.standardAnd more).handler last = Destinations.capture) {ms : List Mark}
    {qs : List Token} (hqs : Qualified ms qs) :
    (∀ limits w, Unlimited (Entry.type.result more limits (qs ++ us) returnsTo w) →
      Entry.type.result more limits (qs ++ us) returnsTo w =
        .ok (.outputs (Entry.type.outputs (qs ++ fn) rest))) ∧
    ∃ n : Nat, ∀ limits : Limits, n ≤ limits.recursion → n ≤ limits.steps → ∀ w,
      Unlimited (Entry.type.result more limits (qs ++ us) returnsTo w) := by
  obtain ⟨ds, hreads⟩ : ∃ ds, Reads (Entry.type.call (qs ++ us)) ds (.ok (qs ++ fn, rest)) :=
    hfn.reads_type hqs
  constructor
  · intro limits w hlimits
    rw [result_of_unlimited hreads hleads (.capture hkeeps) hlimits, returned_entry]
    rfl
  · obtain ⟨n, hn⟩ := exists_fits (runDepths ds (.ok (qs ++ fn, rest)))
    exact ⟨n, fun limits hrecursion hsteps w ↦
      unlimited_of_fits hreads hleads (.capture hkeeps) (hn limits hrecursion hsteps)⟩

/-- What is given back of a type that begins as a function pointer type does is qualifiers and a
function, with no word `fn` among the qualifiers. They are of the documented form if and only if
their marks stand in the documented order, each of them once at most. But any other qualifiers may
stand in front of the function as well: they are given back with it, unless a limit is reached, and
limits that are high enough are not. -/
theorem qualifiers_read {file source : String} {ts : List Token} (hlex : lex file source = .ok ts)
    (hts : StartsFunction ts) (hleads : returnsTo.LeadsTo (Registry.standardAnd more) last)
    (hkeeps : (Registry.standardAnd more).handler last = Destinations.capture) {limits : Limits}
    {w : World σ} {value : Value}
    (hresult : Entry.type.result more limits ts returnsTo w = .ok value) :
    ∃ ms qs f args behind result rest, Qualified ms qs ∧ f.spells "fn" = true ∧
      args.delimiter? = some .paren ∧ ts = qs ++ f :: args :: behind ∧
      value = .outputs (Entry.type.outputs (qs ++ f :: args :: result) rest) ∧
      (qs ++ f :: args :: result).takeWhile (fun t ↦ !t.spells "fn") = qs ∧
      (Documented qs ↔ ms.Sublist [.safety, .linkage]) ∧
      ∀ ms' qs', Qualified ms' qs' →
        (∀ limits' w',
          Unlimited (Entry.type.result more limits' (qs' ++ f :: args :: behind) returnsTo w') →
          Entry.type.result more limits' (qs' ++ f :: args :: behind) returnsTo w' =
            .ok (.outputs (Entry.type.outputs (qs' ++ f :: args :: result) rest))) ∧
        ∃ n : Nat, ∀ limits' : Limits, n ≤ limits'.recursion → n ≤ limits'.steps → ∀ w',
          Unlimited (Entry.type.result more limits' (qs' ++ f :: args :: behind) returnsTo w') := by
  obtain ⟨ds, first, rest, hreads, rfl⟩ := exists_reads_of_ok hlex hleads hkeeps hresult
  obtain ⟨ms, qs, us, fn, hqs, hfn, rfl, rfl⟩ := exists_of_reads_function hts hreads
  have hothers : ∀ ms' qs', Qualified ms' qs' → _ := fun _ _ hqs' ↦ hfn.kept hleads hkeeps hqs'
  cases hfn with
  | @fn f span inner behind result rest _ _ _ hf =>
    refine ⟨ms, qs, f, .group .paren span inner, behind, result, rest, hqs, hf, rfl, rfl, rfl, ?_,
      documented_iff hqs, hothers⟩
    have hbefore : ∀ t ∈ qs, (!t.spells "fn") = true := by simpa using hqs.not_fn
    rw [List.takeWhile_append_of_pos hbefore, List.takeWhile_cons_of_neg (by simp [hf]),
      List.append_nil]

/-- A function pointer type with both qualifiers. -/
def qualifiedFunction : List Token :=
  (lex "<input>" "unsafe extern \"C\" fn(A) -> B").toOption.getD []

/-- What is kept of a type. -/
def keptFunction (ts : List Token) : Except Failure Value :=
  Entry.type.result (σ := Unit) [(keeping, Destinations.capture)] ⟨128, 100⟩ ts
    (.callee (.callee keeping)) (.initial ())

/-- Both qualifiers of the type are kept. -/
theorem qualifiers_read_both :
    lex "<input>" "unsafe extern \"C\" fn(A) -> B" = .ok qualifiedFunction ∧
    StartsFunction qualifiedFunction ∧ ∃ ms qs fn rest, Qualified ms qs ∧
      keptFunction qualifiedFunction =
        .ok (.outputs (Entry.type.outputs (qs ++ fn) rest)) := by
  have hlex : lex "<input>" "unsafe extern \"C\" fn(A) -> B" = .ok qualifiedFunction := rfl
  have hstarts : StartsFunction qualifiedFunction := ⟨_, _, rfl, .inr (.inl rfl)⟩
  have hok : (keptFunction qualifiedFunction).isOk = true := by decide +kernel
  obtain ⟨value, hvalue⟩ : ∃ value, keptFunction qualifiedFunction = .ok value := by
    cases hresult : keptFunction qualifiedFunction with
    | error f => simp [hresult, Except.isOk, Except.toBool] at hok
    | ok value => exact ⟨value, rfl⟩
  obtain ⟨ms, qs, f, args, _, result, rest, hqs, -, -, -, rfl, -⟩ :=
    qualifiers_read hlex hstarts (.callee rfl) rfl hvalue
  exact ⟨hlex, hstarts, ms, qs, f :: args :: result, rest, hqs, hvalue⟩

theorem eq_ok_of_isOk {ε : Type} {r : Except ε (List Token)} (h : r.isOk = true) :
    r = .ok (r.toOption.getD []) := by
  cases r with
  | error e => cases h
  | ok ts => rfl

/-- A function pointer type with one qualifier twice. -/
def doublyUnsafe : List Token := (lex "<input>" "unsafe unsafe fn()").toOption.getD []

/-- The type is accepted, and its qualifiers are not of the documented form. -/
theorem doubly_qualified : lex "<input>" "unsafe unsafe fn()" = .ok doublyUnsafe ∧
    StartsFunction doublyUnsafe ∧ ∃ first rest,
      keptFunction doublyUnsafe = .ok (.outputs (Entry.type.outputs first rest)) ∧
      ¬ Documented (first.takeWhile fun t ↦ !t.spells "fn") := by
  have hlexed : (lex "<input>" "unsafe unsafe fn()").isOk = true := by decide +kernel
  obtain ⟨t, u, f, span, htokens, ht, hu, hf⟩ : ∃ t u f span,
      doublyUnsafe = [t, u] ++ [f, .group .paren span []] ∧ t.spells "unsafe" = true ∧
        u.spells "unsafe" = true ∧ f.spells "fn" = true := ⟨_, _, _, _, rfl, rfl, rfl, rfl⟩
  have hqs : Qualified [.safety, .safety] [t, u] := .cons (.safety ht) (.cons (.safety hu) .nil)
  have hfn : Function [f, .group .paren span []] [f, .group .paren span []] [] :=
    .fn hf (.done .listEnd) fun before ↦ by simpa using Reads.done (.noArrow rfl)
  have hok : (keptFunction doublyUnsafe).isOk = true := by decide +kernel
  have hkept := (hfn.kept leadsTo_keeping rfl hqs).1 ⟨128, 100⟩ (.initial ())
  rw [← htokens, ← keptFunction] at hkept
  refine ⟨eq_ok_of_isOk hlexed, ⟨t, _, htokens, .inr (.inl ht)⟩, _, _,
    hkept (unlimited_of_isOk hok), ?_⟩
  have hbefore : ∀ v ∈ [t, u], (!v.spells "fn") = true := by simpa using hqs.not_fn
  rw [htokens, List.takeWhile_append_of_pos hbefore, List.takeWhile_cons_of_neg (by simp [hf]),
    List.append_nil, documented_iff hqs]
  decide

end Expander
