import Mathlib.Order.Bounds.Basic
import Expander.Proofs.Grammar.Continuations
import Expander.Proofs.Grammar.Followers
import Expander.Proofs.Grammar.Lossless

/-!
# Parameters side by side

Every parameter of a list is read above the same chain: the frame that waits for one is gone when
the next is called, and a new one stands in its place. So the depths of the steps of a list are
those of its parameters, each of them alone between the angles (`mem_pathDepths_iff_alone`), and the
greatest depth of the list is the greatest of theirs (`breadth_is_free`). Only the number of steps
adds up.

A parameter takes the same steps in front of a comma as in front of the closing angle
(`Reads.trades`), and it does not begin with an angle, so that a comma before it is followed by a
parameter and not by the end of the list.
-/

set_option autoImplicit false

namespace Expander

open Token

/-- The parameters of a list, one at least: the others each behind a comma. -/
structure Parameters where
  first : List Token
  others : List (Token × List Token)

namespace Parameters

/-- The parameters without the commas. -/
def all (ps : Parameters) : List (List Token) := ps.first :: ps.others.map (·.2)

def tokensOf (others : List (Token × List Token)) : List Token :=
  others.flatMap fun q ↦ q.1 :: q.2

/-- The list between its angles, behind an identifier. -/
def path (a o g : Token) (ps : Parameters) : List Token :=
  a :: o :: (ps.first ++ (tokensOf ps.others ++ [g]))

/-- One parameter alone. -/
def alone (P : List Token) : Parameters := ⟨P, []⟩

end Parameters

open Parameters

namespace Grammar

section

variable {g : Token} {P : List Token} {others : List (Token × List Token)} {D : List Nat}
  {Ds : List (List Nat)}

/-- A parameter that is read in front of a closing angle, by steps of some depths. -/
structure ReadsParam (g : Token) (P : List Token) (D : List Nat) : Prop where
  regular : RegularAll P
  reads : Reads (.param (P ++ [g])) D (.ok (P, [g]))

theorem regular_of_isPunct {t : Token} {s : String} (h : t.isPunct s = true) : t.Regular := by
  obtain ⟨span, rfl⟩ := exists_of_isPunct h
  exact .leaf nofun

/-- In front of anything, a parameter does not begin with a closing angle. -/
theorem ReadsParam.front (h : ReadsParam g P D) (hg : g.isPunct ">" = true) (us : List Token) :
    P ++ us ≠ [] ∧ startsWith (P ++ us) [">"] = false ∧ startsWith (P ++ us) [">>"] = false := by
  have hinput : RegularAll (P ++ [g]) :=
    regularAll_append.mpr ⟨h.regular, by simpa [RegularAll] using regular_of_isPunct hg⟩
  have hparam : Derives False .param (unfuse P) :=
    h.reads.means (sound_of_input hinput rfl trivial) rfl (by simp [Call.before])
  have hparams : Derives False .params (unfuse P ++ []) := .lastParam hparam .none
  rw [List.append_nil] at hparams
  obtain ⟨hne, hone, htwo⟩ := front_of_params hparams h.regular (List.append_nil _).symm
  exact ⟨by simp [hne], startsWith_false_left hone hne, startsWith_false_left htwo hne⟩

/-- In front of another mark, a parameter is read by the same steps. -/
theorem ReadsParam.trades (h : ReadsParam g P D) {z : List Token} (hz : Trade [g] z) :
    Reads (.param (P ++ z)) D (.ok (P, z)) :=
  h.reads.trades id rfl P [] [g] z hz rfl rfl

/-- In front of the next parameter stands a comma, and at the end of the list an angle. -/
theorem trade_tokensOf (hg : g.isPunct ">" = true)
    (hcommas : ∀ q ∈ others, q.1.isPunct "," = true) : Trade [g] (tokensOf others ++ [g]) := by
  cases others with
  | nil => exact .marks hg (.inl hg)
  | cons q others => exact .marks hg (.inr (hcommas q List.mem_cons_self))

/-! ### The steps of a list -/

/-- The depths of the steps of a list, or behind some parameters of it, by those of the parameters
to come. -/
def moreDepths : List (List Nat) → List Nat
  | [] => [0, 0]
  | D :: Ds => 0 :: (D.map (· + 1) ++ moreDepths Ds)

/-- Behind a parameter, the others are read one by one above the same chain. -/
theorem reads_more (hg : g.isPunct ">" = true) (hcommas : ∀ q ∈ others, q.1.isPunct "," = true)
    (h : List.Forall₂ (fun q D ↦ ReadsParam g q.2 D) others Ds) (before read : List Token) :
    Reads (.more before read (tokensOf others ++ [g])) (moreDepths Ds)
      (.ok (before ++ read ++ (tokensOf others ++ [g]), [])) := by
  induction h generalizing before read with
  | nil =>
    have hend : Reads (.after (before ++ read ++ [] ++ [g]) []) [0] _ :=
      .done (.pathEnd fun h ↦ by cases h)
    simpa [tokensOf, moreDepths] using Reads.go (.close .none (spells_of_isPunct hg)) hend
  | @cons q D others Ds hq _ ih =>
    obtain ⟨m, P⟩ := q
    rw [List.forall_mem_cons] at hcommas
    have hparam := hq.trades (trade_tokensOf hg hcommas.2)
    obtain ⟨hne, hone, htwo⟩ := hq.front hg (tokensOf others ++ [g])
    have hmore := ih hcommas.2 (before ++ read ++ [m]) P
    have hstep := Reads.part (.comma (spells_of_isPunct hcommas.1) hne hone htwo) hparam hmore
    simpa [tokensOf, moreDepths, Call.waiting] using hstep

/-- A list is read to its closing angle. -/
theorem reads_list {o : Token} {ps : Parameters} (ho : o.isPunct "<" = true)
    (hg : g.isPunct ">" = true) (hcommas : ∀ q ∈ ps.others, q.1.isPunct "," = true)
    {depthsOf : List Token → List Nat} (h : ∀ P ∈ ps.all, ReadsParam g P (depthsOf P)) :
    Reads (.tail [] (o :: (ps.first ++ (tokensOf ps.others ++ [g]))))
      (moreDepths (ps.all.map depthsOf))
      (.ok (o :: (ps.first ++ (tokensOf ps.others ++ [g])), [])) := by
  obtain ⟨hfirst, hothers⟩ := List.forall_mem_cons.mp h
  have hparam := hfirst.trades (trade_tokensOf hg hcommas)
  obtain ⟨hne, hone, htwo⟩ := hfirst.front hg (tokensOf ps.others ++ [g])
  have hforall : List.Forall₂ (fun q D ↦ ReadsParam g q.2 D) ps.others
      ((ps.others.map (·.2)).map depthsOf) := by
    rw [← List.forall₂_map_left_iff, List.forall₂_map_right_iff, List.forall₂_same]
    exact hothers
  have hmore := reads_more hg hcommas hforall [o] ps.first
  exact .part (@Advances.opening [] [] _ o .none (spells_of_isPunct ho) hne hone htwo) hparam hmore

/-- A step behind a parameter is the first one, or one of a further parameter, a level deeper. -/
theorem mem_moreDepths_iff {d : Nat} :
    d ∈ moreDepths Ds ↔ d = 0 ∨ ∃ D ∈ Ds, ∃ e ∈ D, e + 1 = d := by
  induction Ds with
  | nil => simp [moreDepths]
  | cons D Ds ih =>
    by_cases hd : d = 0
    · simp [moreDepths, hd]
    · simp [moreDepths, ih, hd]

/-- The depths of the steps of a run of a list behind an identifier. -/
def pathDepths (Ds : List (List Nat)) : List Nat :=
  runDepths (identDepths (moreDepths Ds) (.ok ([], []))) (.ok ([], []))

/-- A step of a path with parameters is one of its own, on three levels, or one of a parameter below
them. -/
theorem mem_pathDepths_iff {d : Nat} :
    d ∈ pathDepths Ds ↔ d ≤ 2 ∨ ∃ D ∈ Ds, ∃ e ∈ D, e + 3 = d := by
  have hmem : d ∈ pathDepths Ds ↔ d = 1 ∨ (∃ m ∈ moreDepths Ds, m + 2 = d) ∨ d = 0 := by
    simp [pathDepths, runDepths, identDepths, eq_comm, or_left_comm]
  rw [hmem]
  constructor
  · rintro (rfl | ⟨m, hm, rfl⟩ | rfl)
    · exact .inl (by omega)
    · rcases mem_moreDepths_iff.mp hm with rfl | ⟨D, hD, e, he, rfl⟩
      · exact .inl (Nat.le_refl 2)
      · exact .inr ⟨D, hD, e, he, rfl⟩
    · exact .inl (Nat.zero_le 2)
  · rintro (hd | ⟨D, hD, e, he, rfl⟩)
    · have hzero : 0 ∈ moreDepths Ds := mem_moreDepths_iff.mpr (.inl rfl)
      rcases Nat.le_succ_iff.mp hd with hd | rfl
      · omega
      · exact .inr (.inl ⟨0, hzero, rfl⟩)
    · exact .inr (.inl ⟨e + 1, mem_moreDepths_iff.mpr (.inr ⟨D, hD, e, he, rfl⟩), rfl⟩)

/-- The depths of the steps of a list are those of its parameters alone. -/
theorem mem_pathDepths_iff_alone {d : Nat} (hne : Ds ≠ []) :
    d ∈ pathDepths Ds ↔ ∃ D ∈ Ds, d ∈ pathDepths [D] := by
  simp only [mem_pathDepths_iff, List.mem_singleton, exists_eq_left]
  constructor
  · rintro (hd | ⟨D, hD, h⟩)
    · obtain ⟨D, Ds, rfl⟩ := List.exists_cons_of_ne_nil hne
      exact ⟨D, List.mem_cons_self, .inl hd⟩
    · exact ⟨D, hD, .inr h⟩
  · rintro ⟨D, hD, hd | h⟩
    · exact .inl hd
    · exact .inr ⟨D, hD, h⟩

theorem two_le_length_moreDepths (Ds : List (List Nat)) : 2 ≤ (moreDepths Ds).length := by
  induction Ds with
  | nil => exact Nat.le_refl 2
  | cons D Ds ih =>
    rw [moreDepths, List.length_cons, List.length_append]
    omega

/-- A list takes as many steps as each of its parameters alone, at least. -/
theorem length_pathDepths_le (h : D ∈ Ds) : (pathDepths [D]).length ≤ (pathDepths Ds).length := by
  have hmore : D.length + 3 ≤ (moreDepths Ds).length := by
    induction Ds with
    | nil => cases h
    | cons D' Ds ih =>
      have htwo := two_le_length_moreDepths Ds
      simp only [moreDepths, List.length_cons, List.length_append, List.length_map]
      rcases List.mem_cons.mp h with rfl | h
      · omega
      · exact Nat.le_succ_of_le ((ih h).trans (Nat.le_add_left ..))
  simp only [pathDepths, runDepths, identDepths, moreDepths, List.length_append, List.length_map,
    List.length_cons, List.length_nil]
  omega

end

end Grammar

open Grammar Machine

/-! ### Runs -/

variable {σ : Type} {more : List (Callee × Handler σ)} {returnsTo : Destination} {last : Callee}
  {final : List Argument → Except Failure Value}

/-- The depths of the steps of a run without limits. -/
def Opener.depths (more : List (Callee × Handler σ)) (ts : List Token) (returnsTo : Destination)
    (w : World σ) (o : Opener) : Set Nat :=
  {d | ∃ n, (o.stage more ts returnsTo w n).depth? = some d}

/-- The depths of the steps of a run are those of its evaluation. -/
theorem mem_depths_iff {ts : List Token} {ds : List Nat} {r : Parsed} {w : World σ} {d : Nat}
    (h : (Call.path ts).Evaluated ds r)
    (hleads : returnsTo.LeadsTo (Registry.standardAnd more) last)
    (hfinishes : Finishes (Registry.standardAnd more) last final) :
    d ∈ Opener.path.depths more ts returnsTo w ↔ d ∈ runDepths ds r := by
  obtain ⟨step, w₁, w', hcall, hgoes⟩ :=
    evaluated_goes rfl rfl rfl (by decide) h hleads hfinishes w
  have hstage : ∀ n, Opener.path.stage more ts returnsTo w n =
      stage (Registry.standardAnd more).handler step w₁ n := by
    intro n
    have hopener : (call (Registry.standardAnd more) (.name Opener.path.name)
        (.ok [.ofTokens Opener.path.parameter ts]) returnsTo).outcome w = (.ok step, w₁) := hcall
    rw [Opener.stage, hopener]
  have hend := hgoes.iterate
  constructor
  · rintro ⟨n, hn⟩
    rw [hstage] at hn
    by_cases hlt : n < (runDepths ds r).length
    · rw [stage, hgoes.depth? hlt, Nat.zero_add, Option.some.injEq] at hn
      exact hn ▸ List.getElem_mem hlt
    · rw [stage_of_ended hend (Nat.le_of_not_lt hlt)] at hn
      cases hn
  · intro hd
    obtain ⟨n, hlt, rfl⟩ := List.mem_iff_getElem.mp hd
    refine ⟨n, ?_⟩
    rw [hstage, stage, hgoes.depth? hlt, Nat.zero_add]

/-- A run of an evaluation has a step of the greatest depth. -/
theorem exists_isGreatest_depths {ts : List Token} {ds : List Nat} {first rest : List Token}
    (h : (Call.path ts).Evaluated ds (.ok (first, rest)))
    (hleads : returnsTo.LeadsTo (Registry.standardAnd more) last)
    (hfinishes : Finishes (Registry.standardAnd more) last final) (w : World σ) :
    ∃ D, IsGreatest (Opener.path.depths more ts returnsTo w) D := by
  have hne : runDepths ds (.ok (first, rest)) ≠ [] := by simp [runDepths]
  refine ⟨(runDepths ds (.ok (first, rest))).max hne, ?_, fun d hd ↦ ?_⟩
  · exact (mem_depths_iff h hleads hfinishes).mpr (List.max_mem hne)
  · exact List.le_max_of_mem ((mem_depths_iff h hleads hfinishes).mp hd)

/-- A run that leaves nothing ends with a value if and only if its chains are allowed, where enough
steps are. -/
theorem exists_value_iff {ts first : List Token} {ds : List Nat} {limits : Limits} {w : World σ}
    (h : (Entry.path.call ts).Evaluated ds (.ok (first, [])))
    (hleads : returnsTo.LeadsTo (Registry.standardAnd more) last)
    (hfinishes : Finishes (Registry.standardAnd more) last final)
    (hsteps : ((runDepths ds (.ok (first, []))).length : Int) ≤ limits.steps) :
    (∃ value, Entry.path.result more limits ts returnsTo w = .ok value) ↔
      ∀ d ∈ Opener.path.depths more ts returnsTo w, (d : Int) ≤ limits.recursion := by
  obtain ⟨hfits, hexceeds⟩ := runCall_entry_of_evaluated h hleads hfinishes limits w
  have hiff : Fits limits limits.steps.toNat 0 (runDepths ds (.ok (first, []))) ↔
      ∀ d ∈ Opener.path.depths more ts returnsTo w, (d : Int) ≤ limits.recursion := by
    simp only [mem_depths_iff h hleads hfinishes]
    exact ⟨fun hfits d hd ↦ by simpa using hfits.depth_le d hd,
      fun hdepths ↦ ⟨by omega, fun d hd ↦ by simpa using hdepths d hd⟩⟩
  rw [← hiff]
  constructor
  · rintro ⟨value, hvalue⟩
    by_contra hfails
    obtain ⟨f, -, hresult⟩ := hexceeds hfails
    cases hvalue.symm.trans hresult
  · intro hlimits
    obtain ⟨value, hvalue⟩ := hfinishes.exists_value .path first
    exact ⟨value, (hfits hlimits).trans ((congrArg (· >>= final) (returned_entry ..)).trans hvalue)⟩

/-! ### Parameters that are read alone -/

/-- The run of the rule for generic parameters, for a callee that keeps its outputs. -/
def keptParam (limits : Limits) (ts : List Token) : Except Failure Value :=
  Opener.param.result (σ := Unit) [(keeping, Destinations.capture)] limits ts
    (.callee (.callee keeping)) (.initial ())

/-- Tokens of a text, no two of them joined, that are one parameter: in front of a closing angle,
the rule for generic parameters takes them all and leaves the angle. -/
structure IsParameter (g : Token) (P : List Token) : Prop where
  lexed : ∃ file source ts, lex file source = .ok ts ∧ P = unfuse ts
  taken : ∃ limits, keptParam limits (P ++ [g]) = .ok (.outputs (given Opener.param.outputs P [g]))

section

variable {g : Token} {P : List Token}

/-- A parameter that may stand alone is read in steps of some depths. -/
theorem IsParameter.exists_reads (h : IsParameter g P) (hg : g.isPunct ">" = true) :
    ∃ D, ReadsParam g P D := by
  obtain ⟨file, source, ts, hlex, hP⟩ := h.lexed
  have hregular : RegularAll P := hP ▸ regularAll_unfuse (regular_of_lex hlex)
  have hinput : RegularAll (P ++ [g]) :=
    regularAll_append.mpr ⟨hregular, by simpa [RegularAll] using regular_of_isPunct hg⟩
  obtain ⟨D, r, hreads⟩ : ∃ D r, Reads (Opener.param.call (P ++ [g])) D r :=
    Grammar.exists_reads (sound_of_input hinput rfl trivial)
  obtain ⟨limits, htaken⟩ := h.taken
  have hunlimited : Unlimited (keptParam limits (P ++ [g])) := htaken ▸ nofun
  have hresult : keptParam limits (P ++ [g]) = _ :=
    Opener.result_of_unlimited (by decide) hreads leadsTo_keeping (.capture rfl) hunlimited
  rw [htaken] at hresult
  cases r with
  | error f => cases hresult
  | ok parsed =>
    obtain ⟨first, rest⟩ := parsed
    cases hresult
    exact ⟨D, hregular, hreads⟩

/-- Tokens that are read in front of a closing angle are a parameter. -/
theorem isParameter_of_reads {file source : String} {ts : List Token} {D : List Nat}
    (hlex : lex file source = .ok ts) (hP : P = unfuse ts)
    (h : Reads (.param (P ++ [g])) D (.ok (P, [g]))) : IsParameter g P := by
  obtain ⟨n, hn⟩ := exists_fits (runDepths D (.ok (P, [g])))
  refine ⟨⟨file, source, ts, hlex, hP⟩, ⟨n, n⟩, ?_⟩
  exact (runCall_evaluated (c := .param (P ++ [g])) rfl rfl rfl (by decide) h.evaluated
    leadsTo_keeping (.capture rfl) ⟨n, n⟩ _).1 (hn _ (Int.le_refl n) (Int.le_refl n))

/-- A list behind an identifier is evaluated to its closing angle. -/
theorem evaluated_path {a o : Token} {ps : Parameters} (ha : a.isIdent = true)
    (ho : o.isPunct "<" = true) (hg : g.isPunct ">" = true)
    (hcommas : ∀ q ∈ ps.others, q.1.isPunct "," = true) {depthsOf : List Token → List Nat}
    (h : ∀ P ∈ ps.all, ReadsParam g P (depthsOf P)) :
    (Entry.path.call (ps.path a o g)).Evaluated
      (identDepths (moreDepths (ps.all.map depthsOf)) (.ok ([], []))) (.ok (ps.path a o g, [])) := by
  have hplain : startsWith (o :: (ps.first ++ (tokensOf ps.others ++ [g]))) [ident] = false := by
    simpa using isIdent_of_isPunct ho
  exact evaluated_ident ha hplain (reads_list ho hg hcommas h)

/-- A path of an identifier and parameters between angles is read to the end if each parameter is
one alone. The depths of the steps of its run have a greatest one, and it is the greatest of the
greatest depths of the runs on one parameter each. So, where enough steps are allowed, the path is
read if and only if it is with each parameter alone. -/
theorem breadth_is_free {a o : Token} {ps : Parameters} (ha : a.isIdent = true)
    (ho : o.isPunct "<" = true) (hg : g.isPunct ">" = true)
    (hcommas : ∀ q ∈ ps.others, q.1.isPunct "," = true) (hparams : ∀ P ∈ ps.all, IsParameter g P)
    (hleads : returnsTo.LeadsTo (Registry.standardAnd more) last)
    (hfinishes : Finishes (Registry.standardAnd more) last final) :
    (∀ limits w, Unlimited (Entry.path.result more limits (ps.path a o g) returnsTo w) →
      Entry.path.result more limits (ps.path a o g) returnsTo w =
        final (Entry.path.outputs (ps.path a o g) [])) ∧
    (∀ w, ∃ D, IsGreatest (Opener.path.depths more (ps.path a o g) returnsTo w) D ∧
      IsGreatest {d | ∃ P ∈ ps.all,
        IsGreatest (Opener.path.depths more ((alone P).path a o g) returnsTo w) d} D) ∧
    ∃ n : Nat, ∀ limits : Limits, n ≤ limits.steps → ∀ w,
      ((∃ value, Entry.path.result more limits (ps.path a o g) returnsTo w = .ok value) ↔
        ∀ P ∈ ps.all,
          ∃ value, Entry.path.result more limits ((alone P).path a o g) returnsTo w = .ok value) ∧
      ((∃ value, Entry.path.result more limits (ps.path a o g) returnsTo w = .ok value) ↔
        ∀ d ∈ Opener.path.depths more (ps.path a o g) returnsTo w, (d : Int) ≤ limits.recursion) := by
  choose! depthsOf hreads using fun P hP ↦ (hparams P hP).exists_reads hg
  have hlist := evaluated_path ha ho hg hcommas hreads
  have halone : ∀ P ∈ ps.all, (Entry.path.call ((alone P).path a o g)).Evaluated
      (identDepths (moreDepths [depthsOf P]) (.ok ([], []))) (.ok ((alone P).path a o g, [])) := by
    intro P hP
    refine @evaluated_path g a o (alone P) ha ho hg (by simp [alone]) depthsOf ?_
    simpa [alone, Parameters.all] using hreads P hP
  have hdepths : ∀ w d, d ∈ Opener.path.depths more (ps.path a o g) returnsTo w ↔
      ∃ P ∈ ps.all, d ∈ Opener.path.depths more ((alone P).path a o g) returnsTo w := by
    intro w d
    have hsplit : d ∈ pathDepths (ps.all.map depthsOf) ↔
        ∃ P ∈ ps.all, d ∈ pathDepths [depthsOf P] := by
      rw [mem_pathDepths_iff_alone (by simp [Parameters.all])]
      simp
    refine (mem_depths_iff hlist hleads hfinishes).trans (hsplit.trans ?_)
    exact exists_congr fun P ↦ and_congr_right fun hP ↦
      (mem_depths_iff (halone P hP) hleads hfinishes).symm
  refine ⟨fun limits w hlimits ↦ ?_, fun w ↦ ?_, (pathDepths (ps.all.map depthsOf)).length,
    fun limits hsteps w ↦ ?_⟩
  · rw [result_of_evaluated hlist hleads hfinishes hlimits, returned_entry]
    rfl
  · obtain ⟨D, hD⟩ := exists_isGreatest_depths hlist hleads hfinishes w
    refine ⟨D, hD, ?_, ?_⟩
    · obtain ⟨P, hP, hmem⟩ := (hdepths w D).mp hD.1
      exact ⟨P, hP, hmem, fun d hd ↦ hD.2 ((hdepths w d).mpr ⟨P, hP, hd⟩)⟩
    · rintro d ⟨P, hP, hgreatest⟩
      exact hD.2 ((hdepths w d).mpr ⟨P, hP, hgreatest.1⟩)
  · have hiff : (∃ value, Entry.path.result more limits (ps.path a o g) returnsTo w = .ok value) ↔
        ∀ d ∈ Opener.path.depths more (ps.path a o g) returnsTo w, (d : Int) ≤ limits.recursion :=
      exists_value_iff hlist hleads hfinishes hsteps
    refine ⟨hiff.trans ?_, hiff⟩
    have heach : ∀ P ∈ ps.all,
        ((∃ value, Entry.path.result more limits ((alone P).path a o g) returnsTo w = .ok value) ↔
          ∀ d ∈ Opener.path.depths more ((alone P).path a o g) returnsTo w,
            (d : Int) ≤ limits.recursion) := by
      intro P hP
      have hfewer := length_pathDepths_le (List.mem_map_of_mem (f := depthsOf) hP)
      exact exists_value_iff (halone P hP) hleads hfinishes ((Int.ofNat_le.mpr hfewer).trans hsteps)
    constructor
    · intro hlimits P hP
      exact (heach P hP).mpr fun d hd ↦ hlimits d ((hdepths w d).mpr ⟨P, hP, hd⟩)
    · intro hvalues d hd
      obtain ⟨P, hP, hmem⟩ := (hdepths w d).mp hd
      exact (heach P hP).mp (hvalues P hP) d hmem

end

/-- A lifetime, and behind it a type with a name. -/
def pairParameters : Parameters :=
  ⟨(lex "<input>" "'a").toOption.getD [],
    [(.leaf .punct "," none, (lex "<input>" "B = !").toOption.getD [])]⟩

/-- The runs of both parameters have a greatest depth, and so has that of the list. -/
theorem breadth_is_free_pair : ∃ a o g, (∀ P ∈ pairParameters.all, IsParameter g P) ∧
    ∃ D, IsGreatest (Opener.path.depths (σ := Unit) [] (pairParameters.path a o g) .identity
        (.initial ())) D ∧
      IsGreatest {d | ∃ P ∈ pairParameters.all, IsGreatest
        (Opener.path.depths (σ := Unit) [] ((alone P).path a o g) .identity (.initial ())) d} D := by
  let g : Token := .leaf .punct ">" none
  obtain ⟨l, hlex, hl, hlifetime⟩ : ∃ l, lex "<input>" "'a" = .ok [l] ∧ [l] = unfuse [l] ∧
      l.isLifetime = true := ⟨_, rfl, rfl, rfl⟩
  obtain ⟨t, e, u, hlex', hts, ht, he, hu⟩ : ∃ t e u, lex "<input>" "B = !" = .ok [t, e, u] ∧
      [t, e, u] = unfuse [t, e, u] ∧ t.isIdent = true ∧ e.spells "=" = true ∧
        u.spells "!" = true := ⟨_, _, _, rfl, rfl, rfl, rfl, rfl⟩
  have hfirst : IsParameter g [l] := isParameter_of_reads hlex hl (.done (.single (.inl hlifetime)))
  have hsecond : IsParameter g [t, e, u] :=
    isParameter_of_reads hlex' hts
      (.part (.binding ht he nofun) (.done (.lone (.inl hu))) (.done .back))
  have hall : pairParameters.all = [[l], [t, e, u]] := by
    simp [pairParameters, Parameters.all, hlex, hlex', Except.toOption]
  have hparams : ∀ P ∈ pairParameters.all, IsParameter g P := by simp [hall, hfirst, hsecond]
  have hcommas : ∀ q ∈ pairParameters.others, q.1.isPunct "," = true := by
    simp [pairParameters, isPunct]
  obtain ⟨-, hdepths, -⟩ := @breadth_is_free Unit [] .identity identityReturn
    Destinations.identity g (.leaf .ident "A" none) (.leaf .punct "<" none) pairParameters rfl rfl rfl
    hcommas hparams .identity .identity
  exact ⟨_, _, g, hparams, hdepths (.initial ())⟩

end Expander
