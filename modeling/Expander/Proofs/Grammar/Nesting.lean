import Mathlib.Order.Bounds.Basic
import Expander.Proofs.Grammar.Acceptance
import Expander.Proofs.Grammar.Lossless

/-!
# Parameters inside one another

Where a path is the only generic parameter of another, five frames wait while the inner one is read:
that of the outer path, of what follows its identifier, of the parameter, of the sum and of the
type. They are all gone when the inner path has been read, so what closes the angles costs nothing,
and the deepest step of a nest of paths is the one at its core (`reads_nest`).

A joined angle closes two paths. The inner one gives its second half to the outer one, and so it
makes no difference which angles are joined. A nest is read if and only if the limit allows the
depth of its core (`nesting_allowed`).
-/

set_option autoImplicit false

namespace Expander

open Token

/-! ### Nests -/

/-- A name of a path. -/
structure Token.IsName (t : Token) : Prop where
  ident : t.isIdent = true
  regular : t.Regular

/-- A name of a path that is a type: no word with which another type begins. -/
structure Token.IsTypeName (t : Token) : Prop extends t.IsName where
  noWord : ∀ s ∈ Grammar.typeWords, t.spells s = false

/-- Closing angles, some of them joined to one token. -/
inductive Closers : Nat → List Token → Prop
  | nil : Closers 0 []
  | single {n : Nat} {g : Token} {gs : List Token} (hg : g.isPunct ">" = true)
      (h : Closers n gs) : Closers (n + 1) (g :: gs)
  | joined {n : Nat} {g : Token} {gs : List Token} (hg : g.isPunct ">>" = true)
      (h : Closers n gs) : Closers (n + 2) (g :: gs)

/-- Names, each with the angle behind it, as tokens. -/
def openingTokens (openings : List (Token × Token)) : List Token :=
  openings.flatMap fun p ↦ [p.1, p.2]

/-- Paths inside one another, each but the last with the next as its generic parameter. -/
structure Nest (n : Nat) where
  openings : List (Token × Token)
  core : Token
  closers : List Token
  length_openings : openings.length = n
  names : ∀ p ∈ openings, p.1.IsName ∧ p.2.isPunct "<" = true
  typeNames : ∀ p ∈ openings.tail, p.1.IsTypeName
  isTypeName_core : core.IsTypeName
  closed : Closers n closers

def Nest.tokens {n : Nat} (x : Nest n) : List Token :=
  openingTokens x.openings ++ x.core :: x.closers

section

variable {n : Nat} {t : Token} {gs : List Token} {s : String}

/-- A name is spelled as no mark. -/
theorem Token.IsName.spells_eq_false (h : t.IsName) (hs : isMark s = true) : t.spells s = false :=
  h.regular.spells_eq_false h.ident hs

/-- No other type begins with such a name. -/
theorem Token.IsTypeName.noTypeStart (h : t.IsTypeName) :
    ∀ s ∈ Grammar.typeStarts, t.spells s = false := by
  have hstarts : ∀ s ∈ Grammar.typeStarts, isMark s = true ∨ s ∈ Grammar.typeWords := by decide
  intro s hs
  rcases hstarts s hs with hmark | hword
  · exact h.spells_eq_false hmark
  · exact h.noWord s hword

/-- Closing angles do not begin as anything else does. -/
theorem Closers.not_startsWith (h : Closers n gs) {p : Pattern} (hone : ∀ g : Token,
      g.isPunct ">" = true → p.holds g = false)
    (htwo : ∀ g : Token, g.isPunct ">>" = true → p.holds g = false) :
    startsWith gs [p] = false := by
  cases h with
  | nil => rfl
  | single hg => simpa using hone _ hg
  | joined hg => simpa using htwo _ hg

/-- Closing angles have no other mark at their front. -/
theorem Closers.not_spells (h : Closers n gs) (hone : ">" ≠ s) (htwo : ">>" ≠ s) :
    startsWith gs [.spelling s] = false := by
  refine h.not_startsWith (fun g hg ↦ ?_) fun g hg ↦ ?_
  · rw [Pattern.holds, spells_eq (spells_of_isPunct hg)]
    exact decide_eq_false hone
  · rw [Pattern.holds, spells_eq (spells_of_isPunct hg)]
    exact decide_eq_false htwo

end

namespace Grammar

/-! ### The deepest step -/

/-- What a call comes to, by steps of which the deepest is at a depth. -/
def ReadsAt (c : Call) (depth : Nat) (r : Parsed) : Prop :=
  ∃ ds, Reads c ds r ∧ IsGreatest {d | d ∈ ds} depth

section

variable {c c' : Call} {depth depth' : Nat} {first rest : List Token} {r : Parsed}

theorem ReadsAt.done (h : Advances c (.done first rest)) : ReadsAt c 0 (.ok (first, rest)) :=
  ⟨[0], .done h, by simp [IsGreatest, upperBounds]⟩

theorem ReadsAt.go (h : Advances c (.go c')) (hgo : ReadsAt c' depth r) : ReadsAt c depth r := by
  obtain ⟨ds, hreads, hmem, hle⟩ := hgo
  refine ⟨0 :: ds, .go h hreads, List.mem_cons_of_mem 0 hmem, fun d hd ↦ ?_⟩
  rcases List.mem_cons.mp hd with rfl | hd
  · exact Nat.zero_le depth
  · exact hle hd

/-- A call below a frame is one deeper, and what comes after it begins where the frame was. -/
theorem ReadsAt.part {next : List Token → List Token → Call} (h : Advances c (.part c' next))
    (hpart : ReadsAt c' depth (.ok (first, rest))) (hnext : ReadsAt (next first rest) depth' r)
    (hdepth : depth' ≤ depth + 1) : ReadsAt c (depth + 1) r := by
  obtain ⟨ds, hreads, hmem, hle⟩ := hpart
  obtain ⟨ds', hreads', -, hle'⟩ := hnext
  refine ⟨_, .part h hreads hreads', ?_, fun d hd ↦ ?_⟩
  · exact List.mem_append_right _ (List.mem_append_left _ (List.mem_map_of_mem hmem))
  · rcases List.mem_append.mp hd with hd | hd
    · have hzero : d = 0 := by
        split at hd
        · exact List.mem_singleton.mp hd
        · cases hd
      exact hzero ▸ Nat.zero_le _
    · rcases List.mem_append.mp hd with hd | hd
      · obtain ⟨e, he, rfl⟩ := List.mem_map.mp hd
        exact Nat.succ_le_succ (hle he)
      · exact (hle' hd).trans hdepth

end

section

variable {n m depth : Nat} {t o : Token} {ts gs first rest : List Token}
  {ps : List (Token × Token)}

/-- What ends at closing angles ends a path. -/
theorem readsAt_after (h : Closers n gs) (before : List Token) :
    ReadsAt (.after before gs) 0 (.ok (before, gs)) := by
  refine .done (.pathEnd fun hcolons ↦ ?_)
  rw [h.not_spells (by decide) (by decide)] at hcolons
  cases hcolons

/-- A name in front of closing angles is a path. -/
theorem readsAt_name (ht : t.IsName) (h : Closers n gs) :
    ReadsAt (.path (t :: gs)) 1 (.ok ([t], gs)) := by
  have hno : ∀ s, ">" ≠ s → ">>" ≠ s → startsWith gs [.spelling s] = false :=
    fun s ↦ h.not_spells
  have hcolons : ∀ p, startsWith gs ["::", p] = false := fun p ↦
    startsWith_cons_of_not (hno "::" (by decide) (by decide)) [p]
  have hparen : startsWith gs [.group .paren] = false := by
    refine h.not_startsWith (fun g hg ↦ ?_) fun g hg ↦ ?_
    all_goals
      rw [holds_group, delimiter?_of_spells (spells_of_isPunct hg)]
      rfl
  have htail : ReadsAt (.tail [] gs) 0 (.ok ([], gs)) :=
    .go (.noArgs (hno "<" (by decide) (by decide)) (hno "<<" (by decide) (by decide)) hparen
      (by simp [hcolons]) (by simp [hcolons])) (readsAt_after h [])
  exact .part (.plain ht.ident (ht.spells_eq_false (by decide))) htail (.done .back)
    (Nat.zero_le _)

/-- Tokens that begin with a name, as a type and not as a binding. -/
def BeginsType (ts : List Token) : Prop :=
  ∃ t us, ts = t :: us ∧ t.IsTypeName ∧ startsWith us ["="] = false

/-- A path that is a type is a generic parameter, three frames deeper. -/
theorem ReadsAt.param (h : ReadsAt (.path ts) depth (.ok (first, gs))) (hts : BeginsType ts)
    (hgs : Closers n gs) : ReadsAt (.param ts) (depth + 3) (.ok (first, gs)) := by
  obtain ⟨t, us, rfl, ht, hus⟩ := hts
  obtain ⟨hlifetime, hliteral, hdelimiter⟩ := kind_of_isIdent ht.ident
  have htype : ReadsAt (.type (t :: us)) (depth + 1) (.ok (first, gs)) :=
    .part (.typePath (.inr ht.ident) ht.noTypeStart) h (.done .back) (Nat.zero_le _)
  have hsummed : ReadsAt (.summed (t :: us)) (depth + 2) (.ok (first, gs)) :=
    .part .summed htype (.done (.noPlus (hgs.not_spells (by decide) (by decide)))) (Nat.zero_le _)
  refine .part (.typeParam hlifetime hliteral ?_ ?_ ?_) hsummed (.done .back) (Nat.zero_le _)
  · simp [hdelimiter]
  · simp [hus]
  · simp [ht.spells_eq_false (by decide : isMark "-" = true)]

/-- A closing angle ends generic arguments, and the second half of a joined one is left. -/
theorem exists_readsAt_more (h : Closers (n + 1) gs) (before read : List Token) :
    ∃ first rest, ReadsAt (.more before read gs) 0 (.ok (first, rest)) ∧ Closers n rest := by
  cases h with
  | @single _ g gs hg h =>
    exact ⟨_, gs, .go (.close .none (spells_of_isPunct hg)) (readsAt_after h _), h⟩
  | @joined n g gs hg h =>
    obtain ⟨span, rfl⟩ := exists_of_isPunct hg
    exact ⟨_, _, .done (.closeFused .none (spells_of_isPunct hg) rfl), .single rfl h⟩

/-- A path with one parameter is two frames deeper than the parameter. -/
theorem exists_readsAt_outer (ht : t.IsName) (ho : o.isPunct "<" = true) (hts : BeginsType ts)
    (h : ReadsAt (.param ts) depth (.ok (first, gs))) (hgs : Closers (n + 1) gs) :
    ∃ first rest, ReadsAt (.path (t :: o :: ts)) (depth + 2) (.ok (first, rest)) ∧
      Closers n rest := by
  obtain ⟨u, us, rfl, hu, -⟩ := hts
  have hangle : ∀ s, isMark s = true → startsWith (u :: us) [.spelling s] = false := by
    intro s hs
    simpa using hu.spells_eq_false hs
  obtain ⟨inner, rest, hmore, hrest⟩ := exists_readsAt_more hgs [o] first
  have htail : ReadsAt (.tail [] (o :: u :: us)) (depth + 1) (.ok (inner, rest)) :=
    .part (@Advances.opening [] [] _ o .none (spells_of_isPunct ho) nofun (hangle ">" (by decide))
      (hangle ">>" (by decide))) h hmore (Nat.zero_le _)
  exact ⟨_, rest, .part (.plain ht.ident (ht.spells_eq_false (by decide))) htail (.done .back)
    (Nat.zero_le _), hrest⟩

/-- Below the outermost path, a nest begins with the name of a type. -/
theorem beginsType_nest (hnames : ∀ p ∈ ps, p.2.isPunct "<" = true)
    (htypes : ∀ p ∈ ps, p.1.IsTypeName) (ht : t.IsTypeName) (hgs : Closers n gs) :
    BeginsType (openingTokens ps ++ t :: gs) := by
  cases ps with
  | nil => exact ⟨t, gs, rfl, ht, hgs.not_spells (by decide) (by decide)⟩
  | cons p ps =>
    have ho := spells_of_isPunct (hnames p List.mem_cons_self)
    refine ⟨p.1, p.2 :: (openingTokens ps ++ t :: gs), rfl, htypes p List.mem_cons_self, ?_⟩
    simp [spells_eq ho]

/-- Each path of a nest is five frames deeper than the one around it, and the path at the core has
one step below a frame. -/
theorem exists_readsAt_nest (hnames : ∀ p ∈ ps, p.1.IsName ∧ p.2.isPunct "<" = true)
    (htypes : ∀ p ∈ ps.tail, p.1.IsTypeName) (ht : t.IsTypeName)
    (hgs : Closers (n + ps.length) gs) :
    ∃ first rest, ReadsAt (.path (openingTokens ps ++ t :: gs)) (5 * ps.length + 1)
      (.ok (first, rest)) ∧ Closers n rest := by
  induction ps generalizing n with
  | nil => exact ⟨[t], gs, readsAt_name ht.toIsName hgs, hgs⟩
  | cons p ps ih =>
    obtain ⟨⟨hname, hangle⟩, hnames⟩ := List.forall_mem_cons.mp hnames
    rw [List.tail_cons] at htypes
    have hcount : n + (p :: ps).length = n + 1 + ps.length := Nat.add_right_comm n ps.length 1
    rw [hcount] at hgs
    obtain ⟨inner, behind, hinner, hbehind⟩ :=
      ih hnames (fun q hq ↦ htypes q (List.mem_of_mem_tail hq)) hgs
    have hbegins := beginsType_nest (fun q hq ↦ (hnames q hq).2) htypes ht hgs
    exact exists_readsAt_outer hname hangle hbegins (hinner.param hbegins hbehind) hbehind

end

/-- A nest is read to its end. -/
theorem exists_reads_nest {n : Nat} (x : Nest n) : ∃ ds first,
    Reads (Entry.path.call x.tokens) ds (.ok (first, [])) ∧ IsGreatest {d | d ∈ ds} (5 * n + 1) := by
  have hclosed : Closers (0 + x.openings.length) x.closers := by
    rw [Nat.zero_add, x.length_openings]
    exact x.closed
  obtain ⟨first, rest, ⟨ds, hreads, hdeepest⟩, hrest⟩ :=
    exists_readsAt_nest x.names x.typeNames x.isTypeName_core hclosed
  rw [x.length_openings] at hdeepest
  cases hrest
  exact ⟨ds, first, hreads, hdeepest⟩

end Grammar

open Grammar Machine

/-! ### Runs -/

variable {σ : Type} {more : List (Callee × Handler σ)} {returnsTo : Destination} {last : Callee}

/-- A run is deeper by the frame of its destination, if it ends. -/
theorem isGreatest_runDepths {ds : List Nat} {depth : Nat} {parsed : List Token × List Token}
    (h : IsGreatest {d | d ∈ ds} depth) :
    IsGreatest {d | d ∈ runDepths ds (.ok parsed)} (depth + 1) := by
  obtain ⟨hmem, hle⟩ := h
  refine ⟨List.mem_append_left _ (List.mem_map_of_mem hmem), fun d hd ↦ ?_⟩
  rcases List.mem_append.mp hd with hd | hd
  · obtain ⟨e, he, rfl⟩ := List.mem_map.mp hd
    exact Nat.succ_le_succ (hle he)
  · exact List.mem_singleton.mp hd ▸ Nat.zero_le _

/-- How a run ends that takes steps at some depths: as it would without limits if they fit, and with
the limit that they reach if they do not. -/
structure Machine.EndsWithin (limits : Limits) (ds : List Nat) (final result : Except Failure Value) :
    Prop where
  of_fits : Fits limits limits.steps.toNat 0 ds → result = final
  of_not_fits : ¬ Fits limits limits.steps.toNat 0 ds →
    ∃ f, Exceeds limits limits.steps.toNat 0 ds f ∧ result = .error f

section

variable {ds : List Nat} {depth : Nat} {limits : Limits} {final result : Except Failure Value}
  {v : Value}

/-- A run that the number of its steps does not end is not ended if its deepest step is allowed. -/
theorem Machine.EndsWithin.eq_final (h : EndsWithin limits ds final result)
    (hsteps : ∀ callee, result ≠ .error (.limit .steps limits.steps callee))
    (hdeepest : IsGreatest {d | d ∈ ds} depth) (hallowed : depth ≤ limits.recursion) :
    result = final := by
  by_contra hne
  obtain ⟨f, hexceeds, hresult⟩ := h.of_not_fits fun hfits ↦ hne (h.of_fits hfits)
  rcases hexceeds with ⟨-, callee, rfl⟩ | ⟨⟨d, hd, hdeep⟩, -⟩
  · exact hsteps callee hresult
  · have hle : d ≤ depth := hdeepest.2 hd
    omega

/-- Such a run ends with the limit on depth if its deepest step is not allowed. -/
theorem Machine.EndsWithin.exists_eq_limit (h : EndsWithin limits ds final result)
    (hsteps : ∀ callee, result ≠ .error (.limit .steps limits.steps callee))
    (hdeepest : IsGreatest {d | d ∈ ds} depth) (hdeep : limits.recursion < depth) :
    ∃ callee, result = .error (.limit .recursion limits.recursion callee) := by
  have hnot : ¬ Fits limits limits.steps.toNat 0 ds := by
    intro hfits
    have hdepth := hfits.depth_le _ hdeepest.1
    omega
  obtain ⟨f, hexceeds, hresult⟩ := h.of_not_fits hnot
  rcases hexceeds with ⟨-, callee, rfl⟩ | ⟨-, callee, rfl⟩
  · exact absurd hresult (hsteps callee)
  · exact ⟨callee, hresult⟩

/-- A run that may take as many steps as it has is not ended by their number. -/
theorem Machine.EndsWithin.ne_steps (h : EndsWithin limits ds (.ok v) result)
    (henough : (ds.length : Int) ≤ limits.steps) (callee : String) :
    result ≠ .error (.limit .steps limits.steps callee) := by
  intro hresult
  by_cases hfits : Fits limits limits.steps.toNat 0 ds
  · cases hresult.symm.trans (h.of_fits hfits)
  · obtain ⟨f, hexceeds, hresult'⟩ := h.of_not_fits hfits
    rcases hexceeds with ⟨hmany, -⟩ | ⟨-, callee', rfl⟩
    · omega
    · cases hresult.symm.trans hresult'

end

/-- Paths inside one another, `n` times, are read to the end by an entry that answers to a
destination which keeps its outputs, if the limit allows chains of `5 * n + 2`. Otherwise the run
ends with that limit. It is so for every run that the number of its steps does not end, and there is
a number that ends none. -/
theorem nesting_allowed {n : Nat} (x : Nest n)
    (hleads : returnsTo.LeadsTo (Registry.standardAnd more) last)
    (hkeeps : (Registry.standardAnd more).handler last = Destinations.capture) :
    (∀ limits w,
      (∀ callee, Entry.path.result more limits x.tokens returnsTo w ≠
        .error (.limit .steps limits.steps callee)) →
      (5 * n + 2 ≤ limits.recursion → ∃ first, unfuse first = unfuse x.tokens ∧
        Entry.path.result more limits x.tokens returnsTo w =
          .ok (.outputs (Entry.path.outputs first []))) ∧
      (limits.recursion < 5 * n + 2 → ∃ callee,
        Entry.path.result more limits x.tokens returnsTo w =
          .error (.limit .recursion limits.recursion callee))) ∧
    ∃ enough : Nat, ∀ limits : Limits, enough ≤ limits.steps → ∀ w callee,
      Entry.path.result more limits x.tokens returnsTo w ≠
        .error (.limit .steps limits.steps callee) := by
  obtain ⟨ds, first, hreads, hdeepest⟩ := exists_reads_nest x
  have hrun := @isGreatest_runDepths ds _ (first, []) hdeepest
  have hends (limits : Limits) (w : World σ) : EndsWithin limits (runDepths ds (.ok (first, [])))
      (.ok (.outputs (Entry.path.outputs first [])))
      (Entry.path.result more limits x.tokens returnsTo w) :=
    have h := runCall_entry hreads hleads (.capture hkeeps) limits w
    ⟨h.1, h.2⟩
  refine ⟨fun limits w hsteps ↦ ⟨fun hallowed ↦ ?_, fun hdeep ↦ ?_⟩,
    (runDepths ds (.ok (first, []))).length, fun limits henough w callee ↦ ?_⟩
  · exact ⟨first, (unfuse_of_reads hreads).symm, (hends limits w).eq_final hsteps hrun hallowed⟩
  · exact (hends limits w).exists_eq_limit hsteps hrun hdeep
  · exact (hends limits w).ne_steps henough callee

/-- Three paths inside one another. The angles that close them are one token. -/
def twiceNested : Nest 2 where
  openings := [(.leaf .ident "A" none, .leaf .punct "<" none),
    (.leaf .ident "B" none, .leaf .punct "<" none)]
  core := .leaf .ident "C" none
  closers := [.leaf .punct ">>" none]
  length_openings := rfl
  names := by
    have hname : ∀ s, isMark s = false → (Token.leaf .ident s none).IsName := fun s hs ↦
      ⟨rfl, .leaf fun _ ↦ hs⟩
    simpa [isPunct] using ⟨hname "A" (by decide), hname "B" (by decide)⟩
  typeNames := by
    have hname : (Token.leaf .ident "B" none).IsTypeName :=
      ⟨⟨rfl, .leaf fun _ ↦ by decide⟩, by decide⟩
    simpa using hname
  isTypeName_core := ⟨⟨rfl, .leaf fun _ ↦ by decide⟩, by decide⟩
  closed := .joined rfl .nil

/-- Whether a run was ended by the number of its steps. -/
def endedBySteps : Except Failure Value → Bool
  | .error (.limit .steps _ _) => true
  | _ => false

def twiceNestedResult (recursion : Int) : Except Failure Value :=
  Entry.path.result (σ := Unit) [(keeping, Destinations.capture)] ⟨recursion, 100⟩
    twiceNested.tokens (.callee (.callee keeping)) (.initial ())

/-- Twelve frames are enough for them, and eleven are not. -/
theorem nesting_allowed_twice :
    (∃ first, unfuse first = unfuse twiceNested.tokens ∧
      twiceNestedResult 12 = .ok (.outputs (Entry.path.outputs first []))) ∧
    ∃ callee, twiceNestedResult 11 = .error (.limit .recursion 11 callee) := by
  have hsteps : ∀ recursion, endedBySteps (twiceNestedResult recursion) = false →
      ∀ callee, twiceNestedResult recursion ≠ .error (.limit .steps 100 callee) := by
    intro recursion hends callee hresult
    rw [hresult] at hends
    cases hends
  have htwelve := hsteps 12 (by decide +kernel)
  have heleven := hsteps 11 (by decide +kernel)
  obtain ⟨hruns, -⟩ := nesting_allowed (σ := Unit) twiceNested leadsTo_keeping rfl
  exact ⟨(hruns ⟨12, 100⟩ _ htwelve).1 (by decide), (hruns ⟨11, 100⟩ _ heleven).2 (by decide)⟩

end Expander
