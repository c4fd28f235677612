import Expander.Proofs.Grammar.Language
import Expander.Proofs.Grammar.Totality

/-!
# How sequences begin

One token of lookahead is enough for most of the grammar because of how its sequences begin: none
of them with what ends or divides a list (`front_of_derives`), and a type with what nothing else but
a type begins with (`StartsType`). What is told of the front of a sequence that was taken apart
holds of the front that it had before (`startsWith_of_unfuse`).
-/

set_option autoImplicit false

namespace Expander.Grammar

open Token

variable {mutIsPath : Prop} {t x : Token} {ts us v w : List Token} {s : String}

/-! ### Fronts before and after -/

/-- What is at the front of two sequences is at the front of the first, or of the second if there is
no first. -/
theorem startsWith_append {p : Pattern} :
    startsWith (ts ++ us) [p] = (startsWith ts [p] || ts.isEmpty && startsWith us [p]) := by
  cases ts with
  | nil => simp
  | cons t ts => simp

/-- So what is at the front of neither is not at the front of both. -/
theorem startsWith_false_append {p : Pattern} (hts : startsWith ts [p] = false)
    (hus : startsWith us [p] = false) : startsWith (ts ++ us) [p] = false := by
  rw [startsWith_append, hts, hus, Bool.and_false, Bool.or_false]

/-- Nor is what is not at the front of the first, if there is one. -/
theorem startsWith_false_left {p : Pattern} (hts : startsWith ts [p] = false) (hne : ts ≠ []) :
    startsWith (ts ++ us) [p] = false := by
  rw [startsWith_append, hts, List.isEmpty_eq_false_iff.mpr hne, Bool.false_and, Bool.or_false]

/-- A token has one spelling. -/
theorem startsWith_false_of_spells {s' : String} (hx : x.spells s = true) (hne : s ≠ s') :
    startsWith (x :: ts) [s'] = false := by
  rw [startsWith_cons, startsWith_nil, Bool.and_true, holds_spelling, spells_eq hx,
    decide_eq_false_iff_not]
  exact hne

/-- A pattern of tokens that stay when a sequence is taken apart. -/
inductive Stays : Pattern → Prop
  | spelling {s : String} (h : s ∉ fusedSpellings) : Stays (.spelling s)
  | kind {k : LeafKind} (h : k ≠ .punct) : Stays (.kind k)
  | group (d : Delimiter) : Stays (.group d)

/-- What is not at the front of what a sequence is taken apart into was not at its front. -/
theorem startsWith_of_unfuse {p : Pattern} (hp : Stays p)
    (h : startsWith (unfuse ts) [p] = false) : startsWith ts [p] = false := by
  cases ts with
  | nil => rfl
  | cons t ts =>
    have hholds : p.holds t = true → ∃ u, t.unfused = [u] ∧ p.holds u = true := by
      intro ht
      cases hp with
      | spelling hs => exact ⟨t, unfused_of_spells ht hs, ht⟩
      | kind hk => exact ⟨t, unfused_of_isKind hk ht, ht⟩
      | group d =>
        obtain ⟨u, hu, hd⟩ := unfused_of_delimiter? (of_decide_eq_true ht)
        exact ⟨u, hu, decide_eq_true hd⟩
    rw [startsWith_cons, startsWith_nil, Bool.and_true, Bool.eq_false_iff]
    intro ht
    obtain ⟨u, hu, hpu⟩ := hholds ht
    rw [unfuse_cons, hu, List.cons_append, startsWith_cons, startsWith_nil, Bool.and_true, hpu] at h
    cases h

/-- Where no angle is at the front of what a sequence is taken apart into, none was at its front,
joined or not. -/
theorem startsWith_angle_of_unfuse {joined : String}
    (hs : s = ">" ∧ joined = ">>" ∨ s = "<" ∧ joined = "<<") (hts : RegularAll ts)
    (h : startsWith (unfuse ts) [s] = false) :
    startsWith ts [s] = false ∧ startsWith ts [joined] = false := by
  refine ⟨startsWith_of_unfuse (.spelling ?_) h, ?_⟩
  · rcases hs with ⟨rfl, -⟩ | ⟨rfl, -⟩
    · decide
    · decide
  cases ts with
  | nil => rfl
  | cons t ts =>
    rw [startsWith_cons, startsWith_nil, Bool.and_true, holds_spelling, Bool.eq_false_iff]
    intro ht
    have hjoined : t.isJoined = true := by
      rcases hs with ⟨-, rfl⟩ | ⟨-, rfl⟩
      · exact isJoined_iff.mpr (.inl ht)
      · exact isJoined_iff.mpr (.inr ht)
    obtain ⟨x, y, hcut⟩ := (regularAll_cons.mp hts).1.exists_halves hjoined
    have hx : x.spells s = true := by
      rcases hs with ⟨rfl, rfl⟩ | ⟨rfl, rfl⟩
      · exact (spells_halves ht rfl hcut).1
      · exact (spells_halves ht rfl hcut).1
    rw [unfuse_cons, (unfused_of_isJoined hjoined hcut).1, List.cons_append, startsWith_cons,
      startsWith_nil, Bool.and_true, holds_spelling, hx] at h
    cases h

/-- Taking a regular token apart leaves regular ones. -/
theorem regular_of_mem_unfused (ht : t.Regular) : RegularAll t.unfused := by
  induction ht with
  | @leaf kind text span hmark =>
    by_cases hfused : ∃ x y, IsFused (.leaf kind text span) x y
    · obtain ⟨x, y, hfused⟩ := hfused
      obtain ⟨hx, hy⟩ := regular_of_halves hfused.1
      rw [hfused.unfused_eq]
      exact regularAll_cons.mpr ⟨hx, regularAll_cons.mpr ⟨hy, List.forall_mem_nil _⟩⟩
    · rw [unfused_of_not_fused rfl fun x y h ↦ hfused ⟨x, y, h⟩]
      exact regularAll_cons.mpr ⟨.leaf hmark, List.forall_mem_nil _⟩
  | @group d span stream _ ih =>
    have hstream : RegularAll (unfuse stream) := by
      clear * - ih
      induction stream with
      | nil => exact unfuse_nil ▸ List.forall_mem_nil _
      | cons u stream ihs =>
        rw [unfuse_cons, regularAll_append]
        exact ⟨ih u List.mem_cons_self, ihs fun v hv ↦ ih v (List.mem_cons_of_mem _ hv)⟩
    rw [unfused_group]
    exact regularAll_cons.mpr ⟨.group hstream, List.forall_mem_nil _⟩

theorem regularAll_unfuse (hts : RegularAll ts) : RegularAll (unfuse ts) := by
  induction ts with
  | nil => exact unfuse_nil ▸ List.forall_mem_nil _
  | cons t ts ih =>
    obtain ⟨ht, hts⟩ := regularAll_cons.mp hts
    rw [unfuse_cons, regularAll_append]
    exact ⟨regular_of_mem_unfused ht, ih hts⟩

/-! ### Fronts of the language -/

/-- The symbols of which every sequence has a token. -/
def Symbol.IsFilled : Symbol → Prop
  | path | params | param | sum | bound | type | function => True
  | _ => False

/-- Most symbols have no empty sequence. -/
theorem ne_nil_of_derives {sym : Symbol} (h : Derives mutIsPath sym w) (hsym : sym.IsFilled) :
    w ≠ [] := by
  induction h with
  | typeParam _ ih | fnPointer _ ih | typePath _ _ ih => exact ih trivial
  | lastParam _ _ ih | moreParams _ _ _ ih | sum _ _ ih =>
    exact List.append_ne_nil_of_left_ne_nil (ih trivial) _
  | pathBound _ _ ih => exact List.append_ne_nil_of_right_ne_nil _ (ih trivial)
  | plain | pathEnd | noResult | noTypes | noSums | noPlus | noTrait | lastType | lastSum =>
    cases hsym
  | _ => simp

/-- The spellings that end or divide the lists of the grammar. -/
def fences : List String := [">", "=", ","]

theorem isMark_of_mem_fences (hs : s ∈ fences) : isMark s = true := by
  revert s
  decide

/-- No sequence begins with what ends or divides a list. -/
theorem front_of_derives {sym : Symbol} (h : Derives mutIsPath sym w) (hw : RegularAll w)
    (hs : s ∈ fences) : startsWith w [s] = false := by
  have hspelled : ∀ {x : Token} {s' : String} (ts : List Token), x.spells s' = true → s' ∉ fences →
      startsWith (x :: ts) [s] = false :=
    fun _ hx hs' ↦ startsWith_false_of_spells hx fun heq ↦ hs' (heq ▸ hs)
  have hident : ∀ {x : Token} {ts : List Token}, RegularAll (x :: ts) → x.isIdent = true →
      startsWith (x :: ts) [s] = false := by
    intro x ts hxs hx
    rw [startsWith_cons, startsWith_nil, Bool.and_true, holds_spelling]
    exact (regularAll_cons.mp hxs).1.spells_eq_false hx (isMark_of_mem_fences hs)
  induction h with
  | path hcs ht =>
    cases hcs with
    | none => exact hident hw ht
    | one hc => exact hspelled _ hc (by decide)
  | called | tuple | slice | array => rfl
  | plain _ ih | typeParam _ ih | lastType _ ih | lastSum _ ih | fnPointer _ ih
  | typePath _ _ ih => exact ih hw
  | empty hcs ho | angles hcs ho =>
    cases hcs with
    | none => exact hspelled _ ho (by decide)
    | one hc => exact hspelled _ hc (by decide)
  | pathEnd | noResult | noTypes | noSums | noPlus | noTrait => rfl
  | segment hc => exact hspelled _ hc (by decide)
  | lastParam h _ ih =>
    exact startsWith_false_left (ih (regularAll_append.mp hw).1) (ne_nil_of_derives h trivial)
  | moreParams h _ _ ih | moreTypes h _ _ ih | moreSums h _ _ ih =>
    exact startsWith_false_left (ih (regularAll_append.mp hw).1) (ne_nil_of_derives h trivial)
  | @single t ht =>
    rcases ht with ht | ht | ht
    · simp [kind_of_isLifetime ht]
    · simp [kind_of_isLiteral ht]
    · simp [kind_of_delimiter? ht]
  | negative hm => exact hspelled _ hm (by decide)
  | binding ht => exact hident hw ht
  | result ha => exact hspelled _ ha (by decide)
  | sum _ _ ihtype ihplus =>
    obtain ⟨hts, hus⟩ := regularAll_append.mp hw
    exact startsWith_false_append (ihtype hts) (ihplus hus)
  | plus ha => exact hspelled _ ha (by decide)
  | @simpleBound t ht =>
    rcases ht with ht | ht
    · simp [kind_of_isLifetime ht]
    · simp [kind_of_delimiter? ht]
  | pathBound hqs _ ih =>
    cases hqs with
    | none => exact ih hw
    | one hq => exact hspelled _ hq (by decide)
  | reference ha => exact hspelled _ ha (by decide)
  | pointer ha => exact hspelled _ ha (by decide)
  | lone ht =>
    rcases ht with ht | ht
    · exact hspelled _ ht (by decide)
    · exact hspelled _ ht (by decide)
  | bounded ht =>
    rcases ht with ht | ht
    · exact hspelled _ ht (by decide)
    · exact hspelled _ ht (by decide)
  | qualified ho => exact hspelled _ ho (by decide)
  | unsafeFn ht => exact hspelled _ ht (by decide)
  | externFn ht => exact hspelled _ ht (by decide)
  | fn hf => exact hspelled _ hf (by decide)
  | trait ha => exact hspelled _ ha (by decide)

/-- A path begins with colons or with an identifier. -/
theorem starts_path (h : Derives mutIsPath .path w) :
    ∃ x xs, w = x :: xs ∧ (x.spells "::" = true ∨ x.isIdent = true) := by
  cases h with
  | path hcs ht =>
    cases hcs with
    | none => exact ⟨_, _, rfl, .inr ht⟩
    | one hc => exact ⟨_, _, rfl, .inl hc⟩

/-- A function pointer begins with one of three words. -/
theorem starts_function (h : Derives mutIsPath .function w) : ∃ x xs, w = x :: xs ∧
    (x.spells "fn" = true ∨ x.spells "unsafe" = true ∨ x.spells "extern" = true) := by
  cases h with
  | unsafeFn ht => exact ⟨_, _, rfl, .inr (.inl ht)⟩
  | externFn ht => exact ⟨_, _, rfl, .inr (.inr ht)⟩
  | fn hf => exact ⟨_, _, rfl, .inl hf⟩

/-- The spellings with which a type begins, other than those of paths. -/
def typeFronts : List String :=
  ["&", "*", "!", "_", "<", "::", "fn", "unsafe", "extern", "dyn", "impl"]

/-- The tokens with which a type begins. -/
inductive StartsType : Token → Prop
  | ident {t : Token} (h : t.isIdent = true) : StartsType t
  | front {t : Token} {s : String} (h : t.spells s = true) (hs : s ∈ typeFronts) : StartsType t
  | group {t : Token} {d : Delimiter} (h : t.delimiter? = some d) (hd : d ≠ .brace) : StartsType t

/-- A type begins with one of the tokens that types are told by. -/
theorem starts_type (h : Derives mutIsPath .type w) : ∃ x xs, w = x :: xs ∧ StartsType x := by
  cases h with
  | tuple | slice | array => exact ⟨_, _, rfl, .group rfl (by decide)⟩
  | reference h | pointer h | qualified h => exact ⟨_, _, rfl, .front h (by decide)⟩
  | lone h | bounded h =>
    rcases h with h | h
    · exact ⟨_, _, rfl, .front h (by decide)⟩
    · exact ⟨_, _, rfl, .front h (by decide)⟩
  | fnPointer h =>
    obtain ⟨x, xs, rfl, h | h | h⟩ := starts_function h
    · exact ⟨_, _, rfl, .front h (by decide)⟩
    · exact ⟨_, _, rfl, .front h (by decide)⟩
    · exact ⟨_, _, rfl, .front h (by decide)⟩
  | typePath h =>
    obtain ⟨x, xs, hxs, h | h⟩ := starts_path h
    · exact ⟨_, _, hxs, .front h (by decide)⟩
    · exact ⟨_, _, hxs, .ident h⟩

/-- The patterns of what else begins a parameter or stands before a type. -/
inductive Besides : Pattern → Prop
  | lifetime : Besides lifetime
  | literal : Besides literal
  | brace : Besides (.group .brace)
  | minus : Besides (.spelling "-")

/-- No such token is one that a rule asks for besides types. -/
theorem StartsType.not_besides {p : Pattern} (h : StartsType x) (hx : x.Regular)
    (hp : Besides p) : p.holds x = false := by
  cases h with
  | ident h =>
    obtain ⟨hlifetime, hliteral, hgroup⟩ := kind_of_isIdent h
    cases hp with
    | lifetime => exact hlifetime
    | literal => exact hliteral
    | brace => simp [hgroup]
    | minus => exact hx.spells_eq_false h (by decide)
  | front h hs =>
    cases hp with
    | lifetime => exact isLifetime_of_spells h
    | literal => exact isLiteral_of_spells h
    | brace => simp [delimiter?_of_spells h]
    | minus =>
      rw [holds_spelling, spells_eq h, decide_eq_false_iff_not]
      rintro rfl
      revert hs
      decide
  | group h hd =>
    obtain ⟨-, hlifetime, hliteral, hspells⟩ := kind_of_delimiter? h
    cases hp with
    | lifetime => exact hlifetime
    | literal => exact hliteral
    | brace => simp [h, hd]
    | minus => exact hspells

/-- A type begins as nothing else does that stands where a type may stand. -/
theorem front_of_type {p : Pattern} (h : Derives mutIsPath .type w) (hw : RegularAll w)
    (hp : Besides p) : startsWith w [p] = false := by
  obtain ⟨x, xs, rfl, hx⟩ := starts_type h
  rw [startsWith_cons, startsWith_nil, Bool.and_true]
  exact hx.not_besides (regularAll_cons.mp hw).1 hp

/-- No type, whatever stands behind it, looks like the name of a binding. -/
theorem second_of_type (h : Derives mutIsPath .type w) (hw : RegularAll w)
    (hv : startsWith v ["="] = false) : startsWith (w ++ v) [ident, "="] = false := by
  have hnext : ∀ {x : Token} {ts : List Token}, startsWith ts ["="] = false →
      startsWith (x :: ts) [ident, "="] = false := by
    intro x ts h
    rw [startsWith_cons, h, Bool.and_false]
  have hmark : ∀ {x : Token} {ts : List Token} {s : String}, x.Regular → x.spells s = true →
      isMark s = true → startsWith (x :: ts) [ident, "="] = false := by
    intro x ts s hx hs hmark
    obtain ⟨span, rfl⟩ := hx.eq_punct hmark hs
    rfl
  have hfront : ∀ {sym : Symbol} {ts : List Token}, Derives mutIsPath sym ts → RegularAll ts →
      startsWith (ts ++ v) ["="] = false := by
    intro sym ts h hts
    exact startsWith_false_append (front_of_derives h hts (by decide)) hv
  cases h with
  | tuple | slice | array => rfl
  | reference h | pointer h | qualified h => exact hmark (regularAll_cons.mp hw).1 h (by decide)
  | lone h =>
    rcases h with h | h
    · exact hmark (regularAll_cons.mp hw).1 h (by decide)
    · exact hmark (regularAll_cons.mp hw).1 h (by decide)
  | bounded _ hbound hplus =>
    obtain ⟨hts, hus⟩ := regularAll_append.mp (regularAll_cons.mp hw).2
    refine hnext (startsWith_false_append ?_ hv)
    exact startsWith_false_append (front_of_derives hbound hts (by decide))
      (front_of_derives hplus hus (by decide))
  | fnPointer h =>
    cases h with
    | unsafeFn _ h => exact hnext (hfront h (regularAll_cons.mp hw).2)
    | externFn _ hls h =>
      cases hls with
      | none => exact hnext (hfront h (regularAll_cons.mp hw).2)
      | one hl => exact hnext (by simp [kind_of_isLiteral hl])
    | fn => exact hnext rfl
  | typePath h =>
    cases h with
    | path hcs ht htail =>
      cases hcs with
      | none => exact hnext (hfront htail (regularAll_cons.mp hw).2)
      | one hc => exact hmark (regularAll_cons.mp hw).1 hc (by decide)

end Expander.Grammar
