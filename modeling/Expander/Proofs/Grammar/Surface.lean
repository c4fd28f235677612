import Expander.Proofs.Grammar.Blame
import Expander.Proofs.Grammar.Lossless
import Expander.Proofs.Lexing.Layout
import Mathlib.Data.List.Pairwise

/-!
# Tokens at the surface

A token that a fault points at may be one of the sequence that was read, or it may be hidden there:
inside a group, or a half of a joined angle (`Token.HiddenIn`). Of what the lexer made of a text
these are never the same. Two tokens of a sequence share no character of the text, so none stands
there twice (`nodup_of_lex`), and what is hidden in one of them shares a character with it and is
another token (`not_hidden_of_mem`).
-/

set_option autoImplicit false

namespace Expander

variable {file source : String} {ts stream : List Token} {t u : Token} {a b a' b' : Nat}

/-! ### Places -/

namespace Token

/-- A token begins and ends at some offsets. -/
def Covers (t : Token) (first last : Nat) : Prop :=
  ∃ s, t.span = some s ∧ s.start = first ∧ s.stop = last

/-- A token covers one stretch of the text. -/
theorem Covers.unique (h : t.Covers a b) (h' : t.Covers a' b') : a = a' ∧ b = b' := by
  obtain ⟨s, hs, hstart, hstop⟩ := h
  obtain ⟨s', hs', hstart', hstop'⟩ := h'
  obtain rfl : s = s' := Option.some.inj (hs.symm.trans hs')
  exact ⟨Int.ofNat_inj.mp (hstart.symm.trans hstart'), Int.ofNat_inj.mp (hstop.symm.trans hstop')⟩

/-- A token that is placed covers some of the text. -/
theorem Placed.exists_covers {text : List Char} (h : t.Placed file text) :
    ∃ a b, t.Covers a b ∧ a < b := by
  cases h with
  | leaf hlt => exact ⟨_, _, ⟨_, rfl, rfl, rfl⟩, hlt⟩
  | group hlt => exact ⟨_, _, ⟨_, rfl, rfl, rfl⟩, by omega⟩

/-- Punctuation that is made at a place covers its own text. -/
theorem covers_punctAt (file : String) (before text : List Char) :
    (punctAt file before text).Covers before.length (before ++ text).length := by
  refine ⟨_, rfl, ?_, ?_⟩
  · rw [Span.between, start_after before []]
  · rw [Span.between, start_after (before ++ text) []]

/-- Two tokens that share no character of a text. -/
def Apart (t u : Token) : Prop := ∀ a b a' b', t.Covers a b → u.Covers a' b' → b ≤ a' ∨ b' ≤ a

instance : Std.Symm Apart := ⟨fun _ _ h a b a' b' hu ht ↦ (h a' b' a b ht hu).symm⟩

end Token

open Token

/-- Tokens whose pieces are in order cover stretches that are apart. -/
theorem apart_of_ordered {text : List Char} (hts : ∀ t ∈ ts, t.LexedFrom file text)
    (hordered : (piecesAll ts).Pairwise Piece.Before) : ts.Pairwise Token.Apart := by
  induction ts with
  | nil => exact .nil
  | cons t ts ih =>
    rw [piecesAll_cons, List.pairwise_append] at hordered
    obtain ⟨-, hbehind, hcross⟩ := hordered
    refine .cons (fun u hu ↦ ?_) (ih (fun u hu ↦ hts u (List.mem_cons_of_mem t hu)) hbehind)
    obtain ⟨_, last, hspan, -, p, hp, _, hpat⟩ := (hts t List.mem_cons_self).span_eq
    obtain ⟨first, _, hspan', ⟨q, hq, _, hqat⟩, -⟩ := (hts u (List.mem_cons_of_mem t hu)).span_eq
    have hle : last ≤ first :=
      hcross p hp q ((pieces_sublist hu).mem hq) _ _ _ _ hpat hqat
    intro a b a' b' ht hu
    obtain ⟨-, rfl⟩ := ht.unique ⟨_, hspan, rfl, rfl⟩
    obtain ⟨rfl, -⟩ := hu.unique ⟨_, hspan', rfl, rfl⟩
    exact .inl hle

/-- Two tokens of a text that share a character are one. -/
theorem eq_of_overlap (hlex : lex file source = .ok ts) (ht : t ∈ ts) (hu : u ∈ ts)
    (hat : t.Covers a b) (hau : u.Covers a' b') (h : a < b') (h' : a' < b) : t = u := by
  have hapart := apart_of_ordered (lexedFrom_of_lex hlex) (laidOut_of_lex hlex).ordered
  by_contra hne
  have hcross := hapart.forall ht hu hne a b a' b' hat hau
  omega

/-- No token stands twice in what the lexer makes of a text. -/
theorem nodup_of_lex (hlex : lex file source = .ok ts) : ts.Nodup := by
  have hapart := apart_of_ordered (lexedFrom_of_lex hlex) (laidOut_of_lex hlex).ordered
  refine hapart.imp_of_mem fun {t u} ht _ htu ↦ ?_
  rintro rfl
  obtain ⟨a, b, hcovers, hlt⟩ := ((laidOut_of_lex hlex).placed t ht).exists_covers
  have hcross := htu a b a b hcovers hcovers
  omega

/-! ### Hidden tokens -/

namespace Token

/-- A token inside a group of a sequence, or a half of a joined angle of it. -/
inductive HiddenIn (ts : List Token) : Token → Prop
  | inner {d : Delimiter} {span : Option Span} {stream : List Token} {t : Token}
      (hgroup : .group d span stream ∈ ts) (h : t.OriginatesIn stream) : HiddenIn ts t
  | firstHalf {t a b : Token} (hmem : t ∈ ts) (ht : t.isJoined = true)
      (hcut : t.halves? = some (a, b)) : HiddenIn ts a
  | secondHalf {t a b : Token} (hmem : t ∈ ts) (ht : t.isJoined = true)
      (hcut : t.halves? = some (a, b)) : HiddenIn ts b

/-- One token stands where another does, or at a part of that place. -/
def StandsIn (t u : Token) : Prop :=
  ∃ a b a' b', t.Covers a b ∧ u.Covers a' b' ∧ a' ≤ a ∧ a < b ∧ b ≤ b'

/-- A token at any depth stands in one of the sequence. -/
theorem Inside.standsIn {text : List Char} (h : Inside ts t) (hts : ∀ u ∈ ts, u.Placed file text) :
    ∃ u ∈ ts, t.StandsIn u := by
  induction h with
  | @here ts t hmem =>
    obtain ⟨a, b, hcovers, hlt⟩ := (hts t hmem).exists_covers
    exact ⟨t, hmem, a, b, a, b, hcovers, hcovers, Nat.le_refl a, hlt, Nat.le_refl b⟩
  | @within ts stream d span t hgroup _ ih =>
    cases hts _ hgroup with
    | group _ hstream hencloses =>
      obtain ⟨u, hu, a, b, a', b', hat, hau, hle, hlt, hle'⟩ := ih hstream
      obtain ⟨c, e, hspan, hfirst, hlast⟩ := hencloses u hu
      obtain ⟨rfl, rfl⟩ := hau.unique ⟨_, hspan, rfl, rfl⟩
      exact ⟨_, hgroup, a, b, _, _, hat, ⟨_, rfl, rfl, rfl⟩, by omega, hlt, by omega⟩

/-- The halves of a joined angle of a text divide its place. -/
theorem LexedFrom.halves_cover {text : List Char} {x y : Token} (h : t.LexedFrom file text)
    (ht : t.isJoined = true) (hcut : t.halves? = some (x, y)) :
    ∃ n, t.Covers n (n + 2) ∧ x.Covers n (n + 1) ∧ y.Covers (n + 1) (n + 2) := by
  obtain ⟨before, c, -, -, heq, hhalves⟩ := exists_halves_of_lexedFrom h ht
  obtain ⟨rfl, rfl⟩ := Prod.mk.inj (Option.some.inj (hcut.symm.trans hhalves))
  have hsecond := covers_punctAt file (before ++ [c]) [c]
  refine ⟨before.length, ?_, ?_, ?_⟩
  · simpa [heq] using covers_punctAt file before [c, c]
  · simpa using covers_punctAt file before [c]
  · simpa using hsecond

/-- What originates in some tokens stands within one of them. -/
theorem OriginatesIn.standsIn {text : List Char} (h : t.OriginatesIn ts)
    (hlexed : ∀ u ∈ ts, u.LexedFrom file text) (hplaced : ∀ u ∈ ts, u.Placed file text) :
    ∃ u ∈ ts, t.StandsIn u := by
  have hhalf : ∀ {v : Token} {n a b : Nat}, Inside ts v → v.Covers n (n + 2) → t.Covers a b →
      n ≤ a → a < b → b ≤ n + 2 → ∃ u ∈ ts, t.StandsIn u := by
    intro v n a b hv hcovers ht hle hlt hle'
    obtain ⟨u, hu, c, e, a', b', hcv, hcu, hle₁, hlt₁, hle₂⟩ := hv.standsIn hplaced
    obtain ⟨rfl, rfl⟩ := hcv.unique hcovers
    exact ⟨u, hu, a, b, a', b', ht, hcu, by omega, hlt, by omega⟩
  cases h with
  | token h => exact h.standsIn hplaced
  | firstHalf h hjoined hcut =>
    obtain ⟨n, hcovers, ha, -⟩ := (h.lexedFrom hlexed).halves_cover hjoined hcut
    exact hhalf h hcovers ha (by omega) (by omega) (by omega)
  | secondHalf h hjoined hcut =>
    obtain ⟨n, hcovers, -, hb⟩ := (h.lexedFrom hlexed).halves_cover hjoined hcut
    exact hhalf h hcovers hb (by omega) (by omega) (by omega)

end Token

/-- What is hidden among the tokens of a text is none of them. -/
theorem not_hidden_of_mem (hlex : lex file source = .ok ts) (ht : t ∈ ts) : ¬ t.HiddenIn ts := by
  have hlexed := lexedFrom_of_lex hlex
  have hplaced := (laidOut_of_lex hlex).placed
  intro h
  cases h with
  | @inner d span stream _ hgroup h =>
    have hinner : ∀ u ∈ stream, u.LexedFrom file source.toList := fun u hu ↦
      Inside.lexedFrom (.within hgroup (.here hu)) hlexed
    cases hplaced _ hgroup with
    | @group _ _ first last _ hstream hencloses =>
      obtain ⟨u, hu, a, b, c, e, hat, hcu, hle, hlt, hle'⟩ := h.standsIn hinner hstream
      obtain ⟨c', e', hspan, hfirst, hlast⟩ := hencloses u hu
      obtain ⟨rfl, rfl⟩ := hcu.unique ⟨_, hspan, rfl, rfl⟩
      have hcovers : (Token.group d (some (spanAt file source.toList first last)) stream).Covers
          first last := ⟨_, rfl, rfl, rfl⟩
      obtain rfl := eq_of_overlap hlex ht hgroup hat hcovers (by omega) (by omega)
      obtain ⟨rfl, -⟩ := hat.unique hcovers
      omega
  | @firstHalf u _ _ hmem hjoined hcut =>
    obtain ⟨n, hu, ha, -⟩ := (hlexed u hmem).halves_cover hjoined hcut
    obtain rfl := eq_of_overlap hlex ht hmem ha hu (by omega) (by omega)
    rw [(halves?_of_half hcut).1] at hcut
    cases hcut
  | @secondHalf u _ _ hmem hjoined hcut =>
    obtain ⟨n, hu, -, hb⟩ := (hlexed u hmem).halves_cover hjoined hcut
    obtain rfl := eq_of_overlap hlex ht hmem hb hu (by omega) (by omega)
    rw [(halves?_of_half hcut).2] at hcut
    cases hcut

/-! ### What stands ahead -/

/-- A rest stands in a sequence, behind tokens that are taken apart to another one. Where it begins
within a joined angle, the second half of that is its first token. -/
inductive Passes (ts : List Token) : List Token → List Token → Prop
  | whole {front u rest : List Token} (h : ts = front ++ rest) (hfront : unfuse front = u) :
      Passes ts u rest
  | cut {front u us : List Token} {t a b : Token} (h : ts = front ++ t :: us)
      (ht : t.isJoined = true) (hcut : t.halves? = some (a, b))
      (hfront : unfuse front ++ [a] = u) : Passes ts u (b :: us)

section

variable {us p q first rest : List Token}

/-- A token may be put in front of what is passed. -/
theorem Passes.cons (h : Passes ts us rest) (t : Token) :
    Passes (t :: ts) (t.unfused ++ us) rest := by
  cases h with
  | @whole front _ _ h hfront =>
    exact .whole (congrArg (t :: ·) h) (by rw [unfuse_cons, hfront])
  | @cut front _ us u _ _ h ht hcut hfront =>
    have hcons : t :: ts = (t :: front) ++ u :: us := congrArg (t :: ·) h
    refine .cut hcons ht hcut ?_
    rw [unfuse_cons, List.append_assoc, hfront]

/-- What is left stands behind what is taken. -/
theorem Takes.passes (h : Takes ts first rest) : Passes ts (unfuse first) rest := by
  induction h with
  | nil => exact .whole (List.nil_append _).symm rfl
  | keep _ ih => exact ih.cons _
  | @cut t a b ts first rest ht hcut _ ih =>
    obtain ⟨hunfused, ha, hb⟩ := unfused_of_isJoined ht hcut
    have hcons := ih.cons t
    rw [hunfused] at hcons
    simpa [ha, hb] using hcons
  | @half t a b ts ht hcut =>
    have hjoined : t.isJoined = true := isJoined_iff.mpr (.inl ht)
    refine .cut (List.nil_append _).symm hjoined hcut ?_
    simp [(unfused_of_isJoined hjoined hcut).2.1]

/-- A part of the rest stands in the sequence as well, unless it begins with half a token. -/
theorem Passes.split (h : Passes ts us (p ++ q)) :
    (∃ front, ts = front ++ q ∧ unfuse front = us ++ unfuse p) ∨
      ∃ b, q.head? = some b ∧ b.HiddenIn ts ∧ b.spells ">>" = false := by
  generalize hrest : p ++ q = rest at h
  cases h with
  | @whole front _ _ h hfront =>
    subst hrest
    exact .inl ⟨front ++ p, by rw [h, List.append_assoc], by rw [unfuse_append, hfront]⟩
  | @cut front _ us t a b h ht hcut hfront =>
    cases p with
    | nil =>
      have hmem : t ∈ ts := h ▸ by simp
      refine .inr ⟨b, by rw [← List.nil_append q, hrest]; rfl, .secondHalf hmem ht hcut, ?_⟩
      rcases isJoined_iff.mp ht with ht | ht
      · rw [spells_eq (spells_halves ht rfl hcut).2]
        decide
      · rw [spells_eq (spells_halves ht rfl hcut).2]
        decide
    | cons x p =>
      obtain ⟨rfl, rfl⟩ := List.cons.inj hrest
      obtain ⟨hunfused, -, hb⟩ := unfused_of_isJoined ht hcut
      refine .inl ⟨front ++ t :: p, by rw [h]; simp, ?_⟩
      rw [← hfront]
      simp [hunfused, hb]

/-- What is hidden in the rest is hidden in the sequence. -/
theorem Passes.hidden (h : Passes ts us rest) (ht : t.HiddenIn rest) : t.HiddenIn ts := by
  have hmem : ∀ u ∈ rest, u.delimiter? ≠ none ∨ u.halves? ≠ none → u ∈ ts := by
    intro u hu hkind
    cases h with
    | whole h => exact h ▸ List.mem_append_right _ hu
    | @cut _ _ us _ _ b h _ hcut =>
      rcases List.mem_cons.mp hu with rfl | hu
      · obtain ⟨text, span, c, e, -, -, -, rfl⟩ := halves?_eq_some_iff.mp hcut
        rcases hkind with hkind | hkind
        · exact absurd rfl hkind
        · exact absurd (halves?_of_half hcut).2 hkind
      · exact h ▸ List.mem_append_right _ (List.mem_cons_of_mem _ hu)
  cases ht with
  | inner hgroup h => exact .inner (hmem _ hgroup (.inl nofun)) h
  | firstHalf hu hjoined hcut => exact .firstHalf (hmem _ hu (.inr (by simp [hcut]))) hjoined hcut
  | secondHalf hu hjoined hcut => exact .secondHalf (hmem _ hu (.inr (by simp [hcut]))) hjoined hcut

end

end Expander
