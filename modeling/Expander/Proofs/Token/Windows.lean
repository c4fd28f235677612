import Expander.Proofs.Token.Erasure
import Expander.Token.Window

/-!
# What windows show

A window whose cursor is in the storage (`Window.InRange`) shows the stored tokens from its start up
to its stop (`Window.shown`), and reading it cannot fail. Whatever is asked of it is then answered
as that list would answer: how many tokens there are, which they are, which is at an index, whether
they fit patterns, and whether another window shows the same. A test against patterns does not even
need the tokens behind them to be there (`InRange.startsWith_cutBehind`).

Indices and slices of lists are said here without clamped bounds. An index from the end counts in
the reversed list (`itemAt?`), and a slice holds the items whose places are between its bounds
(`itemsBetween`).
-/

set_option autoImplicit false

namespace Expander

variable {ts us : List Token} {ps : List Pattern}

/-! ### Lists -/

/-- The item at an index of a list, where a negative one counts from the end. -/
def itemAt? (ts : List Token) : Int → Option Token
  | .ofNat n => ts[n]?
  | .negSucc n => ts.reverse[n]?

/-- The place in a list that a bound stands for, which need not be in the list. -/
def boundPlace (ts : List Token) (bound : Int) : Int :=
  if bound < 0 then bound + ts.length else bound

/-- The items of a list whose places are not before one bound and before another. -/
def itemsBetween (ts : List Token) (start stop : Option Int) : List Token :=
  let first := boundPlace ts (start.getD 0)
  let last := boundPlace ts (stop.getD ts.length)
  (ts.zipIdx.filter fun item ↦ first ≤ item.2 ∧ item.2 < last).map Prod.fst

/-- Items that are picked by their places between two bounds are those of a slice. -/
theorem map_filter_zipIdx (ts : List Token) (first last : Int) (k : Nat) :
    ((ts.zipIdx k).filter fun item ↦ first ≤ item.2 ∧ item.2 < last).map Prod.fst =
      (ts.take (last - k).toNat).drop (first - k).toNat := by
  induction ts generalizing k with
  | nil => simp
  | cons t ts ih =>
    rw [List.zipIdx_cons, List.filter_cons]
    -- The first item is behind the bounds, between them or before them.
    by_cases hlast : (k : Int) < last
    · have htake : (last - k).toNat = (last - (k + 1 : Nat)).toNat + 1 := by omega
      rw [htake, List.take_succ_cons]
      by_cases hfirst : first ≤ (k : Int)
      · have hdrop : (first - k).toNat = 0 := by omega
        have hdrop' : (first - (k + 1 : Nat)).toNat = 0 := by omega
        have hrest := ih (k + 1)
        rw [hdrop', List.drop_zero] at hrest
        rw [if_pos (by simp [hfirst, hlast]), List.map_cons, hrest, hdrop, List.drop_zero]
      · have hdrop : (first - k).toNat = (first - (k + 1 : Nat)).toNat + 1 := by omega
        rw [if_neg (by simp [hfirst]), ih, hdrop, List.drop_succ_cons]
    · have htake : (last - k).toNat = 0 := by omega
      have htake' : (last - (k + 1 : Nat)).toNat = 0 := by omega
      rw [if_neg (by simp [hlast]), ih, htake, htake', List.take_zero, List.take_zero,
        List.drop_nil, List.drop_nil]

/-- A bound is clamped to the places of the list and its end. -/
theorem toNat_clampBound (ts : List Token) (bound : Int) :
    (Window.clampBound ts.length bound).toNat = min (boundPlace ts bound).toNat ts.length := by
  rw [Window.clampBound, boundPlace]
  split <;> omega

/-- A slice with bounds that may count from the end is one with bounds that are clamped to the
list. -/
theorem itemsBetween_eq (ts : List Token) (start stop : Option Int) :
    itemsBetween ts start stop =
      (ts.take (Window.clampBound ts.length (stop.getD ts.length)).toNat).drop
        (Window.clampBound ts.length (start.getD 0)).toNat := by
  rw [itemsBetween, map_filter_zipIdx, toNat_clampBound, toNat_clampBound, Int.natCast_zero,
    Int.sub_zero, Int.sub_zero, ← List.take_eq_take_min, List.drop_eq_drop_iff, List.length_take]
  omega

/-- Patterns stand at the front if they hold of as many tokens, one by one. -/
theorem startsWith_iff_forall₂ :
    startsWith ts ps = true ↔ List.Forall₂ (fun p t ↦ p.holds t = true) ps (ts.take ps.length) := by
  induction ps generalizing ts with
  | nil => simp
  | cons p ps ih =>
    cases ts with
    | nil => simp
    | cons t ts => simp [ih]

/-- They are all there is if they hold of all tokens, one by one. -/
theorem isExactly_iff_forall₂ :
    isExactly ts ps = true ↔ List.Forall₂ (fun p t ↦ p.holds t = true) ps ts := by
  rw [isExactly, Bool.and_eq_true, decide_eq_true_iff, startsWith_iff_forall₂]
  constructor
  · rintro ⟨hlength, hstarts⟩
    rwa [List.take_of_length_le (Nat.le_of_eq hlength)] at hstarts
  · intro hexact
    have hlength := hexact.length_eq
    rw [List.take_of_length_le (Nat.le_of_eq hlength.symm)]
    exact ⟨hlength.symm, hexact⟩

/-- A list of results is a result if each of them is. -/
theorem mapM_eq_ok {α β : Type} {f : α → Except Failure β} {xs : List α} {ys : List β}
    (h : List.Forall₂ (fun x y ↦ f x = .ok y) xs ys) : xs.mapM f = .ok ys := by
  induction h with
  | nil => rfl
  | cons hx _ ih =>
    rw [List.mapM_cons, hx, ih]
    rfl

theorem ite_ok_eq_and (b c : Bool) :
    (if b = true then (Except.ok c : Except Failure Bool) else return false) = .ok (b && c) := by
  cases b <;> rfl

namespace Window

variable {w v : Window}

/-! ### Reading a window in range -/

/-- The cursor of a window is in the storage. -/
structure InRange (w : Window) : Prop where
  start_nonneg : 0 ≤ w.start
  start_le_stop : w.start ≤ w.stop
  stop_le : w.stop ≤ w.stored.length

/-- The stored tokens from the start up to the stop. -/
def shown (w : Window) : List Token := (w.stored.take w.stop.toNat).drop w.start.toNat

/-- A window in range has the length of the list that it shows. -/
theorem InRange.length_eq (h : w.InRange) : w.length = w.shown.length := by
  obtain ⟨hstart, hle, hstop⟩ := h
  rw [length, shown, List.length_drop, List.length_take]
  omega

theorem InRange.isEmpty_eq (h : w.InRange) : w.isEmpty = w.shown.isEmpty := by
  have hlength := h.length_eq
  rw [length] at hlength
  rw [isEmpty, Bool.eq_iff_iff, decide_eq_true_iff, List.isEmpty_iff_length_eq_zero]
  omega

theorem stored?_of_nonneg {place : Int} (h : 0 ≤ place) :
    w.stored? place = w.stored[place.toNat]?.elim (.error (.outOfRange .storage)) .ok := by
  simp only [stored?, if_neg (Int.not_lt.mpr h)]
  cases w.stored[place.toNat]? <;> rfl

/-- Where the list has an item, the storage behind the window has it, at the start of the window and
as far on. -/
theorem InRange.stored?_eq (h : w.InRange) {i : Nat} {t : Token} (ht : w.shown[i]? = some t) :
    w.stored? (w.start + i) = .ok t := by
  have hstart := h.start_nonneg
  have hindex : (w.start + i).toNat = w.start.toNat + i := by omega
  rw [shown, List.getElem?_drop, List.getElem?_take, Option.ite_none_right_eq_some] at ht
  rw [stored?_of_nonneg (by omega), hindex, ht.2]
  rfl

/-- All places of a window in range can be read, and give the items of the list. -/
theorem InRange.reads (h : w.InRange) :
    List.Forall₂ (fun place t ↦ w.stored? place = .ok t) w.places w.shown := by
  have hlength := h.length_eq
  rw [places, List.forall₂_map_left_iff, List.forall₂_iff_get]
  refine ⟨by rw [List.length_range]; omega, fun i hi hi' ↦ ?_⟩
  apply h.stored?_eq
  simp

/-- So the window as a list is the list that it shows. -/
theorem InRange.toList_eq (h : w.InRange) : w.toList = .ok w.shown :=
  mapM_eq_ok h.reads

/-- An index from the front is read if it is within the length. -/
theorem get_of_nonneg {index : Int} (h : 0 ≤ index) : w.get index =
    if index < w.length then w.stored? (w.start + index) else .error (.outOfRange .sequence) := by
  simp only [get, if_neg (Int.not_lt.mpr h), h, true_and]

/-- An index from the end is one from the front. -/
theorem get_of_neg {index : Int} (h : index < 0) (hback : 0 ≤ index + w.length) :
    w.get index = w.get (index + w.length) := by
  simp only [get, if_pos h, if_neg (Int.not_lt.mpr hback)]

/-- One that lies before the front is out of range. -/
theorem get_eq_error {index : Int} (h : index + w.length < 0) (hindex : index < 0) :
    w.get index = .error (.outOfRange .sequence) := by
  simp only [get, if_pos hindex]
  exact if_neg fun hrange ↦ Int.not_le.mpr h hrange.1

/-- From the front, an index gives what it gives in the list. -/
theorem InRange.get_natCast (h : w.InRange) (i : Nat) :
    w.get i = w.shown[i]?.elim (.error (.outOfRange .sequence)) .ok := by
  have hlength := h.length_eq
  rw [get_of_nonneg (by omega)]
  by_cases hi : i < w.shown.length
  · have hitem : w.shown[i]? = some w.shown[i] := List.getElem?_eq_getElem hi
    rw [if_pos (by omega), h.stored?_eq hitem, hitem]
    rfl
  · rw [if_neg (by omega), List.getElem?_eq_none (by omega)]
    rfl

/-- And so from the end, with the same error where the list has none. -/
theorem InRange.get_eq (h : w.InRange) (index : Int) :
    w.get index = (itemAt? w.shown index).elim (.error (.outOfRange .sequence)) .ok := by
  cases index with
  | ofNat n => exact h.get_natCast n
  | negSucc n =>
    have hlength := h.length_eq
    rw [itemAt?]
    by_cases hn : n < w.shown.length
    · have hback : Int.negSucc n + w.length = (w.shown.length - 1 - n : Nat) := by omega
      rw [get_of_neg (by omega) (by omega), hback, h.get_natCast, List.getElem?_reverse hn]
    · rw [get_eq_error (by omega) (by omega),
        List.getElem?_eq_none (by rw [List.length_reverse]; omega)]
      rfl

/-! ### Patterns -/

/-- Patterns that fit in the window are compared with the items of the list. -/
theorem InRange.startsWith_go (h : w.InRange) {k : Nat} (hk : k + ps.length ≤ w.shown.length) :
    startsWith.go w k ps = .ok (Expander.startsWith (w.shown.drop k) ps) := by
  induction ps generalizing k with
  | nil => rw [startsWith.go, startsWith_nil]
  | cons p ps ih =>
    rw [List.length_cons] at hk
    have hin : k < w.shown.length := by omega
    have hitem : w.get k = .ok w.shown[k] := by
      rw [h.get_natCast, List.getElem?_eq_getElem hin]
      rfl
    have hrest := ih (k := k + 1) (by omega)
    rw [startsWith.go, hitem, List.drop_eq_getElem_cons hin, startsWith_cons, ← ite_ok_eq_and,
      ← hrest]
    rfl

/-- Whether patterns stand at the front of a window is told of its list. -/
theorem InRange.startsWith_eq (h : w.InRange) (ps : List Pattern) :
    w.startsWith ps = .ok (Expander.startsWith w.shown ps) := by
  have hlength := h.length_eq
  rw [startsWith]
  split
  · next hshort =>
    have hnot : Expander.startsWith w.shown ps = false := by
      rw [Bool.eq_false_iff]
      intro hstarts
      have hlonger := length_le_of_startsWith hstarts
      omega
    rw [hnot]
  · next hlong => exact h.startsWith_go (k := 0) (by omega)

/-- And so whether they are all of it. -/
theorem InRange.isExactly_eq (h : w.InRange) (ps : List Pattern) :
    w.isExactly ps = .ok (Expander.isExactly w.shown ps) := by
  have hlength := h.length_eq
  rw [isExactly, Expander.isExactly, h.startsWith_eq]
  by_cases hps : w.shown.length = ps.length
  · rw [if_pos (by omega), decide_eq_true hps, Bool.true_and]
  · rw [if_neg (by omega), decide_eq_false hps, Bool.false_and]

/-- The window over a storage that ends behind the first tokens of the window. Reading a token
further behind fails here. -/
def cutBehind (w : Window) (count : Nat) : Window :=
  { w with stored := w.stored.take (w.start.toNat + count) }

/-- To cut a window off behind some items does not change those items. -/
theorem InRange.get_cutBehind (h : w.InRange) {i count : Nat} (hi : i < count) :
    (w.cutBehind count).get i = w.get i := by
  have hstart := h.start_nonneg
  have hplace : (w.cutBehind count).stored? (w.start + i) = w.stored? (w.start + i) := by
    rw [stored?_of_nonneg (by omega), stored?_of_nonneg (by omega), cutBehind,
      List.getElem?_take_of_lt (by omega)]
  rw [get_of_nonneg (by omega), get_of_nonneg (by omega)]
  change (if (i : Int) < w.length then (w.cutBehind count).stored? (w.start + i) else _) = _
  rw [hplace]

theorem InRange.startsWith_go_cutBehind (h : w.InRange) {k count : Nat}
    (hk : k + ps.length ≤ count) :
    startsWith.go (w.cutBehind count) k ps = startsWith.go w k ps := by
  induction ps generalizing k with
  | nil => rfl
  | cons p ps ih =>
    rw [List.length_cons] at hk
    have hrest := ih (k := k + 1) (by omega)
    rw [Int.natCast_succ] at hrest
    rw [startsWith.go, startsWith.go, h.get_cutBehind (by omega), hrest]

/-- A test against patterns reads no token past them. -/
theorem InRange.startsWith_cutBehind (h : w.InRange) (ps : List Pattern) :
    (w.cutBehind ps.length).startsWith ps = w.startsWith ps := by
  have hgo := h.startsWith_go_cutBehind (k := 0) (Nat.le_of_eq (Nat.zero_add ps.length))
  rw [Int.natCast_zero] at hgo
  rw [startsWith, startsWith, hgo]
  rfl

/-! ### Comparison -/

/-- Two windows are compared place by place, as their lists are item by item. -/
theorem alike_go {places others : List Int}
    (hw : List.Forall₂ (fun place t ↦ w.stored? place = .ok t) places ts)
    (hv : List.Forall₂ (fun place u ↦ v.stored? place = .ok u) others us)
    (hlength : ts.length = us.length) :
    alike.go w v places others = .ok (Token.sameAll ts us) := by
  -- The lists are equally long, so both readings end together.
  induction hw generalizing others us with
  | nil =>
    cases us with
    | nil => rfl
    | cons => cases hlength
  | @cons place t places ts ht _ ih =>
    cases hv with
    | nil => cases hlength
    | @cons other u others us hu hv =>
      have hrest := ih hv (Nat.succ.inj hlength)
      rw [alike.go, ht, hu, Token.sameAll, ← ite_ok_eq_and, ← hrest]
      rfl

/-- Windows are alike if and only if their lists are. -/
theorem InRange.alike_eq (hw : w.InRange) (hv : v.InRange) :
    w.alike v = .ok (Token.sameAll w.shown v.shown) := by
  have hlength := hw.length_eq
  have hlength' := hv.length_eq
  rw [alike]
  split
  · next heq => exact alike_go hw.reads hv.reads (by omega)
  · next hne =>
    have hnot : Token.sameAll w.shown v.shown = false := by
      rw [Bool.eq_false_iff, Ne, Token.sameAll_iff]
      intro hall
      have heq := hall.length_eq
      omega
    rw [hnot]

end Window

end Expander
